import Mathlib.Algebra.Group.Basic
import Mathlib.Algebra.Order.Ring.Nat
import Mathlib.Logic.Function.Basic

/-!
# Machine words and byte memory

The arithmetic of a 64-bit C++ target on natural numbers: `std::size_t`
addition and subtraction modulo `2 ^ 64`, the narrowing casts to `uint32_t`
and `int`, and the conversion of a signed value back to `std::size_t`.

`Memory` is byte-addressed; a word is stored little-endian in eight
consecutive bytes. The two facts every client needs are
`readWord_writeWord` ("a word reads back as written") and `readWord_congr`
("a word depends on its own eight bytes only").
-/

namespace MemAlloc

/-! ## `std::size_t` arithmetic -/

namespace SizeT

/-- `a + b` on `std::size_t`. -/
def add (a b : Nat) : Nat := (a + b) % 2 ^ 64

/-- `a * b` on `std::size_t`. -/
def mul (a b : Nat) : Nat := a * b % 2 ^ 64

/-- A signed value converted to `std::size_t`. -/
def ofInt (i : Int) : Nat := (i % 2 ^ 64).toNat

/-- `a - b` on `std::size_t`. -/
def sub (a b : Nat) : Nat := ofInt ((a : Int) - b)

/-- `std::numeric_limits<std::size_t>::max()`. -/
def max : Nat := 2 ^ 64 - 1

/-- `static_cast<uint32_t>` of an unsigned value. -/
def uint32 (n : Nat) : Nat := n % 2 ^ 32

/-- `static_cast<uint32_t>` of a signed value. -/
def uint32OfInt (i : Int) : Nat := (i % 2 ^ 32).toNat

/-- `static_cast<int>` of an unsigned value: the low 32 bits in two's
complement. -/
def int32 (n : Nat) : Int :=
  if n % 2 ^ 32 < 2 ^ 31 then (n % 2 ^ 32 : Nat) else ((n % 2 ^ 32 : Nat) : Int) - 2 ^ 32

/-- `static_cast<int64_t>` of an unsigned value. -/
def int64 (n : Nat) : Int :=
  if n % 2 ^ 64 < 2 ^ 63 then (n % 2 ^ 64 : Nat) else ((n % 2 ^ 64 : Nat) : Int) - 2 ^ 64

theorem ofInt_lt (i : Int) : ofInt i < 2 ^ 64 := by
  unfold ofInt; omega

theorem add_lt (a b : Nat) : add a b < 2 ^ 64 := Nat.mod_lt _ (Nat.two_pow_pos 64)

theorem add_of_lt {a b : Nat} (h : a + b < 2 ^ 64) : add a b = a + b :=
  Nat.mod_eq_of_lt h

theorem sub_of_le {a b : Nat} (hba : b ≤ a) (ha : a < 2 ^ 64) : sub a b = a - b := by
  unfold sub ofInt; omega

/-- Subtracting what was added. -/
theorem sub_add {a : Nat} (ha : a < 2 ^ 64) (b : Nat) : sub (add a b) b = a := by
  unfold sub add ofInt
  omega

theorem mul_lt (a b : Nat) : mul a b < 2 ^ 64 := Nat.mod_lt _ (Nat.two_pow_pos 64)

theorem mul_of_lt {a b : Nat} (h : a * b < 2 ^ 64) : mul a b = a * b := Nat.mod_eq_of_lt h

theorem int64_of_lt {n : Nat} (h : n < 2 ^ 63) : int64 n = n := by
  unfold int64; omega

theorem uint32_of_lt {n : Nat} (h : n < 2 ^ 32) : uint32 n = n := Nat.mod_eq_of_lt h

theorem uint32_lt (n : Nat) : uint32 n < 2 ^ 32 := Nat.mod_lt _ (Nat.two_pow_pos 32)

theorem uint32_le (n : Nat) : uint32 n ≤ n := Nat.mod_le _ _

/-- A difference that fits in 32 bits survives the cast of a pointer
difference to `uint32_t`. -/
theorem uint32OfInt_of_lt {i : Int} {n : Nat} (hi : i = n) (h : n < 2 ^ 32) :
    uint32OfInt i = n := by
  subst hi; unfold uint32OfInt; omega

-- unification must not evaluate machine arithmetic
attribute [irreducible] add mul ofInt sub uint32 uint32OfInt int32 int64

end SizeT

/-! ## Byte memory -/

/-- Byte-addressed memory. -/
abbrev Memory := Nat → UInt8

namespace Memory

/-- The `n` bytes at `a`, little-endian. -/
def readBytes (m : Memory) (a : Nat) : Nat → Nat
  | 0 => 0
  | n + 1 => (m a).toNat + 256 * readBytes m (a + 1) n

/-- Stores the low `n` bytes of `v` at `a`, little-endian. -/
def writeBytes (m : Memory) (a v : Nat) : Nat → Memory
  | 0 => m
  | n + 1 => Function.update (writeBytes m (a + 1) (v / 256) n) a (UInt8.ofNat v)

/-- A 64-bit load. -/
def readWord (m : Memory) (a : Nat) : Nat := readBytes m a 8

/-- A 64-bit store. -/
def writeWord (m : Memory) (a v : Nat) : Memory := writeBytes m a v 8

/-- Bytes outside the stored range keep their value. -/
theorem writeBytes_outside {m : Memory} {b : Nat} : ∀ {n a v : Nat},
    (b < a ∨ a + n ≤ b) → writeBytes m a v n b = m b
  | 0, _, _, _ => rfl
  | n + 1, a, v, h => by
      have hne : b ≠ a := by omega
      rw [writeBytes, Function.update_of_ne hne]
      exact writeBytes_outside (by omega)

/-- A load depends on the loaded bytes only. -/
theorem readBytes_congr {m m' : Memory} : ∀ {n a : Nat},
    (∀ b, a ≤ b → b < a + n → m' b = m b) → readBytes m' a n = readBytes m a n
  | 0, _, _ => rfl
  | n + 1, a, h => by
      have hhead : m' a = m a := h a (Nat.le_refl a) (by omega)
      have htail : readBytes m' (a + 1) n = readBytes m (a + 1) n :=
        readBytes_congr fun b hb hb' => h b (by omega) (by omega)
      rw [readBytes, readBytes, hhead, htail]

/-- What is stored reads back, up to the width of the store. -/
theorem readBytes_writeBytes {m : Memory} : ∀ {n a v : Nat},
    readBytes (writeBytes m a v n) a n = v % 256 ^ n
  | 0, _, v => by simp [readBytes, Nat.mod_one]
  | n + 1, a, v => by
      have htail : readBytes (writeBytes m a v (n + 1)) (a + 1) n
          = readBytes (writeBytes m (a + 1) (v / 256) n) (a + 1) n :=
        readBytes_congr fun b hb _ => by
          rw [writeBytes, Function.update_of_ne (by omega)]
      have hhead : (writeBytes m a v (n + 1) a).toNat = v % 256 := by
        rw [writeBytes, Function.update_self, UInt8.toNat_ofNat']
      rw [readBytes, hhead, htail, readBytes_writeBytes, pow_succ' 256 n, Nat.mod_mul]

theorem readWord_writeWord {m : Memory} {a v : Nat} (hv : v < 2 ^ 64) :
    readWord (writeWord m a v) a = v := by
  rw [readWord, writeWord, readBytes_writeBytes]
  exact Nat.mod_eq_of_lt hv

theorem readWord_congr {m m' : Memory} {a : Nat}
    (h : ∀ b, a ≤ b → b < a + 8 → m' b = m b) : readWord m' a = readWord m a :=
  readBytes_congr h

theorem writeWord_outside {m : Memory} {a b v : Nat} (h : b < a ∨ a + 8 ≤ b) :
    writeWord m a v b = m b :=
  writeBytes_outside h

/-- A word apart from the stored one keeps its value. -/
theorem readWord_writeWord_of_apart {m : Memory} {a b v : Nat}
    (h : a + 8 ≤ b ∨ b + 8 ≤ a) : readWord (writeWord m a v) b = readWord m b :=
  readWord_congr fun _ _ _ => writeBytes_outside (by omega)

attribute [irreducible] readWord writeWord

end Memory

/-! ## Address spaces -/

/-- The addresses a process can read and write; any other access ends it. -/
abbrev AddressSpace := Nat → Bool

namespace AddressSpace

/-- The eight bytes at `a` can be accessed. -/
def hasWord (m : AddressSpace) (a : Nat) : Bool := (List.range 8).all fun i => m (a + i)

/-- With the `n` bytes at `arena`, once `malloc` has returned them. -/
def withArena (m : AddressSpace) (arena n : Nat) : AddressSpace := fun a =>
  m a || decide (arena ≤ a ∧ a < arena + n)

theorem hasWord_of_range {m : AddressSpace} {a : Nat}
    (h : ∀ b, a ≤ b → b < a + 8 → m b = true) : m.hasWord a = true := by
  rw [hasWord, List.all_eq_true]
  intro i hi
  have := List.mem_range.mp hi
  exact h (a + i) (Nat.le_add_right a i) (by omega)

theorem withArena_inside {m : AddressSpace} {arena n a : Nat} (hlo : arena ≤ a)
    (hhi : a < arena + n) : m.withArena arena n a = true := by
  rw [withArena, decide_eq_true ⟨hlo, hhi⟩, Bool.or_true]

end AddressSpace

end MemAlloc
