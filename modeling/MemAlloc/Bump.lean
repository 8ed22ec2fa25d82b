import MemAlloc.Interface

/-!
# `LinearAllocator` and `StackAllocator`

Both hand out the arena from its start on, moving `m_offset`; they share
their data members, `Init` and `Allocate`, word for word. They differ in
`Free` and `Reset`: the linear allocator refuses every `Free` and gives up
its arena on `Reset`, the stack moves the offset back.

`allocate_cases_of_pos`, for powers of two `allocate_cases`, is all later
proofs know about `Allocate`.
-/

namespace MemAlloc

/-- The data members the two classes share. -/
structure BumpAllocator extends AllocatorInterface where
  startPtr : Nat := nullptr
  offset : Nat := 0
deriving DecidableEq

namespace BumpAllocator

variable (s : BumpAllocator)

def construct (totalSize : Nat) : BumpAllocator := { totalSize }

/-- `Init()`; `arena` is what `malloc(m_totalSize)` returns. The counter is
not reset. -/
def init (arena : Nat) : BumpAllocator := { s with startPtr := arena, offset := 0 }

/-- `padding` in `Allocate`. -/
def padding (size alignment : Nat) : Nat := SizeT.sub alignment (size % alignment)

/-- `Allocate`; `none` is the early `return nullptr`. -/
def allocate (size alignment : Nat) : Option Nat × BumpAllocator :=
  let requiredSize := SizeT.add (SizeT.add s.offset (padding size alignment)) size
  if requiredSize > s.totalSize then
    (none, s)
  else
    let dataAddress := s.startPtr + s.offset
    let s := { s with offset := SizeT.add s.offset (SizeT.add (padding size alignment) size) }
    (some dataAddress, { s with used := s.offset })

end BumpAllocator

abbrev LinearAllocator := BumpAllocator

namespace LinearAllocator

variable (s : LinearAllocator)

def init (arena : Nat) : LinearAllocator := BumpAllocator.init s arena

def allocate (size alignment : Nat) : Option Nat × LinearAllocator :=
  BumpAllocator.allocate s size alignment

def free (_ptr : Nat) : Bool × LinearAllocator := (false, s)

def reset : LinearAllocator := { s with startPtr := nullptr, offset := 0, used := 0 }

end LinearAllocator

abbrev StackAllocator := BumpAllocator

namespace StackAllocator

variable (s : StackAllocator)

def init (arena : Nat) : StackAllocator := BumpAllocator.init s arena

def allocate (size alignment : Nat) : Option Nat × StackAllocator :=
  BumpAllocator.allocate s size alignment

/-- Moves the offset back to the pointer. -/
def free (ptr : Nat) : Bool × StackAllocator :=
  let offset := SizeT.ofInt ((ptr : Int) - s.startPtr)
  (true, { s with offset, used := offset })

def reset : StackAllocator := { s with offset := 0, used := 0 }

end StackAllocator

namespace BumpAllocator

/-- What a request takes from the arena, `padding + size`, as a number. -/
def consumed (size alignment : Nat) : Nat := alignment - size % alignment + size

variable {s : BumpAllocator} {size alignment : Nat}

theorem consumed_pos (size : Nat) (hpos : 0 < alignment) : 0 < consumed size alignment := by
  have hmod := Nat.mod_lt size hpos
  unfold consumed
  omega

/-- A request below `2 ^ 32` never takes `2 ^ 64` bytes, whatever the
alignment. -/
theorem consumed_lt (hsize : size < 2 ^ 32) (hpos : 0 < alignment) (hlt : alignment < 2 ^ 64) :
    consumed size alignment < 2 ^ 64 := by
  have hmod := Nat.mod_lt size hpos
  unfold consumed
  rcases Nat.lt_or_ge size alignment with hsmall | hlarge
  · rw [Nat.mod_eq_of_lt hsmall]
    omega
  · omega

/-- `Allocate` accepts when the new offset, modulo `2 ^ 64`, is at most the
size of the arena, and then moves there; any alignment but 0 will do. -/
theorem allocate_cases_of_pos (s : BumpAllocator) (size : Nat) (hpos : 0 < alignment)
    (hlt : alignment < 2 ^ 64) :
    (s.totalSize < (s.offset + consumed size alignment) % 2 ^ 64 ∧
        s.allocate size alignment = (none, s)) ∨
      ((s.offset + consumed size alignment) % 2 ^ 64 ≤ s.totalSize ∧
        s.allocate size alignment = (some (s.startPtr + s.offset), { s with
          offset := (s.offset + consumed size alignment) % 2 ^ 64
          used := (s.offset + consumed size alignment) % 2 ^ 64 })) := by
  have hmod := Nat.mod_lt size hpos
  have hpad : padding size alignment = alignment - size % alignment :=
    SizeT.sub_of_le (Nat.le_of_lt hmod) hlt
  have hreq : SizeT.add (SizeT.add s.offset (padding size alignment)) size
      = (s.offset + consumed size alignment) % 2 ^ 64 := by
    rw [hpad, consumed, SizeT.add, SizeT.add, Nat.mod_add_mod, Nat.add_assoc]
  have hoff : SizeT.add s.offset (SizeT.add (padding size alignment) size)
      = (s.offset + consumed size alignment) % 2 ^ 64 := by
    rw [hpad, consumed, SizeT.add, SizeT.add, Nat.add_mod_mod]
  unfold allocate
  simp only [hreq, hoff]
  by_cases hlt : s.totalSize < (s.offset + consumed size alignment) % 2 ^ 64
  · exact Or.inl ⟨hlt, if_pos hlt⟩
  · exact Or.inr ⟨Nat.le_of_not_lt hlt, if_neg hlt⟩

theorem allocate_cases (s : BumpAllocator) (size : Nat) (hal : ∃ k ≤ 63, alignment = 2 ^ k) :
    (s.totalSize < (s.offset + consumed size alignment) % 2 ^ 64 ∧
        s.allocate size alignment = (none, s)) ∨
      ((s.offset + consumed size alignment) % 2 ^ 64 ≤ s.totalSize ∧
        s.allocate size alignment = (some (s.startPtr + s.offset), { s with
          offset := (s.offset + consumed size alignment) % 2 ^ 64
          used := (s.offset + consumed size alignment) % 2 ^ 64 })) := by
  obtain ⟨k, hk, rfl⟩ := hal
  exact allocate_cases_of_pos s size (Nat.two_pow_pos k)
    (Nat.pow_lt_pow_right (by decide) (by omega))

/-- A refused request changes nothing. -/
theorem allocate_refused (h : (s.allocate size alignment).1 = none) :
    (s.allocate size alignment).2 = s := by
  unfold allocate at h ⊢
  dsimp only at h ⊢
  split at h
  · rename_i hbig
    rw [if_pos hbig]
  · cases h

/-- A granted one returns the address of the offset. -/
theorem ptr_of_allocate {ptr : Nat} (h : (s.allocate size alignment).1 = some ptr) :
    ptr = s.startPtr + s.offset := by
  unfold allocate at h
  dsimp only at h
  split at h
  · cases h
  · exact (Option.some.inj h).symm

/-- `Free` of a pointer at an offset goes back there. -/
theorem free_offset {o : Nat} (ho : o < 2 ^ 64) :
    StackAllocator.free s (s.startPtr + o) = (true, { s with offset := o, used := o }) := by
  have hof : SizeT.ofInt (((s.startPtr + o : Nat) : Int) - s.startPtr) = o := by
    unfold SizeT.ofInt
    omega
  simp only [StackAllocator.free, hof]

end BumpAllocator

end MemAlloc
