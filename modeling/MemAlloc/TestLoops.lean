import Mathlib.Data.List.Perm.Basic
import MemAlloc.Interface

/-!
# The loops of the tests

The `RunTest` functions allocate blocks of random sizes and free them all,
mostly in random order. Their loops are the same for every allocator;
`Tested` is what they ask of one. `rand` is the stream of the values that
the calls of `rand()` return.

`run_rule` is the rule for the two loops together: an invariant of the
first, and one of the second that does not depend on the order of the
pointers.
-/

namespace MemAlloc

def sMaxChunkSize : Nat := 5120

/-- An allocator under test. -/
structure Tested (σ : Type) where
  allocate : σ → Nat → Except Stuck (Nat × σ)
  free : σ → Nat → Except Stuck σ

/-- `rand() % sMaxChunkSize + 1`, for the `rand()` call of the given number. -/
def randomSize (rand : Nat → Nat) (k : Nat) : Nat := rand k % sMaxChunkSize + 1

theorem randomSize_pos (rand : Nat → Nat) (k : Nat) : 0 < randomSize rand k := Nat.succ_pos _

theorem randomSize_le (rand : Nat → Nat) (k : Nat) : randomSize rand k ≤ sMaxChunkSize :=
  Nat.mod_lt _ (by decide)

namespace Tested

variable {σ : Type} (A : Tested σ) (rand : Nat → Nat)

/-- The first loop, for the remaining rounds: the numbers of the `rand()`
calls go on from the second argument. -/
def allocateLoop : Nat → Nat → List Nat → σ → Except Stuck (List Nat × σ)
  | 0, _, memPointers, s => .ok (memPointers, s)
  | n + 1, k, memPointers, s => do
      let (p, s) ← A.allocate s (randomSize rand k)
      allocateLoop n (k + 1) (memPointers ++ [p]) s

/-- The second loop, for the values of `i` below the first argument. The
last pointer of the vector is never chosen unless it is the only one. -/
def freeLoop : Nat → Nat → List Nat → σ → Except Stuck σ
  | 0, _, _, s => .ok s
  | i + 1, k, memPointers, s => do
      let idx := if i ≠ 0 then rand k % i else 0
      match memPointers[idx]? with
      | some p => do
          let s ← A.free s p
          freeLoop i (if i ≠ 0 then k + 1 else k) (memPointers.eraseIdx idx) s
      | none => .error .outOfBounds

/-- Both loops, for `n` blocks. -/
def run (n : Nat) (s : σ) : Except Stuck σ := do
  let (memPointers, s) ← allocateLoop A rand n 0 [] s
  freeLoop A rand n n memPointers s

variable {n : Nat} (I J : List Nat → σ → Prop)

/-- Each round adds a pointer. -/
theorem allocateLoop_rule
    (hstep : ∀ ptrs s, ptrs.length < n → I ptrs s →
      ∃ p s', A.allocate s (randomSize rand ptrs.length) = .ok (p, s') ∧ I (ptrs ++ [p]) s') :
    ∀ {m : Nat} {ptrs : List Nat} {s : σ}, ptrs.length + m = n → I ptrs s →
      ∃ ptrs' s', allocateLoop A rand m ptrs.length ptrs s = .ok (ptrs', s') ∧ I ptrs' s' ∧
        ptrs'.length = n
  | 0, ptrs, s, hm, h => ⟨ptrs, s, rfl, h, hm⟩
  | m + 1, ptrs, s, hm, h => by
      obtain ⟨p, s', hrun, h'⟩ := hstep ptrs s (by omega) h
      have hlen : (ptrs ++ [p]).length = ptrs.length + 1 := by simp
      obtain ⟨ptrs', s'', hrest, h''⟩ := allocateLoop_rule hstep (m := m) (by omega) h'
      rw [hlen] at hrest
      exact ⟨ptrs', s'', by rw [allocateLoop, hrun, ok_bind]; exact hrest, h''⟩

/-- The index stays inside the vector, whatever `rand()` returns. -/
theorem freeLoop_rule
    (hperm : ∀ l l' s, List.Perm l l' → J l s → J l' s)
    (hstep : ∀ p ptrs s, J (p :: ptrs) s → ∃ s', A.free s p = .ok s' ∧ J ptrs s') :
    ∀ {n k : Nat} {ptrs : List Nat} {s : σ}, ptrs.length = n → J ptrs s →
      ∃ s', freeLoop A rand n k ptrs s = .ok s' ∧ J [] s'
  | 0, k, ptrs, s, hlen, h => by
      obtain rfl := List.eq_nil_of_length_eq_zero hlen
      exact ⟨s, rfl, h⟩
  | i + 1, k, ptrs, s, hlen, h => by
      have hidx : (if i ≠ 0 then rand k % i else 0) < ptrs.length := by
        split
        · have := Nat.mod_lt (rand k) (show 0 < i by omega)
          omega
        · omega
      have hsplit := List.getElem_cons_eraseIdx_perm hidx
      obtain ⟨s', hrun, h'⟩ := hstep _ _ s (hperm _ _ s hsplit.symm h)
      have hlen' : (ptrs.eraseIdx (if i ≠ 0 then rand k % i else 0)).length = i := by
        rw [List.length_eraseIdx_of_lt hidx, hlen]
        rfl
      obtain ⟨s'', hrest, h''⟩ := freeLoop_rule hperm hstep (k := if i ≠ 0 then k + 1 else k)
        hlen' h'
      refine ⟨s'', ?_, h''⟩
      rw [freeLoop]
      simp only [List.getElem?_eq_getElem hidx, hrun, ok_bind, hrest]

/-- **The rule for a test.** -/
theorem run_rule {s : σ}
    (hallocate : ∀ ptrs s, ptrs.length < n → I ptrs s →
      ∃ p s', A.allocate s (randomSize rand ptrs.length) = .ok (p, s') ∧ I (ptrs ++ [p]) s')
    (hturn : ∀ ptrs s, ptrs.length = n → I ptrs s → J ptrs s)
    (hperm : ∀ l l' s, List.Perm l l' → J l s → J l' s)
    (hfree : ∀ p ptrs s, J (p :: ptrs) s → ∃ s', A.free s p = .ok s' ∧ J ptrs s')
    (hstart : I [] s) : ∃ s', run A rand n s = .ok s' ∧ J [] s' := by
  obtain ⟨ptrs, s₁, hfirst, h₁, hlen⟩ :=
    allocateLoop_rule A rand I hallocate (m := n) (by rw [List.length_nil, Nat.zero_add]) hstart
  obtain ⟨s₂, hsecond, h₂⟩ : ∃ s₂, freeLoop A rand n n ptrs s₁ = .ok s₂ ∧ J [] s₂ :=
    freeLoop_rule A rand J hperm hfree hlen (hturn ptrs s₁ hlen h₁)
  rw [List.length_nil] at hfirst
  exact ⟨s₂, by rw [run, hfirst, ok_bind]; exact hsecond, h₂⟩

end Tested

end MemAlloc
