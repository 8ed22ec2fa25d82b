import Mathlib.Algebra.Order.BigOperators.Group.List
import MemAlloc.FreeListOps

/-!
# The search is exact best fit

`FindFreeMemBlockIndex` compares a candidate's difference, taken from the
size narrowed to `int`, with the difference it stored, taken from the size
itself. For a block of 2 GiB or more the two are not the same number. But
sizes that add up to less than `2 ^ 32` leave room for one such block only,
and then the comparison decides as the sizes do (`narrowed_lt_iff`).

The loop runs from the last entry down and replaces its candidate only by a
strictly smaller one, so among equal entries the highest index wins.
-/

namespace MemAlloc

namespace FreeListAllocator

variable {s : FreeListAllocator} {blocks : List MemBlock} {size i k : Nat} {b : MemBlock}

/-- Entry `k` is the best fit of the entries from `i` on: of those that are
large enough it is a smallest one, and the last among these. -/
structure BestFrom (blocks : List MemBlock) (size i k : Nat) (b : MemBlock) : Prop where
  entry : blocks[k]? = some b
  visited : i ≤ k
  fits : size ≤ b.blockSize
  least : ∀ j c, i ≤ j → blocks[j]? = some c → size ≤ c.blockSize → b.blockSize ≤ c.blockSize
  last : ∀ j c, i ≤ j → blocks[j]? = some c → c.blockSize = b.blockSize → j ≤ k

/-- The best fit of all entries. -/
abbrev BestFit (blocks : List MemBlock) (size k : Nat) (b : MemBlock) : Prop :=
  BestFrom blocks size 0 k b

/-! ## The comparison -/

/-- Two sizes that fit in 32 bits together: at most one is narrowed to a
negative number, and then it is the larger one. -/
theorem narrowed_lt_iff {best candidate : Nat} (hpos : 0 < size) (hbest : size ≤ best)
    (hcandidate : size ≤ candidate) (hsum : best + candidate < 2 ^ 32) :
    SizeT.ofInt (SizeT.int32 candidate - size) < best - size ↔ candidate < best := by
  unfold SizeT.ofInt SizeT.int32
  split <;> omega

/-- Two entries of a list are no more than its sum. -/
theorem add_le_sum : ∀ {l : List Nat} {i j a b : Nat}, i < j → l[i]? = some a → l[j]? = some b →
    a + b ≤ l.sum
  | x :: l, 0, j + 1, a, b, _, ha, hb => by
      obtain rfl := Option.some.inj ha
      have hmem : b ∈ l := List.mem_of_getElem? (show l[j]? = some b from hb)
      have hle := List.single_le_sum (fun _ _ => Nat.zero_le _) b hmem
      rw [List.sum_cons]
      omega
  | x :: l, i + 1, j + 1, a, b, hij, ha, hb => by
      have ih := add_le_sum (l := l) (Nat.lt_of_succ_lt_succ hij) ha hb
      rw [List.sum_cons]
      omega

/-! ## The loop -/

/-- The next entry down is no better: the candidate stays. -/
theorem BestFrom.keep (h : BestFrom blocks size (i + 1) k b) {c : MemBlock}
    (hc : blocks[i]? = some c) (hworse : size ≤ c.blockSize → b.blockSize ≤ c.blockSize) :
    BestFrom blocks size i k b where
  entry := h.entry
  visited := Nat.le_of_succ_le h.visited
  fits := h.fits
  least := by
    intro j d hij hd hfit
    rcases Nat.lt_or_eq_of_le hij with hlt | rfl
    · exact h.least j d hlt hd hfit
    · obtain rfl := Option.some.inj (hc.symm.trans hd)
      exact hworse hfit
  last := by
    intro j d hij hd heq
    rcases Nat.lt_or_eq_of_le hij with hlt | rfl
    · exact h.last j d hlt hd heq
    · exact Nat.le_of_succ_le h.visited

/-- The next entry down is better: it is the candidate now. -/
theorem BestFrom.replace (h : BestFrom blocks size (i + 1) k b) {c : MemBlock}
    (hc : blocks[i]? = some c) (hfit : size ≤ c.blockSize) (hlt : c.blockSize < b.blockSize) :
    BestFrom blocks size i i c where
  entry := hc
  visited := Nat.le_refl i
  fits := hfit
  least := by
    intro j d hij hd hdfit
    rcases Nat.lt_or_eq_of_le hij with hlt' | rfl
    · exact Nat.le_trans (Nat.le_of_lt hlt) (h.least j d hlt' hd hdfit)
    · obtain rfl := Option.some.inj (hc.symm.trans hd)
      exact Nat.le_refl _
  last := by
    intro j d hij hd heq
    rcases Nat.lt_or_eq_of_le hij with hlt' | rfl
    · have hle := h.least j d hlt' hd (by omega)
      omega
    · exact Nat.le_refl i

section

variable (hcap : s.currSize ≤ freeMemBlocksSize) (hpos : 0 < size)
variable (hsum : (s.freeBlocks.map MemBlock.blockSize).sum < 2 ^ 32)
include hcap hpos hsum

/-- With a candidate: the best fit of the entries seen becomes that of all. -/
theorem findLoop_bestFit : ∀ {i k : Nat} {b : MemBlock}, i ≤ s.currSize →
    BestFrom s.freeBlocks size i k b →
    ∃ (k' : Nat) (b' : MemBlock), s.findLoop size i (b.blockSize - size) k = .ok (k' : Int) ∧
      BestFit s.freeBlocks size k' b'
  | 0, k, b, _, h => ⟨k, b, rfl, h⟩
  | i + 1, k, b, hi, h => by
      obtain ⟨c, hc⟩ : ∃ c, s.freeBlocks[i]? = some c :=
        ⟨_, List.getElem?_eq_getElem (by rw [length_freeBlocks hcap]; omega)⟩
      have hpair : c.blockSize + b.blockSize < 2 ^ 32 := by
        refine Nat.lt_of_le_of_lt (add_le_sum (i := i) (j := k) h.visited ?_ ?_) hsum
        · rw [List.getElem?_map, hc]
          rfl
        · rw [List.getElem?_map, h.entry]
          rfl
      simp only [findLoop, blockAt_ok (getElem?_freeBlocks hc).2, ok_bind]
      by_cases hbetter : size ≤ c.blockSize ∧ c.blockSize < b.blockSize
      · obtain ⟨hfit, hlt⟩ := hbetter
        have hnarrow := (narrowed_lt_iff hpos h.fits hfit (by omega)).mpr hlt
        rw [if_pos ⟨hfit, hnarrow⟩, SizeT.sub_of_le hfit (by omega)]
        exact findLoop_bestFit (by omega) (h.replace hc hfit hlt)
      · rw [if_neg]
        · exact findLoop_bestFit (by omega) (h.keep hc (by omega))
        · rintro ⟨hfit, hnarrow⟩
          exact hbetter ⟨hfit, (narrowed_lt_iff hpos h.fits hfit (by omega)).mp hnarrow⟩

/-- Without one: no entry seen so far is large enough. -/
theorem findLoop_start : ∀ {i : Nat}, i ≤ s.currSize →
    (∀ j c, i ≤ j → s.freeBlocks[j]? = some c → c.blockSize < size) →
    (s.findLoop size i SizeT.max (-1) = .ok (-1) ∧ ∀ c ∈ s.freeBlocks, c.blockSize < size) ∨
      ∃ (k : Nat) (b : MemBlock), s.findLoop size i SizeT.max (-1) = .ok (k : Int) ∧
        BestFit s.freeBlocks size k b
  | 0, _, hsmall => by
      refine Or.inl ⟨rfl, ?_⟩
      intro c hc
      obtain ⟨j, hj⟩ := List.mem_iff_getElem?.mp hc
      exact hsmall j c (Nat.zero_le j) hj
  | i + 1, hi, hsmall => by
      obtain ⟨c, hc⟩ : ∃ c, s.freeBlocks[i]? = some c :=
        ⟨_, List.getElem?_eq_getElem (by rw [length_freeBlocks hcap]; omega)⟩
      have hc32 : c.blockSize < 2 ^ 32 := by
        refine Nat.lt_of_le_of_lt (List.single_le_sum (fun _ _ => Nat.zero_le _) _ ?_) hsum
        exact List.mem_map_of_mem (List.mem_of_getElem? hc)
      simp only [findLoop, blockAt_ok (getElem?_freeBlocks hc).2, ok_bind]
      by_cases hfit : size ≤ c.blockSize
      · -- the first entry that is large enough is always taken
        rw [if_pos ⟨hfit, narrowed_lt_max hpos hfit hc32⟩, SizeT.sub_of_le hfit (by omega)]
        refine Or.inr (findLoop_bestFit hcap hpos hsum (by omega) ⟨hc, Nat.le_refl i, hfit, ?_, ?_⟩)
        · intro j d hij hd hdfit
          rcases Nat.lt_or_eq_of_le hij with hlt | rfl
          · have := hsmall j d hlt hd
            omega
          · obtain rfl := Option.some.inj (hc.symm.trans hd)
            exact Nat.le_refl _
        · intro j d hij hd heq
          rcases Nat.lt_or_eq_of_le hij with hlt | rfl
          · have := hsmall j d hlt hd
            omega
          · exact Nat.le_refl _
      · rw [if_neg fun h => hfit h.1]
        refine findLoop_start (by omega) ?_
        intro j d hij hd
        rcases Nat.lt_or_eq_of_le hij with hlt | rfl
        · exact hsmall j d hlt hd
        · obtain rfl := Option.some.inj (hc.symm.trans hd)
          omega

end

/-! ## The search -/

/-- **Exact best fit.** With block sizes that add up to less than `2 ^ 32`,
a table that is not full and a counter other than the total, the search answers
-1 if and only if no entry is large enough, and otherwise with the highest
index of the smallest entries that are. -/
theorem find_bestFit (hpos : 0 < size) (hcap : s.currSize < freeMemBlocksSize)
    (hused : s.used ≠ s.totalSize)
    (hsum : (s.freeBlocks.map MemBlock.blockSize).sum < 2 ^ 32) :
    ∃ r, s.findFreeMemBlockIndex size = .ok r ∧
      (r = -1 ↔ ¬∃ b ∈ s.freeBlocks, size ≤ b.blockSize) ∧
      (r ≠ -1 → ∃ (k : Nat) (b : MemBlock), r = k ∧ BestFit s.freeBlocks size k b) := by
  have hnone : ∀ j c, s.currSize ≤ j → s.freeBlocks[j]? = some c → c.blockSize < size := by
    intro j c hj hc
    have := (getElem?_freeBlocks hc).1
    omega
  have hfull : ¬s.shouldFullMerge = true := by
    simp only [shouldFullMerge, beq_iff_eq]
    omega
  unfold findFreeMemBlockIndex
  by_cases hempty : s.currSize = 0
  · -- an empty list
    have hnil : s.freeBlocks = [] := by simp [freeBlocks, hempty]
    rw [if_pos (Or.inl hempty)]
    exact ⟨-1, rfl, by simp [hnil], fun h => absurd rfl h⟩
  rw [if_neg (by tauto)]
  rcases findLoop_start (Nat.le_of_lt hcap) hpos hsum (Nat.le_refl _) hnone with
    ⟨hrun, hsmall⟩ | ⟨k, b, hrun, hbest⟩
  · refine ⟨-1, hrun, iff_of_true rfl ?_, fun h => absurd rfl h⟩
    rintro ⟨b, hb, hfit⟩
    have := hsmall b hb
    omega
  · refine ⟨k, hrun, iff_of_false (by omega) ?_, fun _ => ⟨k, b, rfl, hbest⟩⟩
    exact not_not.mpr ⟨b, List.mem_of_getElem? hbest.entry, hbest.fits⟩

/-- A block of more than 2 GiB between two that fit equally well. -/
def threeBlocks : FreeListAllocator where
  totalSize := 2 ^ 32
  used := 64
  currSize := 3
  freeMemBlocks := threeSlots ⟨0, 40⟩ ⟨64, 2 ^ 31 + 8⟩ ⟨2 ^ 31 + 72, 40⟩
  mem _ := 0

/-- A request of 32 bytes gets the last of the small ones. -/
theorem find_bestFit_threeBlocks : ∃ r, threeBlocks.findFreeMemBlockIndex 32 = .ok r ∧
    (r ≠ -1 → ∃ (k : Nat) (b : MemBlock), r = k ∧ BestFit threeBlocks.freeBlocks 32 k b) := by
  obtain ⟨r, hrun, -, hbest⟩ := find_bestFit (s := threeBlocks) (show 0 < 32 by decide)
    (by decide) (by decide) (by decide +kernel)
  exact ⟨r, hrun, hbest⟩

end FreeListAllocator

end MemAlloc
