import MemAlloc.FreeList

/-!
# What the operations of `FreeListAllocator` do

One specification per operation, stated on the list of free blocks, so that
no later proof looks inside the table or the loops again:

- `fastMergeMemBlocks_spec`, `fullMergeMemBlocks_spec` - the loops are the
  generic `Coalesce.mergeAt`/`Coalesce.pass` on `freeBlocks`;
- `find_cases`, `find_eq_neg_one_iff` - what the search returns;
- `allocate_cases` - the refusal, the split and the exact fit;
- `free_full`, `free_spec` - the refusal and the push followed by a merge.

Every state an operation returns differs from its argument in named fields
only, which the statements write out.
-/

namespace MemAlloc

open Coalesce MemBlock

/-! ## Joining blocks -/

namespace MemBlock

theorem extent_injective : Function.Injective extent := by
  rintro ⟨_, _⟩ ⟨_, _⟩ h
  obtain ⟨rfl, rfl⟩ := Extent.mk.injEq .. |>.mp h
  rfl

/-- The end of the block does not overflow. -/
def InRange (b : MemBlock) : Prop := b.memBlockOffset + b.blockSize < 2 ^ 64

theorem touches_iff {a b : MemBlock} (ha : a.InRange) (hb : b.InRange) :
    touches a b = true ↔ a.extent.Touches b.extent := by
  simp only [touches, SizeT.add_of_lt ha, SizeT.add_of_lt hb, Bool.or_eq_true, beq_iff_eq,
    Extent.Touches, Extent.stop, extent]
  exact or_congr_right eq_comm

/-- Joining touching blocks: the extent from the lower start to the higher
end. -/
theorem join_cases {a b : MemBlock} (ha : a.InRange) (hb : b.InRange) (ht : touches a b = true) :
    (b.memBlockOffset = a.memBlockOffset + a.blockSize ∧
      join a b = ⟨a.memBlockOffset, a.blockSize + b.blockSize⟩) ∨
    (a.memBlockOffset = b.memBlockOffset + b.blockSize ∧
      join a b = ⟨b.memBlockOffset, b.blockSize + a.blockSize⟩) := by
  simp only [InRange] at ha hb
  simp only [touches, SizeT.add_of_lt ha, SizeT.add_of_lt hb, Bool.or_eq_true, beq_iff_eq] at ht
  by_cases hab : a.memBlockOffset + a.blockSize = b.memBlockOffset
  · refine Or.inl ⟨hab.symm, ?_⟩
    simp only [join, SizeT.add_of_lt ha, hab, beq_self_eq_true, if_true]
    rw [SizeT.add_of_lt (by omega)]
  · refine Or.inr ⟨ht.resolve_left hab, ?_⟩
    simp only [join, SizeT.add_of_lt ha, beq_iff_eq, hab, if_false]
    rw [SizeT.add_of_lt (by omega), Nat.add_comm]

theorem laws : Laws touches join InRange where
  touch_comm a b := by
    simp only [touches]
    rw [Bool.or_comm]
    exact congrArg₂ _ BEq.comm BEq.comm
  join_ok a b ha hb ht := by
    rcases join_cases ha hb ht with ⟨hab, hj⟩ | ⟨hab, hj⟩ <;>
      simp only [hj, InRange] at * <;> omega
  touch_join a b c ha hb hc ht htc := by
    have hjoin : (join a b).InRange := by
      rcases join_cases ha hb ht with ⟨hab, hj⟩ | ⟨hab, hj⟩ <;>
        simp only [hj, InRange] at * <;> omega
    rw [touches_iff hjoin hc] at htc
    rw [touches_iff ha hc, touches_iff hb hc]
    simp only [Extent.Touches, Extent.stop, extent] at *
    rcases join_cases ha hb ht with ⟨hab, hj⟩ | ⟨hab, hj⟩ <;> rw [hj] at htc <;>
      simp only at htc <;> omega

/-- A tiling survives the joining of two of its free blocks. -/
theorem tiles_join {n : Nat} {l : List Extent} (hn : n < 2 ^ 64) {a b : MemBlock}
    {rest : List MemBlock} (ht : touches a b = true)
    (h : Tiles n ((a :: b :: rest).map extent ++ l)) :
    Tiles n ((join a b :: rest).map extent ++ l) := by
  have hrange : ∀ {c : MemBlock}, c ∈ a :: b :: rest → c.InRange := by
    intro c hc
    exact Nat.lt_of_le_of_lt
      (h.stop_le (List.mem_append_left _ (List.mem_map_of_mem hc))) hn
  rcases join_cases (hrange (by simp)) (hrange (by simp)) ht with ⟨hab, hj⟩ | ⟨hab, hj⟩
  · rw [hj]
    refine Tiles.join (s := a.memBlockOffset) ?_
    rw [← hab]
    exact h
  · rw [hj]
    refine Tiles.join (s := b.memBlockOffset) ?_
    rw [← hab]
    exact h.perm (List.Perm.swap _ _ _)

end MemBlock

namespace FreeListAllocator

variable {s : FreeListAllocator}

/-! ## Table accesses -/

/-- The state with another table and another number of free blocks. -/
def withTable (s : FreeListAllocator) (t : Vector MemBlock freeMemBlocksSize) (n : Nat) :
    FreeListAllocator :=
  { s with freeMemBlocks := t, currSize := n }

/-- A table that starts with three blocks; the other slots are as
constructed. -/
def threeSlots (b₀ b₁ b₂ : MemBlock) : Vector MemBlock freeMemBlocksSize :=
  (((Vector.replicate _ {}).setIfInBounds 0 b₀).setIfInBounds 1 b₁).setIfInBounds 2 b₂

@[simp] theorem freeBlocks_withTable {t : Vector MemBlock freeMemBlocksSize} {n : Nat} :
    (s.withTable t n).freeBlocks = t.toList.take n := rfl

theorem length_freeBlocks (hcap : s.currSize ≤ freeMemBlocksSize) :
    s.freeBlocks.length = s.currSize := by
  simp [freeBlocks, hcap]

theorem getElem?_freeBlocks {k : Nat} {b : MemBlock} (h : s.freeBlocks[k]? = some b) :
    k < s.currSize ∧ s.freeMemBlocks.toList[k]? = some b := by
  rw [freeBlocks, List.getElem?_take] at h
  split at h
  · exact ⟨‹_›, h⟩
  · cases h

theorem blockAt_ok {k : Nat} {b : MemBlock} (h : s.freeMemBlocks.toList[k]? = some b) :
    s.blockAt k = .ok b := by
  obtain ⟨hk, rfl⟩ := List.getElem?_eq_some_iff.mp h
  rw [Vector.length_toList] at hk
  simp only [blockAt, Int.natCast_nonneg, Int.toNat_natCast, hk, and_self, dite_true]
  rfl

theorem setBlock_ok {k : Nat} (hk : k < freeMemBlocksSize) (b : MemBlock) :
    ∃ t, s.setBlock k b = .ok (s.withTable t s.currSize) ∧
      t.toList = s.freeMemBlocks.toList.set k b :=
  ⟨s.freeMemBlocks.set k b hk, by simp [setBlock, hk, withTable], Vector.toList_set hk⟩

theorem swapBlocks_ok {i j : Nat} {bi bj : MemBlock} (hi : s.freeMemBlocks.toList[i]? = some bi)
    (hj : s.freeMemBlocks.toList[j]? = some bj) :
    ∃ t, s.swapBlocks i j = .ok (s.withTable t s.currSize) ∧
      t.toList = (s.freeMemBlocks.toList.set i bj).set j bi := by
  have hik : i < freeMemBlocksSize := by simpa using (List.getElem?_eq_some_iff.mp hi).1
  have hjk : j < freeMemBlocksSize := by simpa using (List.getElem?_eq_some_iff.mp hj).1
  obtain ⟨t₁, hset₁, ht₁⟩ := setBlock_ok (s := s) hik bj
  obtain ⟨t₂, hset₂, ht₂⟩ := setBlock_ok (s := s.withTable t₁ s.currSize) hjk bi
  refine ⟨t₂, ?_, ?_⟩
  · simp only [swapBlocks, blockAt_ok hi, blockAt_ok hj, ok_bind, hset₁]
    exact hset₂
  · rw [ht₂]
    exact congrArg (·.set j bi) ht₁

/-- An index below zero is outside the table. -/
theorem swapBlocks_neg {i j : Int} (hi : i < 0) : s.swapBlocks i j = .error .outOfBounds := by
  have : ¬(0 ≤ i ∧ i.toNat < freeMemBlocksSize) := by omega
  simp [swapBlocks, blockAt, this]

/-! ## Merging -/

/-- Swapping with the last free block and shortening is the removal of the
generic pass. -/
theorem take_swap_eq_swapRemove {β : Type} {l : List β} {n q : Nat} {x y : β} (hq : q < n)
    (hx : l[n - 1]? = some x) :
    ((l.set q x).set (n - 1) y).take (n - 1) = swapRemove (l.take n) q := by
  have hn : n - 1 < l.length := (List.getElem?_eq_some_iff.mp hx).1
  have hqlen : q < (l.take n).length := by rw [List.length_take]; omega
  have hlen : (l.take n).length = n := by rw [List.length_take]; omega
  apply List.ext_getElem?
  intro k
  rw [getElem?_swapRemove hqlen, hlen, List.getElem?_take]
  by_cases hk : k < n - 1
  · rw [if_pos hk, if_pos hk, List.getElem?_set_ne (by omega)]
    by_cases hkq : k = q
    · rw [if_pos hkq, hkq, List.getElem?_set_self (by omega), List.getElem?_take_of_lt (by omega),
        hx]
    · rw [if_neg hkq, List.getElem?_set_ne (Ne.symm hkq), List.getElem?_take_of_lt (by omega)]
  · rw [if_neg hk, if_neg hk]

theorem sub_one_currSize (hcap : s.currSize ≤ freeMemBlocksSize) (hpos : 0 < s.currSize) :
    SizeT.sub s.currSize 1 = s.currSize - 1 := by
  have := freeMemBlocksSize_eq
  exact SizeT.sub_of_le hpos (by omega)

/-- Both joining branches of the loop: entry `i` is overwritten, the pivot
removed. -/
theorem join_branch (hcap : s.currSize ≤ freeMemBlocksSize) {i q : Nat} {b : MemBlock}
    (hiq : i < q) (hb : s.freeBlocks[q]? = some b) (c : MemBlock) :
    ∃ t, (do
        let s ← s.setBlock i c
        let s ← s.swapBlocks q (SizeT.sub s.currSize 1)
        return { s with currSize := SizeT.sub s.currSize 1 } : Except Stuck FreeListAllocator)
          = .ok (s.withTable t (s.currSize - 1)) ∧
      t.toList.take (s.currSize - 1) = swapRemove (s.freeBlocks.set i c) q := by
  obtain ⟨hq, hbt⟩ := getElem?_freeBlocks hb
  have hlen : s.freeMemBlocks.toList.length = freeMemBlocksSize := by simp
  obtain ⟨t₁, hset, ht₁⟩ := setBlock_ok (s := s) (k := i) (by omega) c
  obtain ⟨x, hx⟩ : ∃ x, s.freeMemBlocks.toList[s.currSize - 1]? = some x :=
    ⟨_, List.getElem?_eq_getElem (by omega)⟩
  have hbt₁ : t₁.toList[q]? = some b := by rw [ht₁, List.getElem?_set_ne (by omega), hbt]
  have hx₁ : t₁.toList[s.currSize - 1]? = some x := by
    rw [ht₁, List.getElem?_set_ne (by omega), hx]
  obtain ⟨t₂, hswap, ht₂⟩ := swapBlocks_ok (s := s.withTable t₁ s.currSize) hbt₁ hx₁
  have hsub : SizeT.sub (s.withTable t₁ s.currSize).currSize 1 = s.currSize - 1 :=
    sub_one_currSize (s := s.withTable t₁ s.currSize) hcap (by show 0 < s.currSize; omega)
  refine ⟨t₂, ?_, ?_⟩
  · rw [hset, ok_bind, hsub, hswap, ok_bind]
    exact congrArg (fun n => Except.ok (s.withTable t₂ n)) hsub
  · rw [ht₂, freeBlocks, ← List.take_set]
    show ((t₁.toList.set q x).set (s.currSize - 1) b).take (s.currSize - 1) = _
    rw [take_swap_eq_swapRemove hq hx₁, ht₁]

/-- The loop finds the partner the generic scan finds. -/
theorem fastMergeLoop_spec (hcap : s.currSize ≤ freeMemBlocksSize) {q : Nat} {b : MemBlock}
    (hb : s.freeBlocks[q]? = some b) : ∀ {i : Nat}, i ≤ q →
      (partner touches s.freeBlocks b i = none ∧ fastMergeLoop s q i = .ok s) ∨
      ∃ j a t, partner touches s.freeBlocks b i = some j ∧ s.freeBlocks[j]? = some a ∧
        fastMergeLoop s q i = .ok (s.withTable t (s.currSize - 1)) ∧
        t.toList.take (s.currSize - 1) = swapRemove (s.freeBlocks.set j (join a b)) q
  | 0, _ => Or.inl ⟨rfl, rfl⟩
  | i + 1, hi => by
      obtain ⟨hq, hbt⟩ := getElem?_freeBlocks hb
      obtain ⟨a, ha⟩ : ∃ a, s.freeBlocks[i]? = some a :=
        ⟨_, List.getElem?_eq_getElem (by rw [length_freeBlocks hcap]; omega)⟩
      have hat := (getElem?_freeBlocks ha).2
      simp only [partner, ha, Option.any_some, fastMergeLoop, blockAt_ok hat, blockAt_ok hbt,
        ok_bind]
      cases hc₁ : SizeT.add a.memBlockOffset a.blockSize == b.memBlockOffset with
      | true =>
          obtain ⟨t, hrun, htake⟩ := join_branch hcap (show i < q by omega) hb
            { a with blockSize := SizeT.add a.blockSize b.blockSize }
          refine Or.inr ⟨i, a, t, by simp [touches, hc₁], ha, hrun, ?_⟩
          rw [htake, join, if_pos hc₁]
      | false =>
          cases hc₂ : a.memBlockOffset == SizeT.add b.memBlockOffset b.blockSize with
          | true =>
              obtain ⟨t, hrun, htake⟩ := join_branch hcap (show i < q by omega) hb
                { memBlockOffset := b.memBlockOffset
                  blockSize := SizeT.add a.blockSize b.blockSize }
              refine Or.inr ⟨i, a, t, by simp [touches, hc₁, hc₂], ha, ?_, ?_⟩
              · simpa [hc₁] using hrun
              · rw [htake, join, if_neg (by simp [hc₁])]
          | false =>
              have hnot : touches a b = false := by simp [touches, hc₁, hc₂]
              simp only [hnot, Bool.false_eq_true, if_false]
              exact fastMergeLoop_spec hcap hb (Nat.le_of_succ_le hi)

/-- `FastMergeMemBlocks` is one step of the generic pass. -/
theorem fastMergeMemBlocks_spec (hcap : s.currSize ≤ freeMemBlocksSize) {q : Nat}
    (hq : q < s.currSize) :
    ∃ t n, s.fastMergeMemBlocks q = .ok (s.withTable t n) ∧ n ≤ s.currSize ∧
      s.currSize ≤ n + 1 ∧ t.toList.take n = mergeAt touches join s.freeBlocks q := by
  obtain ⟨b, hb⟩ : ∃ b, s.freeBlocks[q]? = some b :=
    ⟨_, List.getElem?_eq_getElem (by rw [length_freeBlocks hcap]; exact hq)⟩
  rcases fastMergeLoop_spec hcap hb (Nat.le_refl q) with ⟨hp, hrun⟩ | ⟨j, a, t, hp, ha, hrun, htake⟩
  · refine ⟨s.freeMemBlocks, s.currSize, hrun, Nat.le_refl _, Nat.le_succ _, ?_⟩
    simp only [mergeAt, hb, hp]
    rfl
  · refine ⟨t, s.currSize - 1, hrun, Nat.sub_le _ _, by omega, ?_⟩
    rw [htake]
    simp only [mergeAt, hb, hp, List.modify_eq_set_getElem?, ha]
    rfl

theorem fullMergeLoop_spec : ∀ {q : Nat} {s : FreeListAllocator},
    s.currSize ≤ freeMemBlocksSize → q ≤ s.currSize →
      ∃ t n, fullMergeLoop s q = .ok (s.withTable t n) ∧ n ≤ s.currSize ∧
        t.toList.take n = passFrom touches join s.freeBlocks q
  | 0, s, _, _ => ⟨s.freeMemBlocks, s.currSize, rfl, Nat.le_refl _, rfl⟩
  | q + 1, s, hcap, hq => by
      obtain ⟨t₁, n₁, hrun₁, hle₁, hge₁, htake₁⟩ :=
        fastMergeMemBlocks_spec hcap (show q < s.currSize by omega)
      obtain ⟨t₂, n₂, hrun₂, hle₂, htake₂⟩ :=
        fullMergeLoop_spec (q := q) (s := s.withTable t₁ n₁) (Nat.le_trans hle₁ hcap)
          (show q ≤ n₁ by omega)
      refine ⟨t₂, n₂, ?_, Nat.le_trans hle₂ hle₁, ?_⟩
      · rw [fullMergeLoop, hrun₁, ok_bind, hrun₂]
        rfl
      · rw [htake₂, freeBlocks_withTable, htake₁, passFrom]

/-- `FullMergeMemBlocks` is the generic pass over the free blocks. -/
theorem fullMergeMemBlocks_spec (hcap : s.currSize ≤ freeMemBlocksSize) :
    ∃ t n, s.fullMergeMemBlocks = .ok (s.withTable t n) ∧ n ≤ s.currSize ∧
      t.toList.take n = pass touches join s.freeBlocks := by
  obtain ⟨t, n, hrun, hle, htake⟩ := fullMergeLoop_spec hcap (Nat.le_refl s.currSize)
  exact ⟨t, n, hrun, hle, by rw [htake, Coalesce.pass, length_freeBlocks hcap]⟩

/-! ## Searching -/

/-- Whatever the sizes, the search answers with an entry that fits or with
what it started from. -/
theorem findLoop_cases (hcap : s.currSize ≤ freeMemBlocksSize) (size : Nat) :
    ∀ {i : Nat} (smallestDiff : Nat) (best : Int), i ≤ s.currSize →
      ∃ r, s.findLoop size i smallestDiff best = .ok r ∧
        (r = best ∨ ∃ (k : Nat) (b : MemBlock), k < i ∧ r = k ∧ s.freeBlocks[k]? = some b ∧
          size ≤ b.blockSize)
  | 0, _, best, _ => ⟨best, rfl, Or.inl rfl⟩
  | i + 1, smallestDiff, best, hi => by
      obtain ⟨b, hb⟩ : ∃ b, s.freeBlocks[i]? = some b :=
        ⟨_, List.getElem?_eq_getElem (by rw [length_freeBlocks hcap]; omega)⟩
      simp only [findLoop, blockAt_ok (getElem?_freeBlocks hb).2, ok_bind]
      split
      · rename_i hfit
        obtain ⟨r, hrun, hr⟩ :=
          findLoop_cases hcap size (i := i) (SizeT.sub b.blockSize size) i (by omega)
        refine ⟨r, hrun, Or.inr ?_⟩
        rcases hr with rfl | ⟨k, c, hk, hrk, hc⟩
        · exact ⟨i, b, Nat.lt_succ_self i, rfl, hb, hfit.1⟩
        · exact ⟨k, c, Nat.lt_succ_of_lt hk, hrk, hc⟩
      · obtain ⟨r, hrun, hr⟩ := findLoop_cases hcap size (i := i) smallestDiff best (by omega)
        refine ⟨r, hrun, hr.imp_right ?_⟩
        rintro ⟨k, c, hk, hrk, hc⟩
        exact ⟨k, c, Nat.lt_succ_of_lt hk, hrk, hc⟩

/-- Below `2 ^ 32` the narrowed difference of a fitting block never reaches
the initial `smallestDiff`, so the first fitting block is always taken. -/
theorem narrowed_lt_max {size blockSize : Nat} (hpos : 0 < size) (hfit : size ≤ blockSize)
    (hb : blockSize < 2 ^ 32) :
    SizeT.ofInt (SizeT.int32 blockSize - size) < SizeT.max := by
  unfold SizeT.ofInt SizeT.int32 SizeT.max
  split <;> omega

theorem findLoop_eq_neg_one_iff (hcap : s.currSize ≤ freeMemBlocksSize) {size : Nat}
    (hpos : 0 < size) (hsizes : ∀ b ∈ s.freeBlocks, b.blockSize < 2 ^ 32) :
    ∀ {i : Nat}, i ≤ s.currSize →
      (s.findLoop size i SizeT.max (-1) = .ok (-1) ↔
        ∀ k b, k < i → s.freeBlocks[k]? = some b → b.blockSize < size)
  | 0, _ => by simp [findLoop]
  | i + 1, hi => by
      obtain ⟨b, hb⟩ : ∃ b, s.freeBlocks[i]? = some b :=
        ⟨_, List.getElem?_eq_getElem (by rw [length_freeBlocks hcap]; omega)⟩
      have hb32 := hsizes b (List.mem_of_getElem? hb)
      simp only [findLoop, blockAt_ok (getElem?_freeBlocks hb).2, ok_bind]
      by_cases hfit : size ≤ b.blockSize
      · rw [if_pos ⟨hfit, narrowed_lt_max hpos hfit hb32⟩]
        obtain ⟨r, hrun, hr⟩ :=
          findLoop_cases hcap size (i := i) (SizeT.sub b.blockSize size) i (by omega)
        rw [hrun]
        constructor
        · intro h
          obtain rfl := Except.ok.inj h
          rcases hr with h | ⟨k, -, -, h, -⟩ <;> omega
        · intro h
          exact absurd (h i b (Nat.lt_succ_self i) hb) (by omega)
      · rw [if_neg (fun h => hfit h.1), findLoop_eq_neg_one_iff hcap hpos hsizes (by omega)]
        constructor
        · intro h k c hk hc
          rcases Nat.lt_succ_iff_lt_or_eq.mp hk with hlt | rfl
          · exact h k c hlt hc
          · obtain rfl := Option.some.inj (hb.symm.trans hc)
            omega
        · exact fun h k c hk hc => h k c (Nat.lt_succ_of_lt hk) hc

/-- The search fails, or finds an entry that fits in a table that is not
full. -/
theorem find_cases (hcap : s.currSize ≤ freeMemBlocksSize) (size : Nat) :
    s.findFreeMemBlockIndex size = .ok (-1) ∨
      ∃ (k : Nat) (b : MemBlock), s.findFreeMemBlockIndex size = .ok k ∧
        s.freeBlocks[k]? = some b ∧ size ≤ b.blockSize ∧ s.currSize < freeMemBlocksSize := by
  unfold findFreeMemBlockIndex
  split
  · exact Or.inl rfl
  · rename_i hguard
    simp only [shouldFullMerge, beq_iff_eq, not_or] at hguard
    obtain ⟨r, hrun, hr⟩ := findLoop_cases hcap size SizeT.max (-1) (Nat.le_refl _)
    rcases hr with rfl | ⟨k, b, -, rfl, hb, hfit⟩
    · exact Or.inl hrun
    · exact Or.inr ⟨k, b, hrun, hb, hfit, by omega⟩

/-- With 32-bit block sizes the search fails exactly when the table is full
or no single entry is large enough. -/
theorem find_eq_neg_one_iff (hcap : s.currSize ≤ freeMemBlocksSize) {size : Nat}
    (hpos : 0 < size) (hsizes : ∀ b ∈ s.freeBlocks, b.blockSize < 2 ^ 32)
    (hused : s.used = s.totalSize → s.freeBlocks = []) :
    s.findFreeMemBlockIndex size = .ok (-1) ↔
      s.currSize = freeMemBlocksSize ∨ ∀ b ∈ s.freeBlocks, b.blockSize < size := by
  have hmem : (∀ k b, k < s.currSize → s.freeBlocks[k]? = some b → b.blockSize < size) ↔
      ∀ b ∈ s.freeBlocks, b.blockSize < size := by
    constructor
    · intro h b hb
      obtain ⟨k, hk⟩ := List.mem_iff_getElem?.mp hb
      exact h k b (getElem?_freeBlocks hk).1 hk
    · exact fun h k b _ hb => h b (List.mem_of_getElem? hb)
  unfold findFreeMemBlockIndex
  split
  · rename_i hguard
    simp only [shouldFullMerge, beq_iff_eq] at hguard
    refine ⟨fun _ => ?_, fun _ => rfl⟩
    rcases hguard with h0 | hfull | hu
    · exact Or.inr (by simp [freeBlocks, h0])
    · exact Or.inl hfull
    · exact Or.inr (by simp [hused hu])
  · rename_i hguard
    simp only [shouldFullMerge, beq_iff_eq, not_or] at hguard
    rw [findLoop_eq_neg_one_iff hcap hpos hsizes (Nat.le_refl _), hmem]
    exact ⟨Or.inr, fun h => h.resolve_left hguard.2.1⟩

/-! ## `Allocate` -/

/-- The padding of a power-of-two alignment is between 1 and the alignment. -/
theorem requiredSize_eq (size : Nat) {alignment : Nat} (hpos : 0 < alignment)
    (hle : alignment ≤ 2 ^ 63) :
    ∃ pad, 0 < pad ∧ pad ≤ alignment ∧
      requiredSize size alignment = cAllocationHeaderSize + SizeT.uint32 size + pad := by
  have hmod := Nat.mod_lt (SizeT.add cAllocationHeaderSize size) hpos
  have h32 := SizeT.uint32_lt size
  have hpad : padding size alignment =
      alignment - SizeT.add cAllocationHeaderSize size % alignment :=
    SizeT.sub_of_le (Nat.le_of_lt hmod) (by omega)
  refine ⟨padding size alignment, by omega, by omega, ?_⟩
  have hhead : cAllocationHeaderSize = 8 := rfl
  rw [requiredSize, SizeT.add_of_lt (a := cAllocationHeaderSize) (by omega),
    SizeT.add_of_lt (by omega)]

theorem requiredSize_gt (size : Nat) {k : Nat} (hk : k ≤ 63) :
    cAllocationHeaderSize + SizeT.uint32 size < requiredSize size (2 ^ k) := by
  obtain ⟨pad, hpos, -, heq⟩ := requiredSize_eq size (Nat.two_pow_pos k)
    (Nat.pow_le_pow_right (by decide) hk)
  omega

/-- From `2 ^ 32` on an alignment requires more than a 32-bit block has: what
the cast cuts off the size is a multiple of `2 ^ 32`. -/
theorem requiredSize_ge (size : Nat) {k : Nat} (h32 : 32 ≤ k) (hk : k ≤ 63) :
    2 ^ 32 ≤ requiredSize size (2 ^ k) := by
  obtain ⟨c, hc⟩ : 2 ^ 32 ∣ 2 ^ k := Nat.pow_dvd_pow 2 h32
  have hpos := Nat.two_pow_pos k
  have hle : 2 ^ k ≤ 2 ^ 63 := Nat.pow_le_pow_right (by decide) hk
  have hsize := SizeT.uint32_lt size
  have hhead : cAllocationHeaderSize = 8 := rfl
  have hmod := Nat.mod_lt (SizeT.add cAllocationHeaderSize size) hpos
  have hpad : padding size (2 ^ k) = 2 ^ k - SizeT.add cAllocationHeaderSize size % 2 ^ k :=
    SizeT.sub_of_le (Nat.le_of_lt hmod) (by omega)
  have hlow : SizeT.add cAllocationHeaderSize size % 2 ^ k % 2 ^ 32
      = (cAllocationHeaderSize + SizeT.uint32 size) % 2 ^ 32 := by
    rw [Nat.mod_mod_of_dvd _ ⟨c, hc⟩]
    unfold SizeT.add SizeT.uint32
    omega
  have heq : requiredSize size (2 ^ k) = cAllocationHeaderSize + SizeT.uint32 size +
      (2 ^ k - SizeT.add cAllocationHeaderSize size % 2 ^ k) := by
    rw [requiredSize, hpad, SizeT.add_of_lt (a := cAllocationHeaderSize) (by omega),
      SizeT.add_of_lt (by omega)]
  omega

/-- The state after a successful `Allocate`: table and counter updated, the
header written at `addr`. -/
def granted (s : FreeListAllocator) (t : Vector MemBlock freeMemBlocksSize) (n : Nat) (addr : Nat)
    (required : Nat) : FreeListAllocator :=
  { s.withTable t n with
    used := SizeT.add s.used required
    mem := s.mem.writeWord addr required }

@[simp] theorem freeBlocks_granted {t : Vector MemBlock freeMemBlocksSize} {n : Nat} {addr : Nat}
    {required : Nat} : (s.granted t n addr required).freeBlocks = t.toList.take n := rfl

variable {size alignment : Nat}

theorem allocate_alignment_zero : s.allocate .none size 0 = .error .dividesByZero := if_pos rfl

/-- No entry found: `nullptr`, nothing changed. -/
theorem allocate_refuse (hne : alignment ≠ 0)
    (h : s.findFreeMemBlockIndex (requiredSize size alignment) = .ok (-1)) :
    s.allocate .none size alignment = .ok (none, s) := by
  simp only [allocate, if_neg hne, lock, h, ok_bind, pure_bind]
  rfl

/-- An entry found: the outcome is decided by `carve` and the header. -/
theorem allocate_found (hne : alignment ≠ 0) {k : Nat} {b : MemBlock}
    (h : s.findFreeMemBlockIndex (requiredSize size alignment) = .ok (k : Int))
    (hb : s.freeBlocks[k]? = some b) :
    s.allocate .none size alignment =
      (s.carve k b (requiredSize size alignment) >>= fun s' =>
        ({ s' with used := SizeT.add s'.used (requiredSize size alignment) }.writeHeader
          (s.startPtr + b.memBlockOffset) (requiredSize size alignment)).map fun s'' =>
            (some (s.startPtr + b.memBlockOffset + cAllocationHeaderSize), s'')) := by
  have hk : (k : Int) ≠ -1 := by omega
  simp only [allocate, if_neg hne, lock, pure_bind, h, ok_bind, if_neg hk,
    blockAt_ok (getElem?_freeBlocks hb).2]
  cases s.carve k b (requiredSize size alignment) with
  | error e => rfl
  | ok s' =>
      simp only [ok_bind]
      cases writeHeader _ _ _ <;> rfl

/-- The header of a carved block can be written where the space is mapped. -/
theorem allocate_carved (hne : alignment ≠ 0) {k : Nat} {b : MemBlock}
    (h : s.findFreeMemBlockIndex (requiredSize size alignment) = .ok (k : Int))
    (hb : s.freeBlocks[k]? = some b) {t : Vector MemBlock freeMemBlocksSize} {n : Nat}
    (hcarve : s.carve k b (requiredSize size alignment) = .ok (s.withTable t n)) :
    s.allocate .none size alignment =
      if s.mapped.hasWord (s.startPtr + b.memBlockOffset) then
        .ok (some (s.startPtr + b.memBlockOffset + cAllocationHeaderSize),
          s.granted t n (s.startPtr + b.memBlockOffset) (requiredSize size alignment))
      else .error .unmapped := by
  rw [allocate_found hne h hb, hcarve, ok_bind, writeHeader]
  show (if s.mapped.hasWord _ then _ else _ : Except Stuck _).map _ = _
  split <;> rfl

/-- The free blocks fit in the table: what every call keeps, whatever its
arguments. -/
def InTable (s : FreeListAllocator) : Prop := s.currSize ≤ freeMemBlocksSize

/-- The two ways `carve` can go. -/
theorem carve_cases {k : Nat} {b : MemBlock} (hcap : s.currSize < freeMemBlocksSize)
    (hb : s.freeBlocks[k]? = some b) (required : Nat) :
    (SizeT.sub b.blockSize required > 0 ∨ 0 < k) ∧
        (∃ t n, n ≤ s.currSize ∧ s.carve k b required = .ok (s.withTable t n)) ∨
      ¬(SizeT.sub b.blockSize required > 0 ∨ 0 < k) ∧
        s.carve k b required = .error .outOfBounds := by
  obtain ⟨hk, -⟩ := getElem?_freeBlocks hb
  by_cases hrest : SizeT.sub b.blockSize required > 0
  · obtain ⟨t, hset, -⟩ := setBlock_ok (s := s) (Nat.lt_trans hk hcap)
      ⟨SizeT.add b.memBlockOffset (SizeT.uint32 required),
        SizeT.uint32 (SizeT.sub b.blockSize required)⟩
    refine Or.inl ⟨Or.inl hrest, t, s.currSize, Nat.le_refl _, ?_⟩
    simp only [carve, if_pos hrest, hset]
  · cases k with
    | zero =>
        refine Or.inr ⟨by omega, ?_⟩
        simp only [carve, if_neg hrest]
        rw [swapBlocks_neg (by omega)]
        rfl
    | succ k =>
        have hlen : s.freeMemBlocks.toList.length = freeMemBlocksSize := by simp
        have hk' : k < s.freeMemBlocks.toList.length := by omega
        have hn : s.currSize < s.freeMemBlocks.toList.length := by omega
        obtain ⟨t, hswap, -⟩ := swapBlocks_ok (s := s) (List.getElem?_eq_getElem hk')
          (List.getElem?_eq_getElem hn)
        have hidx : ((k + 1 : Nat) : Int) - 1 = k := by omega
        have hsub : SizeT.sub (s.withTable t s.currSize).currSize 1 = s.currSize - 1 :=
          sub_one_currSize (s := s.withTable t s.currSize) (Nat.le_of_lt hcap)
            (by show 0 < s.currSize; omega)
        refine Or.inl ⟨Or.inr (Nat.succ_pos k), t, s.currSize - 1, Nat.sub_le .., ?_⟩
        simp only [carve, if_neg hrest, hidx, hswap, ok_bind, hsub]
        rfl

/-- `Allocate` with an alignment other than 0: it refuses, leaves the table
(an exact fit of entry 0), or carves the entry it found, in front of which
the header must be writable. -/
theorem InTable.allocate_cases (h : InTable s) (size : Nat) (hne : alignment ≠ 0) :
    s.findFreeMemBlockIndex (requiredSize size alignment) = .ok (-1) ∧
        s.allocate .none size alignment = .ok (none, s) ∨
      ∃ (k : Nat) (b : MemBlock),
        s.findFreeMemBlockIndex (requiredSize size alignment) = .ok (k : Int) ∧
        s.freeBlocks[k]? = some b ∧ requiredSize size alignment ≤ b.blockSize ∧
        (¬(SizeT.sub b.blockSize (requiredSize size alignment) > 0 ∨ 0 < k) ∧
            s.allocate .none size alignment = .error .outOfBounds ∨
          (SizeT.sub b.blockSize (requiredSize size alignment) > 0 ∨ 0 < k) ∧
            ∃ t n, n ≤ s.currSize ∧
              s.carve k b (requiredSize size alignment) = .ok (s.withTable t n) ∧
              (s.mapped.hasWord (s.startPtr + b.memBlockOffset) = false ∧
                  s.allocate .none size alignment = .error .unmapped ∨
                s.mapped.hasWord (s.startPtr + b.memBlockOffset) = true ∧
                  s.allocate .none size alignment =
                    .ok (some (s.startPtr + b.memBlockOffset + cAllocationHeaderSize),
                      s.granted t n (s.startPtr + b.memBlockOffset)
                        (requiredSize size alignment)))) := by
  rcases find_cases h (requiredSize size alignment) with hfind | ⟨k, b, hfind, hb, hfit, hcap⟩
  · exact Or.inl ⟨hfind, allocate_refuse hne hfind⟩
  · refine Or.inr ⟨k, b, hfind, hb, hfit, ?_⟩
    rcases carve_cases hcap hb (requiredSize size alignment) with
      ⟨hc, t, n, hn, hcarve⟩ | ⟨hc, hcarve⟩
    · refine Or.inr ⟨hc, t, n, hn, hcarve, ?_⟩
      rw [allocate_carved hne hfind hb hcarve]
      cases hword : s.mapped.hasWord (s.startPtr + b.memBlockOffset) with
      | false => exact Or.inl ⟨rfl, if_neg Bool.false_ne_true⟩
      | true => exact Or.inr ⟨rfl, if_pos rfl⟩
    · refine Or.inl ⟨hc, ?_⟩
      rw [allocate_found hne hfind hb, hcarve]
      rfl

/-- What an `Allocate` that returns has done. -/
theorem InTable.allocate_ok (h : InTable s) {r : Option Nat} {s' : FreeListAllocator}
    (hrun : s.allocate .none size alignment = .ok (r, s')) :
    alignment ≠ 0 ∧
      (s.findFreeMemBlockIndex (requiredSize size alignment) = .ok (-1) ∧ r = none ∧ s' = s ∨
        ∃ (k : Nat) (b : MemBlock) (t : Vector MemBlock freeMemBlocksSize) (n : Nat),
          s.findFreeMemBlockIndex (requiredSize size alignment) = .ok (k : Int) ∧
          s.freeBlocks[k]? = some b ∧ requiredSize size alignment ≤ b.blockSize ∧
          (SizeT.sub b.blockSize (requiredSize size alignment) > 0 ∨ 0 < k) ∧ n ≤ s.currSize ∧
          s.carve k b (requiredSize size alignment) = .ok (s.withTable t n) ∧
          r = some (s.startPtr + b.memBlockOffset + cAllocationHeaderSize) ∧
          s' = s.granted t n (s.startPtr + b.memBlockOffset) (requiredSize size alignment)) := by
  have hne : alignment ≠ 0 := by
    rintro rfl
    rw [allocate_alignment_zero] at hrun
    cases hrun
  refine ⟨hne, ?_⟩
  rcases h.allocate_cases size hne with
    ⟨hfind, hnone⟩ | ⟨k, b, hfind, hb, hfit, ⟨-, herr⟩ | ⟨hc, t, n, hn, hcarve, hword⟩⟩
  · rw [hnone] at hrun
    cases hrun
    exact Or.inl ⟨hfind, rfl, rfl⟩
  · rw [herr] at hrun
    cases hrun
  · rcases hword with ⟨-, herr⟩ | ⟨-, hsome⟩
    · rw [herr] at hrun
      cases hrun
    · rw [hsome] at hrun
      cases hrun
      exact Or.inr ⟨k, b, t, n, hfind, hb, hfit, hc, hn, hcarve, rfl, rfl⟩

/-- A larger entry found: it keeps its rest. -/
theorem allocate_split (hne : alignment ≠ 0) {k : Nat} {b : MemBlock}
    (h : s.findFreeMemBlockIndex (requiredSize size alignment) = .ok (k : Int))
    (hb : s.freeBlocks[k]? = some b) (hlt : requiredSize size alignment < b.blockSize)
    (hend : b.memBlockOffset + b.blockSize < 2 ^ 32)
    (hword : s.mapped.hasWord (s.startPtr + b.memBlockOffset) = true) :
    ∃ t, s.allocate .none size alignment =
        .ok (some (s.startPtr + b.memBlockOffset + cAllocationHeaderSize),
          s.granted t s.currSize (s.startPtr + b.memBlockOffset) (requiredSize size alignment)) ∧
      t.toList.take s.currSize = s.freeBlocks.set k
        ⟨b.memBlockOffset + requiredSize size alignment,
          b.blockSize - requiredSize size alignment⟩ := by
  obtain ⟨hk, hbt⟩ := getElem?_freeBlocks hb
  have hklen : k < freeMemBlocksSize := by simpa using (List.getElem?_eq_some_iff.mp hbt).1
  obtain ⟨t, hset, ht⟩ := setBlock_ok (s := s) hklen
    ⟨b.memBlockOffset + requiredSize size alignment, b.blockSize - requiredSize size alignment⟩
  have hrest : SizeT.sub b.blockSize (requiredSize size alignment) =
      b.blockSize - requiredSize size alignment :=
    SizeT.sub_of_le (Nat.le_of_lt hlt) (by omega)
  have hcarve : s.carve k b (requiredSize size alignment) = .ok (s.withTable t s.currSize) := by
    simp only [carve, hrest]
    rw [if_pos (by omega), SizeT.uint32_of_lt (show b.blockSize - _ < 2 ^ 32 by omega),
      SizeT.uint32_of_lt (show requiredSize size alignment < 2 ^ 32 by omega),
      SizeT.add_of_lt (by omega), hset]
  refine ⟨t, ?_, ?_⟩
  · rw [allocate_carved hne h hb hcarve, if_pos hword]
  · rw [ht, freeBlocks, List.take_set]

/-- The only entry, larger than the request, keeps its rest. -/
theorem allocate_only (hne : alignment ≠ 0) {off n : Nat} (hblocks : s.freeBlocks = [⟨off, n⟩])
    (hcap : s.currSize ≤ freeMemBlocksSize) (hused : s.used ≠ s.totalSize)
    (hpos : 0 < requiredSize size alignment) (hlt : requiredSize size alignment < n)
    (hend : off + n < 2 ^ 32) (hword : s.mapped.hasWord (s.startPtr + off) = true) :
    ∃ t, s.allocate .none size alignment =
        .ok (some (s.startPtr + off + cAllocationHeaderSize),
          s.granted t s.currSize (s.startPtr + off) (requiredSize size alignment)) ∧
      t.toList.take s.currSize
        = [⟨off + requiredSize size alignment, n - requiredSize size alignment⟩] := by
  have hcur : s.currSize = 1 := by
    rw [← length_freeBlocks hcap, hblocks, List.length_singleton]
  -- the search cannot fail: the one block is large enough
  have hfind := find_eq_neg_one_iff hcap hpos (by rw [hblocks]; simp; omega)
    (fun h => absurd h hused)
  rcases find_cases hcap (requiredSize size alignment) with hnone | ⟨i, b, hi, hb, -, -⟩
  · rcases hfind.mp hnone with hfull | hsmall
    · have := freeMemBlocksSize_eq
      omega
    · have := hsmall ⟨off, n⟩ (by rw [hblocks]; exact List.mem_singleton_self _)
      simp only at this
      omega
  · obtain ⟨rfl, rfl⟩ : i = 0 ∧ b = ⟨off, n⟩ := by
      rw [hblocks, List.getElem?_singleton] at hb
      split at hb
      · exact ⟨‹_›, (Option.some.inj hb).symm⟩
      · cases hb
    obtain ⟨t, hrun, ht⟩ := allocate_split hne hi hb hlt hend hword
    exact ⟨t, hrun, by rw [ht, hblocks, List.set_cons_zero]⟩

/-- An entry that fits exactly: the slot *below* it is swapped with the slot
past the list, and the list is shortened. -/
theorem allocate_exact (hne : alignment ≠ 0) {k : Nat} {b : MemBlock}
    (hcap : s.currSize < freeMemBlocksSize)
    (h : s.findFreeMemBlockIndex (requiredSize size alignment) = .ok ((k + 1 : Nat) : Int))
    (hb : s.freeBlocks[k + 1]? = some b) (heq : requiredSize size alignment = b.blockSize)
    (hword : s.mapped.hasWord (s.startPtr + b.memBlockOffset) = true) :
    ∃ t x, s.freeMemBlocks.toList[s.currSize]? = some x ∧
      s.allocate .none size alignment =
        .ok (some (s.startPtr + b.memBlockOffset + cAllocationHeaderSize),
          s.granted t (s.currSize - 1) (s.startPtr + b.memBlockOffset)
            (requiredSize size alignment)) ∧
      t.toList.take (s.currSize - 1) = (s.freeBlocks.set k x).take (s.currSize - 1) := by
  obtain ⟨hk, hbt⟩ := getElem?_freeBlocks hb
  have hlen : s.freeMemBlocks.toList.length = freeMemBlocksSize := by simp
  obtain ⟨x, hx⟩ : ∃ x, s.freeMemBlocks.toList[s.currSize]? = some x :=
    ⟨_, List.getElem?_eq_getElem (by omega)⟩
  obtain ⟨y, hy⟩ : ∃ y, s.freeMemBlocks.toList[k]? = some y :=
    ⟨_, List.getElem?_eq_getElem (by omega)⟩
  obtain ⟨t, hswap, ht⟩ := swapBlocks_ok hy hx
  have hrest : ¬SizeT.sub b.blockSize (requiredSize size alignment) > 0 := by
    rw [heq]
    unfold SizeT.sub SizeT.ofInt
    omega
  have hidx : ((k + 1 : Nat) : Int) - 1 = k := by omega
  have hsub : SizeT.sub (s.withTable t s.currSize).currSize 1 = s.currSize - 1 :=
    sub_one_currSize (s := s.withTable t s.currSize) (Nat.le_of_lt hcap)
      (by show 0 < s.currSize; omega)
  have hcarve : s.carve (k + 1 : Nat) b (requiredSize size alignment) =
      .ok (s.withTable t (s.currSize - 1)) := by
    simp only [carve, if_neg hrest, hidx, hswap, ok_bind, hsub]
    rfl
  refine ⟨t, x, hx, ?_, ?_⟩
  · rw [allocate_carved hne h hb hcarve, if_pos hword]
  · rw [ht, freeBlocks, List.take_set_of_le (by omega), ← List.take_set, List.take_take,
      Nat.min_eq_left (by omega)]

/-- The exact fit of entry 0 swaps slot `-1`. -/
theorem allocate_exact_zero (hne : alignment ≠ 0) {b : MemBlock}
    (h : s.findFreeMemBlockIndex (requiredSize size alignment) = .ok ((0 : Nat) : Int))
    (hb : s.freeBlocks[0]? = some b) (heq : requiredSize size alignment = b.blockSize) :
    s.allocate .none size alignment = .error .outOfBounds := by
  have hrest : ¬SizeT.sub b.blockSize (requiredSize size alignment) > 0 := by
    rw [heq]
    unfold SizeT.sub SizeT.ofInt
    omega
  rw [allocate_found hne h hb]
  simp only [carve, if_neg hrest]
  rw [swapBlocks_neg (by omega)]
  rfl

/-! ## `Free` -/

/-- A full table: `false`, nothing changed. -/
theorem free_full (merge : MergePolicy) (ptr : Nat) (h : s.currSize = freeMemBlocksSize) :
    s.free .none merge ptr = .ok (false, s) := by
  have hfull : s.shouldFullMerge = true := by simp [shouldFullMerge, h]
  simp only [free, lock, pure_bind, hfull, if_true]
  rfl

/-- The state `Free` merges in: a block pushed behind the free blocks, its
header subtracted from the counter. -/
def released (s : FreeListAllocator) (t : Vector MemBlock freeMemBlocksSize) (header : Nat) :
    FreeListAllocator :=
  { s.withTable t (s.currSize + 1) with used := SizeT.sub s.used header }

@[simp] theorem freeBlocks_released {t : Vector MemBlock freeMemBlocksSize} {header : Nat} :
    (s.released t header).freeBlocks = t.toList.take (s.currSize + 1) := rfl

/-- Behind the header that `Allocate` wrote lies the pointer it returned. -/
@[simp] theorem allocationHeader_add (a : Nat) :
    allocationHeader (a + cAllocationHeaderSize) = a := by
  rw [allocationHeader, if_pos (Nat.le_add_left ..), Nat.add_sub_cancel]

/-- The block `Free` makes of a pointer. -/
def blockOf (s : FreeListAllocator) (ptr : Nat) : MemBlock where
  memBlockOffset := SizeT.uint32OfInt ((allocationHeader ptr : Int) - s.startPtr)
  blockSize := s.mem.readWord (allocationHeader ptr)

/-- `Free` with room in the table pushes a block and merges, once it has read
the header. -/
theorem free_push (merge : MergePolicy) (ptr : Nat) (h : s.currSize < freeMemBlocksSize) :
    ∃ t, s.free .none merge ptr =
        (if s.mapped.hasWord (allocationHeader ptr) then
          ((s.released t (s.blockOf ptr).blockSize).mergeContiguous merge).map
            (fun s' => (true, s'))
        else .error .unmapped) ∧
      t.toList.take (s.currSize + 1) = s.freeBlocks ++ [s.blockOf ptr] := by
  have hcap := freeMemBlocksSize_eq
  have hfull : s.shouldFullMerge = false := by simp [shouldFullMerge]; omega
  obtain ⟨t₁, hset₁, ht₁⟩ := setBlock_ok (s := s) h ⟨(s.blockOf ptr).memBlockOffset, 0⟩
  obtain ⟨t₂, hset₂, ht₂⟩ := setBlock_ok (s := s.withTable t₁ (s.currSize + 1)) h (s.blockOf ptr)
  have hadd : SizeT.add s.currSize 1 = s.currSize + 1 := SizeT.add_of_lt (by omega)
  have hsub : SizeT.sub (s.currSize + 1) 1 = s.currSize := by
    rw [SizeT.sub_of_le (by omega) (by omega), Nat.add_sub_cancel]
  refine ⟨t₂, ?_, ?_⟩
  · rw [blockOf] at hset₁
    simp only [free, lock, pure_bind, hfull, Bool.false_eq_true, if_false, hset₁, ok_bind]
    show ((if s.mapped.hasWord (allocationHeader ptr) then
        (Except.ok (s.mem.readWord (allocationHeader ptr)) : Except Stuck Nat)
      else .error .unmapped) >>= fun blockSize => (do
        let s' ← setBlock (s.withTable t₁ (SizeT.add s.currSize 1))
          (SizeT.sub (SizeT.add s.currSize 1) 1 : Nat) ⟨(s.blockOf ptr).memBlockOffset, blockSize⟩
        _ : Except Stuck (Bool × FreeListAllocator))) = _
    split
    · rw [ok_bind, hadd, hsub]
      show (setBlock (s.withTable t₁ (s.currSize + 1)) s.currSize (s.blockOf ptr) >>= _) = _
      rw [hset₂, ok_bind]
      show ((s.released t₂ (s.blockOf ptr).blockSize).mergeContiguous merge >>= _) = _
      cases mergeContiguous _ merge <;> rfl
    · rfl
  · have hlen : s.currSize < s.freeMemBlocks.toList.length := by simpa using h
    rw [ht₂]
    show (t₁.toList.set s.currSize _).take (s.currSize + 1) = _
    rw [ht₁, List.set_set, List.take_add_one, List.getElem?_set_self hlen,
      List.take_set_of_le (Nat.le_refl _)]
    rfl

/-- A header that can be read: a push, then a merge. -/
theorem free_spec (merge : MergePolicy) (ptr : Nat) (h : s.currSize < freeMemBlocksSize)
    (hword : s.mapped.hasWord (allocationHeader ptr) = true) :
    ∃ t, s.free .none merge ptr =
        ((s.released t (s.blockOf ptr).blockSize).mergeContiguous merge).map
          (fun s' => (true, s')) ∧
      t.toList.take (s.currSize + 1) = s.freeBlocks ++ [s.blockOf ptr] := by
  obtain ⟨t, hrun, ht⟩ := free_push merge ptr h
  exact ⟨t, hrun.trans (if_pos hword), ht⟩

/-- Every merge policy does no more than join free blocks that touch. -/
theorem mergeContiguous_spec (hcap : s.currSize ≤ freeMemBlocksSize) (hpos : 0 < s.currSize)
    (merge : MergePolicy) :
    ∃ t n, s.mergeContiguous merge = .ok (s.withTable t n) ∧ n ≤ s.currSize ∧
      (t.toList.take n = s.freeBlocks ∨
        t.toList.take n = mergeAt touches join s.freeBlocks (s.currSize - 1) ∨
        t.toList.take n = pass touches join s.freeBlocks) := by
  have hsame : ∃ t n, (.ok s : Except Stuck FreeListAllocator) = .ok (s.withTable t n) ∧
      n ≤ s.currSize ∧ t.toList.take n = s.freeBlocks :=
    ⟨s.freeMemBlocks, s.currSize, rfl, Nat.le_refl _, rfl⟩
  cases merge with
  | enableFastMerge =>
      obtain ⟨t, n, hrun, hle, -, ht⟩ :=
        fastMergeMemBlocks_spec hcap (show s.currSize - 1 < s.currSize by omega)
      exact ⟨t, n, hrun, hle, Or.inr (Or.inl ht)⟩
  | enableFullMerge =>
      obtain ⟨t, n, hrun, hle, ht⟩ := fullMergeMemBlocks_spec hcap
      exact ⟨t, n, hrun, hle, Or.inr (Or.inr ht)⟩
  | enableFullMergeIfNoSpace =>
      simp only [mergeContiguous]
      split
      · obtain ⟨t, n, hrun, hle, ht⟩ := fullMergeMemBlocks_spec hcap
        exact ⟨t, n, hrun, hle, Or.inr (Or.inr ht)⟩
      · obtain ⟨t, n, hrun, hle, ht⟩ := hsame
        exact ⟨t, n, hrun, hle, Or.inl ht⟩

/-- `Free` with any argument: it refuses on a full table, faults on a header
that cannot be read, else changes the table and the counter. -/
theorem InTable.free_cases (h : InTable s) (merge : MergePolicy) (ptr : Nat) :
    s.currSize = freeMemBlocksSize ∧ s.free .none merge ptr = .ok (false, s) ∨
      s.currSize < freeMemBlocksSize ∧
        (s.mapped.hasWord (allocationHeader ptr) = false ∧
            s.free .none merge ptr = .error .unmapped ∨
          s.mapped.hasWord (allocationHeader ptr) = true ∧ ∃ t n, n ≤ s.currSize + 1 ∧
            s.free .none merge ptr = .ok (true, { s.withTable t n with
              used := SizeT.sub s.used (s.blockOf ptr).blockSize })) := by
  rcases Nat.eq_or_lt_of_le h with hfull | hcap
  · exact Or.inl ⟨hfull, free_full merge ptr hfull⟩
  · refine Or.inr ⟨hcap, ?_⟩
    obtain ⟨t, hfree, -⟩ := free_push merge ptr hcap
    cases hword : s.mapped.hasWord (allocationHeader ptr) with
    | false => exact Or.inl ⟨rfl, hfree.trans (if_neg (by rw [hword]; exact Bool.false_ne_true))⟩
    | true =>
        obtain ⟨t', n, hmerge, hn, -⟩ :=
          mergeContiguous_spec (s := s.released t (s.blockOf ptr).blockSize)
            (Nat.succ_le_of_lt hcap) (Nat.succ_pos _) merge
        refine Or.inr ⟨rfl, t', n, hn, ?_⟩
        rw [hfree, if_pos hword, hmerge]
        rfl

/-- What a `Free` that returns has done. -/
theorem InTable.free_ok (h : InTable s) {merge : MergePolicy} {ptr : Nat} {r : Bool}
    {s' : FreeListAllocator} (hrun : s.free .none merge ptr = .ok (r, s')) :
    s.currSize = freeMemBlocksSize ∧ r = false ∧ s' = s ∨
      s.currSize < freeMemBlocksSize ∧ r = true ∧
        ∃ t n, n ≤ s.currSize + 1 ∧ s' = { s.withTable t n with
          used := SizeT.sub s.used (s.blockOf ptr).blockSize } := by
  rcases h.free_cases merge ptr with
    ⟨hfull, hno⟩ | ⟨hcap, ⟨-, herr⟩ | ⟨-, t, n, hn, hyes⟩⟩
  · obtain ⟨rfl, rfl⟩ := Prod.mk.inj (Except.ok.inj (hrun.symm.trans hno))
    exact Or.inl ⟨hfull, rfl, rfl⟩
  · cases hrun.symm.trans herr
  · obtain ⟨rfl, rfl⟩ := Prod.mk.inj (Except.ok.inj (hrun.symm.trans hyes))
    exact Or.inr ⟨hcap, rfl, t, n, hn, rfl⟩

end FreeListAllocator

end MemAlloc
