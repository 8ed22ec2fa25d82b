import MemAlloc.FreeListOps

/-!
# One full merge is complete

`FullMergeMemBlocks` on any list of free blocks, in any order: it stays in
the list (`fullMergeBelow_eq`), covers what the list covered
(`pass_covers`), keeps disjoint blocks disjoint (`pass_apart`), and
leaves no two blocks that touch. Which blocks are left is then determined,
and `IsFullyMerged` says whether they covered the arena.

That the merge stays in the list is said by a copy of the code in which
every access is also checked against the `m_currSize` of the moment: it
returns what the code returns.
-/

namespace MemAlloc

open Coalesce MemBlock

/-! ## What a join covers -/

namespace MemBlock

variable {a b : MemBlock}

theorem mem_join (ha : a.InRange) (hb : b.InRange) (ht : touches a b = true) (x : Nat) :
    x ∈ (join a b).extent.bytes ↔ x ∈ a.extent.bytes ∨ x ∈ b.extent.bytes := by
  rcases join_cases ha hb ht with ⟨hab, hj⟩ | ⟨hab, hj⟩ <;>
    simp only [hj, extent, Extent.mem_bytes, Extent.stop] <;> omega

theorem blockSize_join (ha : a.InRange) (hb : b.InRange) (ht : touches a b = true) :
    (join a b).blockSize = a.blockSize + b.blockSize := by
  rcases join_cases ha hb ht with ⟨-, hj⟩ | ⟨-, hj⟩
  · rw [hj]
  · rw [hj, Nat.add_comm]

/-- The byte is in one of the blocks. -/
def Covers (l : List MemBlock) (x : Nat) : Prop := ∃ b ∈ l, x ∈ b.extent.bytes

/-- The blocks are non-empty and do not overlap. -/
structure Apart (l : List MemBlock) : Prop where
  pos : ∀ b ∈ l, 0 < b.blockSize
  disjoint : l.Pairwise fun a b => Disjoint a.extent.bytes b.extent.bytes

theorem Apart.perm {l l' : List MemBlock} (h : Apart l) (hp : l.Perm l') : Apart l' where
  pos b hb := h.pos b (hp.mem_iff.mpr hb)
  disjoint := (hp.pairwise_iff fun {_ _} hd => hd.symm).mp h.disjoint

theorem Apart.join {rest : List MemBlock} (h : Apart (a :: b :: rest)) (ha : a.InRange)
    (hb : b.InRange) (ht : touches a b = true) : Apart (join a b :: rest) := by
  obtain ⟨hda, hd⟩ := List.pairwise_cons.mp h.disjoint
  obtain ⟨hdb, hrest⟩ := List.pairwise_cons.mp hd
  refine ⟨?_, List.pairwise_cons.mpr ⟨?_, hrest⟩⟩
  · intro c hc
    rcases List.mem_cons.mp hc with rfl | hc
    · have hpos := h.pos a (by simp)
      rw [blockSize_join ha hb ht]
      omega
    · exact h.pos c (by simp [hc])
  · intro c hc
    rw [Finset.disjoint_left]
    intro x hx
    rcases (mem_join ha hb ht x).mp hx with hxa | hxb
    · exact Finset.disjoint_left.mp (hda c (by simp [hc])) hxa
    · exact Finset.disjoint_left.mp (hdb c hc) hxb

end MemBlock

/-! ## What the pass keeps -/

section

variable {l : List MemBlock} (hrange : ∀ b ∈ l, b.InRange)
include hrange

theorem pass_inRange : ∀ b ∈ Coalesce.pass touches join l, b.InRange := by
  refine pass_induction (P := fun l : List MemBlock => ∀ b ∈ l, b.InRange)
    (fun l l' hp h b hb => h b (hp.mem_iff.mpr hb)) ?_ hrange
  intro a b rest ht h c hc
  rcases List.mem_cons.mp hc with rfl | hc
  · exact laws.join_ok a b (h a (by simp)) (h b (by simp)) ht
  · exact h c (by simp [hc])

theorem pass_covers (x : Nat) : Covers (Coalesce.pass touches join l) x ↔ Covers l x := by
  refine (pass_induction (P := fun l' => (∀ b ∈ l', b.InRange) ∧ (Covers l' x ↔ Covers l x))
    ?_ ?_ ⟨hrange, Iff.rfl⟩).2
  · rintro l₁ l₂ hp ⟨h, hx⟩
    refine ⟨fun b hb => h b (hp.mem_iff.mpr hb), ?_⟩
    rw [← hx]
    exact exists_congr fun b => and_congr_left fun _ => hp.symm.mem_iff
  · rintro a b rest ht ⟨h, hx⟩
    have ha := h a (by simp)
    have hb := h b (by simp)
    refine ⟨?_, ?_⟩
    · intro c hc
      rcases List.mem_cons.mp hc with rfl | hc
      · exact laws.join_ok a b ha hb ht
      · exact h c (by simp [hc])
    · rw [← hx]
      simp only [Covers, List.mem_cons, exists_eq_or_imp, mem_join ha hb ht, or_assoc]

theorem pass_apart (h : Apart l) : Apart (Coalesce.pass touches join l) ∧
    ((Coalesce.pass touches join l).map blockSize).sum = (l.map blockSize).sum := by
  refine (pass_induction (P := fun l' => (∀ b ∈ l', b.InRange) ∧ Apart l' ∧
    (l'.map blockSize).sum = (l.map blockSize).sum) ?_ ?_ ⟨hrange, h, rfl⟩).2
  · rintro l₁ l₂ hp ⟨hr, hd, hsum⟩
    refine ⟨fun b hb => hr b (hp.mem_iff.mpr hb), hd.perm hp, ?_⟩
    rw [← hsum]
    exact (hp.map _).sum_eq.symm
  · rintro a b rest ht ⟨hr, hd, hsum⟩
    have ha := hr a (by simp)
    have hb := hr b (by simp)
    refine ⟨?_, hd.join ha hb ht, ?_⟩
    · intro c hc
      rcases List.mem_cons.mp hc with rfl | hc
      · exact laws.join_ok a b ha hb ht
      · exact hr c (by simp [hc])
    · rw [← hsum]
      simp only [List.map_cons, List.sum_cons, blockSize_join ha hb ht, Nat.add_assoc]

theorem pass_extents_separated :
    Separated ((Coalesce.pass touches join l).map extent) := by
  have hsep := pass_separated laws hrange
  refine List.pairwise_map.mpr (hsep.imp_of_mem ?_)
  intro a b ha hb hne htouch
  rw [(touches_iff (pass_inRange hrange a ha) (pass_inRange hrange b hb)).mpr htouch] at hne
  cases hne

end

namespace FreeListAllocator

variable {s : FreeListAllocator}

/-! ## Accesses below `m_currSize` -/

section Below

variable (s)

/-- `m_freeMemBlocks[i]`, read, if `i` is below `m_currSize`. -/
def blockBelow (i : Int) : Except Stuck MemBlock :=
  if i < s.currSize then s.blockAt i else .error .outOfBounds

/-- `m_freeMemBlocks[i] = b`, if `i` is below `m_currSize`. -/
def setBelow (i : Int) (b : MemBlock) : Except Stuck FreeListAllocator :=
  if i < s.currSize then s.setBlock i b else .error .outOfBounds

def swapBelow (i j : Int) : Except Stuck FreeListAllocator := do
  let bi ← s.blockBelow i
  let bj ← s.blockBelow j
  let s ← s.setBelow i bj
  s.setBelow j bi

/-- `fastMergeLoop`, with the checks. -/
def fastMergeLoopBelow (s : FreeListAllocator) (pivotIndex : Nat) :
    Nat → Except Stuck FreeListAllocator
  | 0 => .ok s
  | i + 1 => do
      let block ← s.blockBelow i
      let pivotMemBlock ← s.blockBelow pivotIndex
      if SizeT.add block.memBlockOffset block.blockSize == pivotMemBlock.memBlockOffset then
        let s ← s.setBelow i
          { block with blockSize := SizeT.add block.blockSize pivotMemBlock.blockSize }
        let s ← s.swapBelow pivotIndex (SizeT.sub s.currSize 1)
        return { s with currSize := SizeT.sub s.currSize 1 }
      else if block.memBlockOffset
          == SizeT.add pivotMemBlock.memBlockOffset pivotMemBlock.blockSize then
        let s ← s.setBelow i
          { memBlockOffset := pivotMemBlock.memBlockOffset
            blockSize := SizeT.add block.blockSize pivotMemBlock.blockSize }
        let s ← s.swapBelow pivotIndex (SizeT.sub s.currSize 1)
        return { s with currSize := SizeT.sub s.currSize 1 }
      else fastMergeLoopBelow s pivotIndex i

/-- `fullMergeLoop`, with the checks. -/
def fullMergeLoopBelow (s : FreeListAllocator) : Nat → Except Stuck FreeListAllocator
  | 0 => .ok s
  | i + 1 => do
      let s ← fastMergeLoopBelow s i i
      fullMergeLoopBelow s i

def fullMergeBelow : Except Stuck FreeListAllocator := fullMergeLoopBelow s s.currSize

end Below

theorem setBlock_currSize {i : Int} {b : MemBlock} {s' : FreeListAllocator}
    (h : s.setBlock i b = .ok s') : s'.currSize = s.currSize := by
  unfold setBlock at h
  split at h
  · obtain rfl := Except.ok.inj h
    rfl
  · cases h

theorem swapBelow_eq {i j : Int} (hi : i < s.currSize) (hj : j < s.currSize) :
    s.swapBelow i j = s.swapBlocks i j := by
  simp only [swapBelow, swapBlocks, blockBelow, setBelow, if_pos hi, if_pos hj]
  cases s.blockAt i with
  | error e => rfl
  | ok bi =>
      cases s.blockAt j with
      | error e => rfl
      | ok bj =>
          simp only [ok_bind]
          cases hset : s.setBlock i bj with
          | error e => rfl
          | ok s' =>
              simp only [ok_bind]
              rw [setBlock_currSize hset, if_pos hj]

/-- Both joining branches stay below `m_currSize`. -/
theorem joinBelow_eq (hcap : s.currSize ≤ freeMemBlocksSize) {i q : Nat} (hiq : i < q)
    (hq : q < s.currSize) (c : MemBlock) :
    (do
      let s ← s.setBelow i c
      let s ← s.swapBelow q (SizeT.sub s.currSize 1)
      return { s with currSize := SizeT.sub s.currSize 1 } : Except Stuck FreeListAllocator) =
    (do
      let s ← s.setBlock i c
      let s ← s.swapBlocks q (SizeT.sub s.currSize 1)
      return { s with currSize := SizeT.sub s.currSize 1 }) := by
  rw [setBelow, if_pos (by omega)]
  cases hset : s.setBlock i c with
  | error e => rfl
  | ok s' =>
      have hsame := setBlock_currSize hset
      have hlast := sub_one_currSize (s := s') (by omega) (by omega)
      simp only [ok_bind]
      rw [swapBelow_eq (by omega) (by omega)]

theorem fastMergeLoopBelow_eq (hcap : s.currSize ≤ freeMemBlocksSize) {q : Nat}
    (hq : q < s.currSize) : ∀ {i : Nat}, i ≤ q →
      fastMergeLoopBelow s q i = fastMergeLoop s q i
  | 0, _ => rfl
  | i + 1, hi => by
      have hread : ∀ {k : Nat}, k ≤ q → s.blockBelow k = s.blockAt k := fun hk =>
        if_pos (by omega)
      simp only [fastMergeLoopBelow, fastMergeLoop, hread (Nat.le_of_succ_le hi),
        hread (Nat.le_refl q), joinBelow_eq hcap (show i < q by omega) hq,
        fastMergeLoopBelow_eq hcap hq (Nat.le_of_succ_le hi)]

theorem fullMergeLoopBelow_eq : ∀ {q : Nat} {s : FreeListAllocator},
    s.currSize ≤ freeMemBlocksSize → q ≤ s.currSize →
      fullMergeLoopBelow s q = fullMergeLoop s q
  | 0, _, _, _ => rfl
  | q + 1, s, hcap, hq => by
      obtain ⟨t, n, hrun, hle, hge, -⟩ :=
        fastMergeMemBlocks_spec hcap (show q < s.currSize by omega)
      rw [fullMergeLoopBelow, fullMergeLoop,
        fastMergeLoopBelow_eq hcap (show q < s.currSize by omega) (Nat.le_refl q),
        ← fastMergeMemBlocks, hrun, ok_bind, ok_bind]
      exact fullMergeLoopBelow_eq (Nat.le_trans hle hcap) (show q ≤ n by omega)

/-- `FullMergeMemBlocks` accesses slots below the `m_currSize` of the moment
only. -/
theorem fullMergeBelow_eq (hcap : s.currSize ≤ freeMemBlocksSize) :
    s.fullMergeBelow = s.fullMergeMemBlocks :=
  fullMergeLoopBelow_eq hcap (Nat.le_refl _)

/-! ## The full merge -/

/-- `IsFullyMerged`, by the list of free blocks. -/
theorem isFullyMerged_iff (hcap : s.currSize ≤ freeMemBlocksSize) :
    s.isFullyMerged = true ↔ s.freeBlocks = [⟨0, s.totalSize⟩] := by
  have hlen : s.freeMemBlocks.toList.length = freeMemBlocksSize := by simp
  have hslot : s.freeMemBlocks.toList[0]? = some (s.freeMemBlocks.get ⟨0, by decide⟩) :=
    List.getElem?_eq_getElem (by rw [hlen]; decide)
  have hone : s.freeMemBlocks.toList.take 1 = [s.freeMemBlocks.get ⟨0, by decide⟩] := by
    rw [List.take_add_one, hslot]
    rfl
  simp only [isFullyMerged, Bool.and_eq_true, beq_iff_eq]
  constructor
  · rintro ⟨⟨hcur, hoffset⟩, hsize⟩
    rw [freeBlocks, hcur, hone]
    exact congrArg (fun b => [b]) (congrArg₂ MemBlock.mk hoffset hsize)
  · intro hblocks
    have hcur := length_freeBlocks hcap
    rw [hblocks, List.length_singleton] at hcur
    rw [freeBlocks, ← hcur, hone] at hblocks
    rw [List.head_eq_of_cons_eq hblocks]
    exact ⟨⟨hcur.symm, rfl⟩, rfl⟩

/-- **One pass is complete.** `FullMergeMemBlocks` on a list of at least one
block, in any order, whose ends do not overflow: no access leaves the list,
the bytes covered and the counter stay, no two blocks that are left touch;
blocks that were non-empty and disjoint still are, with the same total, and
are fully merged if and only if they covered exactly the arena. -/
theorem fullMerge_complete (hcur : 1 ≤ s.currSize) (hcap : s.currSize ≤ freeMemBlocksSize)
    (hrange : ∀ b ∈ s.freeBlocks, b.InRange) :
    ∃ s', s.fullMergeMemBlocks = .ok s' ∧ s.fullMergeBelow = .ok s' ∧
      (∀ x, Covers s'.freeBlocks x ↔ Covers s.freeBlocks x) ∧ s'.used = s.used ∧
      Separated (s'.freeBlocks.map extent) ∧
      (Apart s.freeBlocks → Apart s'.freeBlocks ∧
        (s'.freeBlocks.map blockSize).sum = (s.freeBlocks.map blockSize).sum ∧
        (s'.isFullyMerged = true ↔ ∀ x, x < s.totalSize ↔ Covers s.freeBlocks x)) := by
  obtain ⟨t, n, hrun, hn, ht⟩ := fullMergeMemBlocks_spec hcap
  have hblocks : (s.withTable t n).freeBlocks = Coalesce.pass touches join s.freeBlocks := ht
  have hmerged := isFullyMerged_iff (s := s.withTable t n) (Nat.le_trans hn hcap)
  refine ⟨_, hrun, (fullMergeBelow_eq hcap).trans hrun, ?_, rfl, ?_, ?_⟩
  · rw [hblocks]
    exact pass_covers hrange
  · rw [hblocks]
    exact pass_extents_separated hrange
  intro hapart
  obtain ⟨hapart', hsum⟩ := pass_apart hrange hapart
  rw [hmerged, hblocks]
  refine ⟨hapart', hsum, ?_⟩
  have hcovers := pass_covers hrange
  constructor
  · intro hone x
    rw [← hcovers, hone]
    simp [Covers, extent, Extent.stop, withTable]
  · intro harena
    obtain ⟨b, hb⟩ : ∃ b, s.freeBlocks[0]? = some b :=
      ⟨_, List.getElem?_eq_getElem (by rw [length_freeBlocks hcap]; omega)⟩
    have hmem := List.mem_of_getElem? hb
    have hpos : 0 < s.totalSize := Nat.zero_lt_of_lt
      ((harena _).mpr ⟨b, hmem, Extent.start_mem (hapart.pos b hmem)⟩)
    have htiles : Tiles s.totalSize ((Coalesce.pass touches join s.freeBlocks).map extent) := by
      refine ⟨List.forall_mem_map.mpr hapart'.pos, List.pairwise_map.mpr hapart'.disjoint, ?_⟩
      intro x
      rw [harena x, ← hcovers x]
      simp [Covers]
    exact List.map_injective_iff.mpr extent_injective
      (htiles.eq_single (pass_extents_separated hrange) hpos)

/-- Three blocks that cover the arena, none of them next to the one it
touches. -/
def scattered : FreeListAllocator where
  totalSize := 48
  currSize := 3
  freeMemBlocks := threeSlots ⟨32, 16⟩ ⟨0, 16⟩ ⟨16, 16⟩
  mem _ := 0

/-- They are fully merged. -/
theorem fullMerge_complete_scattered :
    ∃ s', scattered.fullMergeMemBlocks = .ok s' ∧ s'.isFullyMerged = true := by
  have hblocks : scattered.freeBlocks = [⟨32, 16⟩, ⟨0, 16⟩, ⟨16, 16⟩] := by decide +kernel
  obtain ⟨s', hrun, -, -, -, -, hmerge⟩ := fullMerge_complete (s := scattered) (by decide)
    (by decide) (by rw [hblocks]; simp [InRange])
  rw [hblocks] at hmerge
  obtain ⟨-, -, hmerged⟩ := hmerge ⟨by simp, by simp [extent, Extent.disjoint_iff, Extent.stop]⟩
  refine ⟨s', hrun, hmerged.mpr ?_⟩
  intro x
  simp [Covers, extent, Extent.stop, scattered]
  omega

end FreeListAllocator

end MemAlloc
