import MemAlloc.FreeListCapacity

/-!
# When `Allocate` finds room

The search looks at single entries, and the shipped policy leaves free
blocks that touch unmerged until the table is full. So `Allocate` refuses a
request exactly when the table is full or no single entry is large enough
(`allocate_eq_none_iff`), however long a contiguous run of free bytes the
arena has.

After `FullMergeMemBlocks` the entries are the maximal runs of free bytes
(`WF.exists_block_of_freeRun`): unless the table is full even then, a
request is refused only if no run is long enough.
-/

namespace MemAlloc

open FreeListAllocator

namespace Session

variable {totalSize arena : Nat} {merge : MergePolicy} {w : Session}

/-- The bytes `[x, x + n)` of the arena are in no live block. -/
def FreeRun (totalSize : Nat) (w : Session) (x n : Nat) : Prop :=
  x + n ≤ totalSize ∧
    ∀ y, x ≤ y → y < x + n → ∀ l ∈ w.live, y ∉ (liveExtent w.alloc l).bytes

theorem required_pos {r : Request} (hr : r.Valid) : 0 < r.required := by
  obtain ⟨-, k, hk, hal⟩ := hr
  have := requiredSize_gt r.size hk
  rw [Request.required, hal]
  omega

/-- The search fails on a full table, or when no entry is large enough. -/
theorem WF.find_eq_neg_one_iff (h : WF totalSize arena w) {required : Nat} (hpos : 0 < required) :
    w.alloc.findFreeMemBlockIndex required = .ok (-1) ↔
      w.alloc.currSize = freeMemBlocksSize ∨ ∀ b ∈ w.alloc.freeBlocks, b.blockSize < required :=
  FreeListAllocator.find_eq_neg_one_iff h.cap hpos
    (fun b hb => by have := h.laid.block_le hb; have := h.small; omega) h.freeBlocks_eq_nil

/-- `Allocate` returns `nullptr` when the search fails, and only then. -/
theorem allocate_none_iff (hcap : w.alloc.currSize ≤ freeMemBlocksSize) {size alignment : Nat}
    (hne : alignment ≠ 0) :
    (∃ a, w.alloc.allocate .none size alignment = .ok (none, a)) ↔
      w.alloc.findFreeMemBlockIndex (requiredSize size alignment) = .ok (-1) := by
  constructor
  · rintro ⟨a, ha⟩
    rcases (InTable.allocate_ok hcap ha).2 with
      ⟨hfind, -, -⟩ | ⟨k, b, t, n, -, -, -, -, -, -, hsome, -⟩
    · exact hfind
    · cases hsome
  · exact fun h => ⟨w.alloc, allocate_refuse hne h⟩

/-- In a separated free list a run of free bytes lies in one entry. -/
theorem WF.exists_block_of_freeRun (h : WF totalSize arena w)
    (hsep : Separated (w.alloc.freeBlocks.map MemBlock.extent)) {x n : Nat} (hn : 0 < n)
    (hrun : FreeRun totalSize w x n) : ∃ b ∈ w.alloc.freeBlocks, n ≤ b.blockSize := by
  have hcov : ∀ y, x ≤ y → y < x + n →
      ∃ e ∈ w.alloc.freeBlocks.map MemBlock.extent, y ∈ e.bytes := by
    intro y hxy hyx
    obtain ⟨e, he, hye⟩ := (h.tiles.cover y).mp (by have := hrun.1; omega)
    rcases List.mem_append.mp he with hfree | hlive
    · exact ⟨e, hfree, hye⟩
    · obtain ⟨l, hl, rfl⟩ := List.mem_map.mp hlive
      exact absurd hye (hrun.2 y hxy hyx l hl)
  obtain ⟨e, he, hstart, hstop⟩ := exists_cover_of_separated
    (List.pairwise_append.mp h.tiles.disjoint).1 hsep hn hcov
  obtain ⟨b, hb, rfl⟩ := List.mem_map.mp he
  refine ⟨b, hb, ?_⟩
  simp only [Extent.stop, MemBlock.extent] at hstart hstop
  omega

/-- After a full merge that leaves a slot, a long enough run of free bytes
means that the request is not refused. -/
theorem WF.allocate_after_fullMerge (h : WF totalSize arena w) {r : Request} (hr : r.Valid) :
    ∃ a, w.alloc.fullMergeMemBlocks = .ok a ∧ (a.currSize < freeMemBlocksSize →
      ∀ x n, FreeRun totalSize w x n → r.required ≤ n →
        (∀ a', a.allocate .none r.size r.alignment ≠ .ok (none, a')) ∧
        (CleanFit ⟨a, w.live⟩ r.call →
          ∃ ptr a', a.allocate .none r.size r.alignment = .ok (some ptr, a'))) := by
  obtain ⟨t, n, hmerge, hn, ht⟩ := fullMergeMemBlocks_spec h.cap
  have hw := h.merged hn (Or.inr (Or.inr ht))
  refine ⟨_, hmerge, fun hroom x k hrun hk => ?_⟩
  have hpos := required_pos hr
  have hrefuse : ∀ a', (w.alloc.withTable t n).allocate .none r.size r.alignment
      ≠ .ok (none, a') := by
    intro a' ha'
    have hfind := (allocate_none_iff hw.cap hr.alignment_ne).mp ⟨a', ha'⟩
    rcases (hw.find_eq_neg_one_iff hpos).mp hfind with hfull | hsmall
    · exact absurd hfull (Nat.ne_of_lt hroom)
    · obtain ⟨b, hb, hle⟩ :=
        hw.exists_block_of_freeRun (h.laid.separated ht) (Nat.lt_of_lt_of_le hpos hk) hrun
      exact absurd (hsmall b hb) (by omega)
  refine ⟨hrefuse, fun hclean => ?_⟩
  obtain ⟨hsize, hal⟩ := hr
  obtain ⟨w', hstep, -, -⟩ := hw.step_allocate cMergePolicy ⟨by omega, hal⟩ hclean
  cases hres : (w.alloc.withTable t n).allocate .none r.size r.alignment with
  | error e =>
      rw [step, hres] at hstep
      cases hstep
  | ok res =>
      obtain ⟨_ | ptr, a'⟩ := res
      · exact absurd hres (hrefuse a')
      · exact ⟨ptr, a', rfl⟩

/-- **When a request is refused.** After a run of legal clean calls,
`Allocate` returns `nullptr`, changing nothing, exactly when the table is
full or no single entry is large enough. After one `FullMergeMemBlocks`
that leaves a slot, no request is refused for which the arena has a
contiguous run of free bytes. -/
theorem allocate_eq_none_iff {totalSize : Nat} (hsmall : totalSize < 2 ^ 32) (merge : MergePolicy)
    (arena : Nat) (mem : Memory) (calls : List FreeListCall)
    (hlegal : Runs.All (step merge) Legal (start totalSize arena mem) calls)
    (hclean : Runs.All (step merge) CleanFit (start totalSize arena mem) calls) :
    ∃ w, Runs.exec (step merge) (start totalSize arena mem) calls = .ok w ∧
      ∀ r : Request, r.Valid →
        (w.alloc.allocate .none r.size r.alignment = .ok (none, w.alloc) ↔
          w.alloc.currSize = freeMemBlocksSize ∨
            ∀ b ∈ w.alloc.freeBlocks, b.blockSize < r.required) ∧
        (∀ a, w.alloc.allocate .none r.size r.alignment = .ok (none, a) → a = w.alloc) ∧
        ∃ a, w.alloc.fullMergeMemBlocks = .ok a ∧ (a.currSize < freeMemBlocksSize →
          ∀ x n, FreeRun totalSize w x n → r.required ≤ n →
            (∀ a', a.allocate .none r.size r.alignment ≠ .ok (none, a')) ∧
            (CleanFit ⟨a, w.live⟩ r.call →
              ∃ ptr a', a.allocate .none r.size r.alignment = .ok (some ptr, a'))) := by
  rcases Nat.eq_zero_or_pos totalSize with rfl | hpos
  · -- an empty arena refuses everything, and has no run of free bytes
    obtain ⟨w, hrun, hw⟩ := exec_void hlegal
    refine ⟨w, hrun, fun r hr => ?_⟩
    have hreq := required_pos hr
    have hnone := hw.allocate r.size hr.alignment_ne
    refine ⟨iff_of_true hnone (Or.inr fun b hb => ?_), fun a ha => ?_, ?_⟩
    · rw [hw.free] at hb
      obtain rfl := List.mem_singleton.mp hb
      exact hreq
    · exact (congrArg Prod.snd (Except.ok.inj (hnone.symm.trans ha))).symm
    · obtain ⟨a, ha, -⟩ := hw.fullMergeMemBlocks
      refine ⟨a, ha, fun _ x n hfree hle => ?_⟩
      have := hfree.1
      omega
  · obtain ⟨w, hrun, hw⟩ := exec_wf hpos hsmall hlegal hclean
    refine ⟨w, hrun, fun r hr => ?_⟩
    have hreq := required_pos hr
    have hsame : ∀ a, w.alloc.allocate .none r.size r.alignment = .ok (none, a) → a = w.alloc := by
      intro a ha
      rcases (InTable.allocate_ok hw.cap ha).2 with
        ⟨-, -, hsame⟩ | ⟨k, b, t, n, -, -, -, -, -, -, hsome, -⟩
      · exact hsame
      · cases hsome
    refine ⟨?_, hsame, hw.allocate_after_fullMerge hr⟩
    rw [← hw.find_eq_neg_one_iff hreq, ← allocate_none_iff hw.cap hr.alignment_ne]
    exact ⟨fun h => ⟨_, h⟩, fun ⟨a, ha⟩ => by rw [ha, hsame a ha]⟩

/-- The equivalence on a session with two free blocks. -/
theorem allocate_eq_none_iff_two_blocks :
    ∃ w, Runs.exec (step cMergePolicy) (start 256 4096 fun _ => 0)
        [.allocate 8 8, .allocate 8 8, .free 4104] = .ok w ∧
      (w.alloc.allocate .none 256 8 = .ok (none, w.alloc) ↔
        w.alloc.currSize = freeMemBlocksSize ∨ ∀ b ∈ w.alloc.freeBlocks, b.blockSize < 272) := by
  obtain ⟨w, hrun, hall⟩ := allocate_eq_none_iff (show 256 < 2 ^ 32 by decide) cMergePolicy 4096
    (fun _ => 0) [.allocate 8 8, .allocate 8 8, .free 4104] (all_legal (by decide +kernel))
    (by decide +kernel)
  have hreq : (⟨256, 8⟩ : Request).required = 272 := by decide +kernel
  obtain ⟨hiff, -⟩ := hall ⟨256, 8⟩ ⟨by decide, 3, by decide, rfl⟩
  rw [hreq] at hiff
  exact ⟨w, hrun, hiff⟩

/-- Two blocks of 16 bytes freed side by side stay two entries: a request
for their 32 bytes is refused. -/
theorem refused_despite_freeRun :
    Runs.All (step cMergePolicy) Legal (start 64 4096 fun _ => 0)
        [.allocate 0 8, .allocate 0 8, .allocate 0 8, .free 4104, .free 4120] ∧
      ∃ w, Runs.exec (step cMergePolicy) (start 64 4096 fun _ => 0)
          [.allocate 0 8, .allocate 0 8, .allocate 0 8, .free 4104, .free 4120] = .ok w ∧
        FreeRun 64 w 0 32 ∧ (⟨16, 8⟩ : Request).required = 32 ∧
        ∃ a, w.alloc.allocate .none 16 8 = .ok (none, a) := by
  refine ⟨all_legal (by decide +kernel), ?_⟩
  have hlive : (Runs.exec (step cMergePolicy) (start 64 4096 fun _ => 0)
      [.allocate 0 8, .allocate 0 8, .allocate 0 8, .free 4104, .free 4120]).map
        (fun w => (w.live.map (liveExtent w.alloc), (w.alloc.allocate .none 16 8).map (·.1)))
      = .ok ([⟨32, 16⟩], .ok none) := by decide +kernel
  obtain ⟨w, hrun, hw⟩ := map_eq_ok.mp hlive
  obtain ⟨hext, hnone⟩ := Prod.mk.inj hw
  refine ⟨w, hrun, ⟨by decide, fun y _ hy l hl hmem => ?_⟩, by decide +kernel, ?_⟩
  · have := List.mem_map_of_mem (f := liveExtent w.alloc) hl
    rw [hext, List.mem_singleton] at this
    rw [this, Extent.mem_bytes] at hmem
    simp only at hmem
    omega
  · obtain ⟨⟨result, a⟩, hres, rfl⟩ := map_eq_ok.mp hnone
    exact ⟨a, hres⟩

end Session

end MemAlloc
