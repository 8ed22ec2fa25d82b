import MemAlloc.FreeListCompleteness

/-!
# How fragmented the free list gets

Free blocks no two of which touch lie between live blocks, so there is at
most one more of them than of these (`Laid.currSize_le`). Two bounds follow:

- `few_live_unhindered` - under either policy that merges the whole list,
  the table never gets in the way as long as fewer blocks are live at each
  `Free` than it has slots;
- `eager_merge_complete` - under the policy that merges at every `Free` the
  free blocks are at all times the maximal runs of free bytes, and a request
  is refused only if no run is long enough.
-/

namespace MemAlloc

open FreeListAllocator

namespace Session

variable {totalSize arena : Nat} {merge : MergePolicy} {w w' : Session}

theorem Laid.currSize_le (h : Laid totalSize arena w)
    (hsep : Separated (w.alloc.freeBlocks.map MemBlock.extent)) :
    w.alloc.currSize ≤ w.live.length + 1 := by
  have hle := h.tiles.length_le_of_separated hsep
  rwa [List.length_map, List.length_map, length_freeBlocks h.cap] at hle

/-! ## The table never fills -/

/-- `Free` returns `true`, and `Allocate` refuses only if no entry is large
enough. -/
def Unhindered (merge : MergePolicy) (w : Session) : FreeListCall → Prop
  | .allocate size alignment => ∀ a, w.alloc.allocate .none size alignment = .ok (none, a) →
      ∀ b ∈ w.alloc.freeBlocks, b.blockSize < requiredSize size alignment
  | .free ptr => ∃ a, w.alloc.free .none merge ptr = .ok (true, a)
  | _ => True

/-- `Free` is called with fewer blocks live than the table has slots. -/
def FewLive (w : Session) : FreeListCall → Prop
  | .free _ => w.live.length < freeMemBlocksSize
  | _ => True

/-- A block takes at least 9 bytes. -/
theorem WF.live_length_lt (h : WF totalSize arena w) (htotal : totalSize < 9 * freeMemBlocksSize) :
    w.live.length < freeMemBlocksSize := by
  have hnine : ∀ n ∈ w.live.map (header w.alloc), 9 ≤ n := by
    intro n hn
    obtain ⟨l, hl, rfl⟩ := List.mem_map.mp hn
    have := (h.lease l hl).2
    have hhead : cAllocationHeaderSize = 8 := rfl
    omega
  have hsum := List.card_nsmul_le_sum _ 9 hnine
  have hfree := h.laid.used_add_free
  rw [List.length_map, ← h.used, Nat.nsmul_eq_mul] at hsum
  omega

/-- In a small arena few blocks are ever live. -/
theorem fewLive_of_small (hpos : 0 < totalSize) (htotal : totalSize < 9 * freeMemBlocksSize)
    {arena : Nat} {mem : Memory} {calls : List FreeListCall}
    (hlegal : Runs.All (step merge) Legal (start totalSize arena mem) calls)
    (hclean : Runs.All (step merge) CleanFit (start totalSize arena mem) calls) :
    Runs.All (step merge) FewLive (start totalSize arena mem) calls := by
  have hsmall : totalSize < 2 ^ 32 := Nat.lt_trans htotal (by decide)
  have hwf := Runs.steps_inv (WF totalSize arena)
    (fun w call hw (hcall : Legal w call ∧ CleanFit w call) => step_wf hw merge hcall.1 hcall.2)
    (wf_start hpos hsmall arena mem) fun x hx => ⟨hlegal x hx, hclean x hx⟩
  intro x hx
  have hlt := (hwf x hx).live_length_lt htotal
  cases hcall : x.2 <;> first | exact hlt | trivial

/-- A slot is left. -/
structure Roomy (totalSize arena : Nat) (w : Session) : Prop extends WF totalSize arena w where
  room : w.alloc.currSize < freeMemBlocksSize

/-- The merge of `Free` leaves a slot: a full table is merged, and holds at
most one block more than are live. -/
theorem WF.mergeContiguous_roomy (h : WF totalSize arena w) (hmerge : merge ≠ .enableFastMerge)
    (hfew : w.live.length + 1 < freeMemBlocksSize) :
    ∃ a, w.alloc.mergeContiguous merge = .ok a ∧ Roomy totalSize arena ⟨a, w.live⟩ := by
  have hfull : ∃ a, w.alloc.fullMergeMemBlocks = .ok a ∧ Roomy totalSize arena ⟨a, w.live⟩ := by
    obtain ⟨t, n, hrun, hn, ht⟩ := fullMergeMemBlocks_spec h.cap
    have hw := h.merged hn (Or.inr (Or.inr ht))
    have hle := hw.laid.currSize_le (h.laid.separated ht)
    exact ⟨_, hrun, hw, Nat.lt_of_le_of_lt hle hfew⟩
  cases merge with
  | enableFastMerge => exact absurd rfl hmerge
  | enableFullMerge => exact hfull
  | enableFullMergeIfNoSpace =>
      simp only [FreeListAllocator.mergeContiguous]
      split
      · exact hfull
      · rename_i hroom
        simp only [shouldFullMerge, beq_iff_eq] at hroom
        exact ⟨_, rfl, h, Nat.lt_of_le_of_ne h.cap hroom⟩

/-- **Step lemma.** With a slot left, few live blocks and a policy that
merges the whole list, a clean call is unhindered and leaves a slot. -/
theorem Roomy.step (h : Roomy totalSize arena w) (hmerge : merge ≠ .enableFastMerge)
    {call : FreeListCall} (hlegal : Legal w call) (hclean : CleanFit w call)
    (hfew : FewLive w call) :
    (∃ w', step merge w call = .ok w' ∧ Roomy totalSize arena w') ∧ Unhindered merge w call := by
  cases call with
  | allocate size alignment =>
      refine ⟨?_, ?_⟩
      · obtain ⟨w', hrun, hw', hroom⟩ := h.toWF.step_allocate merge hlegal hclean
        refine ⟨w', hrun, hw', ?_⟩
        rcases hroom with rfl | hlt
        · exact h.room
        · exact hlt
      · intro a ha
        obtain ⟨-, k, hk, rfl⟩ := hlegal
        have hreq := requiredSize_gt size hk
        have hfind := (allocate_none_iff h.cap (Nat.two_pow_pos k).ne').mp ⟨a, ha⟩
        exact ((h.toWF.find_eq_neg_one_iff (by omega)).mp hfind).resolve_left
          (Nat.ne_of_lt h.room)
  | free ptr =>
      obtain ⟨l, hl, rfl⟩ := hlegal
      obtain ⟨a, hrun, ha, -⟩ := h.toWF.free_pushes merge hl h.room
      have hlen : (w.live.eraseP (·.ptr == l.ptr)).length + 1 = w.live.length := by
        rw [List.length_eraseP_of_mem hl (by simp)]
        have := List.length_pos_of_mem hl
        omega
      obtain ⟨a', hmerged, hroom⟩ := ha.mergeContiguous_roomy hmerge (by rw [hlen]; exact hfew)
      rw [hmerged] at hrun
      exact ⟨⟨_, step_free_true hrun, hroom⟩, a', hrun⟩
  | fullMergeMemBlocks =>
      obtain ⟨t, n, hrun, hn, ht⟩ := fullMergeMemBlocks_spec h.cap
      refine ⟨⟨_, by rw [Session.step, hrun]; rfl, h.toWF.merged hn (Or.inr (Or.inr ht)), ?_⟩,
        trivial⟩
      exact Nat.lt_of_le_of_lt hn h.room
  | clientWrites m => exact ⟨⟨_, rfl, h.toWF.clientWrites hlegal, h.room⟩, trivial⟩

/-- **Few live blocks never fill the table.** In a run of legal clean calls
under a policy that merges the whole list, every `Free` returns `true` and
no `Allocate` is refused because of the table, as long as fewer than
`freeMemBlocksSize` blocks are live at each `Free`. -/
theorem few_live_unhindered (hpos : 0 < totalSize) (hsmall : totalSize < 2 ^ 32)
    (hmerge : merge ≠ .enableFastMerge) (arena : Nat) (mem : Memory) {calls : List FreeListCall}
    (hlegal : Runs.All (step merge) Legal (start totalSize arena mem) calls)
    (hclean : Runs.All (step merge) CleanFit (start totalSize arena mem) calls)
    (hfew : Runs.All (step merge) FewLive (start totalSize arena mem) calls) :
    Runs.All (step merge) (Unhindered merge) (start totalSize arena mem) calls := by
  have hstart : Roomy totalSize arena (start totalSize arena mem) :=
    ⟨wf_start hpos hsmall arena mem, show 1 < freeMemBlocksSize by decide⟩
  have hroomy := Runs.steps_inv (Roomy totalSize arena)
    (fun w call hw (hcall : Legal w call ∧ CleanFit w call ∧ FewLive w call) =>
      (hw.step hmerge hcall.1 hcall.2.1 hcall.2.2).1) hstart
    fun x hx => ⟨hlegal x hx, hclean x hx, hfew x hx⟩
  exact fun x hx => ((hroomy x hx).step hmerge (hlegal x hx) (hclean x hx) (hfew x hx)).2

/-- The bound on an arena of 256 bytes. -/
theorem few_live_unhindered_pair :
    Runs.All (step cMergePolicy) (Unhindered cMergePolicy) (start 256 4096 fun _ => 0)
      [.allocate 8 8, .allocate 8 8, .free 4104, .free 4128, .allocate 64 8] := by
  have hlegal : Runs.All (step cMergePolicy) Legal (start 256 4096 fun _ => 0)
      [.allocate 8 8, .allocate 8 8, .free 4104, .free 4128, .allocate 64 8] :=
    all_legal (by decide +kernel)
  have hclean : Runs.All (step cMergePolicy) CleanFit (start 256 4096 fun _ => 0)
      [.allocate 8 8, .allocate 8 8, .free 4104, .free 4128, .allocate 64 8] := by
    decide +kernel
  exact few_live_unhindered (by decide) (by decide) (by decide) 4096 _ hlegal hclean
    (fewLive_of_small (by decide) (by decide) hlegal hclean)

/-! ## Merging at every `Free` -/

/-- The byte of the arena is in no live block. -/
def FreeByte (totalSize : Nat) (w : Session) (x : Nat) : Prop :=
  x < totalSize ∧ ∀ l ∈ w.live, x ∉ (liveExtent w.alloc l).bytes

theorem WF.freeByte_iff (h : WF totalSize arena w) (x : Nat) :
    FreeByte totalSize w x ↔ ∃ e ∈ w.alloc.freeBlocks.map MemBlock.extent, x ∈ e.bytes := by
  constructor
  · rintro ⟨hx, hlive⟩
    obtain ⟨e, he, hxe⟩ := (h.tiles.cover x).mp hx
    rcases List.mem_append.mp he with hfree | hl
    · exact ⟨e, hfree, hxe⟩
    · obtain ⟨l, hmem, rfl⟩ := List.mem_map.mp hl
      exact absurd hxe (hlive l hmem)
  · rintro ⟨e, he, hxe⟩
    refine ⟨(h.tiles.cover x).mpr ⟨e, List.mem_append_left _ he, hxe⟩, fun l hl hxl => ?_⟩
    have hd := (List.pairwise_append.mp h.tiles.disjoint).2.2 e he _ (List.mem_map_of_mem hl)
    exact Finset.disjoint_left.mp hd hxe hxl

/-- No two free blocks touch. -/
structure Eager (totalSize arena : Nat) (w : Session) : Prop extends WF totalSize arena w where
  separated : Separated (w.alloc.freeBlocks.map MemBlock.extent)

theorem eager_start (hpos : 0 < totalSize) (hsmall : totalSize < 2 ^ 32) (arena : Nat)
    (mem : Memory) : Eager totalSize arena (start totalSize arena mem) where
  toWF := wf_start hpos hsmall arena mem
  separated := by
    rw [freeBlocks_start]
    exact List.pairwise_singleton _ _

/-- Carving the front off a block makes it touch nothing new. -/
theorem Eager.carved (h : Eager totalSize arena w) {k : Nat} {b : MemBlock}
    (hb : w.alloc.freeBlocks[k]? = some b) {required : Nat} (hreq : 0 < required)
    (hlt : required < b.blockSize) :
    Separated ((w.alloc.freeBlocks.set k
      ⟨b.memBlockOffset + required, b.blockSize - required⟩).map MemBlock.extent) := by
  obtain ⟨hk, hget⟩ := List.getElem?_eq_some_iff.mp hb
  have hsplit : (b :: w.alloc.freeBlocks.eraseIdx k).Perm w.alloc.freeBlocks :=
    hget ▸ List.getElem_cons_eraseIdx_perm hk
  obtain ⟨hfront, hrest⟩ :=
    List.pairwise_cons.mp (h.separated.perm (hsplit.map MemBlock.extent).symm)
  have hdisj := h.toWF.tiles_cons hb
  refine Separated.perm ?_ ((List.set_perm_cons_eraseIdx hk _).map MemBlock.extent).symm
  refine List.pairwise_cons.mpr ⟨fun e he htouch => ?_, hrest⟩
  have hne := hfront e he
  have hpos := hdisj.pos e (List.mem_cons_of_mem _ (List.mem_append_left _ he))
  have hap := (Extent.disjoint_iff (hdisj.pos _ (List.mem_cons_self ..)) hpos).mp
    (hdisj.disjoint_head (List.mem_append_left _ he))
  simp only [Extent.Touches, Extent.stop, MemBlock.extent] at *
  omega

theorem Eager.allocate (h : Eager totalSize arena w) {size alignment : Nat}
    (hlegal : Legal w (.allocate size alignment)) (hclean : CleanFit w (.allocate size alignment)) :
    ∃ w', step merge w (.allocate size alignment) = .ok w' ∧ Eager totalSize arena w' := by
  obtain ⟨w', hrun, hw', -⟩ := h.toWF.step_allocate merge hlegal hclean
  refine ⟨w', hrun, hw', ?_⟩
  rcases h.toWF.allocate_clean merge hlegal hclean with
    hsame | ⟨k, b, t, n, hb, -, hreq, hok, ⟨hlt, rfl, ht⟩ | ⟨-, -, -, rfl, ht⟩⟩
  · obtain rfl := Except.ok.inj (hsame.symm.trans hrun)
    exact h.separated
  · obtain rfl := Except.ok.inj (hok.symm.trans hrun)
    rw [freeBlocks_granted, ht]
    exact h.carved hb (by omega) hlt
  · -- the clean exact fit drops the last block
    obtain rfl := Except.ok.inj (hok.symm.trans hrun)
    rw [freeBlocks_granted, ht]
    exact List.Pairwise.sublist ((List.take_sublist _ _).map _) h.separated

/-- Below capacity `Free` of a live pointer succeeds and merges everything. -/
theorem WF.free_eager (h : WF totalSize arena w) {l : Lease} (hl : l ∈ w.live)
    (hcap : w.alloc.currSize < freeMemBlocksSize) :
    ∃ a, w.alloc.free .none .enableFullMerge l.ptr = .ok (true, a) ∧
      Eager totalSize arena ⟨a, w.live.eraseP (·.ptr == l.ptr)⟩ ∧
      a.mem = w.alloc.mem ∧ a.startPtr = w.alloc.startPtr := by
  obtain ⟨a, hrun, ha, -, -, hmem, hbase⟩ := h.free_pushes .enableFullMerge hl hcap
  obtain ⟨t, n, hmerge, hn, ht⟩ := fullMergeMemBlocks_spec ha.cap
  rw [show a.mergeContiguous .enableFullMerge = .ok (a.withTable t n) from hmerge] at hrun
  exact ⟨_, hrun, ⟨ha.merged hn (Or.inr (Or.inr ht)), ha.laid.separated ht⟩, hmem, hbase⟩

/-- **Step lemma.** -/
theorem Eager.step (h : Eager totalSize arena w) {call : FreeListCall} (hlegal : Legal w call)
    (hclean : CleanFit w call) :
    ∃ w', step .enableFullMerge w call = .ok w' ∧ Eager totalSize arena w' := by
  cases call with
  | allocate size alignment => exact h.allocate hlegal hclean
  | free ptr =>
      obtain ⟨l, hl, rfl⟩ := hlegal
      by_cases hfull : w.alloc.currSize = freeMemBlocksSize
      · exact ⟨w, step_free_false (free_full _ l.ptr hfull), h⟩
      · obtain ⟨a, hrun, ha, -⟩ := h.toWF.free_eager hl (Nat.lt_of_le_of_ne h.cap hfull)
        exact ⟨_, step_free_true hrun, ha⟩
  | fullMergeMemBlocks =>
      obtain ⟨t, n, hrun, hn, ht⟩ := fullMergeMemBlocks_spec h.cap
      exact ⟨_, by rw [Session.step, hrun]; rfl, h.toWF.merged hn (Or.inr (Or.inr ht)),
        h.toWF.laid.separated ht⟩
  | clientWrites m => exact ⟨_, rfl, h.toWF.clientWrites hlegal, h.separated⟩

/-- A free block is a run of free bytes. -/
theorem WF.freeRun_of_block (h : WF totalSize arena w) {b : MemBlock}
    (hb : b ∈ w.alloc.freeBlocks) : FreeRun totalSize w b.memBlockOffset b.blockSize := by
  refine ⟨(h.laid.block_le hb).2, fun y hlo hhi => ?_⟩
  exact ((h.freeByte_iff y).mpr
    ⟨_, List.mem_map_of_mem hb, Extent.mem_bytes.mpr ⟨hlo, hhi⟩⟩).2

/-- **Merging at every `Free` is complete.** After a run of legal clean calls
under this policy the free blocks are the maximal runs of free bytes. As long
as the live blocks leave a slot of the table, a request is refused exactly
when no run is long enough for it, and `Free` of a live pointer returns
`true` and frees its bytes. -/
theorem eager_merge_complete (hpos : 0 < totalSize) (hsmall : totalSize < 2 ^ 32) (arena : Nat)
    (mem : Memory) {calls : List FreeListCall}
    (hlegal : Runs.All (step .enableFullMerge) Legal (start totalSize arena mem) calls)
    (hclean : Runs.All (step .enableFullMerge) CleanFit (start totalSize arena mem) calls) :
    ∃ w, Runs.exec (step .enableFullMerge) (start totalSize arena mem) calls = .ok w ∧
      (∀ e, e ∈ w.alloc.freeBlocks.map MemBlock.extent ↔
        MaximalRun (FreeByte totalSize w) e) ∧
      (w.live.length + 1 < freeMemBlocksSize →
        (∀ r : Request, r.Valid →
          ((∃ a, w.alloc.allocate .none r.size r.alignment = .ok (none, a)) ↔
            ¬∃ x n, FreeRun totalSize w x n ∧ r.required ≤ n)) ∧
        ∀ l ∈ w.live, ∃ a, w.alloc.free .none .enableFullMerge l.ptr = .ok (true, a) ∧
          ∀ x ∈ (liveExtent w.alloc l).bytes, ∃ b ∈ a.freeBlocks, x ∈ b.extent.bytes) := by
  obtain ⟨w, hrun, hw⟩ := Runs.exec_inv (Eager totalSize arena)
    (fun w call => Legal w call ∧ CleanFit w call)
    (fun _ _ hw hcall => hw.step hcall.1 hcall.2) (eager_start hpos hsmall arena mem)
    fun x hx => ⟨hlegal x hx, hclean x hx⟩
  have hdisj := List.pairwise_append.mp hw.tiles.disjoint
  refine ⟨w, hrun, fun e => ?_, fun hfew => ⟨fun r hr => ?_, fun l hl => ?_⟩⟩
  · exact mem_iff_maximalRun (fun e he => hw.tiles.pos e (List.mem_append_left _ he)) hdisj.1
      hw.separated hw.toWF.freeByte_iff
  · have hroom := Nat.lt_of_le_of_lt (hw.toWF.laid.currSize_le hw.separated) hfew
    have hreq := required_pos hr
    rw [allocate_none_iff hw.cap hr.alignment_ne, hw.toWF.find_eq_neg_one_iff hreq,
      or_iff_right (Nat.ne_of_lt hroom)]
    constructor
    · rintro hnone ⟨x, n, hfree, hle⟩
      obtain ⟨b, hb, hn⟩ := hw.toWF.exists_block_of_freeRun hw.separated (by omega) hfree
      have := hnone b hb
      omega
    · intro hnone b hb
      by_contra hle
      exact hnone ⟨_, _, hw.toWF.freeRun_of_block hb, Nat.le_of_not_lt hle⟩
  · have hroom := Nat.lt_of_le_of_lt (hw.toWF.laid.currSize_le hw.separated) hfew
    obtain ⟨a, hfree, ha, hmem, hbase⟩ := hw.toWF.free_eager hl hroom
    exact ⟨a, hfree, fun x hx => hw.toWF.freed_bytes hl ha.toWF hmem hbase hx⟩

/-- Two blocks freed side by side make room for a request of both. -/
theorem eager_merge_complete_beside :
    ∃ w, Runs.exec (step .enableFullMerge) (start 64 4096 fun _ => 0)
        [.allocate 0 8, .allocate 0 8, .allocate 0 8, .free 4104, .free 4120] = .ok w ∧
      ((∃ a, w.alloc.allocate .none 16 8 = .ok (none, a)) ↔
        ¬∃ x n, FreeRun 64 w x n ∧ (⟨16, 8⟩ : Request).required ≤ n) := by
  obtain ⟨w, hrun, -, hroom⟩ := eager_merge_complete (show 0 < 64 by decide) (by decide) 4096
    (fun _ => 0) (all_legal (by decide +kernel)) (show Runs.All (step .enableFullMerge) CleanFit _
      [.allocate 0 8, .allocate 0 8, .allocate 0 8, .free 4104, .free 4120] by decide +kernel)
  have hlive : (Runs.exec (step .enableFullMerge) (start 64 4096 fun _ => 0)
      [.allocate 0 8, .allocate 0 8, .allocate 0 8, .free 4104, .free 4120]).map
        (·.live.length) = .ok 1 := by decide +kernel
  rw [hrun] at hlive
  have hone : w.live.length = 1 := Except.ok.inj hlive
  obtain ⟨hrefused, -⟩ := hroom (by rw [hone]; decide)
  exact ⟨w, hrun, hrefused ⟨16, 8⟩ ⟨by decide, 3, by decide, rfl⟩⟩

end Session

end MemAlloc
