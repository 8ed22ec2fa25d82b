import MemAlloc.FreeListPhases

/-!
# The full table

`m_freeMemBlocks` has a fixed number of slots. Under the shipped policy a
`Free` that fills the last slot merges the whole list; the table stays full
only if no two of its blocks touch (`Settled`). From then on every `Free`
returns `false` and every `Allocate` returns `nullptr`.

Below capacity every `Free` of a live pointer returns `true` and the bytes
of the block are free again.
-/

namespace MemAlloc

open FreeListAllocator

namespace Session

variable {totalSize arena : Nat} {merge : MergePolicy} {w w' : Session}

/-- Whenever the table is full its blocks are pairwise apart. -/
def Settled (w : Session) : Prop :=
  w.alloc.currSize = freeMemBlocksSize → Separated (w.alloc.freeBlocks.map MemBlock.extent)

theorem settled_start (totalSize arena : Nat) (mem : Memory) :
    Settled (start totalSize arena mem) := by
  intro hfull
  have : (start totalSize arena mem).alloc.currSize = 1 := rfl
  rw [this] at hfull
  exact absurd hfull (by decide)

/-- `Free`'s own merge leaves a full table only when nothing touches. -/
theorem WF.mergeContiguous_settled (h : WF totalSize arena w) (hpos : 0 < w.alloc.currSize) :
    ∃ a, w.alloc.mergeContiguous cMergePolicy = .ok a ∧ WF totalSize arena ⟨a, w.live⟩ ∧
      Settled ⟨a, w.live⟩ ∧ a.mem = w.alloc.mem ∧ a.startPtr = w.alloc.startPtr := by
  obtain ⟨t, n, hrun, hw⟩ := h.mergeContiguous cMergePolicy hpos
  refine ⟨_, hrun, hw, fun hfull => ?_, rfl, rfl⟩
  simp only [FreeListAllocator.mergeContiguous, cMergePolicy] at hrun
  split at hrun
  · obtain ⟨t', n', hrun', hn, ht⟩ := fullMergeMemBlocks_spec h.cap
    rw [← Except.ok.inj (hrun'.symm.trans hrun)]
    exact h.laid.separated ht
  · rename_i hroom
    have hsame := Except.ok.inj hrun
    have hfull' : w.alloc.currSize = freeMemBlocksSize := by rw [hsame]; exact hfull
    simp [shouldFullMerge, hfull'] at hroom

/-- Below capacity `Free` of a live pointer succeeds. -/
theorem WF.free_true (h : WF totalSize arena w) {l : Lease} (hl : l ∈ w.live)
    (hcap : w.alloc.currSize < freeMemBlocksSize) :
    ∃ a, w.alloc.free .none cMergePolicy l.ptr = .ok (true, a) ∧
      WF totalSize arena ⟨a, w.live.eraseP (·.ptr == l.ptr)⟩ ∧
      Settled ⟨a, w.live.eraseP (·.ptr == l.ptr)⟩ ∧
      a.mem = w.alloc.mem ∧ a.startPtr = w.alloc.startPtr := by
  obtain ⟨a, hrun, ha, -, hcur, hmem, hbase⟩ := h.free_pushes cMergePolicy hl hcap
  obtain ⟨a', hmerge, hw', hset, hmem', hbase'⟩ := ha.mergeContiguous_settled (by simp only; omega)
  rw [hmerge] at hrun
  exact ⟨a', hrun, hw', hset, hmem'.trans hmem, hbase'.trans hbase⟩

/-- The bytes of a block that was freed are in free blocks. -/
theorem WF.freed_bytes (h : WF totalSize arena w) {l : Lease} (hl : l ∈ w.live)
    {a : FreeListAllocator} (ha : WF totalSize arena ⟨a, w.live.eraseP (·.ptr == l.ptr)⟩)
    (hmem : a.mem = w.alloc.mem) (hbase : a.startPtr = w.alloc.startPtr) {x : Nat}
    (hx : x ∈ (liveExtent w.alloc l).bytes) : ∃ b ∈ a.freeBlocks, x ∈ b.extent.bytes := by
  have hext : ∀ l', liveExtent a l' = liveExtent w.alloc l' := fun l' => by
    simp only [liveExtent, header, hmem, hbase]
  have hlive : (liveExtent w.alloc l) ∈ w.extents :=
    List.mem_append_right _ (List.mem_map_of_mem hl)
  obtain ⟨e, he, hxe⟩ := (ha.tiles.cover x).mp ((h.tiles.cover x).mpr ⟨_, hlive, hx⟩)
  rcases List.mem_append.mp he with hfree | hother
  · obtain ⟨b, hb, rfl⟩ := List.mem_map.mp hfree
    exact ⟨b, hb, hxe⟩
  · -- another live block would share the byte
    obtain ⟨l', hl', rfl⟩ := List.mem_map.mp hother
    rw [hext] at hxe
    obtain ⟨l₀, l₁, l₂, -, hp, heq, her⟩ :=
      List.exists_of_eraseP hl (p := (·.ptr == l.ptr)) (by simp)
    have hsame : liveExtent w.alloc l₀ = liveExtent w.alloc l := by
      simp only [beq_iff_eq] at hp
      simp only [liveExtent, header, hp]
    have hperm : w.live.Perm (l₀ :: w.live.eraseP (·.ptr == l.ptr)) := by
      rw [her, heq]
      exact List.perm_middle
    have hdisj := (List.pairwise_append.mp h.tiles.disjoint).2.1
    have hdisj' := ((hperm.map (liveExtent w.alloc)).pairwise_iff fun {_ _} hd => hd.symm).mp hdisj
    rw [List.map_cons, List.pairwise_cons, hsame] at hdisj'
    exact absurd hxe (Finset.disjoint_left.mp (hdisj'.1 _ (List.mem_map_of_mem hl')) hx)

/-- A full table refuses every request. -/
theorem allocate_full (hfull : w.alloc.currSize = freeMemBlocksSize) (size : Nat)
    {alignment : Nat} (hne : alignment ≠ 0) :
    w.alloc.allocate .none size alignment = .ok (none, w.alloc) :=
  allocate_refuse hne (by rw [findFreeMemBlockIndex, if_pos]; simp [shouldFullMerge, hfull])

/-- Legal clean calls keep the invariant of a run under the shipped policy. -/
theorem step_settled (h : WF totalSize arena w) (hset : Settled w) {call : FreeListCall}
    (hlegal : Legal w call) (hclean : CleanFit w call) :
    ∃ w', step cMergePolicy w call = .ok w' ∧ WF totalSize arena w' ∧ Settled w' := by
  cases call with
  | allocate size alignment =>
      obtain ⟨w', hrun, hw', hroom⟩ := h.step_allocate cMergePolicy hlegal hclean
      refine ⟨w', hrun, hw', ?_⟩
      rcases hroom with rfl | hlt
      · exact hset
      · exact fun hfull => absurd hfull (Nat.ne_of_lt hlt)
  | free ptr =>
      obtain ⟨l, hl, rfl⟩ := hlegal
      by_cases hfull : w.alloc.currSize = freeMemBlocksSize
      · exact ⟨w, step_free_false (free_full _ l.ptr hfull), h, hset⟩
      · obtain ⟨a, hrun, hw', hset', -⟩ := h.free_true hl (Nat.lt_of_le_of_ne h.cap hfull)
        exact ⟨_, step_free_true hrun, hw', hset'⟩
  | fullMergeMemBlocks =>
      obtain ⟨t, n, hrun, hn, ht⟩ := fullMergeMemBlocks_spec h.cap
      exact ⟨_, by rw [step, hrun]; rfl, h.merged hn (Or.inr (Or.inr ht)),
        fun _ => h.laid.separated ht⟩
  | clientWrites m => exact ⟨_, rfl, h.clientWrites hlegal, hset⟩

/-- A full table is stuck: no `Allocate` or `Free` changes anything. -/
theorem exec_full (hfull : w.alloc.currSize = freeMemBlocksSize) {calls : List FreeListCall}
    (hcalls : ∀ call ∈ calls,
      (∃ size alignment, alignment ≠ 0 ∧ call = .allocate size alignment) ∨
        ∃ ptr, call = .free ptr) : Runs.exec (step merge) w calls = .ok w := by
  induction calls with
  | nil => rfl
  | cons call calls ih =>
      have hok : step merge w call = .ok w := by
        rcases hcalls call (List.mem_cons_self ..) with ⟨size, alignment, hne, rfl⟩ | ⟨ptr, rfl⟩
        · exact step_refuse (allocate_full hfull size hne)
        · exact step_free_false (free_full merge ptr hfull)
      rw [Runs.exec_cons_ok hok]
      exact ih fun call hmem => hcalls call (List.mem_cons_of_mem _ hmem)

/-! ## The empty arena -/

/-- The session on an arena of 0 bytes: one block of size 0, no room. -/
structure Void (w : Session) : Prop where
  full : w.alloc.used = w.alloc.totalSize
  cap : w.alloc.currSize = 1
  free : w.alloc.freeBlocks = [⟨0, 0⟩]
  live : w.live = []

theorem void_start (arena : Nat) (mem : Memory) : Void (start 0 arena mem) where
  full := rfl
  cap := rfl
  free := by rw [freeBlocks_start, SizeT.uint32_of_lt (by decide)]
  live := rfl

theorem Void.allocate (h : Void w) (size : Nat) {alignment : Nat} (hne : alignment ≠ 0) :
    w.alloc.allocate .none size alignment = .ok (none, w.alloc) :=
  allocate_refuse hne (by rw [findFreeMemBlockIndex, if_pos (Or.inr (Or.inr h.full))])

theorem Void.fullMergeMemBlocks (h : Void w) :
    ∃ a, w.alloc.fullMergeMemBlocks = .ok a ∧ Void ⟨a, w.live⟩ := by
  have hcap := freeMemBlocksSize_eq
  obtain ⟨t, n, hrun, hn, ht⟩ := fullMergeMemBlocks_spec (s := w.alloc) (by rw [h.cap]; omega)
  have hfree : t.toList.take n = [⟨0, 0⟩] := by
    rw [ht, h.free]
    exact Coalesce.passFrom_eq_self (List.pairwise_singleton _ _)
  have hlen := congrArg List.length hfree
  rw [List.length_take, List.length_singleton, Vector.length_toList] at hlen
  have hcur := h.cap
  exact ⟨_, hrun, h.full, by show n = 1; omega, hfree, h.live⟩

theorem step_void (h : Void w) {call : FreeListCall} (hlegal : Legal w call) :
    ∃ w', step merge w call = .ok w' ∧ Void w' := by
  cases call with
  | allocate size alignment =>
      obtain ⟨-, k, -, rfl⟩ := hlegal
      exact ⟨w, step_refuse (h.allocate size (Nat.two_pow_pos k).ne'), h⟩
  | free ptr =>
      obtain ⟨l, hl, -⟩ := hlegal
      rw [h.live] at hl
      cases hl
  | fullMergeMemBlocks =>
      obtain ⟨a, hrun, ha⟩ := h.fullMergeMemBlocks
      exact ⟨_, by rw [step, hrun]; rfl, ha⟩
  | clientWrites m => exact ⟨_, rfl, h.full, h.cap, h.free, h.live⟩

theorem exec_void {arena : Nat} {mem : Memory} {calls : List FreeListCall}
    (hlegal : Runs.All (step merge) Legal (start 0 arena mem) calls) :
    ∃ w, Runs.exec (step merge) (start 0 arena mem) calls = .ok w ∧ Void w :=
  Runs.exec_inv Void Legal (fun _ _ hw hl => step_void hw hl) (void_start arena mem) hlegal

/-! ## Release -/

/-- **Release and the capacity of the table.** After a run of legal clean
calls under the shipped policy, `Free` of a live pointer returns `true`,
and the bytes of its block are free again, exactly when the table is not
full. A full table holds blocks no two of which touch, and is stuck. -/
theorem free_iff_room {totalSize : Nat} (hsmall : totalSize < 2 ^ 32)
    (arena : Nat) (mem : Memory) (calls : List FreeListCall)
    (hlegal : Runs.All (step cMergePolicy) Legal (start totalSize arena mem) calls)
    (hclean : Runs.All (step cMergePolicy) CleanFit (start totalSize arena mem) calls) :
    ∃ w, Runs.exec (step cMergePolicy) (start totalSize arena mem) calls = .ok w ∧
      w.alloc.currSize ≤ freeMemBlocksSize ∧
      (w.alloc.currSize < freeMemBlocksSize → ∀ l ∈ w.live,
        ∃ a, w.alloc.free .none cMergePolicy l.ptr = .ok (true, a) ∧
          ∀ x ∈ (liveExtent w.alloc l).bytes, ∃ b ∈ a.freeBlocks, x ∈ b.extent.bytes) ∧
      (w.alloc.currSize = freeMemBlocksSize →
        Separated (w.alloc.freeBlocks.map MemBlock.extent) ∧
          (∀ ptr, w.alloc.free .none cMergePolicy ptr = .ok (false, w.alloc)) ∧
          (∀ size alignment, alignment ≠ 0 →
            w.alloc.allocate .none size alignment = .ok (none, w.alloc)) ∧
          ∀ later : List FreeListCall, (∀ call ∈ later,
              (∃ size alignment, alignment ≠ 0 ∧ call = .allocate size alignment) ∨
                ∃ ptr, call = .free ptr) →
            Runs.exec (step cMergePolicy) w later = .ok w) := by
  rcases Nat.eq_zero_or_pos totalSize with rfl | hpos
  · obtain ⟨w, hrun, hw⟩ := exec_void hlegal
    have hcur := hw.cap
    have hcap := freeMemBlocksSize_eq
    refine ⟨w, hrun, by omega, fun _ l hl => ?_, fun hfull => by omega⟩
    rw [hw.live] at hl
    cases hl
  obtain ⟨w, hrun, hw, hset⟩ := Runs.exec_inv (fun w => WF totalSize arena w ∧ Settled w)
    (fun w call => Legal w call ∧ CleanFit w call)
    (fun _ _ hw hcall => step_settled hw.1 hw.2 hcall.1 hcall.2)
    ⟨wf_start hpos hsmall arena mem, settled_start totalSize arena mem⟩
    fun x hx => ⟨hlegal x hx, hclean x hx⟩
  refine ⟨w, hrun, hw.cap, fun hroom l hl => ?_, fun hfull => ⟨hset hfull, fun ptr => ?_,
    fun size _ hne => allocate_full hfull size hne, fun later hlater => exec_full hfull hlater⟩⟩
  · obtain ⟨a, hok, ha, -, hmem, hbase⟩ := hw.free_true hl hroom
    exact ⟨a, hok, fun x hx => hw.freed_bytes hl ha hmem hbase hx⟩
  · exact free_full _ ptr hfull

/-- Two blocks are live, the table has room: either can be freed. -/
theorem free_iff_room_pair :
    ∃ w, Runs.exec (step cMergePolicy) (start 256 4096 fun _ => 0)
        [.allocate 8 8, .allocate 8 8, .allocate 8 8, .free 4104] = .ok w ∧
      ∀ l ∈ w.live, ∃ a, w.alloc.free .none cMergePolicy l.ptr = .ok (true, a) ∧
        ∀ x ∈ (liveExtent w.alloc l).bytes, ∃ b ∈ a.freeBlocks, x ∈ b.extent.bytes := by
  obtain ⟨w, hrun, -, hroom, -⟩ := free_iff_room (show 256 < 2 ^ 32 by decide) 4096 (fun _ => 0)
    [.allocate 8 8, .allocate 8 8, .allocate 8 8, .free 4104]
    (all_legal (by decide +kernel)) (by decide +kernel)
  have hcur : (Runs.exec (step cMergePolicy) (start 256 4096 fun _ => 0)
      [.allocate 8 8, .allocate 8 8, .allocate 8 8, .free 4104]).map (·.alloc.currSize)
        = .ok 2 := by
    decide +kernel
  rw [hrun] at hcur
  refine ⟨w, hrun, hroom ?_⟩
  rw [show w.alloc.currSize = 2 from Except.ok.inj hcur]
  decide

/-! ## A run that fills the table -/

/-- The free list when `n` blocks of 16 bytes were carved and every other
one of the first `2 * k` was freed. -/
def teeth (totalSize n k : Nat) : List MemBlock :=
  ⟨16 * n, totalSize - 16 * n⟩ :: (List.range k).map fun i => ⟨32 * i, 16⟩

theorem teeth_succ (totalSize n k : Nat) :
    teeth totalSize n (k + 1) = teeth totalSize n k ++ [⟨32 * k, 16⟩] := by
  simp [teeth, List.range_succ]

/-- The teeth are apart. -/
theorem teeth_separated (totalSize : Nat) {n k : Nat} (hk : 2 * k ≤ n) :
    Separated ((teeth totalSize n k).map MemBlock.extent) := by
  refine List.pairwise_map.mpr (List.pairwise_cons.mpr ⟨fun b hb => ?_, List.pairwise_map.mpr ?_⟩)
  · obtain ⟨i, hi, rfl⟩ := List.mem_map.mp hb
    have hik := List.mem_range.mp hi
    simp only [Extent.Touches, Extent.stop, MemBlock.extent]
    omega
  · refine List.Pairwise.imp (fun {i j} hij => ?_) List.pairwise_lt_range
    simp only [Extent.Touches, Extent.stop, MemBlock.extent]
    omega

/-- The free blocks are the teeth, the blocks between them are live. -/
structure Comb (totalSize arena n k : Nat) (w : Session) : Prop where
  wf : WF totalSize arena w
  free : w.alloc.freeBlocks = teeth totalSize n k
  live : ∀ i < n, i % 2 = 1 ∨ 2 * k ≤ i → ⟨arena + 16 * i + cAllocationHeaderSize, 0⟩ ∈ w.live
  headers : ∀ l ∈ w.live, header w.alloc l = 16

theorem Comb.allocate {n : Nat} (h : Comb totalSize arena n 0 w)
    (hroom : 16 * n + 16 < totalSize) :
    ∃ w', step cMergePolicy w (.allocate 0 8) = .ok w' ∧ Comb totalSize arena (n + 1) 0 w' := by
  have hreq : (⟨0, 8⟩ : Request).required = 16 := by decide +kernel
  obtain ⟨ptr, w', -, hrun, hw', hfree, hptr, hlive, hheads⟩ :=
    h.wf.allocate_unbroken (r := ⟨0, 8⟩) cMergePolicy h.free ⟨by decide, 3, by decide, rfl⟩
      (by rw [hreq]; exact hroom)
  rw [hreq] at hfree hheads
  refine ⟨w', hrun, hw', hfree, fun i hi hodd => ?_, fun l hl => ?_⟩
  · rw [hlive]
    rcases Nat.lt_succ_iff_lt_or_eq.mp hi with hlt | rfl
    · exact List.mem_cons_of_mem _ (h.live i hlt hodd)
    · rw [hptr]
      exact List.mem_cons_self ..
  · have hmem := List.mem_map_of_mem (f := header w'.alloc) hl
    rw [hheads] at hmem
    rcases List.mem_cons.mp hmem with heq | hold
    · exact heq
    · obtain ⟨l', hl', heq⟩ := List.mem_map.mp hold
      rw [← heq]
      exact h.headers l' hl'

theorem Comb.free_step {n k : Nat} (h : Comb totalSize arena n k w) (hk : 2 * k + 1 < n)
    (hcap : k + 1 < freeMemBlocksSize) :
    ∃ w', step cMergePolicy w (.free (arena + 32 * k + cAllocationHeaderSize)) = .ok w' ∧
      Comb totalSize arena n (k + 1) w' := by
  have hl := h.live (2 * k) (by omega) (Or.inr (Nat.le_refl _))
  rw [show 16 * (2 * k) = 32 * k by omega] at hl
  have hcur : w.alloc.currSize = k + 1 := by
    rw [← length_freeBlocks h.wf.cap, h.free]
    simp [teeth]
  obtain ⟨a, hrun, ha, hfree, hcur', hmem, hbase⟩ :=
    h.wf.free_pushes cMergePolicy hl (by omega)
  have hblock : w.alloc.blockOf (arena + 32 * k + cAllocationHeaderSize) = ⟨32 * k, 16⟩ := by
    refine MemBlock.extent_injective
      ((h.wf.laid.blockOf_extent hl).trans (Extent.ext ?_ (h.headers _ hl)))
    show arena + 32 * k + cAllocationHeaderSize - cAllocationHeaderSize - w.alloc.startPtr = 32 * k
    rw [h.wf.base]
    omega
  rw [h.free, hblock, ← teeth_succ] at hfree
  -- the teeth are apart, so the merge does nothing
  have hsep : a.freeBlocks.Pairwise fun b c => MemBlock.touches b c = false := by
    have hsep := teeth_separated totalSize (show 2 * (k + 1) ≤ n by omega)
    rw [← hfree] at hsep
    refine (List.pairwise_map.mp hsep).imp_of_mem fun {b c} hb hc hne => ?_
    rwa [← MemBlock.touches_iff (ha.laid.inRange hb) (ha.laid.inRange hc), Bool.not_eq_true] at hne
  obtain ⟨t, m, hmerge, hm, ht⟩ := mergeContiguous_spec ha.cap (by simp only; omega) cMergePolicy
  have htake : t.toList.take m = teeth totalSize n (k + 1) := by
    rw [← hfree]
    rcases ht with ht | ht | ht
    · exact ht
    · exact ht.trans (Coalesce.mergeAt_eq_self hsep _)
    · exact ht.trans (Coalesce.passFrom_eq_self hsep)
  rw [hmerge] at hrun
  refine ⟨_, step_free_true hrun,
    ha.merged hm (ht.imp_right (Or.imp_left fun hm => ⟨_, hm⟩)), htake, fun i hi hodd => ?_,
    fun l hl => ?_⟩
  · have hne : ¬((arena + 16 * i + cAllocationHeaderSize
        == arena + 32 * k + cAllocationHeaderSize) = true) := by
      rw [beq_iff_eq]
      omega
    exact (List.mem_eraseP_of_neg (p := (·.ptr == _)) hne).mpr (h.live i hi (by omega))
  · show Memory.readWord a.mem _ = 16
    rw [hmem]
    exact h.headers l (List.mem_of_mem_eraseP hl)

/-- `n` requests for 16 bytes each, then `k` frees of every other block. -/
def fill (arena n k : Nat) : List FreeListCall :=
  List.replicate n (.allocate 0 8) ++
    (List.range k).map fun i => .free (arena + 32 * i + cAllocationHeaderSize)

theorem exec_allocates {totalSize : Nat} (hpos : 0 < totalSize) (hsmall : totalSize < 2 ^ 32)
    (arena : Nat)
    (mem : Memory) : ∀ {n : Nat}, 16 * n < totalSize →
    Runs.All (step cMergePolicy) Legal (start totalSize arena mem)
        (List.replicate n (.allocate 0 8)) ∧
      ∃ w, Runs.exec (step cMergePolicy) (start totalSize arena mem)
          (List.replicate n (.allocate 0 8)) = .ok w ∧ Comb totalSize arena n 0 w
  | 0, _ => by
      refine ⟨Runs.all_nil _ _, _, rfl, wf_start hpos hsmall arena mem, ?_, ?_, ?_⟩
      · rw [freeBlocks_start, SizeT.uint32_of_lt hsmall]
        simp [teeth]
      · intro i hi
        exact absurd hi (Nat.not_lt_zero i)
      · intro l hl
        cases hl
  | n + 1, hroom => by
      obtain ⟨hlegal, w, hrun, hw⟩ := exec_allocates hpos hsmall arena mem (n := n) (by omega)
      obtain ⟨w', hok, hw'⟩ := hw.allocate (by omega)
      rw [List.replicate_succ', Runs.all_append hrun, Runs.exec_append hrun, Runs.exec_cons_ok hok]
      exact ⟨⟨hlegal, Runs.all_cons.mpr ⟨⟨by decide, 3, by decide, rfl⟩, fun _ _ =>
        Runs.all_nil _ _⟩⟩, w', rfl, hw'⟩

theorem exec_frees {n : Nat} (h : Comb totalSize arena n 0 w) : ∀ {k : Nat}, 2 * k ≤ n →
    k < freeMemBlocksSize →
    Runs.All (step cMergePolicy) Legal w
        ((List.range k).map fun i => .free (arena + 32 * i + cAllocationHeaderSize)) ∧
      ∃ w', Runs.exec (step cMergePolicy) w
          ((List.range k).map fun i => .free (arena + 32 * i + cAllocationHeaderSize)) = .ok w' ∧
        Comb totalSize arena n k w'
  | 0, _, _ => ⟨Runs.all_nil _ _, w, rfl, h⟩
  | k + 1, hk, hcap => by
      obtain ⟨hlegal, w', hrun, hw'⟩ := exec_frees h (k := k) (by omega) (by omega)
      obtain ⟨w'', hok, hw''⟩ := hw'.free_step (by omega) hcap
      have hlive := hw'.live (2 * k) (by omega) (Or.inr (Nat.le_refl _))
      rw [show 16 * (2 * k) = 32 * k by omega] at hlive
      rw [List.range_succ, List.map_append, List.map_singleton, Runs.all_append hrun,
        Runs.exec_append hrun, Runs.exec_cons_ok hok]
      exact ⟨⟨hlegal, Runs.all_cons.mpr ⟨⟨_, hlive, rfl⟩, fun _ _ => Runs.all_nil _ _⟩⟩,
        w'', rfl, hw''⟩

/-- 4088 blocks of 16 bytes with every other one freed fill the table; the
next `Free` of a live pointer fails. -/
theorem free_fails_when_full :
    Runs.All (step cMergePolicy) Legal (start 65424 4096 fun _ => 0) (fill 4096 4088 2044) ∧
      ∃ w, Runs.exec (step cMergePolicy) (start 65424 4096 fun _ => 0) (fill 4096 4088 2044)
          = .ok w ∧
        w.alloc.currSize = freeMemBlocksSize ∧
        ∃ l ∈ w.live, w.alloc.free .none cMergePolicy l.ptr = .ok (false, w.alloc) := by
  obtain ⟨hlegal, w, hrun, hw⟩ := exec_allocates (show 0 < 65424 by decide) (by decide)
    4096 (fun _ => 0) (n := 4088) (by decide)
  obtain ⟨hlegal', w', hrun', hw'⟩ := exec_frees hw (k := 2044) (by decide) (by decide)
  have hcur : w'.alloc.currSize = freeMemBlocksSize := by
    rw [← length_freeBlocks hw'.wf.cap, hw'.free, teeth, List.length_cons, List.length_map,
      List.length_range]
    decide
  refine ⟨(Runs.all_append hrun).mpr ⟨hlegal, hlegal'⟩, w', ?_, hcur, _,
    hw'.live 1 (by decide) (Or.inl rfl), free_full _ _ hcur⟩
  rw [fill, Runs.exec_append hrun]
  exact hrun'

end Session

end MemAlloc
