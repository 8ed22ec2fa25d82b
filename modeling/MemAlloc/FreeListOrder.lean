import MemAlloc.FreeListPhases

/-!
# Order and merge policy of frees

A set of live pointers is freed, in some order and under some merge policy,
and one more full merge follows. Between the calls the array goes its own
way: the policies join nothing, one pair or everything, at different moments
and into different slots. What a `Free` that returns `true` does to the
tiling does not depend on that (`Laid.free_run`): its block goes from the
live ones to the free ones. After the last merge no two free blocks touch,
so they are the maximal runs of the bytes that no remaining block covers
(`Laid.free_reclaims`), in every order and under every policy
(`free_order_confluent`).
-/

namespace MemAlloc

open FreeListAllocator

namespace Session

variable {totalSize arena : Nat} {merge : MergePolicy} {w : Session} {ptrs : List Nat}

/-- Free the pointers in the order of the list, then merge everything. -/
def freeThenMerge (ptrs : List Nat) : List FreeListCall :=
  ptrs.map .free ++ [.fullMergeMemBlocks]

/-- The byte is in no live block that stays. -/
def FreeAfter (totalSize : Nat) (w : Session) (ptrs : List Nat) (x : Nat) : Prop :=
  x < totalSize ∧ ∀ l ∈ w.live, l.ptr ∉ ptrs → x ∉ (liveExtent w.alloc l).bytes

/-- `v` is `w` with the pointers freed and the free blocks merged: these are
the maximal runs of the free bytes, each once; the other live blocks keep
their headers; the arena is tiled. -/
structure Reclaimed (totalSize : Nat) (w : Session) (ptrs : List Nat) (v : Session) : Prop where
  blocks : ∀ b, b ∈ v.alloc.freeBlocks ↔ MaximalRun (FreeAfter totalSize w ptrs) b.extent
  nodup : v.alloc.freeBlocks.Nodup
  live : v.live = w.live.filter (·.ptr ∉ ptrs)
  headers : ∀ l ∈ v.live, header v.alloc l = header w.alloc l
  tiled : Tiled totalSize v

namespace Reclaimed

variable {u v : Session} {ptrs' : List Nat}

theorem congr (h : Reclaimed totalSize w ptrs v) (hmem : ∀ ptr, ptr ∈ ptrs ↔ ptr ∈ ptrs') :
    Reclaimed totalSize w ptrs' v := by
  have hfree : FreeAfter totalSize w ptrs = FreeAfter totalSize w ptrs' := by
    funext x
    simp only [FreeAfter, hmem]
  refine ⟨?_, h.nodup, ?_, h.headers, h.tiled⟩
  · rw [← hfree]
    exact h.blocks
  · rw [h.live]
    simp only [hmem]

/-- The free blocks are determined, up to their order. -/
theorem freeBlocks_perm (h : Reclaimed totalSize w ptrs u) (h' : Reclaimed totalSize w ptrs v) :
    u.alloc.freeBlocks.Perm v.alloc.freeBlocks :=
  (List.perm_ext_iff_of_nodup h.nodup h'.nodup).mpr fun b => (h.blocks b).trans (h'.blocks b).symm

end Reclaimed

/-! ## The live pointers -/

/-- The live extents differ, and an extent is read off its pointer. -/
theorem Laid.nodup_ptr (h : Laid totalSize arena w) : (w.live.map Lease.ptr).Nodup := by
  refine List.Nodup.of_map (fun ptr => (⟨ptr - cAllocationHeaderSize - w.alloc.startPtr,
    w.alloc.mem.readWord (ptr - cAllocationHeaderSize)⟩ : Extent)) ?_
  rw [List.map_map]
  exact nodup_of_disjoint (fun e he => h.tiles.pos e (List.mem_append_right _ he))
    (List.pairwise_append.mp h.tiles.disjoint).2.1

/-- Where the pointers differ, ending the life of one is a filter. -/
theorem eraseP_eq_filter {live : List Lease} {ptr : Nat} (h : (live.map Lease.ptr).Nodup) :
    live.eraseP (·.ptr == ptr) = live.filter (·.ptr ≠ ptr) := by
  induction live with
  | nil => rfl
  | cons l live ih =>
      obtain ⟨hl, hrest⟩ := List.nodup_cons.mp h
      by_cases hptr : l.ptr = ptr
      · rw [List.eraseP_cons_of_pos (by simp [hptr]), List.filter_cons_of_neg (by simp [hptr])]
        refine (List.filter_eq_self.mpr ?_).symm
        intro l' hl'
        have hne : l'.ptr ≠ l.ptr := fun heq => hl (heq ▸ List.mem_map_of_mem hl')
        simpa [← hptr] using hne
      · rw [List.eraseP_cons_of_neg (by simp [hptr]), List.filter_cons_of_pos (by simp [hptr]),
          ih hrest]

/-! ## The frees -/

/-- A `Free` that returns `true`. -/
theorem Laid.free_succeeds (h : Laid totalSize arena w) {ptr : Nat}
    (hlive : ptr ∈ w.live.map Lease.ptr) (hok : Succeeds merge w (.free ptr)) :
    ∃ w', step merge w (.free ptr) = .ok w' ∧ Laid totalSize arena w' ∧
      w'.alloc.mem = w.alloc.mem ∧ w'.live = w.live.filter (·.ptr ≠ ptr) := by
  obtain ⟨w', hstep, hw', hmem, -⟩ := h.step_free merge (List.mem_map.mp hlive)
  refine ⟨w', hstep, hw', hmem, ?_⟩
  rw [live_of_succeeds hok hstep]
  exact eraseP_eq_filter h.nodup_ptr

/-- Frees that all return `true`: the tiling is kept, the memory is not
touched, and the other pointers stay live. -/
theorem Laid.free_run : ∀ {ptrs : List Nat} {w : Session}, Laid totalSize arena w → ptrs.Nodup →
    (∀ ptr ∈ ptrs, ptr ∈ w.live.map Lease.ptr) →
    Runs.All (step merge) (Succeeds merge) w (ptrs.map .free) →
    ∃ u, Runs.exec (step merge) w (ptrs.map .free) = .ok u ∧ Laid totalSize arena u ∧
      u.alloc.mem = w.alloc.mem ∧ u.live = w.live.filter (·.ptr ∉ ptrs)
  | [], w, h, _, _, _ => ⟨w, rfl, h, rfl, by simp⟩
  | ptr :: ptrs, w, h, hnodup, hlive, hok => by
      obtain ⟨hptr, hrest⟩ := List.nodup_cons.mp hnodup
      obtain ⟨hsucc, hall⟩ := Runs.all_cons.mp hok
      obtain ⟨w₁, hstep, hw₁, hmem₁, hlive₁⟩ :=
        h.free_succeeds (hlive ptr (List.mem_cons_self ..)) hsucc
      have hstill : ∀ p ∈ ptrs, p ∈ w₁.live.map Lease.ptr := by
        intro p hp
        obtain ⟨l, hl, rfl⟩ := List.mem_map.mp (hlive p (List.mem_cons_of_mem _ hp))
        have hne : l.ptr ≠ ptr := fun heq => hptr (heq ▸ hp)
        rw [hlive₁]
        exact List.mem_map_of_mem (List.mem_filter.mpr ⟨hl, by simpa using hne⟩)
      obtain ⟨u, hrun, hu, hmem, hlive'⟩ := free_run hw₁ hrest hstill (hall _ hstep)
      refine ⟨u, (Runs.exec_cons_ok hstep _).trans hrun, hu, hmem.trans hmem₁, ?_⟩
      rw [hlive', hlive₁, List.filter_filter]
      refine List.filter_congr ?_
      intro l _
      simp [not_or, Bool.and_comm]

/-! ## The last merge -/

/-- **One order, one policy.** The frees and the full merge return, and leave
the maximal runs of the free bytes. -/
theorem Laid.free_reclaims (h : Laid totalSize arena w) (hnodup : ptrs.Nodup)
    (hlive : ∀ ptr ∈ ptrs, ptr ∈ w.live.map Lease.ptr)
    (hok : Runs.All (step merge) (Succeeds merge) w (ptrs.map .free)) :
    ∃ v, Runs.exec (step merge) w (freeThenMerge ptrs) = .ok v ∧ Laid totalSize arena v ∧
      Reclaimed totalSize w ptrs v := by
  obtain ⟨u, hrun, hu, hmem, hlive'⟩ := h.free_run hnodup hlive hok
  obtain ⟨t, n, hmerge, hn, ht⟩ := fullMergeMemBlocks_spec hu.cap
  have hv := hu.merged hn (Or.inr (Or.inr ht))
  have hstep : step merge u .fullMergeMemBlocks = .ok ⟨u.alloc.withTable t n, u.live⟩ := by
    rw [step, hmerge]
    rfl
  have hlast : Runs.exec (step merge) u [.fullMergeMemBlocks]
      = .ok ⟨u.alloc.withTable t n, u.live⟩ := by
    rw [Runs.exec_cons_ok hstep, Runs.exec]
  have hheader : ∀ l, header u.alloc l = header w.alloc l := by
    intro l
    rw [header, header, hmem]
  have hextent : ∀ l, liveExtent (u.alloc.withTable t n) l = liveExtent w.alloc l := by
    intro l
    refine Extent.ext ?_ (hheader l)
    rw [liveExtent, liveExtent, hv.base, h.base]
  have hpos : ∀ e ∈ (u.alloc.withTable t n).freeBlocks.map MemBlock.extent, 0 < e.len :=
    fun e he => hv.tiles.pos e (List.mem_append_left _ he)
  have hdisj := (List.pairwise_append.mp hv.tiles.disjoint).1
  have hcover : ∀ x, FreeAfter totalSize w ptrs x ↔
      ∃ e ∈ (u.alloc.withTable t n).freeBlocks.map MemBlock.extent, x ∈ e.bytes := by
    intro x
    rw [hv.tiles.cover_left x, List.forall_mem_map, hlive', FreeAfter]
    refine and_congr_right fun _ => ?_
    simp only [List.mem_filter, decide_eq_true_eq, and_imp, hextent]
  refine ⟨_, (Runs.exec_append hrun).trans hlast, hv, fun b => ?_, ?_, hlive', fun l _ => hheader l,
    ⟨hv.tiles, hv.used, hv.used_add_free⟩⟩
  · rw [← mem_iff_maximalRun hpos hdisj (hu.separated ht) hcover,
      List.mem_map_of_injective MemBlock.extent_injective]
  · exact List.Nodup.of_map _ (nodup_of_disjoint hpos hdisj)

/-- **Order and policy do not matter.** From any tiled arena, a set of live
pointers is freed in two orders and under two policies; if every `Free`
returns `true`, then after a full merge both runs have the same free blocks,
the maximal runs of the free bytes, the same `m_currSize` and `m_used`, the
same headers, and the arena is tiled. -/
theorem free_order_confluent (h : Laid totalSize arena w) {ptrs ptrs' : List Nat}
    (hnodup : ptrs.Nodup) (hlive : ∀ ptr ∈ ptrs, ptr ∈ w.live.map Lease.ptr)
    (hperm : ptrs'.Perm ptrs) {merge merge' : MergePolicy}
    (hok : Runs.All (step merge) (Succeeds merge) w (ptrs.map .free))
    (hok' : Runs.All (step merge') (Succeeds merge') w (ptrs'.map .free)) :
    ∃ u v, Runs.exec (step merge) w (freeThenMerge ptrs) = .ok u ∧
      Runs.exec (step merge') w (freeThenMerge ptrs') = .ok v ∧
      Reclaimed totalSize w ptrs u ∧ Reclaimed totalSize w ptrs v ∧
      u.alloc.freeBlocks.Perm v.alloc.freeBlocks ∧ u.alloc.currSize = v.alloc.currSize ∧
      u.alloc.getUsedSize = v.alloc.getUsedSize := by
  obtain ⟨u, hu, hlaid, hset⟩ := h.free_reclaims hnodup hlive hok
  obtain ⟨v, hv, hlaid', hset'⟩ := h.free_reclaims (hperm.nodup_iff.mpr hnodup)
    (fun ptr hptr => hlive ptr (hperm.mem_iff.mp hptr)) hok'
  have hset' := hset'.congr fun _ => hperm.mem_iff
  have hblocks := hset.freeBlocks_perm hset'
  refine ⟨u, v, hu, hv, hset, hset', hblocks, ?_, ?_⟩
  · rw [← length_freeBlocks hlaid.cap, ← length_freeBlocks hlaid'.cap]
    exact hblocks.length_eq
  · -- the counter is what the free blocks leave of the arena
    have hsum := (hblocks.map MemBlock.blockSize).sum_eq
    have htotal := hset.tiled.total
    have htotal' := hset'.tiled.total
    omega

/-- Four live blocks. All but the third are freed, in two orders, pair by pair
or all at once: two neighbours become one block, the last one joins the rest
of the arena. -/
theorem free_order_confluent_three :
    ∃ w u v, Runs.exec (step .enableFastMerge) (start 256 4096 fun _ => 0)
        [.allocate 8 8, .allocate 8 8, .allocate 8 8, .allocate 8 8] = .ok w ∧
      Runs.All (step .enableFastMerge) (Succeeds .enableFastMerge) w
        ([4104, 4128, 4176].map .free) ∧
      Runs.exec (step .enableFastMerge) w (freeThenMerge [4104, 4128, 4176]) = .ok u ∧
      Runs.All (step .enableFullMerge) (Succeeds .enableFullMerge) w
        ([4176, 4104, 4128].map .free) ∧
      Runs.exec (step .enableFullMerge) w (freeThenMerge [4176, 4104, 4128]) = .ok v ∧
      u.alloc.freeBlocks = [⟨72, 184⟩, ⟨0, 48⟩] ∧ v.alloc.freeBlocks.Perm [⟨72, 184⟩, ⟨0, 48⟩] ∧
      v.alloc.getUsedSize = 24 := by
  have hlegal : Runs.All (step .enableFastMerge) Legal (start 256 4096 fun _ => 0)
      [.allocate 8 8, .allocate 8 8, .allocate 8 8, .allocate 8 8] := all_legal (by decide +kernel)
  obtain ⟨w, hw, hwf⟩ := exec_wf (by decide) (by decide) hlegal (by decide +kernel)
  -- `Allocate` does not look at the policy
  have hw' : Runs.exec (step .enableFullMerge) (start 256 4096 fun _ => 0)
      [.allocate 8 8, .allocate 8 8, .allocate 8 8, .allocate 8 8] = .ok w := hw
  have hfast : Runs.All (step .enableFastMerge) (Succeeds .enableFastMerge)
      (start 256 4096 fun _ => 0) ([.allocate 8 8, .allocate 8 8, .allocate 8 8, .allocate 8 8] ++
        [4104, 4128, 4176].map .free) := by
    decide +kernel
  have hfull : Runs.All (step .enableFullMerge) (Succeeds .enableFullMerge)
      (start 256 4096 fun _ => 0) ([.allocate 8 8, .allocate 8 8, .allocate 8 8, .allocate 8 8] ++
        [4176, 4104, 4128].map .free) := by
    decide +kernel
  have hok := ((Runs.all_append hw).mp hfast).2
  have hok' := ((Runs.all_append hw').mp hfull).2
  have hlive : (Runs.exec (step .enableFastMerge) (start 256 4096 fun _ => 0)
      [.allocate 8 8, .allocate 8 8, .allocate 8 8, .allocate 8 8]).map (·.live.map Lease.ptr)
        = .ok [4176, 4152, 4128, 4104] := by
    decide +kernel
  rw [hw] at hlive
  have hptrs : w.live.map Lease.ptr = [4176, 4152, 4128, 4104] := Except.ok.inj hlive
  obtain ⟨u, v, hu, hv, -, -, hblocks, -, hused⟩ := free_order_confluent hwf.laid
    (show [4104, 4128, 4176].Nodup by decide) (by simp [hptrs])
    (show [4176, 4104, 4128].Perm [4104, 4128, 4176] by decide) hok hok'
  have hmerged : (Runs.exec (step .enableFastMerge) (start 256 4096 fun _ => 0)
      ([.allocate 8 8, .allocate 8 8, .allocate 8 8, .allocate 8 8] ++
        freeThenMerge [4104, 4128, 4176])).map
          (fun u => (u.alloc.freeBlocks, u.alloc.getUsedSize))
        = .ok ([⟨72, 184⟩, ⟨0, 48⟩], 24) := by
    decide +kernel
  rw [Runs.exec_append hw, hu] at hmerged
  obtain ⟨hfree, hcount⟩ := Prod.mk.inj (Except.ok.inj hmerged)
  exact ⟨w, u, v, hw, hok, hu, hok', hv, hfree, hfree ▸ hblocks.symm, hused ▸ hcount⟩

end Session

end MemAlloc
