import MemAlloc.BumpSafety
import MemAlloc.FreeListTiling
import MemAlloc.PoolFrontEndRuns
import MemAlloc.PoolRuns
import MemAlloc.PoolThreadsSafety
import MemAlloc.RegionSpec

/-!
# The allocators do what an allocator is for

Each allocator, seen through the regions its clients hold, is a run of the
abstract component of `RegionSpec`: the free list in runs of clean calls,
the pool, the bump allocators in runs that do not wrap, the front end, and
the pool under any interleaving of its threads.
-/

namespace MemAlloc

open RegionSpec

/-! ## The free list -/

namespace Session

variable {totalSize arena : Nat} {merge : MergePolicy} {w w' : Session}

/-- The regions the clients may write. -/
def regions (w : Session) : List Extent := w.live.map Lease.region

theorem WF.regions_safe (h : WF totalSize arena w) :
    Safe (Extent.Contains ⟨arena, totalSize⟩) w.regions where
  allowed e he := by
    obtain ⟨l, hl, rfl⟩ := List.mem_map.mp he
    have hle := h.laid.header_le hl
    have hlease := h.lease l hl
    constructor
    · show arena ≤ l.ptr
      omega
    · show l.ptr + l.size ≤ arena + totalSize
      omega
  disjoint := by
    have hblocks := List.pairwise_map.mp (List.pairwise_append.mp h.tiles.disjoint).2.1
    refine List.pairwise_map.mpr (hblocks.imp_of_mem fun {l l'} hl hl' hd => ?_)
    have hlease := h.lease l hl
    have hlease' := h.lease l' hl'
    have hhead : cAllocationHeaderSize = 8 := rfl
    rw [Finset.disjoint_left]
    intro x hx hx'
    -- the client's bytes lie in the block, `arena` further up
    have hin : x - arena ∈ (liveExtent w.alloc l).bytes ∧
        x - arena ∈ (liveExtent w.alloc l').bytes := by
      simp only [Extent.mem_bytes, Extent.stop, Lease.region, liveExtent, h.base] at hx hx' ⊢
      omega
    exact Finset.disjoint_left.mp hd hin.1 hin.2

/-- What a call does to the live pointers. -/
theorem step_live {call : FreeListCall} (hstep : step merge w call = .ok w') :
    w'.live = w.live ∨ (∃ l, w'.live = l :: w.live) ∨ ∃ p, w'.live = w.live.eraseP p := by
  cases call with
  | allocate size alignment =>
      cases hrun : w.alloc.allocate .none size alignment with
      | error e => simp [step, hrun] at hstep
      | ok r =>
          obtain ⟨result, a⟩ := r
          simp only [step, hrun, ok_bind] at hstep
          obtain rfl := Except.ok.inj hstep
          cases result with
          | none => exact Or.inl rfl
          | some ptr => exact Or.inr (Or.inl ⟨_, rfl⟩)
  | free ptr =>
      cases hrun : w.alloc.free .none merge ptr with
      | error e => simp [step, hrun] at hstep
      | ok r =>
          obtain ⟨ok, a⟩ := r
          simp only [step, hrun, ok_bind] at hstep
          obtain rfl := Except.ok.inj hstep
          cases ok with
          | false => exact Or.inl rfl
          | true => exact Or.inr (Or.inr ⟨_, rfl⟩)
  | fullMergeMemBlocks =>
      cases hrun : w.alloc.fullMergeMemBlocks with
      | error e => simp [step, hrun] at hstep
      | ok a =>
          simp only [step, hrun, ok_bind] at hstep
          obtain rfl := Except.ok.inj hstep
          exact Or.inl rfl
  | clientWrites mem =>
      obtain rfl := Except.ok.inj hstep
      exact Or.inl rfl

theorem step_regions (h : WF totalSize arena w') {call : FreeListCall}
    (hstep : step merge w call = .ok w') :
    RegionSpec.Step (Extent.Contains ⟨arena, totalSize⟩) w.regions w'.regions := by
  rcases step_live hstep with hlive | ⟨l, hlive⟩ | ⟨p, hlive⟩
  · rw [regions, regions, hlive]
    exact .same (.refl _)
  · refine .of_safe (e := l.region) h.regions_safe ?_
    rw [regions, regions, hlive]
    rfl
  · rw [regions, regions, hlive]
    exact .eraseP Lease.region p w.live

/-- A run of legal clean calls hands out and takes back regions of the
arena as the abstract component does. -/
theorem refines (hpos : 0 < totalSize) (hsmall : totalSize < 2 ^ 32) {mem : Memory}
    {calls : List FreeListCall}
    (hlegal : Runs.All (step merge) Legal (start totalSize arena mem) calls)
    (hclean : Runs.All (step merge) CleanFit (start totalSize arena mem) calls) :
    ∃ w, Runs.exec (step merge) (start totalSize arena mem) calls = .ok w ∧
      Relation.ReflTransGen (RegionSpec.Step (Extent.Contains ⟨arena, totalSize⟩)) []
        w.regions := by
  refine Runs.exec_simulates (WF totalSize arena) regions
    (fun w call => Legal w call ∧ CleanFit w call) (fun w call hw hcall => ?_)
    (wf_start hpos hsmall arena mem) fun x hx => ⟨hlegal x hx, hclean x hx⟩
  obtain ⟨w', hstep, hw'⟩ := step_wf hw merge hcall.1 hcall.2
  exact ⟨w', hstep, hw', step_regions hw' hstep⟩

end Session

/-! ## The pool -/

namespace PoolAllocator

variable {arena chunksNum chunkSize : Nat} {live : List Nat} {s : PoolAllocator}

/-- The chunk at a pointer. -/
def chunkRegion (chunkSize ptr : Nat) : Extent := ⟨ptr, chunkSize⟩

theorem Partition.regions_safe (h : Partition arena chunksNum chunkSize live s) :
    Safe (Extent.Contains ⟨arena, chunksNum * chunkSize⟩) (live.map (chunkRegion chunkSize)) where
  allowed e he := by
    obtain ⟨p, hp, rfl⟩ := List.mem_map.mp he
    exact chunk_le (h.live_mem hp)
  disjoint := by
    have hne : live.Pairwise (· ≠ ·) := (List.nodup_append.mp h.nodup).2.1
    refine List.pairwise_map.mpr (hne.imp_of_mem fun {p q} hp hq hpq => ?_)
    have hap := chunks_apart (h.live_mem hp) (h.live_mem hq) hpq
    rw [Finset.disjoint_left]
    intro x hx hx'
    simp only [Extent.mem_bytes, Extent.stop, chunkRegion] at hx hx'
    omega

end PoolAllocator

namespace PoolSession

open PoolAllocator

variable {arena chunksNum chunkSize : Nat} {w w' : PoolSession}

theorem step_regions (h : WF arena chunksNum chunkSize w') {call : PoolCall}
    (hstep : step w call = .ok w') :
    RegionSpec.Step (Extent.Contains ⟨arena, chunksNum * chunkSize⟩)
      (w.live.map (chunkRegion chunkSize)) (w'.live.map (chunkRegion chunkSize)) := by
  rcases step_cases hstep with ⟨size, result, a, rfl, -, rfl⟩ | ⟨ptr, ok, a, rfl, -, rfl⟩ |
    ⟨a, rfl, -, rfl⟩
  · cases result with
    | none => exact .same (.refl _)
    | some p => exact .of_safe h.regions_safe (.refl _)
  · cases ok with
    | false => exact .same (.refl _)
    | true =>
        rw [if_pos rfl, List.erase_eq_eraseP]
        exact .eraseP _ _ _
  · have hall : (w.live.map (chunkRegion chunkSize)).Perm
        (w.live.map (chunkRegion chunkSize) ++ []) := by rw [List.append_nil]
    exact .release hall

theorem refines (hpos : 0 < chunkSize) (harena : chunksNum * chunkSize < 2 ^ 64)
    (htable : chunksNum * 8 < 2 ^ 64) (arena : Nat) {table : List Nat}
    (hlen : table.length = chunksNum) :
    ∃ w₀, start chunksNum chunkSize arena table = .ok w₀ ∧ ∀ calls : List PoolCall,
      Runs.All step Legal w₀ calls → ∃ w, Runs.exec step w₀ calls = .ok w ∧
        Relation.ReflTransGen (RegionSpec.Step (Extent.Contains ⟨arena, chunksNum * chunkSize⟩)) []
          (w.live.map (chunkRegion chunkSize)) := by
  obtain ⟨s, hinit, hs⟩ := init_spec hpos harena htable arena hlen
  have hstart : WF arena chunksNum chunkSize ⟨s, []⟩ := hs
  refine ⟨⟨s, []⟩, by rw [start, hinit]; rfl, fun calls hlegal => ?_⟩
  refine Runs.exec_simulates (WF arena chunksNum chunkSize)
    (fun w => w.live.map (chunkRegion chunkSize)) Legal (fun w call hw hcall => ?_) hstart hlegal
  obtain ⟨w', hstep, hw'⟩ := step_wf hw hcall
  exact ⟨w', hstep, hw', step_regions hw' hstep⟩

end PoolSession

/-! ## The bump allocators -/

namespace BumpSession

variable {totalSize arena : Nat} {kind : BumpKind} {w w' : BumpSession}

theorem Safe.regions_safe (h : Safe totalSize arena w) :
    RegionSpec.Safe (Extent.Contains ⟨arena, totalSize⟩) (w.live.map Lease.region) where
  allowed e he := by
    obtain ⟨l, hl, rfl⟩ := List.mem_map.mp he
    exact h.inside l hl
  disjoint := List.pairwise_map.mpr h.disjoint

theorem step_regions (h : Safe totalSize arena w') {call : BumpCall}
    (hstep : step kind w call = .ok w') :
    RegionSpec.Step (Extent.Contains ⟨arena, totalSize⟩) (w.live.map Lease.region)
      (w'.live.map Lease.region) := by
  cases call with
  | allocate size alignment =>
      rcases hrun : kind.allocate w.alloc size alignment with ⟨result, a⟩
      simp only [step, hrun] at hstep
      obtain rfl := Except.ok.inj hstep
      cases result with
      | none => exact .same (.refl _)
      | some ptr => exact .of_safe h.regions_safe (.refl _)
  | freeLast =>
      obtain ⟨alloc, live⟩ := w
      cases kind with
      | linear =>
          obtain rfl := Except.ok.inj hstep
          exact .same (.refl _)
      | stack =>
          cases live with
          | nil =>
              obtain rfl := Except.ok.inj hstep
              exact .same (.refl _)
          | cons l live =>
              obtain rfl := Except.ok.inj hstep
              exact .release (show List.Perm _ ([l.region] ++ live.map Lease.region) from .refl _)

theorem refines (kind : BumpKind) (htotal : totalSize < 2 ^ 64) (arena : Nat)
    {calls : List BumpCall}
    (hlegal : Runs.All (step kind) (Legal kind) (start totalSize arena) calls)
    (hnowrap : Runs.All (step kind) NoWrap (start totalSize arena) calls) :
    ∃ w, Runs.exec (step kind) (start totalSize arena) calls = .ok w ∧
      Relation.ReflTransGen (RegionSpec.Step (Extent.Contains ⟨arena, totalSize⟩)) []
        (w.live.map Lease.region) := by
  refine Runs.exec_simulates (WF totalSize arena) (fun w => w.live.map Lease.region)
    (fun w call => Legal kind w call ∧ NoWrap w call) (fun w call hw hcall => ?_)
    (wf_start htotal arena) fun x hx => ⟨hlegal x hx, hnowrap x hx⟩
  obtain ⟨w', hstep, hw'⟩ := step_wf hw hcall.1 hcall.2
  exact ⟨w', hstep, hw', step_regions hw'.safe hstep⟩

end BumpSession

/-! ## The front end -/

namespace FrontSession

open PoolAllocator

variable {chunksNum : Nat} {cfg : List (Nat × Nat)} {w w' : FrontSession}

/-- In one of the arenas, or clear of all of them. -/
def InOneArena (arenas : List Extent) (e : Extent) : Prop :=
  (∃ a ∈ arenas, a.Contains e) ∨ ∀ a ∈ arenas, Disjoint a.bytes e.bytes

theorem WF.regions_safe (h : WF chunksNum cfg w) :
    Safe (InOneArena (arenas chunksNum cfg)) (w.live.map Grant.region) where
  allowed e he := by
    obtain ⟨l, hl, rfl⟩ := List.mem_map.mp he
    cases hs : l.server with
    | pool i =>
        obtain ⟨c, hc, hsize, -, hchunk⟩ := h.mem_chunks hl hs
        obtain ⟨hlo, hhi⟩ := chunk_le hchunk
        refine Or.inl ⟨_, List.mem_map_of_mem (List.mem_of_getElem? hc), hlo, ?_⟩
        show l.ptr + l.size ≤ c.1 + chunksNum * c.2
        omega
    | system =>
        refine Or.inr ?_
        intro a ha
        obtain ⟨c, hc, rfl⟩ := List.mem_map.mp ha
        obtain ⟨i, hi⟩ := List.mem_iff_getElem?.mp hc
        exact (h.system_apart hl hs hi).disjoint
  disjoint := List.pairwise_map.mpr h.disjoint

theorem step_regions (h : WF chunksNum cfg w') {call : FrontCall} (hstep : step w call = .ok w') :
    RegionSpec.Step (InOneArena (arenas chunksNum cfg)) (w.live.map Grant.region)
      (w'.live.map Grant.region) := by
  cases call with
  | allocate size fallback =>
      cases hrun : w.alloc.allocate .none size fallback with
      | error e => simp [step, hrun] at hstep
      | ok r =>
          obtain ⟨p, server, alloc⟩ := r
          simp only [step, hrun, ok_bind] at hstep
          obtain rfl := Except.ok.inj hstep
          exact .of_safe h.regions_safe (.refl _)
  | free p =>
      cases hrun : w.alloc.free .none p with
      | error e => simp [step, hrun] at hstep
      | ok r =>
          obtain ⟨server, alloc⟩ := r
          simp only [step, hrun, ok_bind] at hstep
          obtain rfl := Except.ok.inj hstep
          exact .eraseP _ _ _

theorem refines (htable : chunksNum * 8 < 2 ^ 64) {sizes : List Nat}
    {mallocs : List (Nat × List Nat)} (hlen : mallocs.length = sizes.length)
    (htables : ∀ m ∈ mallocs, m.2.length = chunksNum)
    (hsizes : ∀ size ∈ sizes, 0 < size ∧ chunksNum * size < 2 ^ 64)
    (hnonnull : ∀ m ∈ mallocs, m.1 ≠ nullptr)
    (hapart : (arenas chunksNum (config mallocs sizes)).Pairwise Apart) :
    ∃ w₀, start chunksNum sizes mallocs = .ok w₀ ∧ ∀ calls : List FrontCall,
      Runs.All step (Legal (arenas chunksNum (config mallocs sizes))) w₀ calls →
      ∃ w, Runs.exec step w₀ calls = .ok w ∧ Relation.ReflTransGen
        (RegionSpec.Step (InOneArena (arenas chunksNum (config mallocs sizes)))) []
        (w.live.map Grant.region) := by
  obtain ⟨l, hstart, hwf⟩ := wf_start htable hlen htables hsizes hnonnull hapart
  refine ⟨_, hstart, fun calls hlegal => ?_⟩
  refine Runs.exec_simulates (WF chunksNum (config mallocs sizes))
    (fun w => w.live.map Grant.region) (Legal (arenas chunksNum (config mallocs sizes)))
    (fun w call hw hcall => ?_) hwf hlegal
  obtain ⟨w', hstep, hw'⟩ := step_wf hw hcall
  exact ⟨w', hstep, hw', step_regions hw' hstep⟩

end FrontSession

/-! ## The pool and its threads -/

namespace PoolThread

variable {pool pool' : PoolAllocator} {t t' : PoolThread} {call : ThreadCall}

/-- What an access does to the chunks a thread holds: only the read of a
slot adds one, and only the write of a slot gives one up. -/
theorem threadStep_holds (hstep : t.threadStep pool call = .ok (pool', t')) :
    t.holds.Perm t'.holds ∨ (∃ c, t'.holds = c :: t.holds) ∨ ∃ c, t.holds = c :: t'.holds := by
  unfold threadStep at hstep
  cases hpos : t.pos with
  | idle =>
      cases call with
      | allocate size =>
          simp only [hpos] at hstep
          split at hstep
          · obtain ⟨rfl, rfl⟩ := Prod.mk.inj (Except.ok.inj hstep)
            rw [holds, holds, hpos]
            exact Or.inl (.refl _)
          · cases hstep
      | free ptr =>
          simp only [hpos] at hstep
          split at hstep
          · rename_i hptr
            obtain ⟨rfl, rfl⟩ := Prod.mk.inj (Except.ok.inj hstep)
            rw [holds, holds, hpos]
            exact Or.inl (List.perm_cons_erase hptr)
          · cases hstep
  | load begun =>
      simp only [hpos] at hstep
      obtain ⟨rfl, rfl⟩ := Prod.mk.inj (Except.ok.inj hstep)
      rw [holds, holds, hpos]
      refine Or.inl ?_
      split
      · exact .refl _
      · cases begun <;> exact .refl _
  | exchange begun =>
      simp only [hpos] at hstep
      obtain ⟨rfl, rfl⟩ := Prod.mk.inj (Except.ok.inj hstep)
      rw [holds, hpos]
      refine Or.inl ?_
      split <;> cases begun <;> exact .refl _
  | checkFull =>
      simp only [hpos] at hstep
      obtain ⟨rfl, rfl⟩ := Prod.mk.inj (Except.ok.inj hstep)
      rw [holds, holds, hpos]
      refine Or.inl ?_
      split <;> exact .refl _
  | testRange ptr =>
      simp only [hpos] at hstep
      split at hstep
      · obtain ⟨rfl, rfl⟩ := Prod.mk.inj (Except.ok.inj hstep)
        rw [holds, holds, hpos]
        exact Or.inl (.refl _)
      · obtain ⟨rfl, rfl⟩ := Prod.mk.inj (Except.ok.inj hstep)
        rw [holds, holds, hpos]
        exact Or.inl (.refl _)
  | readChunk i =>
      simp only [hpos] at hstep
      split at hstep
      · obtain ⟨rfl, rfl⟩ := Prod.mk.inj (Except.ok.inj hstep)
        rw [holds, holds, hpos]
        exact Or.inr (Or.inl ⟨_, rfl⟩)
      · obtain ⟨rfl, rfl⟩ := Prod.mk.inj (Except.ok.inj hstep)
        rw [holds, holds, hpos]
        exact Or.inl (.refl _)
  | freeWriteChunk ptr i =>
      simp only [hpos] at hstep
      split at hstep
      · obtain ⟨rfl, rfl⟩ := Prod.mk.inj (Except.ok.inj hstep)
        rw [holds, holds, hpos]
        exact Or.inr (Or.inr ⟨_, rfl⟩)
      · obtain ⟨rfl, rfl⟩ := Prod.mk.inj (Except.ok.inj hstep)
        rw [holds, holds, hpos]
        exact Or.inr (Or.inr ⟨_, rfl⟩)
  | undefined =>
      simp only [hpos] at hstep
      cases hstep
  | _ =>
      -- the other accesses do not touch the table
      simp only [hpos] at hstep
      obtain ⟨rfl, rfl⟩ := Prod.mk.inj (Except.ok.inj hstep)
      rw [holds, holds, hpos]
      exact Or.inl (.refl _)

end PoolThread

namespace PoolThreads

open PoolAllocator PoolThread

variable {arena chunksNum chunkSize : Nat} {s s' : PoolThreads}

/-- The held chunks are the live ones of a partition, also while the owner of
the lock is half way through an update. -/
theorem Inv.regions_safe (h : Inv arena chunksNum chunkSize s.pool s.threads) :
    Safe (Extent.Contains ⟨arena, chunksNum * chunkSize⟩)
      (s.held.map (chunkRegion chunkSize)) := by
  obtain ⟨pool, hpart⟩ := h.exists_partition
  exact hpart.regions_safe

theorem step_regions (h : Inv arena chunksNum chunkSize s'.pool s'.threads)
    {choice : Nat × ThreadCall} (hstep : step s choice = .ok s') :
    RegionSpec.Step (Extent.Contains ⟨arena, chunksNum * chunkSize⟩)
      (s.held.map (chunkRegion chunkSize)) (s'.held.map (chunkRegion chunkSize)) := by
  obtain ⟨t, t', rest, hthreads, hthreads', hrun⟩ := step_cases hstep
  have hbefore : s.held.Perm (t.holds ++ rest.flatMap holds) := hthreads.flatMap_right holds
  have hafter : s'.held.Perm (t'.holds ++ rest.flatMap holds) := hthreads'.flatMap_right holds
  rcases threadStep_holds hrun with hsame | ⟨c, hmore⟩ | ⟨c, hless⟩
  · have hperm := hbefore.trans ((hsame.append_right _).trans hafter.symm)
    exact .same (hperm.map _)
  · rw [hmore] at hafter
    have hperm := hafter.trans (hbefore.symm.cons c)
    exact .of_safe h.regions_safe (hperm.map (chunkRegion chunkSize))
  · rw [hless] at hbefore
    have hperm := (hbefore.trans (hafter.symm.cons c)).map (chunkRegion chunkSize)
    exact .release (show List.Perm _ ([chunkRegion chunkSize c] ++ _) from hperm)

theorem refines (hpos : 0 < chunkSize) (harena : chunksNum * chunkSize < 2 ^ 64)
    (htable : chunksNum * 8 < 2 ^ 64) (arena : Nat) {table : List Nat}
    (hlen : table.length = chunksNum) (n : Nat) :
    ∃ pool, (construct chunksNum chunkSize).init .enableSpinLock arena table = .ok pool ∧
      ∀ (schedule : List (Nat × ThreadCall)) (s : PoolThreads),
        Runs.exec step (start pool n) schedule = .ok s →
        Relation.ReflTransGen (RegionSpec.Step (Extent.Contains ⟨arena, chunksNum * chunkSize⟩)) []
          (s.held.map (chunkRegion chunkSize)) := by
  obtain ⟨pool, hinit, hpart, hfree⟩ := init_enableSpinLock_spec hpos harena htable arena hlen
  refine ⟨pool, hinit, fun schedule s hrun => ?_⟩
  have hnone : (start pool n).held = [] := by simp [start, held, holds, Position.chunk]
  have hreach := Runs.exec_reaches (fun s => Inv arena chunksNum chunkSize s.pool s.threads)
    (fun s => s.held.map (chunkRegion chunkSize))
    (fun _ _ _ h hstep => ⟨step_inv h hstep, step_regions (step_inv h hstep) hstep⟩)
    (inv_start hpart hfree n) hrun
  rwa [hnone] at hreach

end PoolThreads

end MemAlloc
