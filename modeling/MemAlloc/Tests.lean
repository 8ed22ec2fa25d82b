import MemAlloc.Bump
import MemAlloc.FreeListPhases
import MemAlloc.PoolFrontEndRuns
import MemAlloc.TestLoops

/-!
# The tests of the allocators

`RunTest` of each test file, for every stream of random numbers. A test
passes when the counter is 0 at its end; that of the free list also merges
and asks for a single block.

The pools never run out, so the test of the front end passes and never
reaches the system's heap. The free list has 5120 bytes for each request
and adds a header and padding: its test passes when the requests leave room
to spare. The stack frees the pointer of its first request last, so its
test passes even when requests were refused in between.
-/

namespace MemAlloc

/-! ## The pools -/

namespace PoolAllocatorTest

open PoolAllocators FrontSession PoolAllocator

/-- The front end, and how often it called `malloc` or `free`. -/
structure State where
  allocators : PoolAllocators
  systemCalls : Nat

/-- One more call of the system, if it served this one. -/
def State.count (s : State) : Server → Nat
  | .system => s.systemCalls + 1
  | .pool _ => s.systemCalls

/-- `malloc` gives what the system returns, call by call. -/
def tested (malloc : Nat → Nat) : Tested State where
  allocate s size := do
    let (p, server, allocators) ←
      s.allocators.allocate cPoolAllocThreadPolicy size (malloc s.systemCalls)
    return (p, ⟨allocators, s.count server⟩)
  free s p := do
    let (server, allocators) ← s.allocators.free cPoolAllocThreadPolicy p
    return ⟨allocators, s.count server⟩

/-- `RunTest`: whether it passes, and the state at its end. -/
def runTest (mallocs : List (Nat × List Nat)) (malloc rand : Nat → Nat) :
    Except Stuck (Bool × State) := do
  let allocators ← initLoop cPoolAllocThreadPolicy
    (PoolAllocators.construct sMaxChunksNum chunkSizes).allocators mallocs
  let s ← (tested malloc).run rand sMaxChunksNum ⟨⟨allocators⟩, 0⟩
  return (!decide (s.allocators.getUsedSize > 0), s)

variable {chunksNum : Nat} {cfg : List (Nat × Nat)} {w : FrontSession}

/-- As long as fewer allocations are live than a pool has chunks, a request
that fits one of the chunk sizes is served by a pool. -/
theorem allocate_pool (h : WF chunksNum cfg w) (hroom : w.live.length < chunksNum) {size : Nat}
    (hpos : 0 < size) (hfit : ∃ c ∈ cfg, size ≤ c.2) :
    ∃ p k alloc, (∀ fallback, w.alloc.allocate .none size fallback = .ok (p, .pool k, alloc)) ∧
      WF chunksNum cfg ⟨alloc, ⟨p, size, .pool k⟩ :: w.live⟩ := by
  obtain ⟨k, hk⟩ : ∃ k, FirstFit cfg size k := by
    rcases firstFit_cases size cfg with hnone | hsome
    · obtain ⟨c, hc, hle⟩ := hfit
      exact absurd (hnone c hc) (Nat.not_lt_of_le hle)
    · exact hsome
  obtain ⟨c, hc, hle, hbefore⟩ := id hk
  obtain ⟨a, ha, hp⟩ := h.exists_pool hc
  have hlen : (w.liveIn k).length ≤ w.live.length := by
    rw [liveIn, List.length_map]
    exact List.length_filter_le _ _
  obtain ⟨p, a', hrun, hpart⟩ := hp.allocate_some (Nat.lt_of_le_of_lt hlen hroom)
  have hloop := allocateIn_eq .none ha (show size ≤ a.chunkSize by rwa [hp.size])
    fun j hj b hb => by
      obtain ⟨d, hd, hpd⟩ := h.exists_cfg hb
      rw [hpd.size]
      exact hbefore j hj d hd
  rw [hrun] at hloop
  have hnonnull : p ≠ nullptr := by
    have hne := h.nonnull c (List.mem_of_getElem? hc)
    have hin := chunk_le (hpart.live_mem (List.mem_cons_self ..))
    simp only [nullptr] at hne ⊢
    omega
  refine ⟨p, k, ⟨w.alloc.allocators.set k a'⟩, fun fallback => ?_,
    h.granted_pool hc ha hk hpos hpart⟩
  rw [PoolAllocators.allocate, hloop]
  simp [Except.map, hnonnull]
  rfl

/-- The live allocations are those of the collected pointers, all served by
pools. -/
structure Collected (cfg : List (Nat × Nat)) (memPointers : List Nat) (s : State)
    (live : List Grant) : Prop where
  wf : WF sMaxChunksNum cfg ⟨s.allocators, live⟩
  perm : (live.map Grant.ptr).Perm memPointers
  pools : ∀ l ∈ live, l.server ≠ .system
  none : s.systemCalls = 0

namespace Collected

variable {memPointers : List Nat} {s : State} {live : List Grant} {malloc : Nat → Nat}

theorem allocate (h : Collected cfg memPointers s live)
    (hroom : memPointers.length < sMaxChunksNum) {size : Nat} (hpos : 0 < size)
    (hfit : ∃ c ∈ cfg, size ≤ c.2) : ∃ p s', (tested malloc).allocate s size = .ok (p, s') ∧
      ∃ live', Collected cfg (memPointers ++ [p]) s' live' := by
  have hlen : live.length = memPointers.length := by
    rw [← h.perm.length_eq, List.length_map]
  obtain ⟨p, k, alloc, hrun, hw⟩ := allocate_pool h.wf (by rw [hlen]; exact hroom) hpos hfit
  refine ⟨p, ⟨alloc, s.systemCalls⟩, ?_, ⟨p, size, .pool k⟩ :: live, hw, ?_, ?_, h.none⟩
  · show (s.allocators.allocate .none size (malloc s.systemCalls) >>= _) = _
    rw [hrun]
    rfl
  · exact (h.perm.cons p).trans (List.perm_append_singleton p memPointers).symm
  · rintro l (_ | ⟨_, hl⟩)
    · exact nofun
    · exact h.pools l hl

theorem free {p : Nat} (h : Collected cfg (p :: memPointers) s live) :
    ∃ s', (tested malloc).free s p = .ok s' ∧ ∃ live', Collected cfg memPointers s' live' := by
  obtain ⟨l, hl, rfl⟩ := List.mem_map.mp (h.perm.mem_iff.mpr (List.mem_cons_self ..))
  obtain ⟨alloc, hrun, hw⟩ := h.wf.free_routed hl
  refine ⟨⟨alloc, s.systemCalls⟩, ?_, live.eraseP (·.ptr == l.ptr), hw, ?_, ?_, h.none⟩
  · have hserver := h.pools l hl
    show (s.allocators.free .none l.ptr >>= _) = _
    rw [hrun]
    cases hs : l.server with
    | system => exact absurd hs hserver
    | pool k => rfl
  · exact (((h.wf.perm_erase hl).map Grant.ptr).symm.trans h.perm).cons_inv
  · exact fun l' hl' => h.pools l' (List.mem_of_mem_eraseP hl')

end Collected

/-- **The test of the front end passes**, whatever `rand()` and `malloc`
return, and all its blocks come from the pools. -/
theorem poolTest_passes {mallocs : List (Nat × List Nat)}
    (hlen : mallocs.length = chunkSizes.length)
    (htables : ∀ m ∈ mallocs, m.2.length = sMaxChunksNum) (hnonnull : ∀ m ∈ mallocs, m.1 ≠ nullptr)
    (hapart : (arenas sMaxChunksNum (config mallocs chunkSizes)).Pairwise Apart)
    (malloc rand : Nat → Nat) :
    ∃ s, runTest mallocs malloc rand = .ok (true, s) ∧ s.systemCalls = 0 := by
  obtain ⟨l, hstart, hwf⟩ := wf_start (by decide) hlen htables (by decide) hnonnull hapart
  have hinit : initLoop .none (PoolAllocators.construct sMaxChunksNum chunkSizes).allocators mallocs
      = .ok l := by
    obtain ⟨l', hl', heq⟩ := bind_eq_ok.mp hstart
    cases heq
    exact hl'
  have hsizes : (config mallocs chunkSizes).map Prod.snd = chunkSizes := by
    rw [config, List.map_snd_zip]
    rw [List.length_map, hlen]
  have hfit : ∀ size ≤ sMaxChunkSize, ∃ c ∈ config mallocs chunkSizes, size ≤ c.2 := by
    intro size hsize
    have hlast : sMaxChunkSize ∈ (config mallocs chunkSizes).map Prod.snd := by
      rw [hsizes]
      decide
    obtain ⟨c, hc, heq⟩ := List.mem_map.mp hlast
    exact ⟨c, hc, by omega⟩
  let inv := fun ptrs s => ∃ live, Collected (config mallocs chunkSizes) ptrs s live
  obtain ⟨s, hrun, live, h⟩ : ∃ s, (tested malloc).run rand sMaxChunksNum ⟨⟨l⟩, 0⟩ = .ok s ∧
      inv [] s := by
    refine Tested.run_rule (tested malloc) rand inv inv ?_ (fun _ _ _ h => h) ?_ ?_
      ⟨[], hwf, .refl _, List.forall_mem_nil _, rfl⟩
    · rintro ptrs s hroom ⟨live, h⟩
      exact h.allocate hroom (randomSize_pos rand _) (hfit _ (randomSize_le rand _))
    · rintro ptrs ptrs' s hp ⟨live, h⟩
      exact ⟨live, h.wf, h.perm.trans hp, h.pools, h.none⟩
    · rintro p ptrs s ⟨live, h⟩
      exact h.free
  have hlive : live = [] := List.map_eq_nil_iff.mp h.perm.eq_nil
  have hused : (s.allocators.allocators.map fun a => a.used).sum = 0 := by
    rw [h.wf.used, hlive]
    rfl
  have hzero : s.allocators.getUsedSize = 0 :=
    (getUsedSize_eq (by rw [hused]; decide)).trans hused
  refine ⟨s, ?_, h.none⟩
  show (initLoop .none _ mallocs >>= _) = _
  rw [hinit, ok_bind, hrun, ok_bind, hzero]
  rfl

/-- Nine arenas far from each other, and two streams. -/
theorem poolTest_passes_spaced : ∃ s,
    runTest spacedMallocs (fun _ => nullptr) (fun k => 7919 * k) = .ok (true, s) ∧
      s.systemCalls = 0 :=
  poolTest_passes length_spacedMallocs spacedMallocs_table spacedMallocs_nonnull
    spacedMallocs_apart _ _

end PoolAllocatorTest

/-! ## The free list -/

namespace FreeListAllocatorTest

open FreeListAllocator Session

def tested : Tested FreeListAllocator where
  allocate s size := do
    let (result, s) ← s.allocate cFreeListThreadPolicy size 8
    return (result.getD nullptr, s)
  free s p := do
    let (_, s) ← s.free cFreeListThreadPolicy cMergePolicy p
    return s

/-- `RunTest`: whether the test passes, and whether its second part does. -/
def runTest (arena : Nat) (mem : Memory) (rand : Nat → Nat) : Except Stuck (Bool × Bool) := do
  let s ← tested.run rand sMaxChunksNum
    ((construct (sMaxChunksNum * sMaxChunkSize) mem).init arena)
  let passed := !decide (s.getUsedSize > 0)
  let s ← s.fullMergeMemBlocks
  return (passed, s.isFullyMerged)

variable {totalSize arena : Nat} {memPointers : List Nat} {s : FreeListAllocator}
variable {live : List Lease}

/-- After the requests of these sizes, no block freed yet. -/
structure Filling (totalSize arena : Nat) (rand : Nat → Nat) (memPointers : List Nat)
    (s : FreeListAllocator) (live : List Lease) : Prop where
  wf : WF totalSize arena ⟨s, live⟩
  unbroken : Unbroken totalSize
    ((List.range memPointers.length).map fun k => requiredSize (randomSize rand k) 8).sum ⟨s, live⟩
  perm : (live.map Lease.ptr).Perm memPointers

/-- The pointers still to be freed. No merge is needed: the table has a slot
for the block of each. -/
structure Emptying (totalSize arena : Nat) (memPointers : List Nat) (s : FreeListAllocator)
    (live : List Lease) : Prop where
  wf : WF totalSize arena ⟨s, live⟩
  perm : (live.map Lease.ptr).Perm memPointers
  slots : s.currSize + memPointers.length < freeMemBlocksSize

theorem Filling.allocate {rand : Nat → Nat} (h : Filling totalSize arena rand memPointers s live)
    (hroom : ((List.range (memPointers.length + 1)).map
      fun k => requiredSize (randomSize rand k) 8).sum < totalSize) :
    ∃ p s', tested.allocate s (randomSize rand memPointers.length) = .ok (p, s') ∧
      ∃ live', Filling totalSize arena rand (memPointers ++ [p]) s' live' := by
  have hvalid : Request.Valid ⟨randomSize rand memPointers.length, 8⟩ :=
    ⟨Nat.lt_of_le_of_lt (randomSize_le ..) (by decide), 3, by decide, rfl⟩
  rw [List.range_succ, List.map_append, List.sum_append, List.map_singleton,
    List.sum_singleton] at hroom
  obtain ⟨p, w, hrun, -, hw, hfree, -, hlive, -⟩ :=
    h.wf.allocate_unbroken cMergePolicy h.unbroken hvalid hroom
  refine ⟨p, w.alloc, ?_, w.live, hw, ?_, ?_⟩
  · show (s.allocate .none _ 8 >>= _) = _
    rw [hrun]
    rfl
  · rw [List.length_append, List.length_singleton, List.range_succ, List.map_append,
      List.sum_append, List.map_singleton, List.sum_singleton]
    exact hfree
  · rw [hlive]
    exact (h.perm.cons p).trans (List.perm_append_singleton p memPointers).symm

theorem Filling.emptying {rand : Nat → Nat} (h : Filling totalSize arena rand memPointers s live)
    (hlen : memPointers.length + 1 < freeMemBlocksSize) :
    Emptying totalSize arena memPointers s live := by
  refine ⟨h.wf, h.perm, ?_⟩
  have hone := congrArg List.length h.unbroken
  have hcap := h.wf.cap
  rw [List.length_singleton, freeBlocks, List.length_take, Vector.length_toList] at hone
  simp only at hone hcap
  omega

theorem Emptying.free {p : Nat} (h : Emptying totalSize arena (p :: memPointers) s live) :
    ∃ s', tested.free s p = .ok s' ∧ ∃ live', Emptying totalSize arena memPointers s' live' := by
  have hslots := h.slots
  rw [List.length_cons] at hslots
  have hp : p ∈ live.map Lease.ptr := h.perm.mem_iff.mpr (List.mem_cons_self ..)
  have hword : s.mapped.hasWord (allocationHeader p) = true := by
    obtain ⟨l, hl, rfl⟩ := List.mem_map.mp hp
    exact h.wf.laid.hasWord hl
  rcases InTable.free_cases h.wf.cap cMergePolicy p with
    ⟨hfull, -⟩ | ⟨-, ⟨hno, -⟩ | ⟨-, t, n, hn, hrun⟩⟩
  · exact absurd hfull (by simp only; omega)
  · exact absurd (hword.symm.trans hno) (by decide)
  · obtain ⟨w, hstep, hw, hlive⟩ := h.wf.free_succeeds hp ⟨_, hrun⟩
    rw [step_free_true hrun] at hstep
    obtain rfl := Except.ok.inj hstep
    refine ⟨_, ?_, _, hw, ?_, ?_⟩
    · show (s.free .none cMergePolicy p >>= _) = _
      rw [hrun]
      rfl
    · rw [hlive]
      simpa using h.perm.erase p
    · show n + memPointers.length < freeMemBlocksSize
      simp only at hn
      omega

/-- **The test of the free list passes**, both parts, for every stream whose
requests take less than the arena with headers and padding. -/
theorem freeListTest_passes (arena : Nat) (mem : Memory) {rand : Nat → Nat}
    (hroom : ((List.range sMaxChunksNum).map fun k => requiredSize (randomSize rand k) 8).sum
      < sMaxChunksNum * sMaxChunkSize) : runTest arena mem rand = .ok (true, true) := by
  have hstart := wf_start (show 0 < sMaxChunksNum * sMaxChunkSize by decide) (by decide) arena mem
  have hwhole : Unbroken (sMaxChunksNum * sMaxChunkSize) 0
      (Session.start (sMaxChunksNum * sMaxChunkSize) arena mem) := by
    rw [Unbroken, freeBlocks_start, SizeT.uint32_of_lt (by decide), Nat.sub_zero]
  have htaken : ∀ {k : Nat}, k < sMaxChunksNum → ((List.range (k + 1)).map
      fun k => requiredSize (randomSize rand k) 8).sum < sMaxChunksNum * sMaxChunkSize := by
    intro k hk
    refine Nat.lt_of_le_of_lt ?_ hroom
    exact ((List.range_sublist.mpr hk).map _).sum_le_sum fun _ _ => Nat.zero_le _
  obtain ⟨s, hrun, live, h⟩ : ∃ s, tested.run rand sMaxChunksNum
      ((construct (sMaxChunksNum * sMaxChunkSize) mem).init arena) = .ok s ∧
      ∃ live, Emptying (sMaxChunksNum * sMaxChunkSize) arena [] s live := by
    refine Tested.run_rule tested rand
      (fun ptrs s => ∃ live, Filling (sMaxChunksNum * sMaxChunkSize) arena rand ptrs s live)
      (fun ptrs s => ∃ live, Emptying (sMaxChunksNum * sMaxChunkSize) arena ptrs s live)
      ?_ ?_ ?_ ?_ ⟨[], hstart, hwhole, .refl _⟩
    · rintro ptrs s hlt ⟨live, h⟩
      exact h.allocate (htaken hlt)
    · rintro ptrs s hlen ⟨live, h⟩
      exact ⟨live, h.emptying (by rw [hlen]; decide)⟩
    · rintro ptrs ptrs' s hp ⟨live, h⟩
      exact ⟨live, h.wf, h.perm.trans hp, hp.length_eq ▸ h.slots⟩
    · rintro p ptrs s ⟨live, h⟩
      exact h.free
  have hlive : live = [] := List.map_eq_nil_iff.mp h.perm.eq_nil
  obtain ⟨hused, a, hmerge, hmerged⟩ := h.wf.isFullyMerged (by decide) hlive
  have hused : s.getUsedSize = 0 := hused
  have hmerge : s.fullMergeMemBlocks = .ok a := hmerge
  simp only [runTest, hrun, ok_bind, hused, hmerge, hmerged]
  rfl

/-- Blocks of 5000 bytes leave room. -/
theorem freeListTest_passes_even :
    runTest 4096 (fun _ => 0) (fun _ => 4999) = .ok (true, true) := by
  refine freeListTest_passes 4096 _ ?_
  have hsize : ∀ k, requiredSize (randomSize (fun _ => 4999) k) 8 = 5016 := fun _ =>
    show requiredSize (4999 % sMaxChunkSize + 1) 8 = 5016 by decide +kernel
  simp only [hsize, List.map_const', List.length_range, List.sum_replicate]
  decide

end FreeListAllocatorTest

/-! ## The bump allocators -/

namespace BumpAllocator

variable {s : BumpAllocator} {size : Nat}

/-- `Allocate` returns the address of the offset and stays in the arena, or
refuses. -/
theorem allocate_inside (hoffset : s.offset ≤ s.totalSize) (htotal : s.totalSize < 2 ^ 32)
    (hsize : size < 2 ^ 32) :
    (s.allocate size 8).2.startPtr = s.startPtr ∧ (s.allocate size 8).2.totalSize = s.totalSize ∧
      (s.allocate size 8).2.offset ≤ s.totalSize ∧
      ((s.allocate size 8).1 = none ∧ s.totalSize < s.offset + consumed size 8 ∨
        (s.allocate size 8).1 = some (s.startPtr + s.offset) ∧ s.offset < s.totalSize) := by
  have hmod := Nat.mod_lt size (show 0 < 8 by decide)
  have hcons : consumed size 8 = 8 - size % 8 + size := rfl
  have hsmall : (s.offset + consumed size 8) % 2 ^ 64 = s.offset + consumed size 8 :=
    Nat.mod_eq_of_lt (by omega)
  have h8 : ∃ k ≤ 63, 8 = 2 ^ k := ⟨3, by decide, rfl⟩
  rcases allocate_cases s size h8 with ⟨hbig, hrun⟩ | ⟨hle, hrun⟩
  · rw [hrun]
    exact ⟨rfl, rfl, hoffset, Or.inl ⟨rfl, by omega⟩⟩
  · rw [hrun]
    exact ⟨rfl, rfl, hle, Or.inr ⟨rfl, by omega⟩⟩

end BumpAllocator

namespace StackAllocatorTest

open BumpAllocator

/-- The loops of both bump allocators. -/
def tested : Tested BumpAllocator where
  allocate s size :=
    let (result, s) := StackAllocator.allocate s size 8
    .ok (result.getD nullptr, s)
  free s p := .ok (StackAllocator.free s p).2

/-- The second loop: `Free` of the last pointer, then `pop_back`. -/
def freeBackLoop (memPointers : List Nat) (s : StackAllocator) : StackAllocator :=
  memPointers.reverse.foldl (fun s p => (StackAllocator.free s p).2) s

/-- `RunTest`: whether it passes. -/
def runTest (arena : Nat) (rand : Nat → Nat) : Except Stuck Bool := do
  let s := StackAllocator.init (construct (sMaxChunksNum * sMaxChunkSize)) arena
  let (memPointers, s) ← tested.allocateLoop rand sMaxChunksNum 0 [] s
  let s := freeBackLoop memPointers s
  return !decide (s.getUsedSize > 0)

/-- The first pointer is the start of the arena, the others lie in it or are
null. -/
structure Rooted (totalSize arena : Nat) (memPointers : List Nat) (s : StackAllocator) : Prop where
  start : s.startPtr = arena
  total : s.totalSize = totalSize
  offset : s.offset ≤ totalSize
  empty : memPointers = [] → s.offset = 0
  first : memPointers ≠ [] → memPointers.head? = some arena
  inside : ∀ p ∈ memPointers, p = nullptr ∨ arena ≤ p ∧ p < arena + totalSize

theorem Rooted.allocate {totalSize arena size : Nat} {memPointers : List Nat} {s : StackAllocator}
    (h : Rooted totalSize arena memPointers s) (htotal : totalSize < 2 ^ 32)
    (hroom : sMaxChunkSize + 8 ≤ totalSize) (hsize : size ≤ sMaxChunkSize) :
    ∃ p s', tested.allocate s size = .ok (p, s') ∧
      Rooted totalSize arena (memPointers ++ [p]) s' := by
  have hlt : size < 2 ^ 32 := Nat.lt_of_le_of_lt hsize (by decide)
  have hin : s.offset ≤ s.totalSize := by rw [h.total]; exact h.offset
  have hsmall : s.totalSize < 2 ^ 32 := by rw [h.total]; exact htotal
  obtain ⟨hstart, htot, hoff, hresult⟩ := allocate_inside hin hsmall hlt
  refine ⟨_, _, rfl, hstart.trans h.start, htot.trans h.total, h.total ▸ hoff,
    fun hnil => by simp at hnil, fun _ => ?_, fun p hp => ?_⟩
  · cases memPointers with
    | cons p ptrs => exact (h.first (List.cons_ne_nil p ptrs) :)
    | nil =>
        -- the first request fits
        have hzero := h.empty rfl
        have hmod := Nat.mod_lt size (show 0 < 8 by decide)
        have hcons : consumed size 8 = 8 - size % 8 + size := rfl
        rcases hresult with ⟨-, hbig⟩ | ⟨hsome, -⟩
        · rw [h.total, hzero] at hbig
          omega
        · show some (((BumpAllocator.allocate s size 8).1).getD nullptr) = some arena
          rw [hsome, hzero, h.start]
          rfl
  · rcases List.mem_append.mp hp with hp | hp
    · exact h.inside p hp
    · obtain rfl := List.mem_singleton.mp hp
      show ((BumpAllocator.allocate s size 8).1).getD nullptr = nullptr ∨ _
      rcases hresult with ⟨hnone, -⟩ | ⟨hsome, hlt⟩
      · exact Or.inl (by rw [hnone]; rfl)
      · have htotal := h.total
        refine Or.inr ?_
        show arena ≤ ((BumpAllocator.allocate s size 8).1).getD nullptr ∧
          ((BumpAllocator.allocate s size 8).1).getD nullptr < arena + totalSize
        rw [hsome, h.start, Option.getD_some]
        omega

theorem startPtr_foldl (memPointers : List Nat) : ∀ s : StackAllocator,
    (memPointers.foldl (fun s p => (StackAllocator.free s p).2) s).startPtr = s.startPtr := by
  induction memPointers with
  | nil => exact fun _ => rfl
  | cons p ptrs ih => exact fun s => ih (StackAllocator.free s p).2

/-- **The test of the stack passes**, also when requests were refused and
their null pointers freed. -/
theorem stackTest_passes (arena : Nat) (rand : Nat → Nat) : runTest arena rand = .ok true := by
  have hstart : Rooted (sMaxChunksNum * sMaxChunkSize) arena []
      (StackAllocator.init (construct (sMaxChunksNum * sMaxChunkSize)) arena) :=
    ⟨rfl, rfl, Nat.zero_le _, fun _ => rfl, fun h => absurd rfl h, nofun⟩
  obtain ⟨ptrs, s, hloop, h, hlen⟩ := Tested.allocateLoop_rule tested rand
    (Rooted (sMaxChunksNum * sMaxChunkSize) arena)
    (fun ptrs s _ h => h.allocate (by decide) (by decide) (randomSize_le rand ptrs.length))
    (show ([] : List Nat).length + sMaxChunksNum = sMaxChunksNum from Nat.zero_add _) hstart
  obtain ⟨rest, rfl⟩ : ∃ rest, ptrs = arena :: rest := by
    have hfirst := h.first (by rintro rfl; cases hlen)
    cases ptrs with
    | nil => cases hfirst
    | cons p rest => exact ⟨rest, by rw [Option.some.inj hfirst]⟩
  have hused : (freeBackLoop (arena :: rest) s).getUsedSize = 0 := by
    rw [freeBackLoop, List.reverse_cons, List.foldl_append]
    show SizeT.ofInt ((arena : Int) - (List.foldl _ s rest.reverse).startPtr) = 0
    rw [startPtr_foldl, h.start, Int.sub_self]
    decide +kernel
  rw [List.length_nil] at hloop
  simp only [runTest, hloop, ok_bind, hused]
  rfl

end StackAllocatorTest

namespace LinearAllocatorTest

open BumpAllocator

/-- The allocator, and what each `Allocate` has returned; `none` is the early
`return nullptr`. The test makes no call of `Free`. -/
def tested : Tested (LinearAllocator × List (Option Nat)) where
  allocate s size :=
    let (result, allocator) := LinearAllocator.allocate s.1 size 8
    .ok (result.getD nullptr, allocator, s.2 ++ [result])
  free s ptr := .ok ((LinearAllocator.free s.1 ptr).2, s.2)

/-- `RunTest`: what its requests return, which it drops, and whether it
passes. It never calls `Init`. -/
def runTest (rand : Nat → Nat) : Except Stuck (List (Option Nat) × Bool) := do
  let s := construct (sMaxChunksNum * sMaxChunkSize)
  let (_, s, results) ← tested.allocateLoop rand sMaxChunksNum 0 [] (s, [])
  let s := LinearAllocator.reset s
  return (results, !decide (s.getUsedSize > 0))

/-- The bytes that request `k` takes. -/
def taken (rand : Nat → Nat) (k : Nat) : Nat := consumed (randomSize rand k) 8

/-- The offset that request `k` finds: what the requests before it took, but
for those that did not fit. -/
def offsetAt (rand : Nat → Nat) : Nat → Nat
  | 0 => 0
  | k + 1 =>
      if offsetAt rand k + taken rand k ≤ sMaxChunksNum * sMaxChunkSize then
        offsetAt rand k + taken rand k
      else offsetAt rand k

/-- The answer to request `k`: without an arena, its offset. -/
def answer (rand : Nat → Nat) (k : Nat) : Option Nat :=
  if offsetAt rand k + taken rand k ≤ sMaxChunksNum * sMaxChunkSize then some (offsetAt rand k)
  else none

theorem taken_bounds (rand : Nat → Nat) (k : Nat) :
    0 < taken rand k ∧ taken rand k ≤ sMaxChunkSize + 8 := by
  have hsize := randomSize_le rand k
  refine ⟨consumed_pos _ (by decide), ?_⟩
  unfold taken consumed
  omega

theorem offsetAt_le (rand : Nat → Nat) (k : Nat) :
    offsetAt rand k ≤ sMaxChunksNum * sMaxChunkSize := by
  induction k with
  | zero => exact Nat.zero_le _
  | succ k ih =>
      rw [offsetAt]
      split <;> assumption

/-- All but the last two requests fit, whatever `rand()` returns. -/
theorem offsetAt_eq_sum (rand : Nat → Nat) : ∀ k, k + 1 < sMaxChunksNum →
    offsetAt rand k = ((List.range k).map (taken rand)).sum ∧
      offsetAt rand k ≤ k * (sMaxChunkSize + 8)
  | 0, _ => ⟨rfl, Nat.zero_le _⟩
  | k + 1, hk => by
      obtain ⟨hsum, hle⟩ := offsetAt_eq_sum rand k (by omega)
      have htaken := (taken_bounds rand k).2
      have hroom : (k + 1) * (sMaxChunkSize + 8) ≤ sMaxChunksNum * sMaxChunkSize := by
        have hall : ∀ m, m + 2 ≤ sMaxChunksNum →
            m * (sMaxChunkSize + 8) ≤ sMaxChunksNum * sMaxChunkSize := fun m hm =>
          Nat.le_trans (Nat.mul_le_mul_right _ (Nat.le_sub_of_add_le hm)) (by decide)
        exact hall _ hk
      rw [Nat.succ_mul] at hroom ⊢
      have hfits : offsetAt rand k + taken rand k ≤ sMaxChunksNum * sMaxChunkSize := by omega
      rw [offsetAt, if_pos hfits, List.range_succ, List.map_append, List.sum_append,
        List.map_singleton, List.sum_singleton, hsum]
      exact ⟨rfl, by omega⟩

/-- The two can be refused: a stream of the largest requests. -/
example : answer (fun _ => 5119) 998 = none := by
  rw [answer, (offsetAt_eq_sum _ 998 (by decide)).1]
  decide +kernel

/-- The loop after so many requests. -/
structure Taken (rand : Nat → Nat) (memPointers : List Nat)
    (s : LinearAllocator × List (Option Nat)) : Prop where
  start : s.1.startPtr = nullptr
  total : s.1.totalSize = sMaxChunksNum * sMaxChunkSize
  offset : s.1.offset = offsetAt rand memPointers.length
  results : s.2 = (List.range memPointers.length).map (answer rand)

theorem Taken.allocate {rand : Nat → Nat} {memPointers : List Nat}
    {s : LinearAllocator × List (Option Nat)} (h : Taken rand memPointers s) :
    ∃ p s', tested.allocate s (randomSize rand memPointers.length) = .ok (p, s') ∧
      Taken rand (memPointers ++ [p]) s' := by
  have hle := offsetAt_le rand memPointers.length
  have htaken := (taken_bounds rand memPointers.length).2
  have hsmall : sMaxChunksNum * sMaxChunkSize + (sMaxChunkSize + 8) < 2 ^ 64 := by decide
  have hmod : (s.1.offset + consumed (randomSize rand memPointers.length) 8) % 2 ^ 64
      = offsetAt rand memPointers.length + taken rand memPointers.length := by
    rw [h.offset, Nat.mod_eq_of_lt]
    · rfl
    · show offsetAt rand memPointers.length + taken rand memPointers.length < 2 ^ 64
      omega
  have hlen : ∀ p : Nat, (memPointers ++ [p]).length = memPointers.length + 1 := fun p => by
    rw [List.length_append, List.length_singleton]
  have h8 : ∃ k ≤ 63, 8 = 2 ^ k := ⟨3, by decide, rfl⟩
  rcases allocate_cases s.1 (randomSize rand memPointers.length) h8 with
    ⟨hbig, hrun⟩ | ⟨hfits, hrun⟩
  · rw [hmod, h.total] at hbig
    have hfull := Nat.not_le_of_lt hbig
    refine ⟨nullptr, (s.1, s.2 ++ [none]), ?_, h.start, h.total, ?_, ?_⟩
    · simp only [tested, LinearAllocator.allocate, hrun, Option.getD_none]
    · rw [hlen, h.offset, offsetAt, if_neg hfull]
    · rw [hlen, h.results, List.range_succ, List.map_append, List.map_singleton, answer,
        if_neg hfull]
  · rw [hmod, h.total] at hfits
    have hptr : s.1.startPtr + s.1.offset = offsetAt rand memPointers.length := by
      rw [h.start, h.offset, nullptr, Nat.zero_add]
    rw [hmod, hptr] at hrun
    refine ⟨offsetAt rand memPointers.length, ({ s.1 with
      offset := offsetAt rand memPointers.length + taken rand memPointers.length
      used := offsetAt rand memPointers.length + taken rand memPointers.length },
      s.2 ++ [some (offsetAt rand memPointers.length)]), ?_, h.start, h.total, ?_, ?_⟩
    · simp only [tested, LinearAllocator.allocate, hrun, Option.getD_some]
    · rw [hlen, offsetAt, if_pos hfits]
    · rw [hlen, h.results, List.range_succ, List.map_append, List.map_singleton, answer,
        if_pos hfits]

/-- **The test of the linear allocator passes** without an arena. Each request
is answered by its offset, and refused when it does not fit behind those that
were granted; only the last two can be. The first pointer is null. -/
theorem linearTest_passes (rand : Nat → Nat) : ∃ results, runTest rand = .ok (results, true) ∧
    results = (List.range sMaxChunksNum).map (answer rand) ∧
    (∀ k, k + 2 < sMaxChunksNum →
      results[k]? = some (some ((List.range k).map (taken rand)).sum)) ∧
    results.head? = some (some nullptr) ∧
    ∀ p, some p ∈ results → p < sMaxChunksNum * sMaxChunkSize := by
  have hstart : Taken rand [] (construct (sMaxChunksNum * sMaxChunkSize), []) :=
    ⟨rfl, rfl, rfl, rfl⟩
  obtain ⟨ptrs, ⟨s, results⟩, hloop, h, hlen⟩ := Tested.allocateLoop_rule tested rand (Taken rand)
    (fun _ _ _ h => h.allocate)
    (show ([] : List Nat).length + sMaxChunksNum = sMaxChunksNum from Nat.zero_add _) hstart
  rw [List.length_nil] at hloop
  have hresults : results = (List.range sMaxChunksNum).map (answer rand) := by
    rw [← hlen]
    exact h.results
  have hgranted : ∀ k, k + 2 < sMaxChunksNum →
      results[k]? = some (some ((List.range k).map (taken rand)).sum) := by
    intro k hk
    obtain ⟨hsum, -⟩ := offsetAt_eq_sum rand k (by omega)
    obtain ⟨hnext, -⟩ := offsetAt_eq_sum rand (k + 1) (by omega)
    have hle := offsetAt_le rand (k + 1)
    rw [hnext, List.range_succ, List.map_append, List.sum_append, List.map_singleton,
      List.sum_singleton, ← hsum] at hle
    rw [hresults, List.getElem?_map, List.getElem?_range (by omega), Option.map_some, answer,
      if_pos hle, hsum]
  refine ⟨results, ?_, hresults, hgranted, ?_, fun p hp => ?_⟩
  · simp only [runTest, hloop, ok_bind]
    rfl
  · rw [List.head?_eq_getElem?]
    exact hgranted 0 (by decide)
  · rw [hresults] at hp
    obtain ⟨k, -, hk⟩ := List.mem_map.mp hp
    have hpos := (taken_bounds rand k).1
    rw [answer] at hk
    split at hk
    · rename_i hfits
      obtain rfl := Option.some.inj hk
      omega
    · cases hk

end LinearAllocatorTest

end MemAlloc
