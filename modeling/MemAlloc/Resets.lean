import MemAlloc.Answers
import MemAlloc.FreeListOps
import MemAlloc.PoolRuns

/-!
# `Reset` forgets the past

`FreeListAllocator::Reset` rewrites slot 0 of the table only; the slots
behind it keep what earlier calls left there. `Agree` relates two
allocators that differ in the slots past the list at most: calls with any
arguments end alike on both, with the same answer or not at all
(`Agree.serve`), unless a request fits an entry exactly, when `Allocate`
swaps such a slot in. So a reset allocator answers like a fresh one as long
as no request does (`reset_forgets`), and not any longer
(`reset_remembers`).

`PoolAllocator::Reset` rewrites the whole table. It leaves the members as
`Init` did, whatever was freed into the pool before (`pool_reset_restores`).
-/

namespace MemAlloc

/-! ## The free list -/

inductive ResetCall where
  | allocate (size alignment : Nat)
  | free (ptr : Nat)
  | fullMergeMemBlocks
  | reset
deriving DecidableEq, Repr

inductive ResetAnswer where
  | pointer (result : Option Nat)
  | freed (ok : Bool)
  | done
deriving DecidableEq, Repr

namespace FreeListAllocator

open Coalesce MemBlock

variable {s t : FreeListAllocator} {merge : MergePolicy} {size alignment : Nat}

/-- One call, with its answer. -/
def serveReset (merge : MergePolicy) (s : FreeListAllocator) :
    ResetCall → Except Stuck (ResetAnswer × FreeListAllocator)
  | .allocate size alignment =>
      (s.allocate .none size alignment).map fun r => (.pointer r.1, r.2)
  | .free ptr => (s.free .none merge ptr).map fun r => (.freed r.1, r.2)
  | .fullMergeMemBlocks => s.fullMergeMemBlocks.map fun s => (.done, s)
  | .reset => .ok (.done, s.reset)

/-- The entry found has a rest. -/
def LeavesRest (s : FreeListAllocator) : ResetCall → Prop
  | .allocate size alignment => ∀ (k : Nat) (b : MemBlock),
      s.findFreeMemBlockIndex (requiredSize size alignment) = .ok (k : Int) →
      s.freeBlocks[k]? = some b → SizeT.sub b.blockSize (requiredSize size alignment) > 0
  | _ => True

theorem freeBlocks_reset (s : FreeListAllocator) :
    s.reset.freeBlocks = [⟨0, SizeT.uint32 s.totalSize⟩] := by
  have hpos : 0 < freeMemBlocksSize := by decide
  have hlen : (s.freeMemBlocks.toList.take 1).length = 1 := by
    rw [List.length_take, Vector.length_toList]
    decide
  obtain ⟨b, hb⟩ := List.length_eq_one_iff.mp hlen
  show (Vector.set _ 0 _ hpos).toList.take 1 = _
  rw [Vector.toList_set, List.take_set, hb, List.set_cons_zero]

/-- The two differ in the slots past the list, and in the lock, at most. -/
structure Agree (s t : FreeListAllocator) : Prop where
  total : t.totalSize = s.totalSize
  used : t.used = s.used
  start : t.startPtr = s.startPtr
  cur : t.currSize = s.currSize
  cap : InTable s
  blocks : t.freeBlocks = s.freeBlocks
  mem : t.mem = s.mem
  mapped : t.mapped = s.mapped

namespace Agree

theorem of_freeBlocks (hcap : s.currSize ≤ freeMemBlocksSize)
    (hcap' : t.currSize ≤ freeMemBlocksSize) (hblocks : t.freeBlocks = s.freeBlocks)
    (htotal : t.totalSize = s.totalSize) (hused : t.used = s.used)
    (hstart : t.startPtr = s.startPtr) (hmem : t.mem = s.mem) (hmapped : t.mapped = s.mapped) :
    Agree s t where
  total := htotal
  used := hused
  start := hstart
  cur := by rw [← length_freeBlocks hcap, ← length_freeBlocks hcap', hblocks]
  cap := hcap
  blocks := hblocks
  mem := hmem
  mapped := hmapped

/-- `Reset` makes any two allocators on one arena agree. -/
theorem agree_reset (htotal : t.totalSize = s.totalSize) (hstart : t.startPtr = s.startPtr)
    (hmem : t.mem = s.mem) (hmapped : t.mapped = s.mapped) : Agree s.reset t.reset :=
  of_freeBlocks (show 1 ≤ freeMemBlocksSize by decide) (show 1 ≤ freeMemBlocksSize by decide)
    (by rw [freeBlocks_reset, freeBlocks_reset, htotal]) htotal rfl hstart hmem hmapped

variable (h : Agree s t)
include h

theorem cap' : t.currSize ≤ freeMemBlocksSize := by
  rw [h.cur]
  exact h.cap

/-- Two tables that are the same list. -/
theorem withTable {ts tt : Vector MemBlock freeMemBlocksSize} {n m : Nat}
    (hn : n ≤ freeMemBlocksSize) (hm : m ≤ freeMemBlocksSize)
    (hblocks : tt.toList.take m = ts.toList.take n) :
    Agree (s.withTable ts n) (t.withTable tt m) :=
  of_freeBlocks hn hm hblocks h.total h.used h.start h.mem h.mapped

/-! ### Merging -/

theorem fastMerge {q : Nat} (hq : q < s.currSize) : ∃ s' t', s.fastMergeMemBlocks q = .ok s' ∧
    t.fastMergeMemBlocks q = .ok t' ∧ Agree s' t' := by
  obtain ⟨ts, n, hs, hn, -, hts⟩ := fastMergeMemBlocks_spec h.cap hq
  obtain ⟨tt, m, ht, hm, -, htt⟩ := fastMergeMemBlocks_spec h.cap' (by rw [h.cur]; exact hq)
  refine ⟨_, _, hs, ht, h.withTable (Nat.le_trans hn h.cap) (Nat.le_trans hm h.cap') ?_⟩
  rw [htt, hts, h.blocks]

theorem fullMerge : ∃ s' t', s.fullMergeMemBlocks = .ok s' ∧ t.fullMergeMemBlocks = .ok t' ∧
    Agree s' t' := by
  obtain ⟨ts, n, hs, hn, hts⟩ := fullMergeMemBlocks_spec h.cap
  obtain ⟨tt, m, ht, hm, htt⟩ := fullMergeMemBlocks_spec h.cap'
  refine ⟨_, _, hs, ht, h.withTable (Nat.le_trans hn h.cap) (Nat.le_trans hm h.cap') ?_⟩
  rw [htt, hts, h.blocks]

theorem mergeContiguous (merge : MergePolicy) (hpos : 0 < s.currSize) : ∃ s' t',
    s.mergeContiguous merge = .ok s' ∧ t.mergeContiguous merge = .ok t' ∧ Agree s' t' := by
  cases merge with
  | enableFastMerge =>
      simp only [FreeListAllocator.mergeContiguous, h.cur]
      exact h.fastMerge (by omega)
  | enableFullMerge => exact h.fullMerge
  | enableFullMergeIfNoSpace =>
      have hsame : t.shouldFullMerge = s.shouldFullMerge := by rw [shouldFullMerge, h.cur]; rfl
      simp only [FreeListAllocator.mergeContiguous, hsame]
      cases s.shouldFullMerge with
      | true => exact h.fullMerge
      | false => exact ⟨s, t, rfl, rfl, h⟩

/-! ### Searching -/

theorem blockAt {k : Nat} {b : MemBlock} (hb : s.freeBlocks[k]? = some b) :
    s.blockAt k = .ok b ∧ t.blockAt k = .ok b :=
  ⟨blockAt_ok (getElem?_freeBlocks hb).2,
    blockAt_ok (getElem?_freeBlocks (show t.freeBlocks[k]? = some b by rw [h.blocks, hb])).2⟩

theorem findLoop (size : Nat) : ∀ {i : Nat} (smallestDiff : Nat) (bestIndex : Int),
    i ≤ s.currSize → t.findLoop size i smallestDiff bestIndex
      = s.findLoop size i smallestDiff bestIndex
  | 0, _, _, _ => rfl
  | i + 1, smallestDiff, bestIndex, hi => by
      obtain ⟨b, hb⟩ : ∃ b, s.freeBlocks[i]? = some b :=
        ⟨_, List.getElem?_eq_getElem (by rw [length_freeBlocks h.cap]; exact hi)⟩
      obtain ⟨hs, ht⟩ := h.blockAt hb
      simp only [FreeListAllocator.findLoop, hs, ht, ok_bind,
        findLoop size _ _ (Nat.le_of_succ_le hi)]

theorem find (size : Nat) : t.findFreeMemBlockIndex size = s.findFreeMemBlockIndex size := by
  have hsame : t.shouldFullMerge = s.shouldFullMerge := by rw [shouldFullMerge, h.cur]; rfl
  rw [findFreeMemBlockIndex, findFreeMemBlockIndex, hsame, h.cur, h.used, h.total,
    h.findLoop size _ _ (Nat.le_refl _)]

/-! ### `Allocate` and `Free` -/

/-- The found entry keeps its rest in both. -/
theorem carve {k : Nat} {b : MemBlock} (hb : s.freeBlocks[k]? = some b) {required : Nat}
    (hrest : SizeT.sub b.blockSize required > 0) :
    ∃ s' t', s.carve k b required = .ok s' ∧ t.carve k b required = .ok t' ∧ Agree s' t' := by
  obtain ⟨hk, -⟩ := getElem?_freeBlocks hb
  have hcap := h.cap
  have hkcap : k < freeMemBlocksSize := Nat.lt_of_lt_of_le hk hcap
  obtain ⟨ts, hs, hts⟩ := setBlock_ok (s := s) hkcap
    ⟨SizeT.add b.memBlockOffset (SizeT.uint32 required),
      SizeT.uint32 (SizeT.sub b.blockSize required)⟩
  obtain ⟨tt, ht, htt⟩ := setBlock_ok (s := t) hkcap
    ⟨SizeT.add b.memBlockOffset (SizeT.uint32 required),
      SizeT.uint32 (SizeT.sub b.blockSize required)⟩
  have hblocks : tt.toList.take t.currSize = ts.toList.take s.currSize := by
    rw [hts, htt, List.take_set, List.take_set]
    exact congrArg (List.set · k _) h.blocks
  refine ⟨s.withTable ts s.currSize, t.withTable tt t.currSize, ?_, ?_,
    h.withTable hcap h.cap' hblocks⟩
  · rw [FreeListAllocator.carve, ← hs]
    exact if_pos hrest
  · rw [FreeListAllocator.carve, ← ht]
    exact if_pos hrest

/-- The header is written in both or in neither. -/
theorem writeHeader (a v : Nat) :
    (∃ s' t', s.writeHeader a v = .ok s' ∧ t.writeHeader a v = .ok t' ∧ Agree s' t') ∨
      s.writeHeader a v = .error .unmapped ∧ t.writeHeader a v = .error .unmapped := by
  rw [FreeListAllocator.writeHeader, FreeListAllocator.writeHeader, h.mapped]
  split
  · exact Or.inl ⟨_, _, rfl, rfl, h.total, h.used, h.start, h.cur, h.cap, h.blocks,
      by simp only [h.mem], rfl⟩
  · exact Or.inr ⟨rfl, rfl⟩

theorem allocate (hrest : LeavesRest t (.allocate size alignment)) :
    Runs.Alike Agree (s.allocate .none size alignment) (t.allocate .none size alignment) := by
  by_cases hne : alignment = 0
  · subst hne
    exact Or.inr ⟨_, allocate_alignment_zero, allocate_alignment_zero⟩
  rcases find_cases h.cap (requiredSize size alignment) with hfind | ⟨k, b, hfind, hb, -, -⟩
  · exact Or.inl ⟨none, s, t, allocate_refuse hne hfind,
      allocate_refuse hne ((h.find _).trans hfind), h⟩
  · have hfind' := (h.find _).trans hfind
    have hb' : t.freeBlocks[k]? = some b := by rw [h.blocks, hb]
    obtain ⟨s', t', hs, ht, hagree⟩ := h.carve hb (hrest k b hfind' hb')
    have hcounted : Agree { s' with used := SizeT.add s'.used (requiredSize size alignment) }
        { t' with used := SizeT.add t'.used (requiredSize size alignment) } :=
      ⟨hagree.total, by simp only [hagree.used], hagree.start, hagree.cur, hagree.cap,
        hagree.blocks, hagree.mem, hagree.mapped⟩
    rw [allocate_found hne hfind hb, allocate_found hne hfind' hb', hs, ht, h.start]
    simp only [ok_bind]
    rcases hcounted.writeHeader (s.startPtr + b.memBlockOffset) (requiredSize size alignment) with
      ⟨s'', t'', hs'', ht'', hwritten⟩ | ⟨hs'', ht''⟩
    · rw [hs'', ht'']
      exact Or.inl ⟨_, s'', t'', rfl, rfl, hwritten⟩
    · rw [hs'', ht'']
      exact Or.inr ⟨.unmapped, rfl, rfl⟩

theorem blockOf (ptr : Nat) : t.blockOf ptr = s.blockOf ptr := by
  simp only [FreeListAllocator.blockOf, h.start, h.mem]

theorem free (merge : MergePolicy) (ptr : Nat) :
    Runs.Alike Agree (s.free .none merge ptr) (t.free .none merge ptr) := by
  rcases Nat.eq_or_lt_of_le h.cap with hfull | hcap
  · exact Or.inl ⟨false, s, t, free_full merge ptr hfull,
      free_full merge ptr (h.cur.trans hfull), h⟩
  obtain ⟨ts, hs, hts⟩ := free_push merge ptr hcap
  obtain ⟨tt, ht, htt⟩ := free_push merge ptr (show t.currSize < _ by rw [h.cur]; exact hcap)
  rw [h.mapped] at ht
  -- the header is read in both or in neither
  cases hword : s.mapped.hasWord (allocationHeader ptr) with
  | false =>
      rw [hword] at hs ht
      exact Or.inr ⟨.unmapped, hs, ht⟩
  | true =>
      rw [if_pos hword] at hs ht
      have hpushed : Agree (s.released ts (s.blockOf ptr).blockSize)
          (t.released tt (t.blockOf ptr).blockSize) := by
        refine of_freeBlocks hcap (by show t.currSize + 1 ≤ _; rw [h.cur]; exact hcap) ?_ h.total ?_
          h.start h.mem h.mapped
        · rw [freeBlocks_released, freeBlocks_released, htt, hts, h.blocks, h.blockOf]
        · show SizeT.sub t.used _ = SizeT.sub s.used _
          rw [h.used, h.blockOf]
      obtain ⟨s', t', hs', ht', hagree⟩ := hpushed.mergeContiguous merge (Nat.succ_pos _)
      rw [hs'] at hs
      rw [ht'] at ht
      exact Or.inl ⟨true, s', t', hs, ht, hagree⟩

theorem reset : Agree s.reset t.reset :=
  agree_reset h.total h.start h.mem h.mapped

/-- **Step lemma.** A call ends alike on both, and they agree after it. -/
theorem serve (call : ResetCall) (hrest : LeavesRest t call) :
    Runs.Alike Agree (s.serveReset merge call) (t.serveReset merge call) := by
  cases call with
  | allocate size alignment =>
      rcases h.allocate hrest with ⟨result, s', t', hs, ht, hagree⟩ | ⟨e, hs, ht⟩
      · exact Or.inl ⟨.pointer result, s', t', by rw [serveReset, hs]; rfl,
          by rw [serveReset, ht]; rfl, hagree⟩
      · exact Or.inr ⟨e, by rw [serveReset, hs]; rfl, by rw [serveReset, ht]; rfl⟩
  | free ptr =>
      rcases h.free merge ptr with ⟨ok, s', t', hs, ht, hagree⟩ | ⟨e, hs, ht⟩
      · exact Or.inl ⟨.freed ok, s', t', by rw [serveReset, hs]; rfl,
          by rw [serveReset, ht]; rfl, hagree⟩
      · exact Or.inr ⟨e, by rw [serveReset, hs]; rfl, by rw [serveReset, ht]; rfl⟩
  | fullMergeMemBlocks =>
      obtain ⟨s', t', hs, ht, hagree⟩ := h.fullMerge
      exact Or.inl ⟨.done, s', t', by rw [serveReset, hs]; rfl, by rw [serveReset, ht]; rfl,
        hagree⟩
  | reset => exact Or.inl ⟨.done, _, _, rfl, rfl, h.reset⟩

end Agree

/-- A fresh allocator on the arena of another, in the same process. -/
def fresh (s : FreeListAllocator) : FreeListAllocator :=
  { (construct s.totalSize s.mem).init s.startPtr with mapped := s.mapped }

/-- **`Reset` forgets the past.** Whatever was done to an allocator, after
`Reset` the calls of any run, with any arguments, are answered as by a fresh
one on the same arena, as long as no request fits an entry exactly: both
runs return with the same answers, or both end in the same error. -/
theorem reset_forgets (merge : MergePolicy) (s : FreeListAllocator) (calls : List ResetCall)
    (hrest : Runs.All (Runs.recording (serveReset merge)) (fun x call => LeavesRest x.1 call)
      (s.fresh, []) calls) :
    (∃ answers s' t', Runs.exec (Runs.recording (serveReset merge)) (s.reset, []) calls
        = .ok (s', answers) ∧
      Runs.exec (Runs.recording (serveReset merge)) (s.fresh, []) calls = .ok (t', answers) ∧
      s'.freeBlocks = t'.freeBlocks ∧ s'.used = t'.used ∧ s'.mem = t'.mem) ∨
    ∃ e, Runs.exec (Runs.recording (serveReset merge)) (s.reset, []) calls = .error e ∧
      Runs.exec (Runs.recording (serveReset merge)) (s.fresh, []) calls = .error e := by
  have hagree : Agree s.reset s.fresh := Agree.agree_reset (t := { construct s.totalSize s.mem with
    startPtr := s.startPtr, mapped := s.mapped }) rfl rfl rfl rfl
  rcases Runs.recording_alike Agree LeavesRest (fun s t call h hcall => h.serve call hcall) hagree
    hrest with ⟨answers, s', t', hs, ht, h⟩ | herr
  · exact Or.inl ⟨answers, s', t', hs, ht, h.blocks.symm, h.used.symm, h.mem.symm⟩
  · exact Or.inr herr

/-- Three blocks of 32 bytes behind each other, two of them freed; the process
has the page of the arena. -/
def dirtied : FreeListAllocator where
  totalSize := 128
  used := 32
  startPtr := 4096
  currSize := 3
  freeMemBlocks := threeSlots ⟨96, 32⟩ ⟨0, 32⟩ ⟨64, 32⟩
  mem _ := 0
  mapped a := decide (4096 ≤ a ∧ a < 8192)

theorem reset_forgets_dirtied : ∃ answers s' t',
    Runs.exec (Runs.recording (serveReset cMergePolicy)) (dirtied.reset, [])
        [.allocate 8 8, .free 5000, .reset] = .ok (s', answers) ∧
      Runs.exec (Runs.recording (serveReset cMergePolicy)) (dirtied.fresh, [])
        [.allocate 8 8, .free 5000, .reset] = .ok (t', answers) ∧
      s'.freeBlocks = t'.freeBlocks ∧ s'.used = t'.used ∧ s'.mem = t'.mem := by
  have hreturns : (Runs.exec (Runs.recording (serveReset cMergePolicy)) (dirtied.fresh, [])
      [.allocate 8 8, .free 5000, .reset]).map (·.2)
        = .ok [.pointer (some 4104), .freed true, .done] := by decide +kernel
  refine (reset_forgets cMergePolicy dirtied _
    (Runs.all_cons.mpr ⟨?_, fun _ _ => ?_⟩)).resolve_right ?_
  · -- the one block is larger than the request
    intro k b _ hb
    have hblocks : dirtied.fresh.freeBlocks = [⟨0, SizeT.uint32 128⟩] :=
      freeBlocks_reset { construct 128 dirtied.mem with startPtr := 4096 }
    rw [hblocks] at hb
    obtain rfl := List.mem_singleton.mp (List.mem_of_getElem? hb)
    decide +kernel
  · exact Runs.all_of_forall (by simp [LeavesRest])
  · rintro ⟨e, -, herr⟩
    rw [herr] at hreturns
    cases hreturns

/-- With an exact fit a slot from before the `Reset` comes back: the last
request gets a block, where a fresh allocator has none. -/
theorem reset_remembers :
    (Runs.exec (Runs.recording (serveReset cMergePolicy)) (dirtied.reset, [])
        [.allocate 0 8, .free 4104, .allocate 0 8, .allocate 0 8]).map (·.2)
      = .ok [.pointer (some 4104), .freed true, .pointer (some 4104), .pointer (some 4168)] ∧
    (Runs.exec (Runs.recording (serveReset cMergePolicy)) (dirtied.fresh, [])
        [.allocate 0 8, .free 4104, .allocate 0 8, .allocate 0 8]).map (·.2)
      = .ok [.pointer (some 4104), .freed true, .pointer (some 4104), .pointer none] := by
  decide +kernel

end FreeListAllocator

/-! ## The pool -/

namespace PoolAllocator

variable {s s' : PoolAllocator}

/-- What no call of a client changes: everything but the counter, the index
and what the slots contain. -/
structure SameArena (s s' : PoolAllocator) : Prop where
  total : s'.totalSize = s.totalSize
  start : s'.startPtr = s.startPtr
  num : s'.chunksNum = s.chunksNum
  size : s'.chunkSize = s.chunkSize
  lock : s'.spinlock = s.spinlock
  table : s'.freeChunks.length = s.freeChunks.length

theorem SameArena.trans {s'' : PoolAllocator} (h : SameArena s s') (h' : SameArena s' s'') :
    SameArena s s'' where
  total := h'.total.trans h.total
  start := h'.start.trans h.start
  num := h'.num.trans h.num
  size := h'.size.trans h.size
  lock := h'.lock.trans h.lock
  table := h'.table.trans h.table

theorem allocate_sameArena {result : Option Nat} (h : s.allocate .none = .ok (result, s')) :
    SameArena s s' := by
  simp only [allocate, lock, pure_bind] at h
  split at h
  · obtain ⟨-, rfl⟩ := Prod.mk.inj (Except.ok.inj h)
    exact ⟨rfl, rfl, rfl, rfl, rfl, rfl⟩
  · obtain ⟨p, -, h⟩ := bind_eq_ok.mp h
    obtain ⟨-, rfl⟩ := Prod.mk.inj (Except.ok.inj h)
    exact ⟨rfl, rfl, rfl, rfl, rfl, rfl⟩

theorem free_sameArena {ptr : Nat} {ok : Bool} (h : s.free .none ptr = .ok (ok, s')) :
    SameArena s s' := by
  simp only [free, lock, pure_bind] at h
  split at h
  · obtain ⟨-, rfl⟩ := Prod.mk.inj (Except.ok.inj h)
    exact ⟨rfl, rfl, rfl, rfl, rfl, rfl⟩
  · obtain ⟨a, hset, h⟩ := bind_eq_ok.mp h
    obtain ⟨-, rfl⟩ := Prod.mk.inj (Except.ok.inj h)
    rw [setChunk] at hset
    split at hset
    · obtain rfl := Except.ok.inj hset
      exact ⟨rfl, rfl, rfl, rfl, rfl, List.length_set⟩
    · cases hset

/-- A pool with its arena, as `Reset` leaves it, is determined by what no
call changes. -/
theorem SameArena.reset (h : SameArena s s') (hlen : s.freeChunks.length = s.chunksNum) :
    s'.reset .none = s.reset .none := by
  rw [reset_eq hlen, reset_eq (by rw [h.table, h.num, hlen])]
  obtain ⟨⟨_, _⟩, _, _, _, _, _, _⟩ := s
  obtain ⟨⟨_, _⟩, _, _, _, _, _, _⟩ := s'
  obtain ⟨rfl, rfl, rfl, rfl, rfl, -⟩ := h
  rfl

end PoolAllocator

namespace PoolSession

open PoolAllocator

variable {w w' : PoolSession}

/-- **Step lemma.** Whatever its arguments. -/
theorem step_sameArena (hlen : w.alloc.freeChunks.length = w.alloc.chunksNum) {call : PoolCall}
    (h : step w call = .ok w') : SameArena w.alloc w'.alloc := by
  rcases step_cases h with ⟨size, result, a, -, hrun, rfl⟩ | ⟨ptr, ok, a, -, hrun, rfl⟩ |
    ⟨a, -, hrun, rfl⟩
  · exact allocate_sameArena hrun
  · exact free_sameArena hrun
  · rw [reset_eq hlen] at hrun
    obtain rfl := Except.ok.inj hrun
    exact ⟨rfl, rfl, rfl, rfl, rfl, by rw [hlen]; exact length_slots ..⟩

/-- **`Reset` restores a pool.** After any calls that returned, with any
arguments (pointers freed twice, or never allocated), `Reset` leaves exactly
the state that `Init` did. -/
theorem pool_reset_restores {chunksNum chunkSize arena : Nat} {table : List Nat}
    (hlen : table.length = chunksNum) {w₀ : PoolSession}
    (hstart : start chunksNum chunkSize arena table = .ok w₀) {calls : List PoolCall}
    (hrun : Runs.exec step w₀ calls = .ok w) : step w .reset = .ok w₀ := by
  obtain ⟨s, hinit, hw₀⟩ := bind_eq_ok.mp hstart
  obtain rfl := Except.ok.inj hw₀
  have hreset : ({ construct chunksNum chunkSize with startPtr := arena, freeChunks := table } :
      PoolAllocator).reset .none = .ok s := hinit
  rw [reset_eq hlen] at hreset
  obtain rfl := Except.ok.inj hreset
  have hfull : (slots arena chunksNum chunkSize).length = chunksNum := length_slots ..
  have hsame := Runs.exec_keeps
    (fun w' => SameArena _ w'.alloc) (fun _ _ _ h hok =>
      h.trans (step_sameArena (h.table.trans (hfull.trans h.num.symm)) hok))
    (⟨rfl, rfl, rfl, rfl, rfl, rfl⟩ : SameArena _ _) hrun
  rw [step, hsame.reset hfull, reset_eq hfull]
  rfl

/-- A chunk is freed twice. -/
theorem pool_reset_restores_misused : ∃ w₀ w,
    start 4 16 4096 [0, 0, 0, 0] = .ok w₀ ∧
      Runs.exec step w₀ [.allocate 8, .allocate 8, .free 4144, .free 4144] = .ok w ∧
      step w .reset = .ok w₀ := by
  have hlive : (start 4 16 4096 [0, 0, 0, 0] >>= fun w₀ =>
      Runs.exec step w₀ [.allocate 8, .allocate 8, .free 4144, .free 4144]).map PoolSession.live
        = .ok [4128] := by decide +kernel
  obtain ⟨w, hrun, -⟩ := map_eq_ok.mp hlive
  obtain ⟨w₀, hstart, hrun⟩ := bind_eq_ok.mp hrun
  have hlen : [0, 0, 0, 0].length = 4 := rfl
  exact ⟨w₀, w, hstart, hrun, pool_reset_restores hlen hstart hrun⟩

end PoolSession

end MemAlloc
