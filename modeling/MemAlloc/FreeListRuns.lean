import Mathlib.Algebra.Order.BigOperators.Group.List
import MemAlloc.FreeListMerge
import MemAlloc.Runs

/-!
# Runs of `FreeListAllocator`

A `Session` is an allocator together with its clients: the pointers that
were returned and not yet freed, each with the number of bytes the client
may write. Calls are `Allocate`, `Free`, `FullMergeMemBlocks` and a write
of the clients into their own bytes.

`Session.Laid` says that the free blocks and the live blocks, read off the
headers in memory, tile the arena, and that the counter is the sum of the
headers. `Session.WF`, the invariant of every run, says in addition that each
live block holds its header and more than the bytes of its client. One lemma
per call says that it is kept: `WF.granted` (`Allocate`), `WF.released` and
`WF.merged` (`Free`, the full merge) and `WF.clientWrites`; `Free` and the
merges ask for no more than `Laid`.

`Allocate` keeps it only on a `CleanFit`: the found block is larger than
the request, or else it is the last of at least two and the slot past the
list happens to repeat the entry before it - the exact-fit branch swaps the
wrong slots.
-/

namespace MemAlloc

open FreeListAllocator

/-- A free-list allocator with the live pointers of its clients. -/
structure Session where
  alloc : FreeListAllocator
  live : List Lease

inductive FreeListCall where
  | allocate (size alignment : Nat)
  | free (ptr : Nat)
  | fullMergeMemBlocks
  | clientWrites (mem : Memory)

namespace Session

/-- The header stored in front of a live pointer. -/
def header (s : FreeListAllocator) (l : Lease) : Nat :=
  s.mem.readWord (l.ptr - cAllocationHeaderSize)

/-- The block of a live pointer, as an extent of the arena. -/
def liveExtent (s : FreeListAllocator) (l : Lease) : Extent :=
  ⟨l.ptr - cAllocationHeaderSize - s.startPtr, header s l⟩

/-- `Init()` on a fresh allocator; nothing is live. -/
def start (totalSize : Nat) (arena : Nat) (mem : Memory) : Session :=
  ⟨(construct totalSize mem).init arena, []⟩

/-- One call, under the shipped thread policy. A pointer that was returned
is live until a `Free` of it returns `true`; a request counts with the low
32 bits of its size, as in the code. -/
def step (merge : MergePolicy) (w : Session) : FreeListCall → Except Stuck Session
  | .allocate size alignment => do
      let (result, alloc) ← w.alloc.allocate .none size alignment
      return ⟨alloc, match result with
        | some ptr => ⟨ptr, SizeT.uint32 size⟩ :: w.live
        | none => w.live⟩
  | .free ptr => do
      let (ok, alloc) ← w.alloc.free .none merge ptr
      return ⟨alloc, if ok then w.live.eraseP (·.ptr == ptr) else w.live⟩
  | .fullMergeMemBlocks => do
      let alloc ← w.alloc.fullMergeMemBlocks
      return ⟨alloc, w.live⟩
  | .clientWrites mem => return ⟨{ w.alloc with mem }, w.live⟩

/-- The calls clients may make: any size, any power of two as alignment, `Free`
of a live pointer, writes inside their own bytes. -/
def Legal (w : Session) : FreeListCall → Prop
  | .allocate size alignment => size < 2 ^ 64 ∧ ∃ k ≤ 63, alignment = 2 ^ k
  | .free ptr => ∃ l ∈ w.live, l.ptr = ptr
  | .fullMergeMemBlocks => True
  | .clientWrites mem =>
      ∀ a, mem a ≠ w.alloc.mem a → ∃ l ∈ w.live, l.ptr ≤ a ∧ a < l.ptr + l.size

/-- The block the search finds can be carved without harm: it is larger
than the request, or the swap of the exact-fit branch removes it (it is the
last one and the slot past the list repeats the entry before it). -/
def CleanFit (w : Session) : FreeListCall → Prop
  | .allocate size alignment => ∀ (k : Nat) (b : MemBlock),
      w.alloc.findFreeMemBlockIndex (requiredSize size alignment) = .ok (k : Int) →
      w.alloc.freeBlocks[k]? = some b →
      requiredSize size alignment < b.blockSize ∨
        0 < k ∧ k + 1 = w.alloc.currSize ∧
          w.alloc.freeMemBlocks.toList[w.alloc.currSize]? = w.alloc.freeBlocks[k - 1]?
  | _ => True

/-! Both can be evaluated on a concrete run (`Legal` for calls that are no
writes). -/

def isLegal (w : Session) : FreeListCall → Bool
  | .allocate size alignment =>
      decide (size < 2 ^ 64) && (List.range 64).any fun k => alignment == 2 ^ k
  | .free ptr => w.live.any (·.ptr == ptr)
  | .fullMergeMemBlocks => true
  | .clientWrites _ => false

theorem legal_of_isLegal {w : Session} {call : FreeListCall} (h : isLegal w call = true) :
    Legal w call := by
  cases call with
  | allocate size alignment =>
      simp only [isLegal, Bool.and_eq_true, decide_eq_true_eq, List.any_eq_true, List.mem_range,
        beq_iff_eq] at h
      obtain ⟨hsize, k, hk, heq⟩ := h
      exact ⟨hsize, k, Nat.le_of_lt_succ hk, heq⟩
  | free ptr => simpa [isLegal, Legal] using h
  | fullMergeMemBlocks => trivial
  | clientWrites mem => cases h

theorem all_legal {merge : MergePolicy} {w : Session} {calls : List FreeListCall}
    (h : Runs.All (step merge) (fun w call => isLegal w call = true) w calls) :
    Runs.All (step merge) Legal w calls :=
  h.imp fun _ _ => legal_of_isLegal

instance (w : Session) : DecidablePred (CleanFit w)
  | .allocate size alignment =>
      match hfind : w.alloc.findFreeMemBlockIndex (requiredSize size alignment) with
      | .ok (.ofNat k) =>
          match hb : w.alloc.freeBlocks[k]? with
          | some b => decidable_of_iff (requiredSize size alignment < b.blockSize ∨
              0 < k ∧ k + 1 = w.alloc.currSize ∧
                w.alloc.freeMemBlocks.toList[w.alloc.currSize]? = w.alloc.freeBlocks[k - 1]?)
              ⟨fun h k' b' hk' hb' => by
                obtain rfl : k = k' := Int.ofNat.inj (Except.ok.inj (hfind.symm.trans hk'))
                obtain rfl := Option.some.inj (hb.symm.trans hb')
                exact h, fun h => h k b hfind hb⟩
          | none => isTrue fun k' b' hk' hb' => by
              obtain rfl : k = k' := Int.ofNat.inj (Except.ok.inj (hfind.symm.trans hk'))
              rw [hb] at hb'
              cases hb'
      | .ok (.negSucc k) => isTrue fun k' b' hk' _ => by
          cases Except.ok.inj (hfind.symm.trans hk')
      | .error e => isTrue fun k' b' hk' _ => by cases hfind.symm.trans hk'
  | .free _ => isTrue trivial
  | .fullMergeMemBlocks => isTrue trivial
  | .clientWrites _ => isTrue trivial

/-- The extents of the free blocks, then those of the live blocks. -/
def extents (w : Session) : List Extent :=
  w.alloc.freeBlocks.map MemBlock.extent ++ w.live.map (liveExtent w.alloc)

/-- The invariant of a session on the arena `[arena, arena + totalSize)`. -/
structure WF (totalSize : Nat) (arena : Nat) (w : Session) : Prop where
  total : w.alloc.totalSize = totalSize
  base : w.alloc.startPtr = arena
  small : totalSize < 2 ^ 32
  cap : w.alloc.currSize ≤ freeMemBlocksSize
  tiles : Tiles totalSize w.extents
  used : w.alloc.used = (w.live.map (header w.alloc)).sum
  mapped : ∀ a, arena ≤ a → a < arena + totalSize → w.alloc.mapped a = true
  lease : ∀ l ∈ w.live, arena + cAllocationHeaderSize ≤ l.ptr ∧
    cAllocationHeaderSize + l.size < header w.alloc l

/-- Free and live blocks tile the arena `[arena, arena + totalSize)`, the
counter is the sum of the live headers; how large these are is left open, as
long as they can be read. -/
structure Laid (totalSize : Nat) (arena : Nat) (w : Session) : Prop where
  total : w.alloc.totalSize = totalSize
  base : w.alloc.startPtr = arena
  small : totalSize < 2 ^ 32
  cap : w.alloc.currSize ≤ freeMemBlocksSize
  tiles : Tiles totalSize w.extents
  used : w.alloc.used = (w.live.map (header w.alloc)).sum
  mapped : ∀ a, arena ≤ a → a < arena + totalSize → w.alloc.mapped a = true
  ptr : ∀ l ∈ w.live, arena + cAllocationHeaderSize ≤ l.ptr
  word : ∀ l ∈ w.live, w.alloc.mapped.hasWord (l.ptr - cAllocationHeaderSize) = true

variable {totalSize : Nat} {arena : Nat} {mem : Memory} {merge : MergePolicy} {w : Session}

/-- Where eight bytes of the arena lie, a header can be read and written. -/
theorem WF.hasWord (h : WF totalSize arena w) {a : Nat} (hlo : arena ≤ a)
    (hhi : a + cAllocationHeaderSize ≤ arena + totalSize) : w.alloc.mapped.hasWord a = true := by
  have hhead : cAllocationHeaderSize = 8 := rfl
  exact AddressSpace.hasWord_of_range fun b hb hb' => h.mapped b (by omega) (by omega)

theorem WF.laid (h : WF totalSize arena w) : Laid totalSize arena w where
  total := h.total
  base := h.base
  small := h.small
  cap := h.cap
  tiles := h.tiles
  used := h.used
  mapped := h.mapped
  ptr l hl := (h.lease l hl).1
  word l hl := by
    have hstop := h.tiles.stop_le (List.mem_append_right _ (List.mem_map_of_mem hl))
    have hlease := h.lease l hl
    rw [Extent.stop, liveExtent, h.base] at hstop
    exact h.hasWord (by omega) (by simp only at hstop; omega)

theorem Laid.wf (h : Laid totalSize arena w)
    (hsize : ∀ l ∈ w.live, cAllocationHeaderSize + l.size < header w.alloc l) :
    WF totalSize arena w where
  total := h.total
  base := h.base
  small := h.small
  cap := h.cap
  tiles := h.tiles
  used := h.used
  mapped := h.mapped
  lease l hl := ⟨h.ptr l hl, hsize l hl⟩

/-! ## Any call -/

theorem step_allocate {size alignment ptr : Nat} {a : FreeListAllocator}
    (h : w.alloc.allocate .none size alignment = .ok (some ptr, a)) :
    step merge w (.allocate size alignment) = .ok ⟨a, ⟨ptr, SizeT.uint32 size⟩ :: w.live⟩ := by
  simp [step, h]

theorem step_refuse {size alignment : Nat} {a : FreeListAllocator}
    (h : w.alloc.allocate .none size alignment = .ok (none, a)) :
    step merge w (.allocate size alignment) = .ok ⟨a, w.live⟩ := by
  simp [step, h]

theorem step_free_true {ptr : Nat} {a : FreeListAllocator}
    (h : w.alloc.free .none merge ptr = .ok (true, a)) :
    step merge w (.free ptr) = .ok ⟨a, w.live.eraseP (·.ptr == ptr)⟩ := by
  simp [step, h]

theorem step_free_false {ptr : Nat} {a : FreeListAllocator}
    (h : w.alloc.free .none merge ptr = .ok (false, a)) :
    step merge w (.free ptr) = .ok ⟨a, w.live⟩ := by
  simp [step, h]

/-- Whatever its arguments, a call that returns leaves the free blocks in the
table, the arena where it is and the memory the process has as it was. -/
theorem step_inTable {w' : Session} {call : FreeListCall} (h : InTable w.alloc)
    (hok : step merge w call = .ok w') :
    InTable w'.alloc ∧ w'.alloc.startPtr = w.alloc.startPtr ∧
      w'.alloc.mapped = w.alloc.mapped := by
  cases call with
  | allocate size alignment =>
      obtain ⟨⟨r, a⟩, hrun, hok⟩ := bind_eq_ok.mp hok
      obtain rfl := Except.ok.inj hok
      rcases (h.allocate_ok hrun).2 with
        ⟨-, -, rfl⟩ | ⟨k, b, t, n, -, -, -, -, hn, -, -, rfl⟩
      · exact ⟨h, rfl, rfl⟩
      · exact ⟨Nat.le_trans hn h, rfl, rfl⟩
  | free ptr =>
      obtain ⟨⟨r, a⟩, hrun, hok⟩ := bind_eq_ok.mp hok
      obtain rfl := Except.ok.inj hok
      rcases h.free_ok hrun with ⟨-, -, rfl⟩ | ⟨hcap, -, t, n, hn, rfl⟩
      · exact ⟨h, rfl, rfl⟩
      · exact ⟨Nat.le_trans hn hcap, rfl, rfl⟩
  | fullMergeMemBlocks =>
      obtain ⟨t, n, hrun, hn, -⟩ := fullMergeMemBlocks_spec h
      simp only [step, hrun, ok_bind] at hok
      obtain rfl := Except.ok.inj hok
      exact ⟨Nat.le_trans hn h, rfl, rfl⟩
  | clientWrites mem =>
      obtain rfl := Except.ok.inj hok
      exact ⟨h, rfl, rfl⟩

theorem mapped_start (totalSize arena : Nat) (mem : Memory) (a : Nat) (hlo : arena ≤ a)
    (hhi : a < arena + totalSize) : (start totalSize arena mem).alloc.mapped a = true := by
  show AddressSpace.withArena (fun _ => false) arena totalSize a = true
  exact AddressSpace.withArena_inside hlo hhi

theorem hasWord_start {totalSize arena a : Nat} {mem : Memory} (hlo : arena ≤ a)
    (hhi : a + cAllocationHeaderSize ≤ arena + totalSize) :
    (start totalSize arena mem).alloc.mapped.hasWord a = true := by
  have hhead : cAllocationHeaderSize = 8 := rfl
  exact AddressSpace.hasWord_of_range fun b hb hb' =>
    mapped_start totalSize arena mem b (by omega) (by omega)

theorem inTable_start (totalSize arena : Nat) (mem : Memory) :
    InTable (start totalSize arena mem).alloc :=
  show 1 ≤ freeMemBlocksSize by decide

/-! ## The start of a run -/

theorem freeBlocks_start (totalSize : Nat) (arena : Nat) (mem : Memory) :
    (start totalSize arena mem).alloc.freeBlocks = [⟨0, SizeT.uint32 totalSize⟩] := by
  have hpos : 0 < freeMemBlocksSize := by decide
  show (Vector.set _ 0 _ hpos).toList.take 1 = _
  rw [Vector.toList_set]
  obtain ⟨n, hn⟩ : ∃ n, freeMemBlocksSize = n + 1 := ⟨freeMemBlocksSize - 1, by omega⟩
  simp [construct, hn, List.replicate_succ]

theorem wf_start (hpos : 0 < totalSize) (hsmall : totalSize < 2 ^ 32) (arena : Nat) (mem : Memory) :
    WF totalSize arena (start totalSize arena mem) where
  total := rfl
  base := rfl
  small := hsmall
  cap := by show 1 ≤ freeMemBlocksSize; decide
  tiles := by
    rw [extents, freeBlocks_start, SizeT.uint32_of_lt hsmall]
    exact Tiles.single hpos
  used := rfl
  mapped := mapped_start totalSize arena mem
  lease := by intro l hl; cases hl

/-! ## Where live blocks are -/

namespace Laid

variable (h : Laid totalSize arena w)
include h

theorem header_le {l : Lease} (hl : l ∈ w.live) :
    l.ptr - cAllocationHeaderSize - arena + header w.alloc l ≤ totalSize := by
  have := h.tiles.stop_le (List.mem_append_right _ (List.mem_map_of_mem hl))
  rwa [Extent.stop, liveExtent, h.base] at this

/-- A free block and a live one lie one after the other. -/
theorem free_apart {b : MemBlock} (hb : b ∈ w.alloc.freeBlocks) {l : Lease} (hl : l ∈ w.live) :
    arena + b.memBlockOffset + b.blockSize ≤ l.ptr - cAllocationHeaderSize ∨
      l.ptr - cAllocationHeaderSize + header w.alloc l ≤ arena + b.memBlockOffset := by
  have hap := h.tiles.apart (List.mem_map_of_mem hb) (List.mem_map_of_mem hl)
  have hptr := h.ptr l hl
  simp only [Extent.stop, liveExtent, MemBlock.extent, h.base] at hap
  omega

/-- Two live blocks with different pointers lie one after the other. -/
theorem live_apart {l l' : Lease} (hl : l ∈ w.live) (hl' : l' ∈ w.live) (hne : l.ptr ≠ l'.ptr) :
    l.ptr - cAllocationHeaderSize + header w.alloc l ≤ l'.ptr - cAllocationHeaderSize ∨
      l'.ptr - cAllocationHeaderSize + header w.alloc l' ≤ l.ptr - cAllocationHeaderSize := by
  have hptr := h.ptr l hl
  have hptr' := h.ptr l' hl'
  have hhead : cAllocationHeaderSize = 8 := rfl
  have hd := (List.pairwise_append.mp h.tiles.disjoint).2.1.forall (List.mem_map_of_mem hl)
    (List.mem_map_of_mem hl') (fun heq => hne (by
      have := congrArg Extent.start heq
      simp only [liveExtent, h.base] at this
      omega))
  have hmem : ∀ {l}, l ∈ w.live → liveExtent w.alloc l ∈ w.extents := fun hl =>
    List.mem_append_right _ (List.mem_map_of_mem hl)
  have hap := (Extent.disjoint_iff (h.tiles.pos _ (hmem hl)) (h.tiles.pos _ (hmem hl'))).mp hd
  simp only [Extent.stop, liveExtent, h.base] at hap
  omega

/-- The blocks of the table are inside the arena, so their sizes and ends
fit in 32 bits. -/
theorem block_le {b : MemBlock} (hb : b ∈ w.alloc.freeBlocks) :
    0 < b.blockSize ∧ b.memBlockOffset + b.blockSize ≤ totalSize :=
  have hmem : b.extent ∈ w.extents := List.mem_append_left _ (List.mem_map_of_mem hb)
  ⟨h.tiles.pos _ hmem, h.tiles.stop_le hmem⟩

/-- The counter and the free blocks account for the whole arena. -/
theorem used_add_free :
    w.alloc.used + (w.alloc.freeBlocks.map MemBlock.blockSize).sum = totalSize := by
  have hsum := h.tiles.sum_len
  rw [extents, List.map_append, List.sum_append, List.map_map, List.map_map] at hsum
  rw [h.used, Nat.add_comm]
  exact hsum

/-! ### Merging and `Free` -/

/-- Joining free blocks that touch. -/
theorem merged {t : Vector MemBlock freeMemBlocksSize} {n : Nat} (hn : n ≤ w.alloc.currSize)
    (ht : t.toList.take n = w.alloc.freeBlocks ∨
      (∃ q, t.toList.take n
        = Coalesce.mergeAt MemBlock.touches MemBlock.join w.alloc.freeBlocks q) ∨
      t.toList.take n = Coalesce.pass MemBlock.touches MemBlock.join w.alloc.freeBlocks) :
    Laid totalSize arena ⟨w.alloc.withTable t n, w.live⟩ := by
  have hsmall := h.small
  have hperm : ∀ l l' : List MemBlock, l.Perm l' →
      Tiles totalSize (l.map MemBlock.extent ++ w.live.map (liveExtent w.alloc)) →
      Tiles totalSize (l'.map MemBlock.extent ++ w.live.map (liveExtent w.alloc)) :=
    fun l l' hp htiles => htiles.perm ((hp.map _).append_right _)
  have hjoin : ∀ a b rest, MemBlock.touches a b = true →
      Tiles totalSize ((a :: b :: rest).map MemBlock.extent ++ w.live.map (liveExtent w.alloc)) →
      Tiles totalSize ((MemBlock.join a b :: rest).map MemBlock.extent ++
        w.live.map (liveExtent w.alloc)) :=
    fun a b rest htouch htiles => MemBlock.tiles_join (by omega) htouch htiles
  refine ⟨h.total, h.base, h.small, Nat.le_trans hn h.cap, ?_, h.used, h.mapped, h.ptr, h.word⟩
  show Tiles totalSize ((t.toList.take n).map MemBlock.extent ++ w.live.map (liveExtent w.alloc))
  rcases ht with ht | ⟨q, ht⟩ | ht
  · rw [ht]
    exact h.tiles
  · rw [ht]
    exact Coalesce.mergeAt_induction hperm hjoin h.tiles q
  · rw [ht]
    exact Coalesce.pass_induction hperm hjoin h.tiles

theorem inRange {b : MemBlock} (hb : b ∈ w.alloc.freeBlocks) : b.InRange := by
  have hle := h.block_le hb
  have hsmall := h.small
  unfold MemBlock.InRange
  omega

/-- After a full merge no two free blocks touch. -/
theorem separated {t : Vector MemBlock freeMemBlocksSize} {n : Nat}
    (ht : t.toList.take n = Coalesce.pass MemBlock.touches MemBlock.join w.alloc.freeBlocks) :
    Separated ((w.alloc.withTable t n).freeBlocks.map MemBlock.extent) := by
  rw [freeBlocks_withTable, ht]
  exact pass_extents_separated fun b hb => h.inRange hb

theorem allocationHeader_eq {l : Lease} (hl : l ∈ w.live) :
    allocationHeader l.ptr = l.ptr - cAllocationHeaderSize := by
  have := h.ptr l hl
  exact if_pos (by omega)

/-- `Free` can read the header of a live pointer. -/
theorem hasWord {l : Lease} (hl : l ∈ w.live) :
    w.alloc.mapped.hasWord (allocationHeader l.ptr) = true := by
  rw [h.allocationHeader_eq hl]
  exact h.word l hl

theorem blockOf_blockSize {l : Lease} (hl : l ∈ w.live) :
    (w.alloc.blockOf l.ptr).blockSize = header w.alloc l := by
  rw [blockOf, h.allocationHeader_eq hl, header]

/-- The block `Free` reconstructs from a live pointer is the live block. -/
theorem blockOf_extent {l : Lease} (hl : l ∈ w.live) :
    (w.alloc.blockOf l.ptr).extent = liveExtent w.alloc l := by
  have hle := h.header_le hl
  have hptr := h.ptr l hl
  have hsmall := h.small
  have hhead : cAllocationHeaderSize = 8 := rfl
  have hbase := h.base
  refine Extent.ext ?_ (h.blockOf_blockSize hl)
  show SizeT.uint32OfInt _ = l.ptr - cAllocationHeaderSize - w.alloc.startPtr
  rw [h.allocationHeader_eq hl]
  exact SizeT.uint32OfInt_of_lt (by omega) (by omega)

/-- The push of `Free`, before the merge: one block goes from live to free. -/
theorem released {l : Lease} (hl : l ∈ w.live) (hcap : w.alloc.currSize < freeMemBlocksSize)
    {t : Vector MemBlock freeMemBlocksSize}
    (ht : t.toList.take (w.alloc.currSize + 1) = w.alloc.freeBlocks ++ [w.alloc.blockOf l.ptr]) :
    Laid totalSize arena ⟨w.alloc.released t (w.alloc.blockOf l.ptr).blockSize,
      w.live.eraseP (·.ptr == l.ptr)⟩ := by
  obtain ⟨l', hl', hptr, hlive⟩ : ∃ l' ∈ w.live, l'.ptr = l.ptr ∧
      w.live.Perm (l' :: w.live.eraseP (·.ptr == l.ptr)) := by
    obtain ⟨l', l₁, l₂, -, hp, heq, her⟩ :=
      List.exists_of_eraseP hl (p := (·.ptr == l.ptr)) (by simp)
    refine ⟨l', by simp [heq], by simpa using hp, ?_⟩
    rw [her, heq]
    exact List.perm_middle
  have hblock : (w.alloc.blockOf l.ptr).blockSize = header w.alloc l' := by
    rw [← hptr, h.blockOf_blockSize hl']
  have hsum := hlive.map (header w.alloc) |>.sum_eq
  rw [List.map_cons, List.sum_cons] at hsum
  have hbound := h.used_add_free
  have hsmall := h.small
  have hused := h.used
  refine ⟨h.total, h.base, h.small, Nat.succ_le_of_lt hcap, ?_, ?_, h.mapped,
    fun l hl => h.ptr l (List.mem_of_mem_eraseP hl),
    fun l hl => h.word l (List.mem_of_mem_eraseP hl)⟩
  · rw [extents, freeBlocks_released, ht, List.map_append, List.map_singleton, ← hptr,
      h.blockOf_extent hl', List.append_assoc]
    refine h.tiles.perm (List.Perm.append_left _ ?_)
    have := hlive.map (liveExtent w.alloc)
    rw [List.map_cons, ← hptr] at this
    exact this
  · show SizeT.sub w.alloc.used _ = _
    rw [SizeT.sub_of_le (by omega) (by omega), hblock, hused, hsum, Nat.add_sub_cancel_left]
    rfl

end Laid

/-! ## What each call does to the invariant -/

namespace WF

variable (h : WF totalSize arena w)
include h

/-- No free byte, no free block. -/
theorem freeBlocks_eq_nil (hused : w.alloc.used = w.alloc.totalSize) : w.alloc.freeBlocks = [] := by
  have hsum := h.laid.used_add_free
  have htotal := h.total
  refine List.eq_nil_iff_forall_not_mem.mpr ?_
  intro b hb
  have hle := List.single_le_sum (fun _ _ => Nat.zero_le _) _
    (List.mem_map_of_mem (f := MemBlock.blockSize) hb)
  have hpos := (h.laid.block_le hb).1
  omega

/-- `Allocate` can write the header of a free block that holds one. -/
theorem hasWord_block {b : MemBlock} (hb : b ∈ w.alloc.freeBlocks)
    (hfit : cAllocationHeaderSize ≤ b.blockSize) :
    w.alloc.mapped.hasWord (w.alloc.startPtr + b.memBlockOffset) = true := by
  have hble := h.laid.block_le hb
  rw [h.base]
  exact h.hasWord (Nat.le_add_right ..) (by omega)

/-- The header `Allocate` writes into a carved block is read back with the
block, and leaves the other live blocks alone. -/
theorem live_granted {b : MemBlock} (hb : b ∈ w.alloc.freeBlocks) {required : Nat}
    (hreq : cAllocationHeaderSize ≤ required) (hfit : required ≤ b.blockSize)
    (t : Vector MemBlock freeMemBlocksSize) (n size : Nat) :
    header (w.alloc.granted t n (w.alloc.startPtr + b.memBlockOffset) required)
      ⟨w.alloc.startPtr + b.memBlockOffset + cAllocationHeaderSize, size⟩ = required ∧
    liveExtent (w.alloc.granted t n (w.alloc.startPtr + b.memBlockOffset) required)
      ⟨w.alloc.startPtr + b.memBlockOffset + cAllocationHeaderSize, size⟩
        = ⟨b.memBlockOffset, required⟩ ∧
    ∀ l ∈ w.live, header (w.alloc.granted t n (w.alloc.startPtr + b.memBlockOffset) required) l
      = header w.alloc l := by
  have hble := h.laid.block_le hb
  have hsmall := h.small
  have hhead : cAllocationHeaderSize = 8 := rfl
  have hnew : header (w.alloc.granted t n (w.alloc.startPtr + b.memBlockOffset) required)
      ⟨w.alloc.startPtr + b.memBlockOffset + cAllocationHeaderSize, size⟩ = required := by
    rw [header, Nat.add_sub_cancel]
    exact Memory.readWord_writeWord (by omega)
  refine ⟨hnew, ?_, fun l hl => ?_⟩
  · refine Extent.ext ?_ hnew
    show w.alloc.startPtr + b.memBlockOffset + cAllocationHeaderSize - cAllocationHeaderSize
      - w.alloc.startPtr = b.memBlockOffset
    omega
  · have hap := h.laid.free_apart hb hl
    have hlease := h.lease l hl
    have hbase := h.base
    exact Memory.readWord_writeWord_of_apart (by omega)

/-- The extents after `Allocate` carved a block out of `b`. -/
theorem extents_granted {b : MemBlock} (hb : b ∈ w.alloc.freeBlocks) {required : Nat}
    (hreq : cAllocationHeaderSize ≤ required) (hfit : required ≤ b.blockSize)
    (t : Vector MemBlock freeMemBlocksSize) (n size : Nat) :
    extents ⟨w.alloc.granted t n (w.alloc.startPtr + b.memBlockOffset) required,
        ⟨w.alloc.startPtr + b.memBlockOffset + cAllocationHeaderSize, size⟩ :: w.live⟩
      = (t.toList.take n).map MemBlock.extent ++
        ⟨b.memBlockOffset, required⟩ :: w.live.map (liveExtent w.alloc) := by
  obtain ⟨-, hext, hold⟩ := h.live_granted hb hreq hfit t n size
  have hlive : w.live.map (liveExtent
      (w.alloc.granted t n (w.alloc.startPtr + b.memBlockOffset) required))
        = w.live.map (liveExtent w.alloc) :=
    List.map_congr_left fun l hl => congrArg (Extent.mk _) (hold l hl)
  rw [extents, List.map_cons, freeBlocks_granted, hext, hlive]

/-- `Allocate`: the invariant is kept when the new free blocks and the
carved block tile what the old free blocks did. -/
theorem granted {b : MemBlock} (hb : b ∈ w.alloc.freeBlocks) {size required : Nat}
    (hreq : cAllocationHeaderSize + SizeT.uint32 size < required) (hfit : required ≤ b.blockSize)
    {t : Vector MemBlock freeMemBlocksSize} {n : Nat} (hn : n ≤ freeMemBlocksSize)
    (htiles : Tiles totalSize ((t.toList.take n).map MemBlock.extent ++
      ⟨b.memBlockOffset, required⟩ :: w.live.map (liveExtent w.alloc))) :
    WF totalSize arena
      ⟨w.alloc.granted t n (w.alloc.startPtr + b.memBlockOffset) required,
        ⟨w.alloc.startPtr + b.memBlockOffset + cAllocationHeaderSize, SizeT.uint32 size⟩ ::
          w.live⟩ := by
  have hsmall := h.small
  have hhead : cAllocationHeaderSize = 8 := rfl
  have hreq' : cAllocationHeaderSize ≤ required := by omega
  obtain ⟨hnew, -, hold⟩ := h.live_granted hb hreq' hfit t n (SizeT.uint32 size)
  have hsum : (w.live.map (header w.alloc)).sum + required ≤ totalSize := by
    have hlen := htiles.sum_len
    simp only [List.map_append, List.sum_append, List.map_cons, List.sum_cons, List.map_map] at hlen
    have : (w.live.map (Extent.len ∘ liveExtent w.alloc)).sum = (w.live.map (header w.alloc)).sum :=
      rfl
    omega
  refine ⟨h.total, h.base, h.small, hn, ?_, ?_, h.mapped, fun l hl => ?_⟩
  · rw [h.extents_granted hb hreq' hfit]
    exact htiles
  · show SizeT.add w.alloc.used required = _
    rw [List.map_cons, List.sum_cons, hnew, List.map_congr_left hold, h.used,
      SizeT.add_of_lt (by omega), Nat.add_comm]
  · rcases List.mem_cons.mp hl with rfl | hl'
    · rw [hnew, h.base]
      exact ⟨by simp only; omega, hreq⟩
    · rw [hold l hl']
      exact h.lease l hl'

theorem merged {t : Vector MemBlock freeMemBlocksSize} {n : Nat} (hn : n ≤ w.alloc.currSize)
    (ht : t.toList.take n = w.alloc.freeBlocks ∨
      (∃ q, t.toList.take n
        = Coalesce.mergeAt MemBlock.touches MemBlock.join w.alloc.freeBlocks q) ∨
      t.toList.take n = Coalesce.pass MemBlock.touches MemBlock.join w.alloc.freeBlocks) :
    WF totalSize arena ⟨w.alloc.withTable t n, w.live⟩ :=
  (h.laid.merged hn ht).wf fun l hl => (h.lease l hl).2

theorem released {l : Lease} (hl : l ∈ w.live) (hcap : w.alloc.currSize < freeMemBlocksSize)
    {t : Vector MemBlock freeMemBlocksSize}
    (ht : t.toList.take (w.alloc.currSize + 1) = w.alloc.freeBlocks ++ [w.alloc.blockOf l.ptr]) :
    WF totalSize arena ⟨w.alloc.released t (w.alloc.blockOf l.ptr).blockSize,
      w.live.eraseP (·.ptr == l.ptr)⟩ :=
  (h.laid.released hl hcap ht).wf fun l hl => (h.lease l (List.mem_of_mem_eraseP hl)).2

/-- Writes of the clients into their own bytes leave every header alone. -/
theorem header_clientWrites {m : Memory} (hlegal : Legal w (.clientWrites m)) {l : Lease}
    (hl : l ∈ w.live) : header { w.alloc with mem := m } l = header w.alloc l := by
  have hhead : cAllocationHeaderSize = 8 := rfl
  refine Memory.readWord_congr ?_
  intro a ha ha'
  by_contra hne
  obtain ⟨l', hl', hlo, hhi⟩ := hlegal a hne
  have hlease := h.lease l hl
  have hlease' := h.lease l' hl'
  by_cases hptr : l.ptr = l'.ptr
  · omega
  · rcases h.laid.live_apart hl hl' hptr with hap | hap <;> omega

theorem clientWrites {m : Memory} (hlegal : Legal w (.clientWrites m)) :
    WF totalSize arena ⟨{ w.alloc with mem := m }, w.live⟩ := by
  have hext : w.live.map (liveExtent { w.alloc with mem := m })
      = w.live.map (liveExtent w.alloc) :=
    List.map_congr_left fun l hl => congrArg (Extent.mk _) (h.header_clientWrites hlegal hl)
  refine ⟨h.total, h.base, h.small, h.cap, ?_, ?_, h.mapped, fun l hl => ?_⟩
  · rw [extents, hext]
    exact h.tiles
  · rw [List.map_congr_left fun l hl => h.header_clientWrites hlegal hl]
    exact h.used
  · rw [h.header_clientWrites hlegal hl]
    exact h.lease l hl

end WF

end Session

end MemAlloc
