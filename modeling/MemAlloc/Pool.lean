import Mathlib.Data.List.Nodup
import MemAlloc.Interface

/-!
# `PoolAllocator`

The class as the code computes it. `m_freeChunks` is the list of the slots
its `malloc` returned (none before `Init`, or when that `malloc` fails);
every access goes through `chunkAt` or `setChunk`, which fail with
`Stuck.outOfBounds` exactly when the index lies outside it. The index
`m_currFreeChunksIdx` is signed: -1 stands for a full pool.

The arguments of `Allocate` occur in assertions only, which are compiled
out.

`allocate_pop`, `free_push` and `reset_eq` say what a call does to the data
members, in any state. `Partition` is the invariant: the free chunks, up to
the index, and the live chunks are together the chunks of the arena. One
lemma per operation says what it does to a partitioned pool.
-/

namespace MemAlloc

def cPoolAllocThreadPolicy : ThreadPolicy := .none

structure PoolAllocator extends AllocatorInterface where
  freeChunks : List Nat := []
  startPtr : Nat := nullptr
  chunksNum : Nat
  chunkSize : Nat
  currFreeChunksIdx : Int
  spinlock : Spinlock := {}
deriving DecidableEq

namespace PoolAllocator

variable (s : PoolAllocator)

/-! ## The table -/

/-- `m_freeChunks[i]`, read. -/
def chunkAt (i : Int) : Except Stuck Nat :=
  if h : 0 ≤ i ∧ i.toNat < s.freeChunks.length then .ok s.freeChunks[i.toNat]
  else .error .outOfBounds

/-- `m_freeChunks[i] = ptr`. -/
def setChunk (i : Int) (ptr : Nat) : Except Stuck PoolAllocator :=
  if 0 ≤ i ∧ i.toNat < s.freeChunks.length then
    .ok { s with freeChunks := s.freeChunks.set i.toNat ptr }
  else .error .outOfBounds

/-! ## The lock -/

/-- The `switch` on the thread policy at the head of an operation. -/
def lock (thread : ThreadPolicy) : Except Stuck PoolAllocator :=
  match thread with
  | .enableSpinLock => do
      let spinlock ← s.spinlock.lock
      return { s with spinlock }
  | .none => return s

/-- The `switch` at its end. -/
def unlock (thread : ThreadPolicy) : PoolAllocator :=
  match thread with
  | .enableSpinLock => { s with spinlock := s.spinlock.unlock }
  | .none => s

/-! ## The operations -/

def getChunkSize : Nat := s.chunkSize

def construct (chunksNum chunkSize : Nat) : PoolAllocator where
  totalSize := SizeT.mul chunksNum chunkSize
  chunksNum := chunksNum
  chunkSize := chunkSize
  currFreeChunksIdx := SizeT.int64 (SizeT.sub chunksNum 1)

/-- The copy constructor. The pointers are copied, not what they point to:
the two objects use one arena and one table. -/
def copy (poolAllocator : PoolAllocator) : PoolAllocator where
  toAllocatorInterface := poolAllocator.toAllocatorInterface.copy
  startPtr := poolAllocator.startPtr
  freeChunks := poolAllocator.freeChunks
  chunkSize := poolAllocator.chunkSize
  chunksNum := poolAllocator.chunksNum
  currFreeChunksIdx := poolAllocator.currFreeChunksIdx

/-- The loop of `Reset`, for the indices below the last argument. -/
def resetLoop (s : PoolAllocator) : Nat → Except Stuck PoolAllocator
  | 0 => .ok s
  | i + 1 => do
      let s ← resetLoop s i
      s.setChunk i (s.startPtr + SizeT.mul i s.chunkSize)

def reset (thread : ThreadPolicy) : Except Stuck PoolAllocator := do
  let s ← s.lock thread
  let s := { s with used := 0 }
  let s ← s.resetLoop s.chunksNum
  let s := { s with currFreeChunksIdx := SizeT.int64 s.chunksNum - 1 }
  return s.unlock thread

/-- `Init()`; `arena` and `table` are what the two `malloc` calls return,
the table with whatever its slots contain. -/
def init (thread : ThreadPolicy) (arena : Nat) (table : List Nat) : Except Stuck PoolAllocator :=
  reset { s with startPtr := arena, freeChunks := table } thread

/-- `Allocate`; `none` is the early `return nullptr`. -/
def allocate (thread : ThreadPolicy) : Except Stuck (Option Nat × PoolAllocator) := do
  let s ← s.lock thread
  if s.currFreeChunksIdx < 0 then
    return (none, s)
  let dataAddress ← s.chunkAt s.currFreeChunksIdx
  let s := { s with currFreeChunksIdx := s.currFreeChunksIdx - 1 }
  let s := { s with used := SizeT.add s.used s.chunkSize }
  return (some dataAddress, s.unlock thread)

def free (thread : ThreadPolicy) (ptr : Nat) : Except Stuck (Bool × PoolAllocator) := do
  let s ← s.lock thread
  if ptr < s.startPtr ∨ ptr > s.startPtr + s.totalSize then
    return (false, s)
  let s := { s with used := SizeT.sub s.used s.chunkSize }
  let s := { s with currFreeChunksIdx := s.currFreeChunksIdx + 1 }
  let s ← s.setChunk s.currFreeChunksIdx ptr
  return (true, s.unlock thread)

/-! ## The lock taken -/

variable {s} {ptr : Nat}

/-- The pool between `lock` and `unlock`. -/
def locked (s : PoolAllocator) : PoolAllocator := { s with spinlock := ⟨true⟩ }

def held (s : PoolAllocator) : Bool := s.spinlock.mFlag

theorem lock_free (h : s.held = false) : s.lock .enableSpinLock = .ok s.locked := by
  rw [lock, Spinlock.lock_free h]
  rfl

theorem locked_of_held (h : s.held = true) : s.locked = s := by
  have hflag : s.spinlock.mFlag = true := h
  rw [locked, ← hflag]

theorem lock_held (h : s.held = true) : s.lock .enableSpinLock = .error .spinsForever := by
  rw [lock, Spinlock.lock_held h]
  rfl

/-- With the lock, `Allocate` does what it does without, and gives the lock
back unless it returns `nullptr`. -/
theorem allocate_enableSpinLock (h : s.held = false) :
    s.allocate .enableSpinLock = (s.locked.allocate .none).map fun (result, s') =>
      (result, if result.isSome then s'.unlock .enableSpinLock else s') := by
  rw [allocate, lock_free h, ok_bind, allocate, lock, pure_bind]
  split
  · rfl
  · cases s.locked.chunkAt s.locked.currFreeChunksIdx <;> rfl

/-- Likewise `Free`, unless it returns `false`. -/
theorem free_enableSpinLock (h : s.held = false) :
    s.free .enableSpinLock ptr = (s.locked.free .none ptr).map fun (ok, s') =>
      (ok, if ok then s'.unlock .enableSpinLock else s') := by
  rw [free, lock_free h, ok_bind, free, lock, pure_bind]
  split
  · rfl
  · dsimp only
    cases PoolAllocator.setChunk _ _ ptr <;> rfl

/-- And `Reset`. -/
theorem reset_enableSpinLock (h : s.held = false) :
    s.reset .enableSpinLock = (s.locked.reset .none).map fun s' => s'.unlock .enableSpinLock := by
  rw [reset, lock_free h, ok_bind, reset, lock, pure_bind]
  dsimp only
  cases PoolAllocator.resetLoop _ _ <;> rfl

/-! ## One call, exactly -/

theorem setChunk_ok {i : Nat} (h : i < s.freeChunks.length) (p : Nat) :
    s.setChunk i p = .ok { s with freeChunks := s.freeChunks.set i p } := by
  rw [setChunk, if_pos ⟨Int.natCast_nonneg i, by simpa using h⟩, Int.toNat_natCast]

theorem chunkAt_ok {i : Nat} (h : i < s.freeChunks.length) :
    s.chunkAt i = .ok s.freeChunks[i] := by
  rw [chunkAt, dif_pos ⟨Int.natCast_nonneg i, by simpa using h⟩]
  rfl

/-- `Allocate` with no free chunk. -/
theorem allocate_empty (hidx : s.currFreeChunksIdx < 0) : s.allocate .none = .ok (none, s) := by
  simp only [allocate, lock, pure_bind, if_pos hidx]
  rfl

/-- `Allocate` returns the slot at the index. -/
theorem allocate_pop {i : Nat} (hidx : s.currFreeChunksIdx = i) (hin : i < s.freeChunks.length) :
    s.allocate .none = .ok (some s.freeChunks[i], { s with
      currFreeChunksIdx := (i : Int) - 1
      used := SizeT.add s.used s.chunkSize }) := by
  have hge : ¬(i : Int) < 0 := by omega
  simp only [allocate, lock, pure_bind, hidx, if_neg hge, chunkAt_ok hin, ok_bind]
  rfl

/-- `Free` of a pointer out of range. -/
theorem free_refused (hrange : ptr < s.startPtr ∨ ptr > s.startPtr + s.totalSize) :
    s.free .none ptr = .ok (false, s) := by
  simp only [free, lock, pure_bind, if_pos hrange]
  rfl

/-- `Free` of any other pointer writes it to the slot after the index. -/
theorem free_push {i : Nat} (hrange : ¬(ptr < s.startPtr ∨ ptr > s.startPtr + s.totalSize))
    (hidx : s.currFreeChunksIdx + 1 = i) (hin : i < s.freeChunks.length) :
    s.free .none ptr = .ok (true, { s with
      used := SizeT.sub s.used s.chunkSize
      currFreeChunksIdx := i
      freeChunks := s.freeChunks.set i ptr }) := by
  simp only [free, lock, pure_bind, if_neg hrange, hidx]
  rw [setChunk_ok (s := { s with used := _, currFreeChunksIdx := (i : Int) }) hin]
  rfl

/-- There must be such a slot. -/
theorem free_stuck {i : Nat} (hrange : ¬(ptr < s.startPtr ∨ ptr > s.startPtr + s.totalSize))
    (hidx : s.currFreeChunksIdx + 1 = i) (hout : s.freeChunks.length ≤ i) :
    s.free .none ptr = .error .outOfBounds := by
  have hnot : ¬(0 ≤ (i : Int) ∧ (i : Int).toNat < s.freeChunks.length) := by omega
  simp only [free, lock, pure_bind, if_neg hrange, hidx, setChunk, if_neg hnot]
  rfl

variable (s)

/-! ## The partition -/

/-- The free chunks: the slots up to `m_currFreeChunksIdx`. -/
def freeList : List Nat := s.freeChunks.take (s.currFreeChunksIdx + 1).toNat

/-- The chunks of an arena, by address. -/
def chunks (arena chunksNum chunkSize : Nat) : List Nat :=
  (List.range chunksNum).map fun i => arena + i * chunkSize

/-- An initialised pool on `arena`: free and live chunks together are the
chunks of the arena, the index and the counter agree with both. -/
structure Partition (arena chunksNum chunkSize : Nat) (live : List Nat) (s : PoolAllocator) :
    Prop where
  start : s.startPtr = arena
  num : s.chunksNum = chunksNum
  size : s.chunkSize = chunkSize
  total : s.totalSize = chunksNum * chunkSize
  sizePos : 0 < chunkSize
  arenaLt : chunksNum * chunkSize < 2 ^ 64
  tableLt : chunksNum * 8 < 2 ^ 64
  table : s.freeChunks.length = chunksNum
  idxGe : -1 ≤ s.currFreeChunksIdx
  idxLt : s.currFreeChunksIdx < chunksNum
  perm : (s.freeList ++ live).Perm (chunks arena chunksNum chunkSize)
  used : s.used = chunkSize * live.length

variable {s}
variable {arena chunksNum chunkSize : Nat} {live : List Nat}

theorem length_chunks : (chunks arena chunksNum chunkSize).length = chunksNum := by
  simp [chunks]

theorem mem_chunks : ptr ∈ chunks arena chunksNum chunkSize ↔
    ∃ i < chunksNum, ptr = arena + i * chunkSize := by
  simp [chunks, eq_comm]

/-- A chunk lies inside the arena. -/
theorem chunk_le (h : ptr ∈ chunks arena chunksNum chunkSize) :
    arena ≤ ptr ∧ ptr + chunkSize ≤ arena + chunksNum * chunkSize := by
  obtain ⟨i, hi, rfl⟩ := mem_chunks.mp h
  have := Nat.mul_le_mul_right chunkSize (Nat.succ_le_of_lt hi)
  rw [Nat.succ_mul] at this
  omega

/-- Different chunks do not overlap. -/
theorem chunks_apart {ptr' : Nat} (h : ptr ∈ chunks arena chunksNum chunkSize)
    (h' : ptr' ∈ chunks arena chunksNum chunkSize) (hne : ptr ≠ ptr') :
    ptr + chunkSize ≤ ptr' ∨ ptr' + chunkSize ≤ ptr := by
  obtain ⟨i, -, rfl⟩ := mem_chunks.mp h
  obtain ⟨j, -, rfl⟩ := mem_chunks.mp h'
  rcases Nat.lt_or_ge i j with hij | hji
  · have := Nat.mul_le_mul_right chunkSize (Nat.succ_le_of_lt hij)
    rw [Nat.succ_mul] at this
    omega
  · have hji' : j < i := Nat.lt_of_le_of_ne hji fun heq => hne (by rw [heq])
    have := Nat.mul_le_mul_right chunkSize (Nat.succ_le_of_lt hji')
    rw [Nat.succ_mul] at this
    omega

theorem chunks_nodup (hpos : 0 < chunkSize) : (chunks arena chunksNum chunkSize).Nodup := by
  refine List.nodup_range.map ?_
  intro i j hij
  exact Nat.eq_of_mul_eq_mul_right hpos (Nat.add_left_cancel hij)

namespace Partition

variable (h : Partition arena chunksNum chunkSize live s)
include h

theorem nodup : (s.freeList ++ live).Nodup :=
  (h.perm.nodup_iff).mpr (chunks_nodup h.sizePos)

theorem live_mem (hp : ptr ∈ live) : ptr ∈ chunks arena chunksNum chunkSize :=
  h.perm.mem_iff.mp (List.mem_append_right _ hp)

/-- The order of the live chunks does not matter. -/
theorem perm_live {live' : List Nat} (hp : live.Perm live') :
    Partition arena chunksNum chunkSize live' s :=
  { h with
    perm := (hp.symm.append_left _).trans h.perm
    used := by rw [h.used, hp.length_eq] }

theorem length_freeList : (s.freeList.length : Int) = s.currFreeChunksIdx + 1 := by
  have hge := h.idxGe
  have hlt := h.idxLt
  rw [freeList, List.length_take, h.table]
  omega

theorem length_add : s.freeList.length + live.length = chunksNum := by
  rw [← List.length_append, h.perm.length_eq, length_chunks]

/-- The counter, by the index. -/
theorem used_idx : (s.used : Int) = chunkSize * (chunksNum - 1 - s.currFreeChunksIdx) := by
  have hlen := h.length_freeList
  have hadd := h.length_add
  rw [h.used, show (chunksNum : Int) - 1 - s.currFreeChunksIdx = live.length by omega]
  exact Int.natCast_mul _ _

/-- The counter stays below the size of the arena. -/
theorem used_le : chunkSize * live.length ≤ chunksNum * chunkSize := by
  rw [Nat.mul_comm]
  exact Nat.mul_le_mul_right _ (by have := h.length_add; omega)

/-- The lock plays no part in it. -/
theorem withSpinlock (l : Spinlock) :
    Partition arena chunksNum chunkSize live { s with spinlock := l } :=
  ⟨h.start, h.num, h.size, h.total, h.sizePos, h.arenaLt, h.tableLt, h.table, h.idxGe, h.idxLt,
    h.perm, h.used⟩

/-- `Allocate` on a full pool. -/
theorem allocate_full (hfull : live.length = chunksNum) : s.allocate .none = .ok (none, s) := by
  have hlen := h.length_freeList
  have hadd := h.length_add
  exact allocate_empty (by omega)

/-- `Allocate` with a chunk to spare: the last free chunk becomes live. -/
theorem allocate_some (hroom : live.length < chunksNum) :
    ∃ p s', s.allocate .none = .ok (some p, s') ∧
      Partition arena chunksNum chunkSize (p :: live) s' := by
  have hlen := h.length_freeList
  have hadd := h.length_add
  obtain ⟨i, hi⟩ : ∃ i : Nat, s.currFreeChunksIdx = i :=
    ⟨s.currFreeChunksIdx.toNat, by omega⟩
  have hin : i < s.freeChunks.length := by
    have := h.idxLt
    rw [h.table]
    omega
  have hused : SizeT.add s.used s.chunkSize = chunkSize * (live.length + 1) := by
    have hle := Nat.mul_le_mul_right chunkSize (Nat.succ_le_of_lt hroom)
    have hlt := h.arenaLt
    rw [h.used, h.size, Nat.mul_succ]
    rw [Nat.succ_mul, Nat.mul_comm] at hle
    exact SizeT.add_of_lt (by omega)
  refine ⟨_, _, allocate_pop hi hin, h.start, h.num, h.size, h.total, h.sizePos, h.arenaLt,
    h.tableLt, h.table, ?_, ?_, ?_, hused⟩
  · show -1 ≤ (i : Int) - 1
    omega
  · show (i : Int) - 1 < chunksNum
    have := h.idxLt
    omega
  · -- the free list loses its last element
    refine List.Perm.trans ?_ h.perm
    have hlast : s.freeList = s.freeChunks.take i ++ [s.freeChunks[i]] := by
      rw [freeList, hi, show ((i : Int) + 1).toNat = i + 1 by omega, List.take_add_one,
        List.getElem?_eq_getElem hin]
      rfl
    show (s.freeChunks.take (((i : Int) - 1) + 1).toNat ++ _).Perm _
    rw [hlast, show ((i : Int) - 1 + 1).toNat = i by omega, List.append_assoc]
    rfl

/-- `Free` of a live chunk. -/
theorem free_live (hp : ptr ∈ live) :
    ∃ s', s.free .none ptr = .ok (true, s') ∧
      Partition arena chunksNum chunkSize (live.erase ptr) s' := by
  have hlen := h.length_freeList
  have hadd := h.length_add
  have hpos := List.length_pos_of_mem hp
  have herase := List.length_erase_of_mem hp
  obtain ⟨i, hi⟩ : ∃ i : Nat, s.currFreeChunksIdx + 1 = i :=
    ⟨(s.currFreeChunksIdx + 1).toNat, by have := h.idxGe; omega⟩
  have hin : i < s.freeChunks.length := by
    rw [h.table]
    omega
  have hchunk := chunk_le (h.live_mem hp)
  have hrange : ¬(ptr < s.startPtr ∨ ptr > s.startPtr + s.totalSize) := by
    rw [h.start, h.total]
    omega
  have hused : SizeT.sub s.used s.chunkSize = chunkSize * (live.erase ptr).length := by
    have hle := h.used_le
    have hlt := h.arenaLt
    obtain ⟨k, hk⟩ : ∃ k, live.length = k + 1 := ⟨live.length - 1, by omega⟩
    rw [hk, Nat.mul_succ] at hle
    rw [h.used, h.size, herase, hk, Nat.mul_succ, SizeT.sub_of_le (by omega) (by omega)]
    simp
  refine ⟨_, free_push hrange hi hin, h.start, h.num, h.size, h.total, h.sizePos, h.arenaLt,
    h.tableLt, ?_, ?_, ?_, ?_, hused⟩
  · show (s.freeChunks.set i ptr).length = chunksNum
    rw [List.length_set, h.table]
  · show -1 ≤ (i : Int)
    omega
  · show (i : Int) < chunksNum
    rw [h.table] at hin
    omega
  · refine List.Perm.trans ?_ h.perm
    show ((s.freeChunks.set i ptr).take ((i : Int) + 1).toNat ++ _).Perm _
    have hfree : (s.freeChunks.set i ptr).take ((i : Int) + 1).toNat = s.freeList ++ [ptr] := by
      rw [show ((i : Int) + 1).toNat = i + 1 by omega, List.take_add_one,
        List.getElem?_set_self hin, List.take_set_of_le (Nat.le_refl i), freeList, hi,
        Int.toNat_natCast]
      rfl
    rw [hfree, List.append_assoc]
    exact (List.perm_cons_erase hp).symm.append_left _

/-- `Free` of a pointer outside the arena and not its end. -/
theorem free_foreign (hout : ptr < arena ∨ arena + chunksNum * chunkSize < ptr) :
    s.free .none ptr = .ok (false, s) := by
  refine free_refused ?_
  rw [h.start, h.total]
  exact hout

end Partition

/-! ## `Init` and `Reset` -/

/-- What `Reset` writes into the table, the products modulo `2 ^ 64`. -/
def slots (startPtr chunksNum chunkSize : Nat) : List Nat :=
  (List.range chunksNum).map fun i => startPtr + SizeT.mul i chunkSize

theorem length_slots (startPtr chunksNum chunkSize : Nat) :
    (slots startPtr chunksNum chunkSize).length = chunksNum := by
  simp [slots]

/-- Without a wrapped product these are the chunks of the arena. -/
theorem slots_eq_chunks (h : chunksNum * chunkSize < 2 ^ 64) :
    slots arena chunksNum chunkSize = chunks arena chunksNum chunkSize := by
  refine List.map_congr_left fun i hi => ?_
  have hmul := Nat.mul_le_mul_right chunkSize (Nat.le_of_lt (List.mem_range.mp hi))
  rw [SizeT.mul_of_lt (Nat.lt_of_le_of_lt hmul h)]

/-- The loop of `Reset` fills the slots in order, as far as there are any. -/
theorem resetLoop_spec : ∀ {n : Nat}, n ≤ s.freeChunks.length →
    s.resetLoop n = .ok { s with
      freeChunks := slots s.startPtr n s.chunkSize ++ s.freeChunks.drop n }
  | 0, _ => by simp [resetLoop, slots]
  | n + 1, hlen => by
      have hnot : ¬n < (slots s.startPtr n s.chunkSize).length := by simp [length_slots]
      rw [resetLoop, resetLoop_spec (by omega), ok_bind, setChunk_ok (by
        simp only [List.length_append, length_slots, List.length_drop]; omega)]
      simp only
      rw [List.set_append, if_neg hnot, length_slots, Nat.sub_self,
        List.drop_eq_getElem_cons (by omega), List.set_cons_zero]
      simp [slots, List.range_succ]

/-- With one slot for each chunk, the loop leaves just these. -/
theorem resetLoop_full (hlen : s.freeChunks.length = s.chunksNum) : s.resetLoop s.chunksNum
    = .ok { s with freeChunks := slots s.startPtr s.chunksNum s.chunkSize } := by
  rw [resetLoop_spec (Nat.le_of_eq hlen.symm), List.drop_eq_nil_of_le (Nat.le_of_eq hlen),
    List.append_nil]

/-- `Reset` on a table with one slot for each chunk. -/
theorem reset_eq (hlen : s.freeChunks.length = s.chunksNum) : s.reset .none = .ok { s with
    used := 0
    freeChunks := slots s.startPtr s.chunksNum s.chunkSize
    currFreeChunksIdx := SizeT.int64 s.chunksNum - 1 } := by
  have hloop := resetLoop_full (s := { s with used := 0 }) hlen
  simp only [reset, lock, pure_bind]
  rw [hloop]
  rfl

/-- A constructed pool after `Init`. -/
def initialised (chunksNum chunkSize arena : Nat) : PoolAllocator :=
  { construct chunksNum chunkSize with
    startPtr := arena
    freeChunks := slots arena chunksNum chunkSize
    currFreeChunksIdx := SizeT.int64 chunksNum - 1 }

theorem init_eq (arena : Nat) {table : List Nat} (hlen : table.length = chunksNum) :
    (construct chunksNum chunkSize).init .none arena table
      = .ok (initialised chunksNum chunkSize arena) :=
  reset_eq hlen

/-- `Reset` makes every chunk free. -/
theorem reset_spec (hstart : s.startPtr = arena) (hnum : s.chunksNum = chunksNum)
    (hsize : s.chunkSize = chunkSize) (htotal : s.totalSize = chunksNum * chunkSize)
    (hpos : 0 < chunkSize) (harena : chunksNum * chunkSize < 2 ^ 64)
    (htable : chunksNum * 8 < 2 ^ 64) (hlen : s.freeChunks.length = chunksNum) :
    ∃ s', s.reset .none = .ok s' ∧ Partition arena chunksNum chunkSize [] s' := by
  subst hstart hnum hsize
  have hidx : SizeT.int64 s.chunksNum = s.chunksNum := SizeT.int64_of_lt (by omega)
  refine ⟨_, reset_eq hlen, rfl, rfl, rfl, htotal, hpos, harena, htable, length_slots _ _ _,
    ?_, ?_, ?_, rfl⟩
  · show -1 ≤ SizeT.int64 s.chunksNum - 1
    omega
  · show SizeT.int64 s.chunksNum - 1 < s.chunksNum
    omega
  · show ((slots s.startPtr s.chunksNum s.chunkSize).take
      (SizeT.int64 s.chunksNum - 1 + 1).toNat ++ []).Perm _
    rw [slots_eq_chunks harena, hidx,
      show ((s.chunksNum : Int) - 1 + 1).toNat = s.chunksNum by omega,
      List.take_of_length_le (Nat.le_of_eq length_chunks), List.append_nil]

theorem Partition.reset (h : Partition arena chunksNum chunkSize live s) :
    ∃ s', s.reset .none = .ok s' ∧ Partition arena chunksNum chunkSize [] s' :=
  reset_spec h.start h.num h.size h.total h.sizePos h.arenaLt h.tableLt h.table

/-- A constructed pool whose two `malloc` calls succeed. -/
theorem init_spec (hpos : 0 < chunkSize) (harena : chunksNum * chunkSize < 2 ^ 64)
    (htable : chunksNum * 8 < 2 ^ 64) (arena : Nat) {table : List Nat}
    (hlen : table.length = chunksNum) :
    ∃ s, (construct chunksNum chunkSize).init .none arena table = .ok s ∧
      Partition arena chunksNum chunkSize [] s :=
  reset_spec rfl rfl rfl (SizeT.mul_of_lt harena) hpos harena htable hlen

theorem partition_initialised (hpos : 0 < chunkSize) (harena : chunksNum * chunkSize < 2 ^ 64)
    (htable : chunksNum * 8 < 2 ^ 64) (arena : Nat) :
    Partition arena chunksNum chunkSize [] (initialised chunksNum chunkSize arena) := by
  have hlen : (List.replicate chunksNum 0).length = chunksNum := List.length_replicate
  obtain ⟨s, hinit, hs⟩ := init_spec hpos harena htable arena hlen
  obtain rfl := Except.ok.inj ((init_eq arena hlen).symm.trans hinit)
  exact hs

/-- The same under the lock, which is free afterwards. -/
theorem init_enableSpinLock_spec (hpos : 0 < chunkSize) (harena : chunksNum * chunkSize < 2 ^ 64)
    (htable : chunksNum * 8 < 2 ^ 64) (arena : Nat) {table : List Nat}
    (hlen : table.length = chunksNum) :
    ∃ s, (construct chunksNum chunkSize).init .enableSpinLock arena table = .ok s ∧
      Partition arena chunksNum chunkSize [] s ∧ s.held = false := by
  obtain ⟨s, hrun, hs⟩ := reset_spec (s := locked
      { construct chunksNum chunkSize with startPtr := arena, freeChunks := table })
    rfl rfl rfl (SizeT.mul_of_lt harena) hpos harena htable hlen
  refine ⟨s.unlock .enableSpinLock, ?_, hs.withSpinlock s.spinlock.unlock, rfl⟩
  rw [init, reset_enableSpinLock rfl, hrun]
  rfl

end PoolAllocator

end MemAlloc
