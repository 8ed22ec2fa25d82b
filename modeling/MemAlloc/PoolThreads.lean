import Mathlib.Logic.Relation
import MemAlloc.Pool
import MemAlloc.Runs

/-!
# Threads on one `PoolAllocator`

Any number of threads call `Allocate` and `Free` on one pool under
`ENABLE_SPIN_LOCK`. A step is one access to the shared state: the relaxed
load, the exchange, a read or a write of `m_currFreeChunksIdx`, of a slot of
`m_freeChunks` or of `m_used`, or the unlocking store; a schedule says which
thread takes the next step. `threadStep` is the code of the two functions,
cut at these accesses, early returns included. `counterToYield` decides
nothing and is left out.

A thread that runs alone through a call does what the sequential function
does (`alone_allocate`, `alone_free`).
-/

namespace MemAlloc

open PoolAllocator

inductive ThreadCall where
  | allocate (size : Nat)
  | free (ptr : Nat)
deriving DecidableEq, Repr

/-- The access a thread makes next, with the values it has read. -/
inductive Position where
  | idle
  /-- `mFlag.load(relaxed)`, the first half of the loop condition. -/
  | load (call : ThreadCall)
  /-- `mFlag.exchange(true)`, the second half. -/
  | exchange (call : ThreadCall)
  -- `Allocate`
  /-- `m_currFreeChunksIdx < 0`. -/
  | checkFull
  /-- `m_freeChunks[m_currFreeChunksIdx--]`: read, write, read the slot. -/
  | readIdx
  | writeIdx (i : Int)
  | readChunk (i : Int)
  /-- `m_used += m_chunkSize`: read, write. -/
  | readUsed (chunk : Nat)
  | writeUsed (chunk used : Nat)
  | unlockAllocate (chunk : Nat)
  -- `Free`
  /-- The range test. -/
  | testRange (ptr : Nat)
  /-- `m_used -= m_chunkSize`: read, write. -/
  | freeReadUsed (ptr : Nat)
  | freeWriteUsed (ptr used : Nat)
  /-- `m_freeChunks[++m_currFreeChunksIdx] = ptr`: read, write, read the new
  index, write the slot. -/
  | freeReadIdx (ptr : Nat)
  | freeWriteIdx (ptr : Nat) (i : Int)
  | freeReadSlot (ptr : Nat)
  | freeWriteChunk (ptr : Nat) (i : Int)
  | unlockFree
  /-- An access outside `m_freeChunks` was made. -/
  | undefined
deriving DecidableEq, Repr

/-- A thread: where it is, the chunks it holds besides the one its running
call handles, and whether it is past a successful exchange without having
done its unlocking store. -/
structure PoolThread where
  pos : Position := .idle
  held : List Nat := []
  past : Bool := false
deriving DecidableEq, Repr

/-- The pool and the threads. -/
structure PoolThreads where
  pool : PoolAllocator
  threads : List PoolThread
deriving DecidableEq

/-- Why a schedule cannot go on: there is no such thread, the call is not
one it may make, or its behaviour is undefined. -/
inductive Disabled where
  | noSuchThread
  | notAllowed
deriving DecidableEq, Repr

namespace PoolThread

/-- The first access after the loop of `lock()`. -/
def enter : ThreadCall → Position
  | .allocate _ => .checkFull
  | .free ptr => .testRange ptr

/-- One access of a thread. An idle thread begins the given call, which the
other positions ignore; it may free a chunk it holds. -/
def threadStep (pool : PoolAllocator) (t : PoolThread) (call : ThreadCall) :
    Except Disabled (PoolAllocator × PoolThread) :=
  match t.pos with
  | .idle =>
      match call with
      | .allocate size =>
          if size ≤ pool.chunkSize then .ok (pool, { t with pos := .load call })
          else .error .notAllowed
      | .free ptr =>
          if ptr ∈ t.held then .ok (pool, { t with pos := .load call, held := t.held.erase ptr })
          else .error .notAllowed
  | .load call =>
      .ok (pool, { t with pos := if pool.spinlock.mFlag then .load call else .exchange call })
  | .exchange call =>
      .ok (pool.locked,
        if pool.spinlock.mFlag then { t with pos := .load call }
        else { t with pos := enter call, past := true })
  | .checkFull =>
      -- the early `return nullptr` does not unlock
      .ok (pool, { t with pos := if pool.currFreeChunksIdx < 0 then .idle else .readIdx })
  | .readIdx => .ok (pool, { t with pos := .writeIdx pool.currFreeChunksIdx })
  | .writeIdx i => .ok ({ pool with currFreeChunksIdx := i - 1 }, { t with pos := .readChunk i })
  | .readChunk i =>
      match pool.chunkAt i with
      | .ok chunk => .ok (pool, { t with pos := .readUsed chunk })
      | .error _ => .ok (pool, { t with pos := .undefined })
  | .readUsed chunk => .ok (pool, { t with pos := .writeUsed chunk pool.used })
  | .writeUsed chunk used =>
      .ok ({ pool with used := SizeT.add used pool.chunkSize },
        { t with pos := .unlockAllocate chunk })
  | .unlockAllocate chunk =>
      .ok (pool.unlock .enableSpinLock, { pos := .idle, held := chunk :: t.held, past := false })
  | .testRange ptr =>
      -- the early `return false` does not unlock either
      if ptr < pool.startPtr ∨ ptr > pool.startPtr + pool.totalSize then
        .ok (pool, { t with pos := .idle, held := ptr :: t.held })
      else .ok (pool, { t with pos := .freeReadUsed ptr })
  | .freeReadUsed ptr => .ok (pool, { t with pos := .freeWriteUsed ptr pool.used })
  | .freeWriteUsed ptr used =>
      .ok ({ pool with used := SizeT.sub used pool.chunkSize }, { t with pos := .freeReadIdx ptr })
  | .freeReadIdx ptr => .ok (pool, { t with pos := .freeWriteIdx ptr pool.currFreeChunksIdx })
  | .freeWriteIdx ptr i =>
      .ok ({ pool with currFreeChunksIdx := i + 1 }, { t with pos := .freeReadSlot ptr })
  | .freeReadSlot ptr => .ok (pool, { t with pos := .freeWriteChunk ptr pool.currFreeChunksIdx })
  | .freeWriteChunk ptr i =>
      match pool.setChunk i ptr with
      | .ok pool => .ok (pool, { t with pos := .unlockFree })
      | .error _ => .ok (pool, { t with pos := .undefined })
  | .unlockFree => .ok (pool.unlock .enableSpinLock, { t with pos := .idle, past := false })
  | .undefined => .error .notAllowed

end PoolThread

namespace Position

/-- The chunk a call handles: what `Free` was given, until it is back in the
table, and what `Allocate` took from it. -/
def chunk : Position → List Nat
  | load (.free ptr) | exchange (.free ptr) | testRange ptr | freeReadUsed ptr
  | freeWriteUsed ptr _ | freeReadIdx ptr | freeWriteIdx ptr _ | freeReadSlot ptr
  | freeWriteChunk ptr _ => [ptr]
  | readUsed chunk | writeUsed chunk _ | unlockAllocate chunk => [chunk]
  | _ => []

end Position

namespace PoolThread

/-- All chunks a thread holds. -/
def holds (t : PoolThread) : List Nat := t.pos.chunk ++ t.held

end PoolThread

namespace PoolThreads

/-- Threads that hold nothing yet. -/
def start (pool : PoolAllocator) (n : Nat) : PoolThreads := ⟨pool, List.replicate n {}⟩

/-- One step of a schedule: a thread, and the call it begins if idle. -/
def step (s : PoolThreads) (choice : Nat × ThreadCall) : Except Disabled PoolThreads :=
  match s.threads[choice.1]? with
  | some t =>
      match t.threadStep s.pool choice.2 with
      | .ok (pool, t') => .ok ⟨pool, s.threads.set choice.1 t'⟩
      | .error e => .error e
  | none => .error .noSuchThread

/-- The chunks all threads hold. -/
def held (s : PoolThreads) : List Nat := s.threads.flatMap PoolThread.holds

end PoolThreads

/-! ## One thread alone -/

namespace PoolThread

variable {pool pool' : PoolAllocator} {t : PoolThread} {size ptr : Nat}

/-- A step of a thread while the others rest. -/
def Alone (call : ThreadCall) (x y : PoolAllocator × PoolThread) : Prop :=
  x.2.threadStep x.1 call = .ok y

/-- The thread takes a step and goes on. -/
theorem alone_step {call : ThreadCall} {y z : PoolAllocator × PoolThread}
    (hstep : t.threadStep pool call = .ok y)
    (hrest : Relation.ReflTransGen (Alone call) y z) :
    Relation.ReflTransGen (Alone call) (pool, t) z := .head hstep hrest

/-- From a free lock, a thread gets past the loop of `lock()`. -/
theorem alone_enter {begun call : ThreadCall} (hpos : t.pos = .load begun)
    (hfree : pool.held = false) :
    Relation.ReflTransGen (Alone call) (pool, t)
      (pool.locked, { t with pos := enter begun, past := true }) := by
  have hflag : pool.spinlock.mFlag = false := hfree
  have hload : t.threadStep pool call = .ok (pool, { t with pos := .exchange begun }) := by
    simp [threadStep, hpos, hflag]
  have hexchange : threadStep pool { t with pos := .exchange begun } call
      = .ok (pool.locked, { t with pos := enter begun, past := true }) := by
    simp [threadStep, hflag]
  exact alone_step hload (alone_step hexchange .refl)

/-- A thread that runs through `Allocate` alone does what the sequential
function does. -/
theorem alone_allocate (hidle : t.pos = .idle) (hfree : pool.held = false)
    (hsize : size ≤ pool.chunkSize) {result : Option Nat}
    (hrun : pool.allocate .enableSpinLock = .ok (result, pool')) :
    Relation.ReflTransGen (Alone (.allocate size)) (pool, t)
      (pool', { pos := .idle, held := result.toList ++ t.held, past := result.isNone }) := by
  have hbegin : t.threadStep pool (.allocate size)
      = .ok (pool, { t with pos := .load (.allocate size) }) := by
    simp [threadStep, hidle, hsize]
  refine alone_step hbegin ((alone_enter rfl hfree).trans ?_)
  rw [allocate, lock_free hfree, ok_bind] at hrun
  split at hrun
  · rename_i hfull
    obtain ⟨rfl, rfl⟩ := Prod.mk.inj (Except.ok.inj hrun)
    exact alone_step (by simp only [threadStep, enter, if_pos hfull]; rfl) .refl
  · rename_i hroom
    cases hchunk : pool.locked.chunkAt pool.locked.currFreeChunksIdx with
    | error e => rw [hchunk] at hrun; cases hrun
    | ok chunk =>
        rw [hchunk] at hrun
        obtain ⟨rfl, rfl⟩ := Prod.mk.inj (Except.ok.inj hrun)
        refine alone_step (by simp only [threadStep, enter, if_neg hroom]; rfl) ?_
        refine alone_step rfl (alone_step rfl ?_)
        have hread : chunkAt { pool.locked with
            currFreeChunksIdx := pool.locked.currFreeChunksIdx - 1 } pool.locked.currFreeChunksIdx
              = .ok chunk := hchunk
        refine alone_step (by simp only [threadStep, hread]; rfl) ?_
        exact alone_step rfl (alone_step rfl (alone_step rfl .refl))

/-- Likewise `Free`. -/
theorem alone_free (hidle : t.pos = .idle) (hfree : pool.held = false) (hptr : ptr ∈ t.held)
    {ok : Bool} (hrun : pool.free .enableSpinLock ptr = .ok (ok, pool')) :
    Relation.ReflTransGen (Alone (.free ptr)) (pool, t)
      (pool', { pos := .idle
                held := if ok then t.held.erase ptr else ptr :: t.held.erase ptr
                past := !ok }) := by
  have hbegin : t.threadStep pool (.free ptr)
      = .ok (pool, { t with pos := .load (.free ptr), held := t.held.erase ptr }) := by
    simp [threadStep, hidle, hptr]
  refine alone_step hbegin ((alone_enter rfl hfree).trans ?_)
  rw [free, lock_free hfree, ok_bind] at hrun
  split at hrun
  · rename_i hrange
    obtain ⟨rfl, rfl⟩ := Prod.mk.inj (Except.ok.inj hrun)
    exact alone_step (by simp only [threadStep, enter, if_pos hrange]; rfl) .refl
  · rename_i hrange
    dsimp only at hrun
    refine alone_step (by simp only [threadStep, enter, if_neg hrange]; rfl) ?_
    refine alone_step rfl (alone_step rfl (alone_step rfl (alone_step rfl (alone_step rfl ?_))))
    cases hset : setChunk { pool.locked with
        used := SizeT.sub pool.locked.used pool.locked.chunkSize
        currFreeChunksIdx := pool.locked.currFreeChunksIdx + 1 }
        (pool.locked.currFreeChunksIdx + 1) ptr with
    | error e =>
        rw [hset] at hrun
        cases hrun
    | ok s =>
        rw [hset] at hrun
        obtain ⟨rfl, rfl⟩ := Prod.mk.inj (Except.ok.inj hrun)
        refine alone_step (by simp only [threadStep, hset]; rfl) ?_
        exact alone_step rfl .refl

end PoolThread
namespace PoolThreads

/-- As a schedule: the thread at an index runs alone. -/
theorem alone_schedule {i : Nat} {call : ThreadCall} {x y : PoolAllocator × PoolThread}
    (hrun : Relation.ReflTransGen (PoolThread.Alone call) x y) :
    ∀ {threads : List PoolThread}, threads[i]? = some x.2 →
      ∃ k, Runs.exec step ⟨x.1, threads⟩ (List.replicate k (i, call))
        = .ok ⟨y.1, threads.set i y.2⟩ := by
  induction hrun using Relation.ReflTransGen.head_induction_on with
  | refl =>
      intro threads ht
      refine ⟨0, ?_⟩
      obtain ⟨hi, heq⟩ := List.getElem?_eq_some_iff.mp ht
      rw [← heq, List.set_getElem_self]
      rfl
  | @head x z hstep _ ih =>
      intro threads ht
      obtain ⟨hi, -⟩ := List.getElem?_eq_some_iff.mp ht
      have hone : step ⟨x.1, threads⟩ (i, call) = .ok ⟨z.1, threads.set i z.2⟩ := by
        simp only [step, ht]
        rw [show x.2.threadStep x.1 call = .ok z from hstep]
      obtain ⟨k, hk⟩ := ih (show (threads.set i z.2)[i]? = some z.2 from List.getElem?_set_self hi)
      refine ⟨k + 1, ?_⟩
      rw [List.replicate_succ, Runs.exec_cons_ok hone, hk, List.set_set]

end PoolThreads

end MemAlloc
