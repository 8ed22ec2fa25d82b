import MemAlloc.AbandonedLock
import MemAlloc.Linearizability
import MemAlloc.PoolFrontEnd

/-!
# `PoolAllocator` and `PoolAllocators`, access by access

`Allocate` and `Free` of the pool at an index of `mAllocators`, and of the
front end, under `ENABLE_SPIN_LOCK`, as programs over the shared pools with
a lock each. A thread between two pools holds whatever locks it left behind.

`run_share` and `run_front` say that alone they do what the sequential
functions do.
-/

namespace MemAlloc

/-- A call of a thread; `fallback` is what `malloc` would return. -/
inductive PoolsCall where
  | allocate (size fallback : Nat)
  | free (p : Nat)
deriving DecidableEq, Repr

/-- What it returns, and who served it. -/
inductive PoolsAnswer where
  | allocated (p : Nat) (server : Server)
  | freed (server : Server)
deriving DecidableEq, Repr

namespace PoolAllocators

/-- One call of the sequential front end under the spin locks. -/
def serve (s : PoolAllocators) : PoolsCall → Except Stuck (PoolsAnswer × PoolAllocators)
  | .allocate size fallback =>
      (s.allocate .enableSpinLock size fallback).map fun r => (.allocated r.1 r.2.1, r.2.2)
  | .free p => (s.free .enableSpinLock p).map fun r => (.freed r.1, r.2)

end PoolAllocators

namespace PoolAccesses

/-- Code that shares pools and their spin locks. -/
abbrev Code (α : Type) := Prog Nat (List PoolAllocator) Stuck α

/-! ## The accesses -/

/-- A read of a member of pool `i`. -/
def read {α : Type} (i : Nat) (f : PoolAllocator → Except Stuck α) : Code α :=
  .get fun pools =>
    match pools[i]? with
    | some s => f s
    | none => .error .outOfBounds

/-- A write of a member of pool `i`. -/
def write (i : Nat) (f : PoolAllocator → Except Stuck PoolAllocator) : Code Unit :=
  .modify fun pools =>
    match pools[i]? with
    | some s => (f s).map fun s' => pools.set i s'
    | none => .error .outOfBounds

/-! ## A pool -/

def allocate (i : Nat) : Code (Option Nat) := do
  .acquire i
  let idx ← read i fun s => .ok s.currFreeChunksIdx
  if idx < 0 then
    -- the early `return nullptr` does not unlock
    return none
  let idx ← read i fun s => .ok s.currFreeChunksIdx
  write i fun s => .ok { s with currFreeChunksIdx := idx - 1 }
  let dataAddress ← read i fun s => s.chunkAt idx
  let used ← read i fun s => .ok s.used
  let chunkSize ← read i fun s => .ok s.chunkSize
  write i fun s => .ok { s with used := SizeT.add used chunkSize }
  .release i
  return some dataAddress

def free (i ptr : Nat) : Code Bool := do
  .acquire i
  let start ← read i fun s => .ok s.startPtr
  if ptr < start then
    -- nor does the early `return false`
    return false
  let start ← read i fun s => .ok s.startPtr
  let total ← read i fun s => .ok s.totalSize
  if ptr > start + total then
    return false
  let used ← read i fun s => .ok s.used
  let chunkSize ← read i fun s => .ok s.chunkSize
  write i fun s => .ok { s with used := SizeT.sub used chunkSize }
  let idx ← read i fun s => .ok s.currFreeChunksIdx
  write i fun s => .ok { s with currFreeChunksIdx := idx + 1 }
  let idx ← read i fun s => .ok s.currFreeChunksIdx
  write i fun s => s.setChunk idx ptr
  .release i
  return true

/-! ## The front end -/

/-- The loop of `Allocate`, from pool `i` on, over as many pools as the last
argument says: `result` and the pool it broke off at. -/
def allocateIn (size i : Nat) : Nat → Code (Nat × Nat)
  | 0 => return (nullptr, i)
  | n + 1 => do
      let chunkSize ← read i fun s => .ok s.getChunkSize
      if size ≤ chunkSize then
        let result ← allocate i
        return (result.getD nullptr, i)
      else allocateIn size (i + 1) n

def allocateFront (pools size fallback : Nat) : Code PoolsAnswer := do
  let (result, i) ← allocateIn size 0 pools
  if result = nullptr then
    return .allocated fallback .system
  return .allocated result (.pool i)

/-- The loop of `Free`. -/
def freeIn (p i : Nat) : Nat → Code (Option Nat)
  | 0 => return none
  | n + 1 => do
      let found ← free i p
      if found then
        return some i
      else freeIn p (i + 1) n

def freeFront (pools p : Nat) : Code PoolsAnswer := do
  let found ← freeIn p 0 pools
  return .freed (found.elim .system .pool)

/-- The code of a call of the front end. -/
def code (pools : Nat) : PoolsCall → Code PoolsAnswer
  | .allocate size fallback => allocateFront pools size fallback
  | .free p => freeFront pools p

/-! ## What they do alone -/

section Alone

variable {i ptr : Nat} {s s' : PoolAllocator} {pools : List PoolAllocator}

/-- The pools as threads share them: their members, and the flags of their
locks. The member `spinlock` stands for the flag the owner sees. -/
def share (pools : List PoolAllocator) : Shared Nat (List PoolAllocator) :=
  ⟨pools.map PoolAllocator.locked, fun i => (pools[i]?).any PoolAllocator.held⟩

/-- The shared state with another pool `i`. -/
def put (t : Shared Nat (List PoolAllocator)) (i : Nat) (s : PoolAllocator) :
    Shared Nat (List PoolAllocator) :=
  { t with data := t.data.set i s }

theorem share_get (h : pools[i]? = some s) :
    (share pools).data[i]? = some s.locked ∧ (share pools).flag i = s.held := by
  simp [share, h]

/-- Pool `i` as its owner leaves it, with the lock given back or kept. -/
theorem share_set (h : pools[i]? = some s) (hlock : s'.spinlock = ⟨true⟩) (keep : Bool) :
    share (pools.set i (if keep then s' else s'.unlock .enableSpinLock)) =
      (put (share pools) i s').setFlag i keep := by
  have hlocked : (if keep then s' else s'.unlock .enableSpinLock).locked = s' := by
    obtain ⟨⟩ := s'
    cases keep <;> simp_all [PoolAllocator.locked, PoolAllocator.unlock]
  have hheld : (if keep then s' else s'.unlock .enableSpinLock).held = keep := by
    cases keep <;> simp_all [PoolAllocator.held, PoolAllocator.unlock, Spinlock.unlock]
  obtain ⟨hi, -⟩ := List.getElem?_eq_some_iff.mp h
  refine Shared.ext ?_ (funext fun j => ?_)
  · simp only [share, put, List.map_set, hlocked, Shared.setFlag_data]
  · by_cases hj : j = i
    · subst hj
      simp [share, hi, hheld]
    · rw [Shared.setFlag_of_ne _ hj]
      simp [share, put, List.getElem?_set_ne (Ne.symm hj)]

variable {α β : Type} {t : Shared Nat (List PoolAllocator)}

theorem put_self (h : t.data[i]? = some s) : put t i s = t := by
  obtain ⟨hi, rfl⟩ := List.getElem?_eq_some_iff.mp h
  exact Shared.ext (List.set_getElem_self hi) rfl

theorem read_bind (hi : i < t.data.length) (f : PoolAllocator → Except Stuck α)
    (k : α → Code β) : (read i f >>= k).run .spinsForever (put t i s) = match f s with
      | .ok a => (k a).run .spinsForever (put t i s)
      | .error e => .error e := by
  rw [read, (Prog.reads_get _).bind]
  simp only [put, List.getElem?_set_self hi]
  cases f s <;> rfl

theorem write_bind (hi : i < t.data.length) (f : PoolAllocator → Except Stuck PoolAllocator)
    (k : Unit → Code β) : (write i f >>= k).run .spinsForever (put t i s) = match f s with
      | .ok s' => (k ()).run .spinsForever (put t i s')
      | .error e => .error e := by
  rw [write, (Prog.does_modify _).bind]
  simp only [put, List.getElem?_set_self hi]
  cases f s with
  | error e => rfl
  | ok s' =>
      simp only [Except.map, List.set_set]

/-- Taking a free lock, and giving it back. -/
theorem acquire_bind (hfree : t.flag i = false) (k : Unit → Code β) :
    (Prog.acquire i >>= k).run .spinsForever (put t i s) =
      (k ()).run .spinsForever (put (t.setFlag i true) i s) := by
  have hflag : (put t i s).flag i = false := hfree
  simp only [Prog.acquire, Prog.lock_bind, Prog.ret_bind, Prog.run, hflag, Bool.false_eq_true,
    if_false]
  rfl

theorem release_bind (a : α) :
    (Prog.release i >>= fun _ => Prog.ret a : Code α).run .spinsForever
        (put (t.setFlag i true) i s) = .ok (a, (put t i s).setFlag i false) :=
  congrArg Except.ok (Prod.ext rfl (Shared.setFlag_data_setFlag t i true false _))

/-- `Allocate` of pool `i` alone. -/
theorem allocate_run (hi : i < t.data.length) (hfree : t.flag i = false) :
    (allocate i).run .spinsForever (put t i s) = (s.allocate .none).map fun r =>
      (r.1, (put t i r.2).setFlag i !r.1.isSome) := by
  have hi' : i < (t.setFlag i true).data.length := hi
  rw [allocate, acquire_bind hfree, read_bind hi', PoolAllocator.allocate, PoolAllocator.lock,
    pure_bind]
  dsimp only
  split
  · rfl
  · simp only [read_bind hi', write_bind hi']
    cases hchunk : s.chunkAt s.currFreeChunksIdx with
    | error e =>
        have : PoolAllocator.chunkAt { s with currFreeChunksIdx := s.currFreeChunksIdx - 1 }
            s.currFreeChunksIdx = .error e := hchunk
        simp only [this]
        rfl
    | ok chunk =>
        have : PoolAllocator.chunkAt { s with currFreeChunksIdx := s.currFreeChunksIdx - 1 }
            s.currFreeChunksIdx = .ok chunk := hchunk
        simp only [this, Prog.pure_eq, release_bind]
        rfl

/-- `Free` to pool `i` alone. -/
theorem free_run (hi : i < t.data.length) (hfree : t.flag i = false) :
    (free i ptr).run .spinsForever (put t i s) = (s.free .none ptr).map fun r =>
      (r.1, (put t i r.2).setFlag i !r.1) := by
  have hi' : i < (t.setFlag i true).data.length := hi
  rw [free, acquire_bind hfree, read_bind hi', PoolAllocator.free, PoolAllocator.lock, pure_bind]
  dsimp only
  by_cases hlow : ptr < s.startPtr
  · rw [if_pos hlow, if_pos (Or.inl hlow)]
    rfl
  simp only [if_neg hlow, read_bind hi']
  by_cases hhigh : ptr > s.startPtr + s.totalSize
  · rw [if_pos hhigh, if_pos (Or.inr hhigh)]
    rfl
  rw [if_neg (by omega), if_neg (by omega)]
  simp only [read_bind hi', write_bind hi']
  cases PoolAllocator.setChunk _ _ ptr with
  | error e => rfl
  | ok s' =>
      simp only [Prog.pure_eq, release_bind]
      rfl

/-- The body of a call leaves the flag to the lock. -/
theorem spinlock_allocate {r : Option Nat × PoolAllocator} (h : s.locked.allocate .none = .ok r) :
    r.2.spinlock = ⟨true⟩ := by
  simp only [PoolAllocator.allocate, PoolAllocator.lock, pure_bind] at h
  split at h
  · cases h
    rfl
  · obtain ⟨chunk, -, h⟩ := bind_eq_ok.mp h
    cases h
    rfl

theorem spinlock_free {r : Bool × PoolAllocator} (h : s.locked.free .none ptr = .ok r) :
    r.2.spinlock = ⟨true⟩ := by
  simp only [PoolAllocator.free, PoolAllocator.lock, pure_bind] at h
  split at h
  · cases h
    rfl
  · obtain ⟨s', hset, h⟩ := bind_eq_ok.mp h
    unfold PoolAllocator.setChunk at hset
    split at hset
    · cases hset
      cases h
      rfl
    · cases hset

/-- Alone, the code of pool `i` does what the sequential `Allocate` does. -/
theorem allocate_share (h : pools[i]? = some s) :
    (allocate i).run .spinsForever (share pools) =
      (s.allocate .enableSpinLock).map fun r => (r.1, share (pools.set i r.2)) := by
  obtain ⟨hdata, hflag⟩ := share_get h
  cases hheld : s.held with
  | true =>
      rw [hheld] at hflag
      simp [allocate, Prog.acquire, Prog.run, hflag, PoolAllocator.allocate,
        PoolAllocator.lock_held hheld, Except.map]
  | false =>
      have hi := (List.getElem?_eq_some_iff.mp hdata).1
      rw [← put_self hdata, allocate_run hi (hflag.trans hheld),
        PoolAllocator.allocate_enableSpinLock hheld]
      cases hr : s.locked.allocate .none with
      | error e => rfl
      | ok r =>
          have hshare := share_set h (spinlock_allocate hr) (!r.1.isSome)
          obtain ⟨result, s'⟩ := r
          cases result <;> exact congrArg Except.ok (Prod.ext rfl hshare.symm)

/-- Likewise `Free`. -/
theorem free_share (h : pools[i]? = some s) :
    (free i ptr).run .spinsForever (share pools) =
      (s.free .enableSpinLock ptr).map fun r => (r.1, share (pools.set i r.2)) := by
  obtain ⟨hdata, hflag⟩ := share_get h
  cases hheld : s.held with
  | true =>
      rw [hheld] at hflag
      simp [free, Prog.acquire, Prog.run, hflag, PoolAllocator.free,
        PoolAllocator.lock_held hheld, Except.map]
  | false =>
      have hi := (List.getElem?_eq_some_iff.mp hdata).1
      rw [← put_self hdata, free_run hi (hflag.trans hheld),
        PoolAllocator.free_enableSpinLock hheld]
      cases hr : s.locked.free .none ptr with
      | error e => rfl
      | ok r =>
          have hshare := share_set h (spinlock_free hr) (!r.1)
          obtain ⟨ok, s'⟩ := r
          cases ok <;> exact congrArg Except.ok (Prod.ext rfl hshare.symm)

/-! ### The front end -/

/-- The loops, from the pool at index `pre.length` on. -/
theorem allocateIn_share (size : Nat) : ∀ (pre rest : List PoolAllocator),
    (allocateIn size pre.length rest.length).run .spinsForever (share (pre ++ rest)) =
      (PoolAllocators.allocateIn .enableSpinLock size rest).map fun r =>
        ((r.1, pre.length + r.2.1), share (pre ++ r.2.2))
  | pre, [] => rfl
  | pre, a :: rest => by
      have hget : (pre ++ a :: rest)[pre.length]? = some a := by simp
      have hdata := (share_get hget).1
      rw [List.length_cons, allocateIn, ← put_self hdata,
        read_bind (List.getElem?_eq_some_iff.mp hdata).1, put_self hdata,
        PoolAllocators.allocateIn]
      by_cases hsize : size ≤ a.getChunkSize
      · have hsize' : size ≤ a.locked.getChunkSize := hsize
        simp only [if_pos hsize, if_pos hsize']
        rw [Prog.run_bind, allocate_share hget]
        cases a.allocate .enableSpinLock with
        | error e => rfl
        | ok r => simp [Except.map, Prog.run, pure, Except.pure]
      · have hsize' : ¬size ≤ a.locked.getChunkSize := hsize
        simp only [if_neg hsize, if_neg hsize']
        have ih := allocateIn_share size (pre ++ [a]) rest
        rw [List.length_append, List.length_singleton, List.append_assoc,
          List.singleton_append] at ih
        rw [ih]
        cases PoolAllocators.allocateIn .enableSpinLock size rest with
        | error e => rfl
        | ok r => simp [Except.map, pure, Except.pure, Nat.add_assoc, Nat.add_comm 1]

theorem freeIn_share (p : Nat) : ∀ (pre rest : List PoolAllocator),
    (freeIn p pre.length rest.length).run .spinsForever (share (pre ++ rest)) =
      (PoolAllocators.freeIn .enableSpinLock p rest).map fun r =>
        (r.1.map (pre.length + ·), share (pre ++ r.2))
  | pre, [] => rfl
  | pre, a :: rest => by
      have hget : (pre ++ a :: rest)[pre.length]? = some a := by simp
      rw [List.length_cons, freeIn, Prog.run_bind, free_share hget, PoolAllocators.freeIn]
      cases a.free .enableSpinLock p with
      | error e => rfl
      | ok r =>
          obtain ⟨found, a'⟩ := r
          have hset : (pre ++ a :: rest).set pre.length a' = pre ++ a' :: rest := by simp
          cases found with
          | true => simp [Except.map, hset, Prog.run, pure, Except.pure]
          | false =>
              simp only [Except.map, hset, ok_bind, Bool.false_eq_true, if_false]
              have ih := freeIn_share p (pre ++ [a']) rest
              rw [List.length_append, List.length_singleton, List.append_assoc,
                List.singleton_append] at ih
              rw [ih]
              cases PoolAllocators.freeIn .enableSpinLock p rest with
              | error e => rfl
              | ok r =>
                  obtain ⟨found, rest'⟩ := r
                  cases found <;>
                    simp [Except.map, pure, Except.pure, Nat.add_assoc, Nat.add_comm 1]

/-- Alone, the code of the front end does what the sequential calls do. -/
theorem run_front (pools : List PoolAllocator) (call : PoolsCall) :
    (code pools.length call).run .spinsForever (share pools) =
      (PoolAllocators.serve ⟨pools⟩ call).map fun r => (r.1, share r.2.allocators) := by
  cases call with
  | allocate size fallback =>
      have hloop := allocateIn_share size [] pools
      rw [List.nil_append, List.length_nil] at hloop
      rw [code, allocateFront, Prog.run_bind, hloop, PoolAllocators.serve,
        PoolAllocators.allocate]
      cases PoolAllocators.allocateIn .enableSpinLock size pools with
      | error e => rfl
      | ok r =>
          obtain ⟨result, i, allocators⟩ := r
          simp only [Except.map, ok_bind, Nat.zero_add, List.nil_append]
          split <;> rfl
  | free p =>
      have hloop := freeIn_share p [] pools
      rw [List.nil_append, List.length_nil] at hloop
      rw [code, freeFront, Prog.run_bind, hloop, PoolAllocators.serve, PoolAllocators.free]
      cases PoolAllocators.freeIn .enableSpinLock p pools with
      | error e => rfl
      | ok r =>
          obtain ⟨found, allocators⟩ := r
          cases found <;> simp [Except.map, Prog.run, pure, Except.pure]

end Alone

end PoolAccesses

end MemAlloc
