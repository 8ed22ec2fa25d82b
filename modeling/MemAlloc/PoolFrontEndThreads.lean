import MemAlloc.PoolAccesses

/-!
# Threads on `PoolAllocators`

Any number of threads call the front end under `ENABLE_SPIN_LOCK`, each
pool with its own lock. `Free` offers a pointer to the pools in order, and a
pool that refuses it returns without unlocking: the first `Free` of a
pointer that is not the first pool's leaves the lock of that pool taken, and
from then on no `Free` makes its last access, and no request that the first
pool serves.
-/

namespace MemAlloc

namespace PoolAccesses

/-- The chunk sizes of the pools, which no call changes. -/
def chunkSizesOf (pools : List PoolAllocator) : List Nat := pools.map PoolAllocator.chunkSize

/-! ## The code and the lock of the first pool -/

variable {i ptr : Nat} {α β : Type} {kept : β → Prop}

theorem avoids_read (j i : Nat) (f : PoolAllocator → Except Stuck α) :
    (read i f).Avoids j chunkSizesOf := Prog.avoids_get _

theorem avoids_write (j i : Nat) {f : PoolAllocator → Except Stuck PoolAllocator}
    (h : ∀ s s', f s = .ok s' → s'.chunkSize = s.chunkSize) :
    (write i f).Avoids j chunkSizesOf := by
  refine Prog.avoids_modify fun pools pools' hrun => ?_
  cases hi : pools[i]? with
  | none => simp [hi] at hrun
  | some s =>
      simp only [hi] at hrun
      obtain ⟨s', hs', rfl⟩ := map_eq_ok.mp hrun
      obtain ⟨hlt, rfl⟩ := List.getElem?_eq_some_iff.mp hi
      rw [chunkSizesOf, chunkSizesOf, List.map_set, h _ _ hs', ← List.map_set,
        List.set_getElem_self]

theorem avoids_setIdx (j i : Nat) (idx : Int) :
    (write i fun s => .ok { s with currFreeChunksIdx := idx }).Avoids j chunkSizesOf :=
  avoids_write j i fun s s' hs' => by
    obtain rfl := Except.ok.inj hs'
    rfl

theorem avoids_setUsed (j i used : Nat) :
    (write i fun s => .ok { s with used }).Avoids j chunkSizesOf :=
  avoids_write j i fun s s' hs' => by
    obtain rfl := Except.ok.inj hs'
    rfl

theorem avoids_setChunk (j i : Nat) (idx : Int) (ptr : Nat) :
    (write i fun s => s.setChunk idx ptr).Avoids j chunkSizesOf := by
  refine avoids_write j i fun s s' hs' => ?_
  unfold PoolAllocator.setChunk at hs'
  split at hs'
  · obtain rfl := Except.ok.inj hs'
    rfl
  · cases hs'

/-- The other pools have locks of their own. -/
theorem avoids_allocate {j : Nat} (h : i ≠ j) : (allocate i).Avoids j chunkSizesOf := by
  refine (Prog.avoids_acquire h).bind fun _ => (avoids_read j i _).bind fun idx => ?_
  split
  · trivial
  · exact (avoids_read j i _).bind fun idx => (avoids_setIdx j i _).bind fun _ =>
      (avoids_read j i _).bind fun chunk => (avoids_read j i _).bind fun used =>
        (avoids_read j i _).bind fun size => (avoids_setUsed j i _).bind fun _ => ⟨h, trivial⟩

theorem avoids_free {j : Nat} (h : i ≠ j) (ptr : Nat) : (free i ptr).Avoids j chunkSizesOf := by
  refine (Prog.avoids_acquire h).bind fun _ => (avoids_read j i _).bind fun start => ?_
  split
  · trivial
  refine (avoids_read j i _).bind fun start => (avoids_read j i _).bind fun total => ?_
  split
  · trivial
  · exact (avoids_read j i _).bind fun used => (avoids_read j i _).bind fun size =>
      (avoids_setUsed j i _).bind fun _ => (avoids_read j i _).bind fun idx =>
        (avoids_setIdx j i _).bind fun _ => (avoids_read j i _).bind fun idx =>
          (avoids_setChunk j i idx ptr).bind fun _ => ⟨h, trivial⟩

/-- `Allocate` of pool `i` and what follows: behind the unlock there is
nothing but an answer of another kind. -/
theorem outer_allocate (i : Nat) {k : Option Nat → Code β}
    (hsome : ∀ chunk, ∃ a, k (some chunk) = .ret a ∧ ¬kept a)
    (hnone : (k none).Inside i chunkSizesOf kept) :
    (allocate i >>= k).Outer i chunkSizesOf kept := by
  simp only [allocate, Prog.acquire, Prog.lock_bind, Prog.ret_bind, Prog.bind_assoc]
  refine ⟨fun _ => (avoids_read i i _).inside_bind fun idx => ?_, fun h => absurd rfl h⟩
  split
  · exact hnone
  · simp only [Prog.bind_assoc]
    exact (avoids_read i i _).inside_bind fun idx => (avoids_setIdx i i _).inside_bind fun _ =>
      (avoids_read i i _).inside_bind fun chunk => (avoids_read i i _).inside_bind fun used =>
        (avoids_read i i _).inside_bind fun size => (avoids_setUsed i i _).inside_bind fun _ =>
          ⟨fun _ => hsome chunk, fun h => absurd rfl h⟩

/-- Likewise `Free`. -/
theorem outer_free (i ptr : Nat) {k : Bool → Code β} (htrue : ∃ a, k true = .ret a ∧ ¬kept a)
    (hfalse : (k false).Inside i chunkSizesOf kept) :
    (free i ptr >>= k).Outer i chunkSizesOf kept := by
  simp only [free, Prog.acquire, Prog.lock_bind, Prog.ret_bind, Prog.bind_assoc]
  refine ⟨fun _ => (avoids_read i i _).inside_bind fun start => ?_, fun h => absurd rfl h⟩
  split
  · exact hfalse
  simp only [Prog.bind_assoc]
  refine (avoids_read i i _).inside_bind fun start =>
    (avoids_read i i _).inside_bind fun total => ?_
  split
  · exact hfalse
  · simp only [Prog.bind_assoc]
    exact (avoids_read i i _).inside_bind fun used => (avoids_read i i _).inside_bind fun size =>
      (avoids_setUsed i i _).inside_bind fun _ => (avoids_read i i _).inside_bind fun idx =>
        (avoids_setIdx i i _).inside_bind fun _ => (avoids_read i i _).inside_bind fun idx =>
          (avoids_setChunk i i idx ptr).inside_bind fun _ =>
            ⟨fun _ => htrue, fun h => absurd rfl h⟩

/-- The loops over the later pools. -/
theorem avoids_allocateIn (size : Nat) : ∀ {i n : Nat}, 0 < i →
    (allocateIn size i n).Avoids 0 chunkSizesOf
  | _, 0, _ => trivial
  | i, n + 1, h => by
      refine (avoids_read 0 i _).bind fun chunkSize => ?_
      split
      · exact (avoids_allocate (Nat.ne_of_gt h)).bind fun _ => trivial
      · exact avoids_allocateIn size (Nat.succ_pos i)

theorem avoids_freeIn (p : Nat) : ∀ {i n : Nat}, 0 < i → (freeIn p i n).Avoids 0 chunkSizesOf
  | _, 0, _ => trivial
  | i, n + 1, h => by
      refine (avoids_free (Nat.ne_of_gt h) p).bind fun found => ?_
      split
      · trivial
      · exact avoids_freeIn p (Nat.succ_pos i)

/-! ## The front end and the lock of the first pool -/

/-- A `Free` that the first pool did not take. -/
def PassedFirst : PoolsCall → PoolsAnswer → Prop
  | .free _, .freed server => server ≠ .pool 0
  | _, _ => False

instance : ∀ call a, Decidable (PassedFirst call a)
  | .free _, .freed server => inferInstanceAs (Decidable (server ≠ .pool 0))
  | .free _, .allocated .. | .allocate .., _ => .isFalse id

theorem outer_code (n : Nat) (call : PoolsCall) :
    (code (n + 1) call).Outer 0 chunkSizesOf (PassedFirst call) := by
  cases call with
  | allocate size fallback =>
      show Prog.Outer 0 chunkSizesOf _ ((read 0 _ >>= _) >>= _)
      rw [Prog.bind_assoc]
      refine (avoids_read 0 0 _).outer_bind fun chunkSize => ?_
      split
      · rw [Prog.bind_assoc]
        refine outer_allocate 0 (fun chunk => ?_) ?_
        · simp only [Prog.pure_eq, Prog.ret_bind]
          split <;> exact ⟨_, rfl, nofun⟩
        · simp only [Prog.pure_eq, Prog.ret_bind]
          split <;> trivial
      · refine (avoids_allocateIn size Nat.one_pos).outer_bind fun r => ?_
        dsimp only
        split <;> exact nofun
  | free p =>
      show Prog.Outer 0 chunkSizesOf _ ((free 0 p >>= _) >>= _)
      rw [Prog.bind_assoc]
      refine outer_free 0 p ⟨_, rfl, fun h => h rfl⟩ ?_
      exact (avoids_freeIn p Nat.one_pos).inside_bind fun found => trivial

/-- `Free` needs the lock of the first pool, and so does a request its
chunks are large enough for. -/
theorem needs_free (n p : Nat) (w : List Nat) :
    (code (n + 1) (.free p)).Needs 0 chunkSizesOf w := Or.inl rfl

theorem needs_allocate (n : Nat) {size fallback chunkSize : Nat} {w : List Nat}
    (hw : w[0]? = some chunkSize) (hsize : size ≤ chunkSize) :
    (code (n + 1) (.allocate size fallback)).Needs 0 chunkSizesOf w := by
  simp only [code, allocateFront, allocateIn, read, Prog.get, Prog.read_bind]
  intro pools hpools
  subst hpools
  obtain ⟨s, hs, rfl⟩ : ∃ s, pools[0]? = some s ∧ s.chunkSize = chunkSize := by
    simpa [chunkSizesOf] using hw
  have hfit : size ≤ s.getChunkSize := hsize
  simp only [hs, Prog.ret_bind, if_pos hfit]
  exact Or.inl rfl

end PoolAccesses

namespace PoolFrontEndThreads

open PoolAccesses

/-- The pools, the threads, and the calls that have made their last access. -/
abbrev State := Threads PoolsCall Nat (List PoolAllocator) Stuck PoolsAnswer

/-- One access of one thread on a front end of so many pools. -/
def step (pools : Nat) : State → Nat × PoolsCall → Except Immobile State :=
  Threads.step (code pools)

/-- Threads before their first call. -/
def start (pools : List PoolAllocator) (n : Nat) : State := Threads.start (share pools) n

/-- What gets through after a `Free` that the first pool did not take. -/
theorem after_passedFirst {pools : List PoolAllocator} {first : PoolAllocator}
    (hfirst : pools[0]? = some first) {n : Nat} {schedule : List (Nat × PoolsCall)} {S : State}
    (hrun : Runs.exec (step pools.length) (start pools n) schedule = .ok S)
    {before after : List (Nat × PoolsCall × PoolsAnswer)} {e : Nat × PoolsCall × PoolsAnswer}
    (hlog : S.log = before ++ e :: after) (hpassed : PassedFirst e.2.1 e.2.2) :
    ∀ e' ∈ after, ∃ size fallback, e'.2.1 = .allocate size fallback ∧ first.chunkSize < size := by
  obtain ⟨m, hm⟩ : ∃ m, pools.length = m + 1 :=
    ⟨pools.length - 1, by have := (List.getElem?_eq_some_iff.mp hfirst).1; omega⟩
  intro e' he'
  have hnot : ¬(code pools.length e'.2.1).Needs 0 chunkSizesOf (chunkSizesOf (share pools).data) :=
    Threads.left_behind (fun call => hm ▸ outer_code m call) (share pools) n hrun hlog hpassed
      e' he'
  rw [hm] at hnot
  cases hcall : e'.2.1 with
  | free q =>
      rw [hcall] at hnot
      exact absurd (needs_free m q _) hnot
  | allocate size fallback =>
      refine ⟨size, fallback, rfl, Nat.lt_of_not_le fun hsize => hnot ?_⟩
      rw [hcall]
      refine needs_allocate m ?_ hsize
      simp [share, chunkSizesOf, hfirst, PoolAllocator.locked]

/-- **The first pool's lock is left behind.** Once a `Free` of a pointer that
the first pool did not take has made its last access, under no schedule does
another `Free` make its last access, nor an `Allocate` the first pool's chunks
are large enough for. -/
theorem free_leaves_lock {pools : List PoolAllocator} {first : PoolAllocator}
    (hfirst : pools[0]? = some first) {n : Nat} {schedule : List (Nat × PoolsCall)} {S : State}
    (hrun : Runs.exec (step pools.length) (start pools n) schedule = .ok S)
    {before after : List (Nat × PoolsCall × PoolsAnswer)} {j p : Nat} {server : Server}
    (hlog : S.log = before ++ (j, .free p, .freed server) :: after) (hserver : server ≠ .pool 0) :
    ∀ e ∈ after, ∃ size fallback, e.2.1 = .allocate size fallback ∧ first.chunkSize < size :=
  after_passedFirst hfirst hrun hlog hserver

/-- Two pools of two chunks each, of 8 and of 16 bytes. -/
def twoPools : List PoolAllocator :=
  [{ PoolAllocator.construct 2 8 with
      startPtr := 4096, freeChunks := [4096, 4104], currFreeChunksIdx := 1 },
   { PoolAllocator.construct 2 16 with
      startPtr := 8192, freeChunks := [8192, 8208], currFreeChunksIdx := 1 }]

/-- Thread 0 gives a chunk of the second pool back; thread 1 still gets one
there, and hangs when it gives it back. -/
theorem free_leaves_lock_two :
    ∃ (schedule : List (Nat × PoolsCall)) (S : State) (before after : List _),
      Runs.exec (step twoPools.length) (start twoPools 2) schedule = .ok S ∧
        S.log = before ++ (0, .free 8208, .freed (.pool 1)) :: after ∧
        ∀ e ∈ after, ∃ size fallback, e.2.1 = .allocate size fallback ∧ 8 < size := by
  have hcheck : (Runs.exec (step twoPools.length) (start twoPools 2)
      (List.replicate 13 (0, .allocate 16 0) ++ List.replicate 19 (0, .free 8208) ++
        List.replicate 13 (1, .allocate 16 0) ++ List.replicate 20 (1, .free 8208))).map
        (fun S => decide (S.log = [(0, .allocate 16 0, .allocated 8208 (.pool 1)),
          (0, .free 8208, .freed (.pool 1)),
          (1, .allocate 16 0, .allocated 8208 (.pool 1))])) = .ok true := by decide +kernel
  obtain ⟨S, hrun, hlog⟩ := map_eq_ok.mp hcheck
  have hlog : S.log = [(0, .allocate 16 0, .allocated 8208 (.pool 1))] ++
      (0, .free 8208, .freed (.pool 1)) :: [(1, .allocate 16 0, .allocated 8208 (.pool 1))] :=
    of_decide_eq_true hlog
  exact ⟨_, S, _, _, hrun, hlog, free_leaves_lock rfl hrun hlog (by decide)⟩

end PoolFrontEndThreads

end MemAlloc
