import MemAlloc.FreeListRuns
import MemAlloc.PoolFrontEnd
import MemAlloc.PoolRuns

/-!
# Lock balance

The two allocators under `ENABLE_SPIN_LOCK`, called by a single thread with
any arguments. A call is `Balanced` when it returns and the lock is free
again. `balance_run` is the general rule: what decides balance in the
states of an invariant decides it along every run.

An operation takes the lock, does what it does without a lock, and gives
the lock back on its last line only (`allocate_enableSpinLock`,
`free_enableSpinLock`): every early return leaves it held, and the next
call that wants it spins forever.
-/

namespace MemAlloc

/-! ## Balance -/

section Balance

variable {σ ι ε : Type*} (step : σ → ι → Except ε σ) (held : σ → Bool)

/-- The call returns, and with the lock free. -/
def Balanced (s : σ) (i : ι) : Prop := ∃ s', step s i = .ok s' ∧ held s' = false

/-- In every state a run from `s` reaches with the lock free, the calls that
meet the condition are the balanced ones; a run makes balanced calls only
if and only if it makes only calls that meet it, and then it returns. -/
def BalancedExactly (Cond : σ → ι → Prop) (s : σ) : Prop :=
  ∀ is : List ι,
    (∀ t, Runs.exec step s is = .ok t → held t = false →
      ∀ i, Balanced step held t i ↔ Cond t i) ∧
    (Runs.All step (Balanced step held) s is ↔ Runs.All step Cond s is) ∧
    (Runs.All step Cond s is → ∃ t, Runs.exec step s is = .ok t ∧ held t = false)

variable {step held}

/-- An operation that takes the lock, runs a body and unlocks after some of
its answers, when the body answers: it keeps what `unlock` keeps, and is
balanced if and only if the answer is one of these. -/
theorem guarded_ok {P : σ → Prop} {s s' : σ} {i : ι} {α : Type*} (done : α → Bool)
    (unlock : σ → σ) {a : α} {run : Except ε (α × σ)}
    (hstep : step s i = run.map fun r => if done r.1 then unlock r.2 else r.2)
    (hrun : run = .ok (a, s')) (hs' : P s') (hheld : held s' = true)
    (hunlock : P (unlock s') ∧ held (unlock s') = false) :
    (∀ t, step s i = .ok t → P t) ∧ (Balanced step held s i ↔ done a = true) := by
  rw [hrun] at hstep
  have hone : step s i = .ok (if done a then unlock s' else s') := hstep
  cases hd : done a with
  | true =>
      simp only [hd, if_true] at hone
      refine ⟨fun t ht => ?_, fun _ => rfl, fun _ => ⟨unlock s', hone, hunlock.2⟩⟩
      obtain rfl := Except.ok.inj (hone.symm.trans ht)
      exact hunlock.1
  | false =>
      simp only [hd, Bool.false_eq_true, if_false] at hone
      refine ⟨fun t ht => ?_, fun ⟨t, ht, hfree⟩ => ?_, (fun h => nomatch h)⟩
      · obtain rfl := Except.ok.inj (hone.symm.trans ht)
        exact hs'
      · obtain rfl := Except.ok.inj (hone.symm.trans ht)
        exact hfree.symm.trans hheld

/-- A call that gets stuck keeps anything and is not balanced. -/
theorem guarded_error {P : σ → Prop} {C : Prop} {s : σ} {i : ι} {e : ε}
    (hstep : step s i = .error e) (hC : ¬C) :
    (∀ t, step s i = .ok t → P t) ∧ (Balanced step held s i ↔ C) := by
  refine ⟨fun t ht => ?_, iff_of_false (fun ⟨t, ht, _⟩ => ?_) hC⟩ <;>
    cases hstep.symm.trans ht

/-- If in the states of an invariant in which the lock is free a condition
decides balance, it does so along every run. -/
theorem balance_run {Inv : σ → Prop} {Cond : σ → ι → Prop}
    (hkeep : ∀ s i s', Inv s → step s i = .ok s' → Inv s')
    (hiff : ∀ s i, Inv s → held s = false → (Balanced step held s i ↔ Cond s i)) {s : σ}
    (hs : Inv s) (hfree : held s = false) : BalancedExactly step held Cond s := by
  intro is
  have hback : ∀ s i, Inv s ∧ held s = false → Cond s i →
      ∃ s', step s i = .ok s' ∧ Inv s' ∧ held s' = false := fun s i h hc => by
    obtain ⟨s', hok, hfree'⟩ := (hiff s i h.1 h.2).mpr hc
    exact ⟨s', hok, hkeep s i s' h.1 hok, hfree'⟩
  refine ⟨fun t hrun hfree' i => hiff t i (Runs.exec_keeps Inv hkeep hs hrun) hfree', ?_, ?_⟩
  · have hany : Runs.All step (fun _ _ => True) s is := Runs.all_of_forall fun _ _ _ => trivial
    exact Runs.steps_iff (fun s => Inv s ∧ held s = false) (fun s i h _ => hiff s i h.1 h.2)
      (fun s i h _ hc => hback s i h hc) ⟨hs, hfree⟩ hany
  · intro hall
    obtain ⟨t, hrun, -, hfree'⟩ :=
      Runs.exec_inv (fun s => Inv s ∧ held s = false) Cond hback ⟨hs, hfree⟩ hall
    exact ⟨t, hrun, hfree'⟩

end Balance

/-! ## The pool -/

namespace PoolAllocator

variable {s : PoolAllocator} {ptr : Nat}

/-- One call under the spin lock, with any arguments. -/
def lockStep (s : PoolAllocator) : PoolCall → Except Stuck PoolAllocator
  | .allocate _ => (s.allocate .enableSpinLock).map Prod.snd
  | .free ptr => (s.free .enableSpinLock ptr).map Prod.snd
  | .reset => s.reset .enableSpinLock

/-- The calls that give the lock back: `Allocate` from a pool that is not
full, `Free` of a pointer that passes the range test and finds a slot. -/
def ReachesUnlock (s : PoolAllocator) : PoolCall → Prop
  | .allocate _ => 0 ≤ s.currFreeChunksIdx
  | .free ptr => (s.startPtr ≤ ptr ∧ ptr ≤ s.startPtr + s.totalSize) ∧
      s.currFreeChunksIdx + 1 < s.chunksNum
  | .reset => True

instance (s : PoolAllocator) : DecidablePred (ReachesUnlock s)
  | .allocate _ => inferInstanceAs (Decidable (0 ≤ s.currFreeChunksIdx))
  | .free _ => inferInstanceAs (Decidable ((_ ∧ _) ∧ _))
  | .reset => isTrue trivial

/-- What every call keeps, whatever its arguments. -/
structure InTable (chunksNum : Nat) (s : PoolAllocator) : Prop where
  num : s.chunksNum = chunksNum
  tableLt : chunksNum * 8 < 2 ^ 64
  table : s.freeChunks.length = chunksNum
  idxGe : -1 ≤ s.currFreeChunksIdx
  idxLt : s.currFreeChunksIdx < chunksNum

variable {chunksNum : Nat}

namespace InTable

variable (h : InTable chunksNum s)
include h

theorem locked : InTable chunksNum s.locked :=
  ⟨h.num, h.tableLt, h.table, h.idxGe, h.idxLt⟩

theorem unlock : InTable chunksNum (s.unlock .enableSpinLock) :=
  ⟨h.num, h.tableLt, h.table, h.idxGe, h.idxLt⟩

/-- The body of `Allocate` fails on a full pool only. -/
theorem allocate_none : ∃ result s', s.allocate .none = .ok (result, s') ∧ InTable chunksNum s' ∧
    s'.held = s.held ∧ (result.isSome = true ↔ 0 ≤ s.currFreeChunksIdx) := by
  by_cases hidx : s.currFreeChunksIdx < 0
  · exact ⟨none, s, allocate_empty hidx, h, rfl, by simpa using hidx⟩
  · obtain ⟨i, hi⟩ : ∃ i : Nat, s.currFreeChunksIdx = i := ⟨s.currFreeChunksIdx.toNat, by omega⟩
    have hlt := h.idxLt
    have hin : i < s.freeChunks.length := by
      rw [h.table]
      omega
    refine ⟨_, _, allocate_pop hi hin, ⟨h.num, h.tableLt, h.table, ?_, ?_⟩, rfl, ?_⟩
    · show -1 ≤ (i : Int) - 1
      omega
    · show (i : Int) - 1 < chunksNum
      omega
    · simpa using hidx

/-- The body of `Free` writes outside the table, or refuses a pointer out
of range only. -/
theorem free_none (ptr : Nat) :
    ¬s.currFreeChunksIdx + 1 < chunksNum ∧ s.free .none ptr = .error .outOfBounds ∨
    ∃ ok s', s.free .none ptr = .ok (ok, s') ∧ InTable chunksNum s' ∧ s'.held = s.held ∧
      (ok = true ↔ (s.startPtr ≤ ptr ∧ ptr ≤ s.startPtr + s.totalSize) ∧
        s.currFreeChunksIdx + 1 < chunksNum) := by
  have hge := h.idxGe
  by_cases hrange : ptr < s.startPtr ∨ ptr > s.startPtr + s.totalSize
  · exact Or.inr ⟨false, s, free_refused hrange, h, rfl, (fun hok => nomatch hok),
      fun hc => by omega⟩
  · obtain ⟨i, hi⟩ : ∃ i : Nat, s.currFreeChunksIdx + 1 = i :=
      ⟨(s.currFreeChunksIdx + 1).toNat, by omega⟩
    by_cases hslot : s.currFreeChunksIdx + 1 < chunksNum
    · have hin : i < s.freeChunks.length := by
        rw [h.table]
        omega
      refine Or.inr ⟨true, _, free_push hrange hi hin,
        ⟨h.num, h.tableLt, (List.length_set ..).trans h.table, ?_, ?_⟩, rfl,
        fun _ => ⟨by omega, hslot⟩, fun _ => rfl⟩
      · show -1 ≤ (i : Int)
        omega
      · show (i : Int) < chunksNum
        omega
    · refine Or.inl ⟨hslot, free_stuck hrange hi ?_⟩
      rw [h.table]
      omega

end InTable

/-- `Reset` on a table of the right length. -/
theorem reset_none_inTable (hnum : s.chunksNum = chunksNum) (htable : chunksNum * 8 < 2 ^ 64)
    (hlen : s.freeChunks.length = chunksNum) :
    ∃ s', s.reset .none = .ok s' ∧ InTable chunksNum s' := by
  subst hnum
  have hidx : SizeT.int64 s.chunksNum = s.chunksNum := SizeT.int64_of_lt (by omega)
  refine ⟨_, reset_eq hlen, rfl, htable, length_slots _ _ _, ?_, ?_⟩
  · show -1 ≤ SizeT.int64 s.chunksNum - 1
    omega
  · show SizeT.int64 s.chunksNum - 1 < s.chunksNum
    omega

/-- The same under the lock, if that is free. -/
theorem reset_inTable (hnum : s.chunksNum = chunksNum) (htable : chunksNum * 8 < 2 ^ 64)
    (hlen : s.freeChunks.length = chunksNum) (h : s.held = false) :
    ∃ s', s.reset .enableSpinLock = .ok s' ∧ InTable chunksNum s' ∧ s'.held = false := by
  obtain ⟨s', hrun, hs'⟩ := reset_none_inTable (s := s.locked) hnum htable hlen
  refine ⟨s'.unlock .enableSpinLock, ?_, hs'.unlock, rfl⟩
  rw [reset_enableSpinLock h, hrun]
  rfl

/-- A pool whose lock is held answers no call. -/
theorem lockStep_held (h : s.held = true) (call : PoolCall) :
    lockStep s call = .error .spinsForever := by
  cases call with
  | allocate size => rw [lockStep, allocate, lock_held h]; rfl
  | free ptr => rw [lockStep, free, lock_held h]; rfl
  | reset => rw [lockStep, reset, lock_held h]; rfl

/-- **Step lemma.** From a free lock, a call that returns keeps the table,
and it returns with the lock free if and only if it reaches its last line. -/
theorem lockStep_cases (h : InTable chunksNum s) (hfree : s.held = false) (call : PoolCall) :
    (∀ s', lockStep s call = .ok s' → InTable chunksNum s') ∧
      (Balanced lockStep held s call ↔ ReachesUnlock s call) := by
  cases call with
  | allocate size =>
      have hstep : lockStep s (.allocate size) = (s.locked.allocate .none).map fun r =>
          if r.1.isSome then r.2.unlock .enableSpinLock else r.2 := by
        rw [lockStep, allocate_enableSpinLock hfree]
        cases s.locked.allocate .none <;> rfl
      obtain ⟨result, s', hrun, hs', hheld, hsome⟩ := h.locked.allocate_none
      have hkey := guarded_ok Option.isSome (fun t => t.unlock .enableSpinLock)
        hstep hrun hs' hheld ⟨hs'.unlock, rfl⟩
      exact ⟨hkey.1, hkey.2.trans hsome⟩
  | free ptr =>
      have hstep : lockStep s (.free ptr) = (s.locked.free .none ptr).map fun r =>
          if r.1 then r.2.unlock .enableSpinLock else r.2 := by
        rw [lockStep, free_enableSpinLock hfree]
        cases s.locked.free .none ptr <;> rfl
      rw [ReachesUnlock, h.num]
      rcases h.locked.free_none ptr with ⟨hslot, hrun⟩ | ⟨ok, s', hrun, hs', hheld, hok⟩
      · exact guarded_error (hstep.trans (by rw [hrun]; rfl)) fun hc => hslot hc.2
      · have hkey := guarded_ok id (fun t => t.unlock .enableSpinLock)
          hstep hrun hs' hheld ⟨hs'.unlock, rfl⟩
        exact ⟨hkey.1, hkey.2.trans hok⟩
  | reset =>
      obtain ⟨s', hrun, hs', hflag⟩ := reset_inTable h.num h.tableLt h.table hfree
      refine ⟨fun s'' hok => ?_, fun _ => trivial, fun _ => ⟨s', hrun, hflag⟩⟩
      obtain rfl := Except.ok.inj (hrun.symm.trans hok)
      exact hs'

theorem lockStep_inTable (call : PoolCall) {s' : PoolAllocator} (h : InTable chunksNum s)
    (hok : lockStep s call = .ok s') : InTable chunksNum s' := by
  cases hfree : s.held with
  | true => cases (lockStep_held hfree call).symm.trans hok
  | false => exact (lockStep_cases h hfree call).1 s' hok

/-- A constructed pool after `Init()`, with the lock free. -/
theorem init_inTable (htable : chunksNum * 8 < 2 ^ 64) (chunkSize arena : Nat) {table : List Nat}
    (hlen : table.length = chunksNum) :
    ∃ s, (construct chunksNum chunkSize).init .enableSpinLock arena table = .ok s ∧
      InTable chunksNum s ∧ s.held = false :=
  reset_inTable rfl htable hlen rfl

end PoolAllocator

/-! ## The free list -/

/-- The calls of a client and `Reset`. -/
inductive FreeListOp where
  | client (call : FreeListCall)
  | reset

namespace FreeListAllocator

variable {s : FreeListAllocator} {merge : MergePolicy} {size alignment ptr : Nat}

/-- The allocator between `lock` and `unlock`. -/
def locked (s : FreeListAllocator) : FreeListAllocator := { s with spinlock := ⟨true⟩ }

@[simp] theorem locked_startPtr : s.locked.startPtr = s.startPtr := rfl

def held (s : FreeListAllocator) : Bool := s.spinlock.mFlag

theorem lock_free (h : s.held = false) : s.lock .enableSpinLock = .ok s.locked := by
  rw [lock, Spinlock.lock_free h]
  rfl

theorem lock_held (h : s.held = true) : s.lock .enableSpinLock = .error .spinsForever := by
  rw [lock, Spinlock.lock_held h]
  rfl

/-- The search does not read the lock. -/
theorem findLoop_locked : ∀ {i smallestDiff : Nat} {best : Int},
    s.locked.findLoop size i smallestDiff best = s.findLoop size i smallestDiff best
  | 0, _, _ => rfl
  | i + 1, _, _ => by
      rw [findLoop, findLoop]
      show (s.blockAt i >>= _) = (s.blockAt i >>= _)
      cases s.blockAt i with
      | error e => rfl
      | ok b => simp only [ok_bind, findLoop_locked]

theorem find_locked : s.locked.findFreeMemBlockIndex size = s.findFreeMemBlockIndex size := by
  rw [findFreeMemBlockIndex, findFreeMemBlockIndex, findLoop_locked]
  rfl

/-- With the lock, `Allocate` does what it does without, and gives the lock
back unless it returns `nullptr`. -/
theorem allocate_enableSpinLock (h : s.held = false) :
    s.allocate .enableSpinLock size alignment =
      (s.locked.allocate .none size alignment).map fun (result, s') =>
        (result, if result.isSome then s'.unlock .enableSpinLock else s') := by
  simp only [allocate, lock_free h]
  simp only [lock, ok_bind, pure_bind]
  split
  · rfl
  cases s.locked.findFreeMemBlockIndex (requiredSize size alignment) with
  | error e => rfl
  | ok idx =>
      simp only [ok_bind]
      split
      · rfl
      · cases s.locked.blockAt idx with
        | error e => rfl
        | ok b =>
            simp only [ok_bind]
            cases s.locked.carve idx b (requiredSize size alignment) with
            | error e => rfl
            | ok s' =>
                simp only [ok_bind]
                cases writeHeader _ _ _ <;> rfl

/-- Likewise `Free`, unless it returns `false`. -/
theorem free_enableSpinLock (h : s.held = false) :
    s.free .enableSpinLock merge ptr = (s.locked.free .none merge ptr).map fun (ok, s') =>
      (ok, if ok then s'.unlock .enableSpinLock else s') := by
  simp only [free, lock_free h]
  simp only [lock, ok_bind, pure_bind, locked_startPtr]
  split
  · rfl
  · rename_i hroom
    cases s.locked.setBlock s.locked.currSize _ with
    | error e => rfl
    | ok s₁ =>
        simp only [ok_bind]
        cases FreeListAllocator.readHeader _ _ with
        | error e => rfl
        | ok blockSize =>
            simp only [ok_bind]
            cases FreeListAllocator.setBlock _ _ _ with
            | error e => rfl
            | ok s₂ =>
                simp only [ok_bind]
                cases FreeListAllocator.mergeContiguous _ merge <;> rfl

/-- One call under the spin lock, with any arguments. -/
def lockStep (merge : MergePolicy) (s : FreeListAllocator) :
    FreeListOp → Except Stuck FreeListAllocator
  | .client (.allocate size alignment) =>
      (s.allocate .enableSpinLock size alignment).map Prod.snd
  | .client (.free ptr) => (s.free .enableSpinLock merge ptr).map Prod.snd
  | .client .fullMergeMemBlocks => s.fullMergeMemBlocks
  | .client (.clientWrites mem) => .ok { s with mem }
  | .reset => .ok s.reset

/-- The calls that give the lock back: an `Allocate` that finds an entry,
unless that is entry 0 and fits exactly, and can write the header there, and
a `Free` into a table that is not full of a pointer whose header can be
read. -/
def ReachesUnlock (s : FreeListAllocator) : FreeListOp → Prop
  | .client (.allocate size alignment) => alignment ≠ 0 ∧ ∃ (k : Nat) (b : MemBlock),
      s.findFreeMemBlockIndex (requiredSize size alignment) = .ok (k : Int) ∧
      s.freeBlocks[k]? = some b ∧
      (SizeT.sub b.blockSize (requiredSize size alignment) > 0 ∨ 0 < k) ∧
      s.mapped.hasWord (s.startPtr + b.memBlockOffset) = true
  | .client (.free ptr) => s.currSize < freeMemBlocksSize ∧
      s.mapped.hasWord (allocationHeader ptr) = true
  | _ => True

namespace InTable

variable (h : InTable s)
include h

/-- The body of `Allocate` gets stuck, or refuses if nothing is found. -/
theorem allocate_none (size alignment : Nat) :
    ¬ReachesUnlock s (.client (.allocate size alignment)) ∧
        (∃ e, s.allocate .none size alignment = .error e) ∨
      ∃ result s', s.allocate .none size alignment = .ok (result, s') ∧ InTable s' ∧
        s'.held = s.held ∧
        (result.isSome = true ↔ ReachesUnlock s (.client (.allocate size alignment))) := by
  by_cases hne : alignment = 0
  · subst hne
    exact Or.inl ⟨fun hreach => hreach.1 rfl, _, allocate_alignment_zero⟩
  rcases h.allocate_cases size hne with ⟨hfind, hrun⟩ | ⟨k, b, hfind, hb, -, hcarve⟩
  · refine Or.inr ⟨none, s, hrun, h, rfl, (fun hsome => nomatch hsome), ?_⟩
    rintro ⟨-, k, -, hfind', -⟩
    have := Except.ok.inj (hfind.symm.trans hfind')
    omega
  · have hreach : ReachesUnlock s (.client (.allocate size alignment)) ↔
        (SizeT.sub b.blockSize (requiredSize size alignment) > 0 ∨ 0 < k) ∧
          s.mapped.hasWord (s.startPtr + b.memBlockOffset) = true := by
      refine ⟨?_, fun hc => ⟨hne, k, b, hfind, hb, hc⟩⟩
      rintro ⟨-, k', b', hfind', hb', hc⟩
      obtain rfl := Int.ofNat.inj (Except.ok.inj (hfind.symm.trans hfind'))
      obtain rfl := Option.some.inj (hb.symm.trans hb')
      exact hc
    rw [hreach]
    rcases hcarve with ⟨hc, hrun⟩ | ⟨hc, t, n, hn, -, ⟨hword, hrun⟩ | ⟨hword, hrun⟩⟩
    · exact Or.inl ⟨fun hboth => hc hboth.1, _, hrun⟩
    · refine Or.inl ⟨fun hboth => ?_, _, hrun⟩
      rw [hboth.2] at hword
      cases hword
    · exact Or.inr ⟨_, _, hrun, Nat.le_trans hn h, rfl, fun _ => ⟨hc, hword⟩, fun _ => rfl⟩

/-- The body of `Free` gets stuck on a header it cannot read, or refuses on a
full table only. -/
theorem free_none (merge : MergePolicy) (ptr : Nat) :
    ¬ReachesUnlock s (.client (.free ptr)) ∧
        (∃ e, s.free .none merge ptr = .error e) ∨
      ∃ ok s', s.free .none merge ptr = .ok (ok, s') ∧ InTable s' ∧ s'.held = s.held ∧
        (ok = true ↔ ReachesUnlock s (.client (.free ptr))) := by
  rcases h.free_cases merge ptr with
    ⟨hfull, hrun⟩ | ⟨hcap, ⟨hword, hrun⟩ | ⟨hword, t, n, hn, hrun⟩⟩
  · exact Or.inr ⟨false, s, hrun, h, rfl, (fun hok => nomatch hok), fun hc => by
      have := hc.1
      omega⟩
  · refine Or.inl ⟨fun hreach => ?_, _, hrun⟩
    rw [hreach.2] at hword
    cases hword
  · exact Or.inr ⟨true, _, hrun, Nat.le_trans hn hcap, rfl, fun _ => ⟨hcap, hword⟩, fun _ => rfl⟩

end InTable

/-- The lock plays no part in what `Allocate` finds. -/
theorem reachesUnlock_locked (op : FreeListOp) :
    ReachesUnlock s.locked op ↔ ReachesUnlock s op := by
  cases op with
  | reset => exact Iff.rfl
  | client call =>
      cases call with
      | allocate size alignment =>
          rw [ReachesUnlock, find_locked]
          exact Iff.rfl
      | _ => exact Iff.rfl

/-- **Step lemma.** From a free lock, a call that returns keeps the table,
and it returns with the lock free if and only if it reaches its last line. -/
theorem lockStep_cases (merge : MergePolicy) (h : InTable s) (hfree : s.held = false)
    (op : FreeListOp) :
    (∀ s', lockStep merge s op = .ok s' → InTable s') ∧
      (Balanced (lockStep merge) held s op ↔ ReachesUnlock s op) := by
  have hlocked : InTable s.locked := h
  -- the calls that leave the lock alone
  have hplain : ∀ {s'}, lockStep merge s op = .ok s' → InTable s' → s'.held = s.held →
      ReachesUnlock s op → (∀ s', lockStep merge s op = .ok s' → InTable s') ∧
        (Balanced (lockStep merge) held s op ↔ ReachesUnlock s op) := by
    intro s' hrun hs' hheld hreach
    refine ⟨fun s'' hok => ?_, fun _ => hreach, fun _ => ⟨s', hrun, hheld.trans hfree⟩⟩
    obtain rfl := Except.ok.inj (hrun.symm.trans hok)
    exact hs'
  cases op with
  | reset =>
      exact hplain rfl (show 1 ≤ freeMemBlocksSize by decide) rfl trivial
  | client call =>
      cases call with
      | allocate size alignment =>
          have hstep : lockStep merge s (.client (.allocate size alignment)) =
              (s.locked.allocate .none size alignment).map fun r =>
                if r.1.isSome then r.2.unlock .enableSpinLock else r.2 := by
            rw [lockStep, allocate_enableSpinLock hfree]
            cases s.locked.allocate .none size alignment <;> rfl
          rw [← reachesUnlock_locked]
          rcases hlocked.allocate_none size alignment with
            ⟨hnot, e, hrun⟩ | ⟨result, s', hrun, hs', hheld, hsome⟩
          · exact guarded_error (hstep.trans (by rw [hrun]; rfl)) hnot
          · have hkey := guarded_ok Option.isSome (fun t => t.unlock .enableSpinLock)
              hstep hrun hs' hheld ⟨hs', rfl⟩
            exact ⟨hkey.1, hkey.2.trans hsome⟩
      | free ptr =>
          have hstep : lockStep merge s (.client (.free ptr)) =
              (s.locked.free .none merge ptr).map fun r =>
                if r.1 then r.2.unlock .enableSpinLock else r.2 := by
            rw [lockStep, free_enableSpinLock hfree]
            cases s.locked.free .none merge ptr <;> rfl
          rw [← reachesUnlock_locked]
          rcases hlocked.free_none merge ptr with
            ⟨hnot, e, hrun⟩ | ⟨ok, s', hrun, hs', hheld, hok⟩
          · exact guarded_error (hstep.trans (by rw [hrun]; rfl)) hnot
          · have hkey := guarded_ok id (fun t => t.unlock .enableSpinLock)
              hstep hrun hs' hheld ⟨hs', rfl⟩
            exact ⟨hkey.1, hkey.2.trans hok⟩
      | fullMergeMemBlocks =>
          obtain ⟨t, n, hrun, hn, -⟩ := fullMergeMemBlocks_spec h
          exact hplain hrun (Nat.le_trans hn h) rfl trivial
      | clientWrites mem => exact hplain rfl h rfl trivial

/-- While the lock is held, `Allocate` and `Free` answer no call. -/
theorem lockStep_held (h : s.held = true) (merge : MergePolicy) :
    (∀ size alignment, lockStep merge s (.client (.allocate size alignment)) =
      .error (if alignment = 0 then .dividesByZero else .spinsForever)) ∧
    ∀ ptr, lockStep merge s (.client (.free ptr)) = .error .spinsForever := by
  refine ⟨fun size alignment => ?_, fun ptr => ?_⟩
  · simp only [lockStep, allocate, lock_held h]
    split <;> rfl
  · simp only [lockStep, free, lock_held h]
    rfl

theorem lockStep_inTable (merge : MergePolicy) (op : FreeListOp) {s' : FreeListAllocator}
    (h : InTable s) (hok : lockStep merge s op = .ok s') : InTable s' := by
  cases hfree : s.held with
  | false => exact (lockStep_cases merge h hfree op).1 s' hok
  | true =>
      cases op with
      | reset =>
          obtain rfl := Except.ok.inj hok
          show 1 ≤ freeMemBlocksSize
          decide
      | client call =>
          cases call with
          | allocate size alignment => cases ((lockStep_held hfree merge).1 _ _).symm.trans hok
          | free ptr => cases ((lockStep_held hfree merge).2 _).symm.trans hok
          | fullMergeMemBlocks =>
              obtain ⟨t, n, hrun, hn, -⟩ := fullMergeMemBlocks_spec h
              obtain rfl := Except.ok.inj (hrun.symm.trans hok)
              exact Nat.le_trans hn h
          | clientWrites mem =>
              obtain rfl := Except.ok.inj hok
              exact h

end FreeListAllocator

/-! ## Both allocators -/

/-- **Lock balance.** After `Init()`, and in every state with a free lock
that calls with any arguments lead to, a call of `Allocate`, `Free` or
`Reset` returns with the lock free exactly when it reaches its last line,
for the pool and for the free list, whatever memory the process has. -/
theorem lock_balance_iff {chunksNum : Nat} {table : List Nat} (hlen : table.length = chunksNum)
    (htable : chunksNum * 8 < 2 ^ 64) (chunkSize totalSize arena : Nat) (mem : Memory)
    (mapped : AddressSpace) (merge : MergePolicy) :
    (∃ s, (PoolAllocator.construct chunksNum chunkSize).init .enableSpinLock arena table = .ok s ∧
      BalancedExactly PoolAllocator.lockStep PoolAllocator.held PoolAllocator.ReachesUnlock s) ∧
    BalancedExactly (FreeListAllocator.lockStep merge) FreeListAllocator.held
      FreeListAllocator.ReachesUnlock
      { (FreeListAllocator.construct totalSize mem).init arena with mapped } := by
  constructor
  · obtain ⟨s, hinit, hs, hfree⟩ := PoolAllocator.init_inTable htable chunkSize arena hlen
    exact ⟨s, hinit, balance_run (fun _ call _ h hok => PoolAllocator.lockStep_inTable call h hok)
      (fun _ call h hfree => (PoolAllocator.lockStep_cases h hfree call).2) hs hfree⟩
  · refine balance_run
      (fun _ op _ h hok => FreeListAllocator.lockStep_inTable merge op h hok)
      (fun _ op h hfree => (FreeListAllocator.lockStep_cases merge h hfree op).2) ?_ rfl
    show 1 ≤ freeMemBlocksSize
    decide

/-- A pool of two chunks: two `Allocate` calls are balanced, a third is not. A
free list in a process with no other memory than the arena: `Free` of a block
is balanced, of a null pointer it is not. -/
theorem lock_balance_iff_two_chunks :
    (∃ s, (PoolAllocator.construct 2 8).init .enableSpinLock 4096 [0, 0] = .ok s ∧
      Runs.All PoolAllocator.lockStep (Balanced PoolAllocator.lockStep PoolAllocator.held) s
        [.allocate 8, .allocate 8] ∧
      ¬Runs.All PoolAllocator.lockStep (Balanced PoolAllocator.lockStep PoolAllocator.held) s
        [.allocate 8, .allocate 8, .allocate 8]) ∧
    ∃ s, s = (FreeListAllocator.construct 64 fun _ => 0).init 4096 ∧
      Runs.All (FreeListAllocator.lockStep .enableFastMerge)
        (Balanced (FreeListAllocator.lockStep .enableFastMerge) FreeListAllocator.held) s
        [.client (.allocate 8 8), .client (.free 4104)] ∧
      ¬Runs.All (FreeListAllocator.lockStep .enableFastMerge)
        (Balanced (FreeListAllocator.lockStep .enableFastMerge) FreeListAllocator.held) s
        [.client (.free nullptr)] := by
  obtain ⟨⟨s, hinit, hexact⟩, hlist⟩ := lock_balance_iff (show [0, 0].length = 2 from rfl)
    (show 2 * 8 < 2 ^ 64 by decide) 8 64 4096 (fun _ => 0)
    (AddressSpace.withArena (fun _ => false) 4096 64) .enableFastMerge
  have hcond : ((PoolAllocator.construct 2 8).init .enableSpinLock 4096 [0, 0]).map (fun s =>
      (decide (Runs.All PoolAllocator.lockStep PoolAllocator.ReachesUnlock s
          [.allocate 8, .allocate 8]),
        decide (Runs.All PoolAllocator.lockStep PoolAllocator.ReachesUnlock s
          [.allocate 8, .allocate 8, .allocate 8]))) = .ok (true, false) := by
    decide +kernel
  rw [hinit] at hcond
  obtain ⟨htwo, hthree⟩ := Prod.mk.inj (Except.ok.inj hcond)
  refine ⟨⟨s, hinit, (hexact _).2.1.mpr (of_decide_eq_true htwo),
    fun hall => of_decide_eq_false hthree ((hexact _).2.1.mp hall)⟩, _, rfl,
    (hlist _).2.1.mpr ?_, fun hall => ?_⟩
  · refine Runs.all_cons.mpr ⟨⟨by decide, 0, ⟨0, 64⟩, by decide +kernel, by decide +kernel,
      Or.inl (by decide +kernel), by decide +kernel⟩, fun s' hok =>
        Runs.all_cons.mpr ⟨?_, fun _ _ => Runs.all_nil _ _⟩⟩
    -- the block is in the arena, and the table has room
    have hcheck : (FreeListAllocator.lockStep .enableFastMerge
        ((FreeListAllocator.construct 64 fun _ => 0).init 4096) (.client (.allocate 8 8))).map
          (fun s' => decide (s'.currSize < freeMemBlocksSize ∧
            s'.mapped.hasWord (FreeListAllocator.allocationHeader 4104) = true)) = .ok true := by
      decide +kernel
    rw [show FreeListAllocator.lockStep .enableFastMerge
      ((FreeListAllocator.construct 64 fun _ => 0).init 4096) (.client (.allocate 8 8)) = .ok s'
      from hok] at hcheck
    have hroom : s'.currSize < freeMemBlocksSize ∧
        s'.mapped.hasWord (FreeListAllocator.allocationHeader 4104) = true :=
      of_decide_eq_true (Except.ok.inj hcheck)
    exact hroom
  · have hreach := (Runs.all_cons.mp ((hlist _).2.1.mp hall)).1
    exact absurd hreach.2 (by decide +kernel)

/-- `Free(nullptr)` on a fresh pool of one chunk returns with the lock held;
the next call never returns. -/
theorem PoolAllocator.free_foreign_unbalanced :
    ∃ s, (construct 1 8).init .enableSpinLock 4096 [0] = .ok s ∧ s.held = false ∧
      ¬Balanced lockStep held s (.free nullptr) ∧
      Runs.exec lockStep s [.free nullptr, .allocate 8] = .error .spinsForever := by
  obtain ⟨s, hinit, -, hfree⟩ :=
    init_inTable (show 1 * 8 < 2 ^ 64 by decide) 8 4096 (show [0].length = 1 from rfl)
  have hrun : ((construct 1 8).init .enableSpinLock 4096 [0]).map (fun s =>
      decide (lockStep s (.free nullptr) = .ok s.locked ∧
        Runs.exec lockStep s [.free nullptr, .allocate 8] = .error .spinsForever)) = .ok true := by
    decide +kernel
  rw [hinit] at hrun
  obtain ⟨hlocked, hspin⟩ := of_decide_eq_true (Except.ok.inj hrun)
  refine ⟨s, hinit, hfree, ?_, hspin⟩
  rintro ⟨s', hok, hfree'⟩
  obtain rfl := Except.ok.inj (hlocked.symm.trans hok)
  cases hfree'

/-! ## The front end -/

namespace PoolAllocators

variable {p : Nat}

/-- `Free` offers a pointer foreign to all pools to each, and leaves each
pool's lock held. -/
theorem freeIn_foreign : ∀ {l : List PoolAllocator},
    (∀ a ∈ l, a.held = false ∧ (p < a.startPtr ∨ p > a.startPtr + a.totalSize)) →
    freeIn .enableSpinLock p l = .ok (none, l.map PoolAllocator.locked)
  | [], _ => rfl
  | a :: l, h => by
      obtain ⟨hfree, hout⟩ := h a (List.mem_cons_self ..)
      have hlocked : p < a.locked.startPtr ∨ p > a.locked.startPtr + a.locked.totalSize := hout
      have ha : a.free .enableSpinLock p = .ok (false, a.locked) := by
        rw [PoolAllocator.free, PoolAllocator.lock_free hfree, ok_bind, if_pos hlocked]
        rfl
      rw [freeIn, ha, ok_bind]
      simp only [Bool.false_eq_true, if_false]
      rw [freeIn_foreign fun b hb => h b (List.mem_cons_of_mem _ hb)]
      rfl

/-- Once all locks are held, so are the calls of the pools' owners: `Free`
never returns, nor does an `Allocate` that some pool could serve. -/
theorem free_foreign_spins {s : PoolAllocators} (hne : s.allocators ≠ [])
    (h : ∀ a ∈ s.allocators, a.held = false ∧ (p < a.startPtr ∨ p > a.startPtr + a.totalSize)) :
    ∃ s', s.free .enableSpinLock p = .ok (.system, s') ∧
      (∀ q, s'.free .enableSpinLock q = .error .spinsForever) ∧
      ∀ size fallback, (∃ a ∈ s.allocators, size ≤ a.chunkSize) →
        s'.allocate .enableSpinLock size fallback = .error .spinsForever := by
  have hspin : ∀ {size : Nat} {l : List PoolAllocator}, (∃ a ∈ l, size ≤ a.chunkSize) →
      allocateIn .enableSpinLock size (l.map PoolAllocator.locked) = .error .spinsForever := by
    intro size l
    induction l with
    | nil => simp
    | cons a l ih =>
        rintro ⟨b, hb, hle⟩
        rw [List.map_cons, allocateIn]
        split
        · rw [PoolAllocator.allocate, PoolAllocator.lock_held rfl]
          rfl
        · rename_i hsmall
          rcases List.mem_cons.mp hb with rfl | hb
          · exact absurd hle hsmall
          · rw [ih ⟨b, hb, hle⟩]
            rfl
  refine ⟨⟨s.allocators.map PoolAllocator.locked⟩, ?_, fun q => ?_, fun size fallback hsize => ?_⟩
  · rw [free, freeIn_foreign h]
    rfl
  · obtain ⟨a, l, hl⟩ := List.exists_cons_of_ne_nil hne
    rw [free, hl, List.map_cons, freeIn, PoolAllocator.free, PoolAllocator.lock_held rfl]
    rfl
  · rw [allocate, hspin hsize]
    rfl

end PoolAllocators

end MemAlloc
