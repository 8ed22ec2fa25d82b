import MemAlloc.FreeListAccesses
import MemAlloc.Refinement

/-!
# Threads on one `FreeListAllocator`

Any number of threads call `Allocate` and `Free` under `ENABLE_SPIN_LOCK`.
`run_share` says that the code, cut at its accesses, does alone what the
sequential functions do; with it the general theorems apply: whatever the
schedule, the calls that have made their last access, in the order of these
accesses, are a run of the sequential allocator with the same answers.
-/

namespace MemAlloc

/-- A call of a thread. -/
inductive HeapCall where
  | allocate (size alignment : Nat)
  | free (ptr : Nat)
deriving DecidableEq, Repr

/-- What it returns. -/
inductive HeapAnswer where
  | pointer (result : Option Nat)
  | freed (ok : Bool)
deriving DecidableEq, Repr

namespace FreeListAllocator

/-- One call of the sequential allocator under the spin lock. -/
def serve (merge : MergePolicy) (s : FreeListAllocator) :
    HeapCall → Except Stuck (HeapAnswer × FreeListAllocator)
  | .allocate size alignment =>
      (s.allocate .enableSpinLock size alignment).map fun r => (.pointer r.1, r.2)
  | .free ptr => (s.free .enableSpinLock merge ptr).map fun r => (.freed r.1, r.2)

/-- While the lock is taken no call returns. -/
theorem serve_held {s : FreeListAllocator} (h : s.held = true) (merge : MergePolicy)
    (call : HeapCall) : s.serve merge call =
      .error (match call with
        | .allocate _ 0 => .dividesByZero
        | _ => .spinsForever) := by
  rcases call with ⟨size, _ | alignment⟩ | ptr <;>
    simp [serve, allocate, free, lock_held h, Except.map]

end FreeListAllocator

namespace FreeListAccesses

/-- The code of a call. -/
def code (merge : MergePolicy) : HeapCall → Code HeapAnswer
  | .allocate size alignment => (allocate size alignment).answering .pointer
  | .free ptr => (free merge ptr).answering .freed

/-- An allocator as threads share it: its members, and the flag of its
lock. The member `spinlock` stands for the flag the owner sees. -/
def share (s : FreeListAllocator) : Shared Unit FreeListAllocator := ⟨s.locked, fun _ => s.held⟩

theorem guarded_code (merge : MergePolicy) (call : HeapCall) :
    (code merge call).Guarded () constants := by
  cases call with
  | allocate size alignment => exact (guarded_allocate size alignment).answering _
  | free ptr => exact (guarded_free merge ptr).answering _

/-- The owner's view of the members, with the lock given back or kept. -/
theorem share_eq {s s' : FreeListAllocator} (hlock : s'.spinlock = ⟨true⟩) (keep : Bool) :
    share (if keep then s' else s'.unlock .enableSpinLock) =
      { share s with data := s' }.setFlag () keep := by
  refine Shared.ext ?_ (funext fun _ => ?_)
  · obtain ⟨⟩ := s'
    cases keep <;> simp_all [share, FreeListAllocator.locked, FreeListAllocator.unlock]
  · cases keep <;>
      simp_all [share, FreeListAllocator.held, FreeListAllocator.unlock, Spinlock.unlock]

/-- An answer of the owner, and what it leaves to the others. -/
theorem map_share {α : Type} {s : FreeListAllocator} {x : Except Stuck (α × FreeListAllocator)}
    (done : α → Bool) (answer : α → HeapAnswer)
    (hlock : ∀ r, x = .ok r → r.2.spinlock = ⟨true⟩) :
    (x.map fun r => (r.1, { share s with data := r.2 }.setFlag () !done r.1)).map
        (fun r => (answer r.1, r.2)) =
      (((x.map fun r => (r.1, if done r.1 then r.2.unlock .enableSpinLock else r.2)).map
        fun r => (answer r.1, r.2)).map fun r => (r.1, share r.2)) := by
  cases hx : x with
  | error e => rfl
  | ok r =>
      have hshare := share_eq (s := s) (hlock r hx) (!done r.1)
      simp only [Except.map, ← hshare]
      cases done r.1 <;> rfl

/-- The body of a call leaves the flag to the lock. -/
theorem spinlock_allocate {s : FreeListAllocator} (hfree : s.held = false) {size alignment : Nat}
    {r : Option Nat × FreeListAllocator} (h : s.locked.allocate .none size alignment = .ok r) :
    r.2.spinlock = ⟨true⟩ := by
  have hflag : (share s).flag () = false := hfree
  have hrun := allocate_run size alignment (share s) hflag
  rw [show (share s).data.allocate .none size alignment = .ok r from h] at hrun
  exact congrArg Prod.snd ((guarded_allocate size alignment).stable_run hrun)

theorem spinlock_free {s : FreeListAllocator} (hfree : s.held = false) {merge : MergePolicy}
    {ptr : Nat} {r : Bool × FreeListAllocator} (h : s.locked.free .none merge ptr = .ok r) :
    r.2.spinlock = ⟨true⟩ := by
  have hflag : (share s).flag () = false := hfree
  have hrun := free_run merge ptr (share s) hflag
  rw [show (share s).data.free .none merge ptr = .ok r from h] at hrun
  exact congrArg Prod.snd ((guarded_free merge ptr).stable_run hrun)

/-- Alone, the code of a call does what the sequential call does. -/
theorem run_share (merge : MergePolicy) (s : FreeListAllocator) (call : HeapCall) :
    (code merge call).run .spinsForever (share s) =
      (s.serve merge call).map fun r => (r.1, share r.2) := by
  cases hheld : s.held with
  | true =>
      have hflag : (share s).flag () = true := hheld
      rw [FreeListAllocator.serve_held hheld]
      cases call with
      | allocate size alignment =>
          cases alignment with
          | zero => rfl
          | succ alignment =>
              simp [code, Prog.run_answering, allocate, Prog.acquire, Prog.run, hflag, Except.map]
      | free ptr =>
          simp [code, Prog.run_answering, free, reads_startPtr.bind, Prog.acquire, Prog.run, hflag,
            Except.map]
  | false =>
      have hflag : (share s).flag () = false := hheld
      cases call with
      | allocate size alignment =>
          rw [code, Prog.run_answering, allocate_run _ _ _ hflag, FreeListAllocator.serve,
            FreeListAllocator.allocate_enableSpinLock hheld]
          exact map_share (s := s) Option.isSome .pointer fun r => spinlock_allocate hheld
      | free ptr =>
          rw [code, Prog.run_answering, free_run _ _ _ hflag, FreeListAllocator.serve,
            FreeListAllocator.free_enableSpinLock hheld]
          exact map_share (s := s) id .freed fun r => spinlock_free hheld

end FreeListAccesses

namespace FreeListThreads

open FreeListAccesses FreeListAllocator

/-- The allocator, the threads, and the calls that have made their last
access. -/
abbrev State := Threads HeapCall Unit FreeListAllocator Stuck HeapAnswer

/-- One access of one thread. -/
def step (merge : MergePolicy) : State → Nat × HeapCall → Except Immobile State :=
  Threads.step (code merge)

/-- Threads before their first call. -/
def start (s : FreeListAllocator) (n : Nat) : State := Threads.start (share s) n

/-- `Init()` on a fresh allocator. -/
def init (totalSize arena : Nat) (mem : Memory) : FreeListAllocator :=
  (construct totalSize mem).init arena

variable {merge : MergePolicy} {s s' : FreeListAllocator} {n : Nat}

/-- **Linearizability.** What threads can observe of one allocator under the
spin lock, whatever the schedule, is exactly what one thread can: the calls
that have made their last access, in the order of these accesses, and their
answers. -/
theorem histories_sequential (merge : MergePolicy) (s : FreeListAllocator) {n : Nat}
    {log : List (Nat × HeapCall × HeapAnswer)} (hthreads : ∀ e ∈ log, e.1 < n) :
    (∃ schedule S, Runs.exec (step merge) (start s n) schedule = .ok S ∧ S.log = log) ↔
      ∃ s', Runs.exec (Runs.recording (serve merge)) (s, []) (log.map fun e => e.2.1) =
        .ok (s', log.map fun e => e.2.2) :=
  Threads.histories_iff (guarded_code merge) (run_share merge) s hthreads

theorem histories_sequential_two :
    ∃ schedule S, Runs.exec (step .enableFastMerge) (start (init 1024 4096 fun _ => 0) 2) schedule
        = .ok S ∧
      S.log = [(1, .allocate 16 8, .pointer (some 4104)), (0, .allocate 8 8, .pointer (some 4136)),
        (1, .free 4104, .freed true)] := by
  refine (histories_sequential .enableFastMerge (init 1024 4096 fun _ => 0) (by decide)).mpr ?_
  have hcheck : (Runs.exec (Runs.recording (serve .enableFastMerge))
      (init 1024 4096 fun _ => 0, []) [.allocate 16 8, .allocate 8 8, .free 4104]).map Prod.snd =
        .ok [.pointer (some 4104), .pointer (some 4136), .freed true] := by decide +kernel
  obtain ⟨⟨s', answers⟩, hexec, rfl⟩ := map_eq_ok.mp hcheck
  exact ⟨s', hexec⟩

/-! ## The threads as one session -/

/-- The call, as one of a session. -/
def sessionCall : HeapCall → FreeListCall
  | .allocate size alignment => .allocate size alignment
  | .free ptr => .free ptr

/-- What an answered call does to the live pointers. -/
def grant (live : List Lease) : HeapCall × HeapAnswer → List Lease
  | (.allocate size _, .pointer (some ptr)) => ⟨ptr, SizeT.uint32 size⟩ :: live
  | (.free ptr, .freed true) => live.eraseP (·.ptr == ptr)
  | _ => live

/-- The pointers handed out and not given back, by the calls that have made
their last access. -/
def leases (log : List (Nat × HeapCall × HeapAnswer)) : List Lease :=
  log.foldl (fun live e => grant live e.2) []

/-- `nullptr` or `false`: an early return. -/
def HeapAnswer.refused : HeapAnswer → Bool
  | .pointer result => result.isNone
  | .freed ok => !ok

/-- The session of a single owner of the lock. -/
def session (s : FreeListAllocator) (live : List Lease) : Session := ⟨s.locked, live⟩

/-- The owner's view, before and after the unlock. -/
theorem locked_of_spinlock (h : s.spinlock = ⟨true⟩) : s.locked = s := by
  obtain ⟨⟩ := s
  simp_all [locked]

/-- A served call is a call of the session; afterwards the lock is free
unless the call was refused. -/
theorem serve_session (hfree : s.held = false) {call : HeapCall} {a : HeapAnswer}
    (h : s.serve merge call = .ok (a, s')) (live : List Lease) :
    Session.step merge (session s live) (sessionCall call) =
        .ok (session s' (grant live (call, a))) ∧
      s'.held = HeapAnswer.refused a := by
  cases call with
  | allocate size alignment =>
      rw [serve, allocate_enableSpinLock hfree] at h
      obtain ⟨r, hr, heq⟩ := map_eq_ok.mp h
      obtain ⟨r, hbody, rfl⟩ := map_eq_ok.mp hr
      obtain ⟨rfl, rfl⟩ := Prod.mk.inj heq
      have hlock := spinlock_allocate hfree hbody
      obtain ⟨result, s'⟩ := r
      cases result with
      | none =>
          refine ⟨?_, by rw [held]; exact congrArg Spinlock.mFlag hlock⟩
          rw [sessionCall, Session.step_refuse hbody]
          exact congrArg (fun a => Except.ok (Session.mk a live)) (locked_of_spinlock hlock).symm
      | some ptr =>
          refine ⟨?_, rfl⟩
          rw [sessionCall, Session.step_allocate hbody]
          exact congrArg (fun a => Except.ok (Session.mk a _)) (locked_of_spinlock hlock).symm
  | free ptr =>
      rw [serve, free_enableSpinLock hfree] at h
      obtain ⟨r, hr, heq⟩ := map_eq_ok.mp h
      obtain ⟨r, hbody, rfl⟩ := map_eq_ok.mp hr
      obtain ⟨rfl, rfl⟩ := Prod.mk.inj heq
      have hlock := spinlock_free hfree hbody
      obtain ⟨ok, s'⟩ := r
      cases ok with
      | false =>
          refine ⟨?_, by rw [held]; exact congrArg Spinlock.mFlag hlock⟩
          rw [sessionCall, Session.step_free_false hbody]
          exact congrArg (fun a => Except.ok (Session.mk a live)) (locked_of_spinlock hlock).symm
      | true =>
          refine ⟨?_, rfl⟩
          rw [sessionCall, Session.step_free_true hbody]
          exact congrArg (fun a => Except.ok (Session.mk a _)) (locked_of_spinlock hlock).symm

/-- What the calls of the log say about the state between two calls: they
are a run of the session, and the lock is free unless the last of them was
refused. -/
structure Served (merge : MergePolicy) (s : FreeListAllocator)
    (log : List (Nat × HeapCall × HeapAnswer)) (s' : FreeListAllocator) : Prop where
  run : Runs.exec (Session.step merge) (session s []) (log.map fun e => sessionCall e.2.1) =
    .ok (session s' (leases log))
  free : s'.held = false → ∀ e ∈ log, HeapAnswer.refused e.2.2 = false
  last : ∀ l₁ e l₂, log = l₁ ++ e :: l₂ → HeapAnswer.refused e.2.2 = true → l₂ = []

theorem served_of_replay {log : List (Nat × HeapCall × HeapAnswer)}
    {t : Shared Unit FreeListAllocator}
    (h : Threads.Replay (code merge) .spinsForever (share s) log t) :
    ∃ s', t = share s' ∧ Served merge s log s' := by
  induction h with
  | nil => exact ⟨s, rfl, rfl, fun _ => nofun, fun l₁ e l₂ h => by simp at h⟩
  | @snoc log t u j call a _ hrun ih =>
      obtain ⟨y, rfl, hserved⟩ := ih
      rw [run_share] at hrun
      obtain ⟨⟨answer, s'⟩, hserve, heq⟩ := map_eq_ok.mp hrun
      obtain ⟨rfl, rfl⟩ := Prod.mk.inj heq
      have hy : y.held = false := by
        by_contra hheld
        rw [serve_held (by simpa using hheld) merge call] at hserve
        cases hserve
      obtain ⟨hstep, hheld⟩ := serve_session hy hserve (leases log)
      refine ⟨s', rfl, ?_, fun hs' e he => ?_, fun l₁ e l₂ hsplit hrefused => ?_⟩
      · have hleases : leases (log ++ [(j, call, answer)]) = grant (leases log) (call, answer) := by
          rw [leases, List.foldl_append]
          rfl
        rw [List.map_append, Runs.exec_append hserved.run, hleases]
        exact Runs.exec_cons_ok hstep []
      · rcases List.mem_append.mp he with he | he
        · exact hserved.free hy e he
        · obtain rfl := List.mem_singleton.mp he
          exact hheld.symm.trans hs'
      · rcases Threads.log_cases hsplit with ⟨hnil, -⟩ | ⟨l₃, -, hlog⟩
        · exact hnil
        · -- a refused call among the earlier ones would have kept the lock
          have he := hserved.free hy e (by rw [hlog]; simp)
          rw [hrefused] at he
          cases he

/-- **A refusal is the last answer.** An `Allocate` that answers `nullptr`
and a `Free` that answers `false` leave the lock taken: under no schedule
does another call make its last access after them. -/
theorem refused_last {schedule : List (Nat × HeapCall)} {S : State}
    (hrun : Runs.exec (step merge) (start s n) schedule = .ok S)
    {before after : List (Nat × HeapCall × HeapAnswer)} {e : Nat × HeapCall × HeapAnswer}
    (hlog : S.log = before ++ e :: after) (hrefused : HeapAnswer.refused e.2.2 = true) :
    after = [] := by
  obtain ⟨t, hreplay, -⟩ := Threads.linearizable (guarded_code merge) .spinsForever (share s) n hrun
  obtain ⟨s', -, hserved⟩ := served_of_replay hreplay
  exact hserved.last before e after hlog hrefused

theorem refused_last_small :
    ∃ (schedule : List (Nat × HeapCall)) (S : State) (before after : List _) (e : _),
      Runs.exec (step .enableFullMerge) (start (init 64 4096 fun _ => 0) 2) schedule = .ok S ∧
        S.log = before ++ e :: after ∧ HeapAnswer.refused e.2.2 = true ∧ after = [] := by
  have hcheck : (Runs.exec (step .enableFullMerge) (start (init 64 4096 fun _ => 0) 2)
      (List.replicate 20 [(0, .allocate 100 8), (1, .allocate 8 8)]).flatten).map
        (fun S => decide (S.log = [(0, .allocate 100 8, .pointer none)])) = .ok true := by
    decide +kernel
  obtain ⟨S, hrun, hlog⟩ := map_eq_ok.mp hcheck
  have hlog : S.log = [] ++ (0, .allocate 100 8, .pointer none) :: [] := of_decide_eq_true hlog
  exact ⟨_, S, [], [], _, hrun, hlog, rfl, refused_last hrun hlog rfl⟩

/-! ## Safety of every schedule -/

variable {totalSize arena : Nat} {mem : Memory}

theorem wf_session (hpos : 0 < totalSize) (hsmall : totalSize < 2 ^ 32) (arena : Nat)
    (mem : Memory) : Session.WF totalSize arena (session (init totalSize arena mem) []) :=
  have h := Session.wf_start hpos hsmall arena mem
  ⟨h.total, h.base, h.small, h.cap, h.tiles, h.used, h.mapped, h.lease⟩

/-- **Threads are safe.** If the calls, in the order of their last accesses,
were legal and clean, the regions they handed out and did not give back lie in
the arena and do not overlap, whatever the schedule; while no call is under
way the free and the live blocks tile the arena. -/
theorem threads_disjoint (hpos : 0 < totalSize) (hsmall : totalSize < 2 ^ 32)
    {schedule : List (Nat × HeapCall)} {S : State}
    (hrun : Runs.exec (step merge) (start (init totalSize arena mem) n) schedule = .ok S)
    (hlegal : Runs.All (Session.step merge) Session.Legal (session (init totalSize arena mem) [])
      (S.log.map fun e => sessionCall e.2.1))
    (hclean : Runs.All (Session.step merge) Session.CleanFit
      (session (init totalSize arena mem) []) (S.log.map fun e => sessionCall e.2.1)) :
    RegionSpec.Safe (Extent.Contains ⟨arena, totalSize⟩) ((leases S.log).map Lease.region) ∧
      (S.Quiet → Session.WF totalSize arena ⟨S.shared.data, leases S.log⟩) := by
  obtain ⟨t, hreplay, hquiet⟩ := Threads.linearizable (guarded_code merge) .spinsForever
    (share (init totalSize arena mem)) n hrun
  obtain ⟨s', rfl, hserved⟩ := served_of_replay hreplay
  obtain ⟨w, hexec, hw⟩ := Runs.exec_inv (Session.WF totalSize arena)
    (fun w call => Session.Legal w call ∧ Session.CleanFit w call)
    (fun _ _ hw hcall => Session.step_wf hw merge hcall.1 hcall.2)
    (wf_session hpos hsmall arena mem) fun x hx => ⟨hlegal x hx, hclean x hx⟩
  obtain rfl := Except.ok.inj (hserved.run.symm.trans hexec)
  exact ⟨hw.regions_safe, fun h => by rw [hquiet h]; exact hw⟩

theorem threads_disjoint_two :
    ∃ (schedule : List (Nat × HeapCall)) (S : State),
      Runs.exec (step .enableFastMerge) (start (init 1024 4096 fun _ => 0) 2) schedule = .ok S ∧
        leases S.log = [⟨4128, 16⟩, ⟨4104, 8⟩] ∧
        RegionSpec.Safe (Extent.Contains ⟨4096, 1024⟩) ((leases S.log).map Lease.region) := by
  have hcheck : (Runs.exec (step .enableFastMerge) (start (init 1024 4096 fun _ => 0) 2)
      (List.replicate 40 [(0, .allocate 8 8), (1, .allocate 16 8)]).flatten).map
        (fun S => decide (S.log = [(0, .allocate 8 8, .pointer (some 4104)),
          (1, .allocate 16 8, .pointer (some 4128))])) = .ok true := by decide +kernel
  obtain ⟨S, hrun, hlog⟩ := map_eq_ok.mp hcheck
  have hlog := of_decide_eq_true hlog
  have hsafe := threads_disjoint (by decide) (by decide) hrun
    (by rw [hlog]; exact Session.all_legal (by decide +kernel)) (by rw [hlog]; decide +kernel)
  refine ⟨_, S, hrun, ?_, hsafe.1⟩
  rw [hlog]
  decide +kernel

end FreeListThreads

end MemAlloc
