import MemAlloc.FreeListThreads
import MemAlloc.Progress

/-!
# Progress on one free list

Threads on a `FreeListAllocator` under `ENABLE_SPIN_LOCK` do not deadlock as
long as no call is refused: whatever the schedule, some call under way can
make its last access. A refusal is not only the last answer (`refused_last`):
it is the one thing that stops the threads (`deadlock_free_iff`).
-/

namespace MemAlloc

namespace FreeListThreads

open FreeListAccesses FreeListAllocator

variable {merge : MergePolicy} {s : FreeListAllocator} {n totalSize arena : Nat} {mem : Memory}
  {log : List (Nat × HeapCall × HeapAnswer)} {t : Shared Unit FreeListAllocator}
  {schedule : List (Nat × HeapCall)} {S : State}

/-- What the session can do, a call under the lock can. -/
theorem serve_of_session (hfree : s.held = false) {live : List Lease} {call : HeapCall}
    {w : Session} (h : Session.step merge (session s live) (sessionCall call) = .ok w) :
    ∃ r, s.serve merge call = .ok r := by
  cases call with
  | allocate size alignment =>
      obtain ⟨r, hbody, -⟩ := bind_eq_ok.mp h
      exact ⟨_, by rw [serve, allocate_enableSpinLock hfree, show s.locked.allocate .none size
        alignment = .ok r from hbody]; rfl⟩
  | free ptr =>
      obtain ⟨r, hbody, -⟩ := bind_eq_ok.mp h
      exact ⟨_, by rw [serve, free_enableSpinLock hfree, show s.locked.free .none merge ptr = .ok r
        from hbody]; rfl⟩

/-- As long as no call was refused, the lock is free between two calls. -/
theorem open_of_replay (hfree : s.held = false)
    (h : Threads.Replay (code merge) .spinsForever (share s) log t)
    (hnone : ∀ e ∈ log, HeapAnswer.refused e.2.2 = false) :
    ∃ y, t = share y ∧ y.held = false ∧ Served merge s log y := by
  obtain ⟨y, rfl, hserved⟩ := served_of_replay h
  refine ⟨y, rfl, ?_, hserved⟩
  rcases List.eq_nil_or_concat log with rfl | ⟨log', e, rfl⟩
  · exact (congrArg (fun u => u.flag ()) h.nil_eq).trans hfree
  · -- the last call found the lock free and was not refused
    rw [List.concat_eq_append] at h hnone
    obtain ⟨u, hbefore, hrun⟩ := h.snoc_inv
    obtain ⟨x, rfl, -⟩ := served_of_replay hbefore
    rw [run_share] at hrun
    obtain ⟨⟨a, z⟩, hserve, heq⟩ := map_eq_ok.mp hrun
    obtain ⟨rfl, hshare⟩ := Prod.mk.inj heq
    have hx : x.held = false := by
      by_contra hheld
      rw [serve_held (by simpa using hheld) merge e.2.1] at hserve
      cases hserve
    have hz : z.held = false := (serve_session hx hserve []).2.trans (hnone e (by simp))
    exact (congrArg (fun u => u.flag ()) hshare).symm.trans hz

/-- **Deadlock freedom, exactly.** Let the calls that have made their last
access, and after them each call under way, be legal and clean. Some call
under way can make its last access under some continuation of the schedule if
and only if none that has made it was refused. -/
theorem deadlock_free_iff (hpos : 0 < totalSize) (hsmall : totalSize < 2 ^ 32)
    (hrun : Runs.exec (step merge) (start (init totalSize arena mem) n) schedule = .ok S)
    (hlegal : ∀ (j : Nat) call tested p, S.threads[j]? = some (.busy call tested p) →
      Runs.All (Session.step merge) Session.Legal (session (init totalSize arena mem) [])
        ((S.log.map fun e => sessionCall e.2.1) ++ [sessionCall call]))
    (hclean : ∀ (j : Nat) call tested p, S.threads[j]? = some (.busy call tested p) →
      Runs.All (Session.step merge) Session.CleanFit (session (init totalSize arena mem) [])
        ((S.log.map fun e => sessionCall e.2.1) ++ [sessionCall call]))
    (hbusy : ¬S.Quiet) :
    (∃ more S', Runs.exec (step merge) S more = .ok S' ∧ S.log.length < S'.log.length) ↔
      ∀ e ∈ S.log, HeapAnswer.refused e.2.2 = false := by
  constructor
  · rintro ⟨more, S', hmore, hlt⟩ e he
    by_contra hrefused
    obtain ⟨log', hlog'⟩ := Threads.log_exec hmore
    obtain ⟨before, after, hsplit⟩ := List.append_of_mem he
    rw [hsplit, List.append_assoc, List.cons_append] at hlog'
    have hlast := refused_last ((Runs.exec_append hrun).trans hmore) hlog' (by simpa using hrefused)
    rw [hlog', hsplit, hlast] at hlt
    simp at hlt
  · intro hnone
    have hreturn : ∀ t,
        Threads.Replay (code merge) .spinsForever (share (init totalSize arena mem)) S.log t →
        ∀ (j : Nat) call tested p, S.threads[j]? = some (.busy call tested p) →
        ∃ a u, (code merge call).run .spinsForever t = .ok (a, u) := by
      intro t hreplay j call tested p hj
      obtain ⟨y, rfl, hopen, hserved⟩ := open_of_replay rfl hreplay hnone
      obtain ⟨w, hexec, -⟩ := Runs.exec_inv (Session.WF totalSize arena)
        (fun w call => Session.Legal w call ∧ Session.CleanFit w call)
        (fun _ _ hw hcall => Session.step_wf hw merge hcall.1 hcall.2)
        (wf_session hpos hsmall arena mem)
        fun x hx => ⟨hlegal j call tested p hj x hx, hclean j call tested p hj x hx⟩
      rw [Runs.exec_append hserved.run] at hexec
      cases hstep : Session.step merge (session y (leases S.log)) (sessionCall call) with
      | error e =>
          rw [Runs.exec_cons_error hstep] at hexec
          cases hexec
      | ok w' =>
          obtain ⟨r, hserve⟩ := serve_of_session hopen hstep
          exact ⟨r.1, share r.2, by rw [run_share, hserve]; rfl⟩
    obtain ⟨j, call, a, more, S', hmore, hlog⟩ := Threads.progress (guarded_code merge)
      .spinsForever (share (init totalSize arena mem)) n hrun hbusy hreturn
    refine ⟨more, S', hmore, ?_⟩
    rw [hlog, List.length_append]
    exact Nat.lt_succ_self _

/-- Two threads that have begun an `Allocate` each. -/
theorem deadlock_free_iff_two : ∃ S more S',
    Runs.exec (step .enableFullMerge) (start (init 1024 4096 fun _ => 0) 2)
        [(0, .allocate 16 8), (1, .allocate 8 8)] = .ok S ∧
      Runs.exec (step .enableFullMerge) S more = .ok S' ∧ S.log.length < S'.log.length := by
  obtain ⟨S, hrun, hthreads, hlog⟩ : ∃ S : State,
      Runs.exec (step .enableFullMerge) (start (init 1024 4096 fun _ => 0) 2)
          [(0, .allocate 16 8), (1, .allocate 8 8)] = .ok S ∧
        S.threads = [.busy (.allocate 16 8) false (code .enableFullMerge (.allocate 16 8)),
          .busy (.allocate 8 8) false (code .enableFullMerge (.allocate 8 8))] ∧ S.log = [] :=
    ⟨_, rfl, rfl, rfl⟩
  have hcall : ∀ (j : Nat) call tested p, S.threads[j]? = some (.busy call tested p) →
      call = .allocate 16 8 ∨ call = .allocate 8 8 := by
    intro j call tested p hj
    have hmem := List.mem_of_getElem? hj
    rw [hthreads] at hmem
    rcases List.mem_pair.mp hmem with heq | heq
    · exact .inl (Thread.busy.inj heq).1
    · exact .inr (Thread.busy.inj heq).1
  have hbusy : ¬S.Quiet := fun hquiet => by
    cases hquiet _ (by rw [hthreads]; exact List.mem_cons_self ..)
  obtain ⟨more, S', hmore, hlt⟩ := (deadlock_free_iff (show 0 < 1024 by decide)
    (show 1024 < 2 ^ 32 by decide) hrun
    (fun j call tested p hj => by
      rw [hlog]
      rcases hcall j call tested p hj with rfl | rfl <;>
        exact Session.all_legal (by decide +kernel))
    (fun j call tested p hj => by
      rw [hlog]
      rcases hcall j call tested p hj with rfl | rfl <;> decide +kernel)
    hbusy).mpr (by rw [hlog]; nofun)
  exact ⟨S, more, S', hrun, hmore, hlt⟩

end FreeListThreads

end MemAlloc
