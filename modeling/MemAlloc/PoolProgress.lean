import MemAlloc.PoolLifo
import MemAlloc.Progress

/-!
# Progress on one pool

Threads on a pool under `ENABLE_SPIN_LOCK` do not deadlock as long as the
pool does not run out: whatever the schedule, some call under way can make
its last access. The one obstacle is an `Allocate` with the answer `nullptr`,
which leaves the lock taken; then no schedule lets another call make its last
access (`progress_iff`).
-/

namespace MemAlloc

namespace PoolAllocator

theorem freesHeld_append {e : ThreadCall × ChunkAnswer} :
    ∀ {es : List (ThreadCall × ChunkAnswer)} {live : List Nat},
      FreesHeld live (es ++ [e]) ↔ FreesHeld live es ∧ Held (es.foldl hold live) e.1
  | [], live => by simp [FreesHeld]
  | e' :: es, live => by
      rw [List.cons_append, FreesHeld, freesHeld_append, FreesHeld, List.foldl_cons, and_assoc]

end PoolAllocator

namespace PoolLifo

open PoolAccesses PoolAllocator

variable {s : PoolAllocator} {arena chunksNum chunkSize n : Nat} {live : List Nat}
  {log : List (Nat × ThreadCall × ChunkAnswer)} {t : Shared Nat (List PoolAllocator)}
  {schedule : List (Nat × ThreadCall)} {S : State}

/-- The chunks held after the calls of the log. -/
def heldAfter (live : List Nat) (log : List (Nat × ThreadCall × ChunkAnswer)) : List Nat :=
  (log.map Prod.snd).foldl hold live

/-- Between two calls the pool is partitioned, and its lock is taken exactly
when a call was answered `nullptr`. -/
theorem partition_of_replay (hpart : Partition arena chunksNum chunkSize live s)
    (hfree : s.held = false) (h : Threads.Replay code .spinsForever (share [s]) log t)
    (hfrees : FreesHeld live (log.map Prod.snd)) :
    ∃ y, t = share [y] ∧ Partition arena chunksNum chunkSize (heldAfter live log) y ∧
      (y.held = true ↔ ∃ e ∈ log, e.2.2 = .chunk none) := by
  induction h with
  | nil => exact ⟨s, rfl, hpart, by simp [hfree]⟩
  | @snoc log t u j call a _ hrun ih =>
      rw [List.map_append, List.map_singleton, freesHeld_append] at hfrees
      obtain ⟨y, rfl, hy, hiff⟩ := ih hfrees.1
      rw [run_code] at hrun
      cases hheld : y.held with
      | true =>
          rw [serve_held hheld] at hrun
          cases hrun
      | false =>
          obtain ⟨b, y', hserve, -, hy', hheld'⟩ := serve_lifo hy hheld hfrees.2
          rw [hserve] at hrun
          obtain ⟨rfl, rfl⟩ := Prod.mk.inj (Except.ok.inj hrun)
          have hnone : ¬∃ e ∈ log, e.2.2 = .chunk none := fun hex => by
            rw [hiff.mpr hex] at hheld
            cases hheld
          refine ⟨y', rfl, ?_, ?_⟩
          · rw [heldAfter, List.map_append, List.foldl_append]
            exact hy'
          · rw [hheld', decide_eq_true_iff]
            constructor
            · exact fun ha => ⟨_, List.mem_append_right _ (List.mem_singleton_self _), ha⟩
            · rintro ⟨e, he, hnull⟩
              rcases List.mem_append.mp he with he | he
              · exact absurd ⟨e, he, hnull⟩ hnone
              · obtain rfl := List.mem_singleton.mp he
                exact hnull

/-- **Deadlock freedom, exactly.** Some call under way can make its last
access under some continuation of the schedule if and only if no `Allocate`
that has made it was answered `nullptr`. -/
theorem progress_iff (hpart : Partition arena chunksNum chunkSize live s)
    (hfree : s.held = false) (hrun : Runs.exec step (start s n) schedule = .ok S)
    (hfrees : FreesHeld live (S.log.map Prod.snd))
    (hpending : ∀ (j : Nat) call tested p, S.threads[j]? = some (.busy call tested p) →
      Held (heldAfter live S.log) call)
    (hbusy : ¬S.Quiet) :
    (∃ more S', Runs.exec step S more = .ok S' ∧ S.log.length < S'.log.length) ↔
      ∀ e ∈ S.log, e.2.2 ≠ .chunk none := by
  constructor
  · rintro ⟨more, S', hmore, hlt⟩ e he hnull
    obtain ⟨log', hlog'⟩ := Threads.log_exec hmore
    -- the calls of the log leave the lock taken, so that none gets through after them
    obtain ⟨t, hreplay, -⟩ := Threads.linearizable guarded_code .spinsForever (share [s]) n hrun
    obtain ⟨y, rfl, -, hiff⟩ := partition_of_replay hpart hfree hreplay hfrees
    have hheld : y.held = true := hiff.mpr ⟨e, he, hnull⟩
    obtain ⟨z, hz, hexec⟩ := (Threads.replay_iff run_code).mp hreplay
    obtain ⟨t', hreplay', -⟩ := Threads.linearizable guarded_code .spinsForever (share [s]) n
      ((Runs.exec_append hrun).trans hmore)
    obtain ⟨z', -, hexec'⟩ := (Threads.replay_iff run_code).mp hreplay'
    have hzheld : z.held = true := (congrArg (fun u => u.flag 0) hz).symm.trans hheld
    rw [hlog', List.map_append, Runs.exec_append hexec] at hexec'
    cases log' with
    | nil => simp [hlog'] at hlt
    | cons x log' =>
        rw [List.map_cons, Runs.exec_cons_error (Runs.recording_error (serve_held hzheld x.2.1) _)]
          at hexec'
        cases hexec'
  · intro hnone
    have hreturn : ∀ t, Threads.Replay code .spinsForever (share [s]) S.log t →
        ∀ (j : Nat) call tested p, S.threads[j]? = some (.busy call tested p) →
        ∃ a u, (code call).run .spinsForever t = .ok (a, u) := by
      intro t hreplay j call tested p hj
      obtain ⟨y, rfl, hy, hiff⟩ := partition_of_replay hpart hfree hreplay hfrees
      have hopen : y.held = false := by
        rw [← Bool.not_eq_true, hiff]
        rintro ⟨e, he, hnull⟩
        exact hnone e he hnull
      obtain ⟨a, y', hserve, -⟩ := serve_lifo hy hopen (hpending j call tested p hj)
      exact ⟨a, share [y'], by rw [run_code, hserve]; rfl⟩
    obtain ⟨j, call, a, more, S', hmore, hlog⟩ :=
      Threads.progress guarded_code .spinsForever (share [s]) n hrun hbusy hreturn
    refine ⟨more, S', hmore, ?_⟩
    rw [hlog, List.length_append]
    exact Nat.lt_succ_self _

/-- Two threads that have begun an `Allocate` each. -/
theorem progress_iff_two : ∃ s S more S',
    (construct 2 16).init .enableSpinLock 4096 [0, 0] = .ok s ∧
      Runs.exec step (start s 2) [(0, .allocate 16), (1, .allocate 8)] = .ok S ∧
      Runs.exec step S more = .ok S' ∧ S.log.length < S'.log.length := by
  obtain ⟨s, hinit, hpart, hfree⟩ := init_enableSpinLock_spec (show 0 < 16 by decide)
    (show 2 * 16 < 2 ^ 64 by decide) (by decide) 4096 (show [0, 0].length = 2 from rfl)
  obtain ⟨S, hrun, hthreads, hlog⟩ : ∃ S : State,
      Runs.exec step (start s 2) [(0, .allocate 16), (1, .allocate 8)] = .ok S ∧
        S.threads = [.busy (.allocate 16) false (code (.allocate 16)),
          .busy (.allocate 8) false (code (.allocate 8))] ∧ S.log = [] :=
    ⟨_, rfl, rfl, rfl⟩
  have hpending : ∀ (j : Nat) call tested p, S.threads[j]? = some (.busy call tested p) →
      Held (heldAfter [] S.log) call := by
    intro j call tested p hj
    have hmem := List.mem_of_getElem? hj
    rw [hthreads] at hmem
    rcases List.mem_pair.mp hmem with heq | heq
    · cases heq
      trivial
    · cases heq
      trivial
  have hbusy : ¬S.Quiet := fun hquiet => by
    cases hquiet _ (by rw [hthreads]; exact List.mem_cons_self ..)
  obtain ⟨more, S', hmore, hlt⟩ := (progress_iff hpart hfree hrun (by rw [hlog]; trivial) hpending
    hbusy).mpr (by rw [hlog]; nofun)
  exact ⟨s, S, more, S', hinit, hrun, hmore, hlt⟩

end PoolLifo

end MemAlloc
