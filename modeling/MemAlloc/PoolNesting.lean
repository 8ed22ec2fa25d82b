import MemAlloc.Nesting
import MemAlloc.PoolFrontEndRuns

/-!
# `PoolAllocators` used as a stack

`PoolAllocator::Free` pushes the pointer on the table, which is where
`Allocate` took it from: freed at once, a chunk goes back to its own slot.
So a client that always frees the newest of its allocations undoes them one
by one, exactly - in all nine pools together, and also when some requests
were served by the system.

`step_undone` is the round trip of one allocation, `nested_run` the result
for runs: the calls whose allocations are still live alone lead to the same
state, and with none of them left the state is the one before the run.
-/

namespace MemAlloc

/-! ## One pool -/

namespace PoolAllocator

variable {ptr : Nat} {s s' s'' : PoolAllocator}

theorem allocate_cases (s : PoolAllocator) :
    s.allocate .none = .ok (none, s) ∨ s.allocate .none = .error .outOfBounds ∨
      ∃ (i : Nat) (hin : i < s.freeChunks.length), s.currFreeChunksIdx = i ∧
        s.allocate .none = .ok (some s.freeChunks[i], { s with
          currFreeChunksIdx := (i : Int) - 1
          used := SizeT.add s.used s.chunkSize }) := by
  by_cases hneg : s.currFreeChunksIdx < 0
  · exact Or.inl (allocate_empty hneg)
  obtain ⟨i, hi⟩ : ∃ i : Nat, s.currFreeChunksIdx = i := ⟨s.currFreeChunksIdx.toNat, by omega⟩
  by_cases hin : i < s.freeChunks.length
  · exact Or.inr (Or.inr ⟨i, hin, hi, allocate_pop hi hin⟩)
  · have hge : ¬(i : Int) < 0 := by omega
    have hout : ¬(0 ≤ (i : Int) ∧ (i : Int).toNat < s.freeChunks.length) := by omega
    refine Or.inr (Or.inl ?_)
    simp only [allocate, lock, pure_bind, hi, if_neg hge, chunkAt, dif_neg hout]
    rfl

theorem free_cases (s : PoolAllocator) (ptr : Nat) :
    s.free .none ptr = .ok (false, s) ∨ s.free .none ptr = .error .outOfBounds ∨
      ∃ i : Nat, i < s.freeChunks.length ∧ s.currFreeChunksIdx + 1 = i ∧
        s.free .none ptr = .ok (true, { s with
          used := SizeT.sub s.used s.chunkSize
          currFreeChunksIdx := i
          freeChunks := s.freeChunks.set i ptr }) := by
  by_cases hrange : ptr < s.startPtr ∨ ptr > s.startPtr + s.totalSize
  · exact Or.inl (free_refused hrange)
  by_cases hin : 0 ≤ s.currFreeChunksIdx + 1 ∧
      (s.currFreeChunksIdx + 1).toNat < s.freeChunks.length
  · have hi : s.currFreeChunksIdx + 1 = (s.currFreeChunksIdx + 1).toNat := by omega
    exact Or.inr (Or.inr ⟨_, hin.2, hi, free_push hrange hi hin.2⟩)
  · refine Or.inr (Or.inl ?_)
    simp only [free, lock, pure_bind, if_neg hrange, setChunk, if_neg hin]
    rfl

/-- A refused `Free` changes nothing. -/
theorem free_false (hfree : s.free .none ptr = .ok (false, s')) : s' = s := by
  rcases free_cases s ptr with hrefuse | herror | ⟨i, -, -, htake⟩
  · rw [hrefuse] at hfree
    exact (Prod.mk.inj (Except.ok.inj hfree)).2.symm
  · rw [herror] at hfree
    cases hfree
  · rw [htake] at hfree
    cases hfree

/-- What `Allocate` took from the table, `Free` puts back where it was. -/
theorem free_allocated (hused : s.used < 2 ^ 64) (hrun : s.allocate .none = .ok (some ptr, s'))
    (hfree : s'.free .none ptr = .ok (true, s'')) : s'' = s := by
  rcases allocate_cases s with hnone | herror | ⟨i, hin, hi, hsome⟩
  · rw [hnone] at hrun
    cases hrun
  · rw [herror] at hrun
    cases hrun
  obtain ⟨hptr, hs'⟩ := Prod.mk.inj (Except.ok.inj (hsome.symm.trans hrun))
  obtain rfl := Option.some.inj hptr
  rcases free_cases s' s.freeChunks[i] with hrefuse | herror | ⟨j, hjin, hj, htake⟩
  · rw [hrefuse] at hfree
    cases hfree
  · rw [herror] at hfree
    cases hfree
  obtain ⟨-, rfl⟩ := Prod.mk.inj (Except.ok.inj (htake.symm.trans hfree))
  subst hs'
  obtain rfl : i = j := by
    simp only at hj
    omega
  -- the counter, the index and the slot, each back at its value
  simp only [SizeT.sub_add hused, ← hi, List.set_getElem_self]

end PoolAllocator

/-! ## The pools together -/

namespace PoolAllocators

variable {size p : Nat}

/-- `Allocate` leaves the pools alone, or one of them has served it. -/
theorem allocateIn_cases : ∀ {l l' : List PoolAllocator} {result k : Nat},
    (∀ a ∈ l, ∀ a', a.allocate .none ≠ .ok (some nullptr, a')) →
    allocateIn .none size l = .ok (result, k, l') →
    result = nullptr ∧ l' = l ∨ result ≠ nullptr ∧ ∃ a a', l[k]? = some a ∧
      a.allocate .none = .ok (some result, a') ∧ l' = l.set k a'
  | [], _, _, _, _, hrun => by
      cases hrun
      exact Or.inl ⟨rfl, rfl⟩
  | a :: l, l', result, k, hnonnull, hrun => by
      rw [allocateIn] at hrun
      split at hrun
      · cases hcall : a.allocate .none with
        | error e => rw [hcall] at hrun; cases hrun
        | ok r =>
            obtain ⟨found, a'⟩ := r
            rw [hcall] at hrun
            cases hrun
            cases found with
            | none =>
                refine Or.inl ⟨rfl, ?_⟩
                rcases PoolAllocator.allocate_cases a with hnone | herror | ⟨i, hin, -, hsome⟩
                · rw [hnone] at hcall
                  cases hcall
                  rfl
                · rw [herror] at hcall
                  cases hcall
                · rw [hsome] at hcall
                  cases hcall
            | some q =>
                refine Or.inr ⟨?_, a, a', rfl, hcall, rfl⟩
                rintro (rfl : q = nullptr)
                exact hnonnull a (List.mem_cons_self ..) a' hcall
      · cases hrest : allocateIn .none size l with
        | error e => rw [hrest] at hrun; cases hrun
        | ok r =>
            obtain ⟨result', k', rest⟩ := r
            rw [hrest] at hrun
            cases hrun
            rcases allocateIn_cases (fun b hb => hnonnull b (List.mem_cons_of_mem _ hb)) hrest with
              ⟨hnull, rfl⟩ | ⟨hne, b, b', hb, hcall, rfl⟩
            · exact Or.inl ⟨hnull, rfl⟩
            · exact Or.inr ⟨hne, b, b', hb, hcall, rfl⟩

/-- `Free` leaves the pools alone, or one of them has taken the pointer. -/
theorem freeIn_cases : ∀ {l l' : List PoolAllocator} {found : Option Nat},
    freeIn .none p l = .ok (found, l') →
    found = none ∧ l' = l ∨ ∃ k a a', found = some k ∧ l[k]? = some a ∧
      a.free .none p = .ok (true, a') ∧ l' = l.set k a'
  | [], _, _, hrun => by
      cases hrun
      exact Or.inl ⟨rfl, rfl⟩
  | a :: l, l', found, hrun => by
      rw [freeIn] at hrun
      cases hcall : a.free .none p with
      | error e => rw [hcall] at hrun; cases hrun
      | ok r =>
          obtain ⟨taken, a'⟩ := r
          rw [hcall] at hrun
          cases taken with
          | true =>
              cases hrun
              exact Or.inr ⟨0, a, a', rfl, rfl, hcall, rfl⟩
          | false =>
              obtain rfl := PoolAllocator.free_false hcall
              cases hrest : freeIn .none p l with
              | error e => rw [hrest] at hrun; cases hrun
              | ok r =>
                  obtain ⟨found', rest⟩ := r
                  rw [hrest] at hrun
                  cases hrun
                  rcases freeIn_cases hrest with ⟨rfl, rfl⟩ | ⟨k, b, b', rfl, hb, htake, rfl⟩
                  · exact Or.inl ⟨rfl, rfl⟩
                  · exact Or.inr ⟨k + 1, b, b', rfl, hb, htake, rfl⟩

theorem allocate_cases {s s' : PoolAllocators} {fallback : Nat} {server : Server}
    (hnonnull : ∀ a ∈ s.allocators, ∀ a', a.allocate .none ≠ .ok (some nullptr, a'))
    (hrun : s.allocate .none size fallback = .ok (p, server, s')) :
    p = fallback ∧ server = .system ∧ s' = s ∨
      ∃ k a a', server = .pool k ∧ s.allocators[k]? = some a ∧
        a.allocate .none = .ok (some p, a') ∧ s' = ⟨s.allocators.set k a'⟩ := by
  rw [allocate] at hrun
  cases hloop : allocateIn .none size s.allocators with
  | error e => rw [hloop] at hrun; cases hrun
  | ok r =>
      obtain ⟨result, k, allocators⟩ := r
      rw [hloop, ok_bind] at hrun
      dsimp only at hrun
      rcases allocateIn_cases hnonnull hloop with ⟨hnull, rfl⟩ | ⟨hne, a, a', ha, htake, rfl⟩
      · rw [if_pos hnull] at hrun
        cases hrun
        exact Or.inl ⟨rfl, rfl, rfl⟩
      · rw [if_neg hne] at hrun
        cases hrun
        exact Or.inr ⟨k, a, a', rfl, ha, htake, rfl⟩

theorem free_cases {s s' : PoolAllocators} {server : Server}
    (hrun : s.free .none p = .ok (server, s')) :
    server = .system ∧ s' = s ∨ ∃ k a a', server = .pool k ∧ s.allocators[k]? = some a ∧
      a.free .none p = .ok (true, a') ∧ s' = ⟨s.allocators.set k a'⟩ := by
  rw [free] at hrun
  cases hloop : freeIn .none p s.allocators with
  | error e => rw [hloop] at hrun; cases hrun
  | ok r =>
      obtain ⟨found, allocators⟩ := r
      rw [hloop] at hrun
      cases hrun
      rcases freeIn_cases hloop with ⟨rfl, rfl⟩ | ⟨k, a, a', rfl, ha, htake, rfl⟩
      · exact Or.inl ⟨rfl, rfl⟩
      · exact Or.inr ⟨k, a, a', rfl, ha, htake, rfl⟩

end PoolAllocators

/-! ## A client -/

namespace FrontSession

open PoolAllocator PoolAllocators

variable {chunksNum : Nat} {cfg : List (Nat × Nat)} {w w' : FrontSession}

namespace WF

variable (h : WF chunksNum cfg w)
include h

/-- No pool hands out a null pointer. -/
theorem allocate_nonnull {a : PoolAllocator} (ha : a ∈ w.alloc.allocators) (a' : PoolAllocator) :
    a.allocate .none ≠ .ok (some nullptr, a') := by
  obtain ⟨i, hi⟩ := List.mem_iff_getElem?.mp ha
  obtain ⟨c, hc, hp⟩ := h.exists_cfg hi
  by_cases hfull : (w.liveIn i).length = chunksNum
  · rw [hp.allocate_full hfull]
    simp
  · obtain ⟨p, a'', hrun, hpart⟩ := hp.allocate_some (by have := hp.length_add; omega)
    rw [hrun]
    intro heq
    have hne := h.nonnull c (List.mem_of_getElem? hc)
    have hin := chunk_le (hpart.live_mem (List.mem_cons_self ..))
    simp only [Except.ok.injEq, Prod.mk.injEq, Option.some.injEq, nullptr] at heq hne
    omega

theorem used_lt {a : PoolAllocator} {i : Nat} (ha : w.alloc.allocators[i]? = some a) :
    a.used < 2 ^ 64 := by
  obtain ⟨c, -, hp⟩ := h.exists_cfg ha
  rw [hp.used]
  exact Nat.lt_of_le_of_lt hp.used_le hp.arenaLt

/-- The round trip of one allocation: freed at once, it leaves the session
as it was. -/
theorem step_undone {size fallback : Nat}
    (hlegal : Legal (arenas chunksNum cfg) w (.allocate size fallback))
    (hstep : step w (.allocate size fallback) = .ok w') :
    ∃ l, w'.live = l :: w.live ∧ step w' (.free l.ptr) = .ok w := by
  obtain ⟨_, hstep', h'⟩ := h.step_allocate hlegal
  obtain rfl := Except.ok.inj (hstep'.symm.trans hstep)
  rw [step] at hstep
  cases hrun : w.alloc.allocate .none size fallback with
  | error e => rw [hrun] at hstep; cases hstep
  | ok r =>
      obtain ⟨p, server, alloc⟩ := r
      rw [hrun] at hstep
      cases hstep
      obtain ⟨alloc', hfree, -⟩ := h'.free_routed (List.mem_cons_self ..)
      suffices hback : alloc' = w.alloc by
        refine ⟨_, rfl, ?_⟩
        simp [step, hfree, hback]
      rcases PoolAllocators.allocate_cases (fun a ha => h.allocate_nonnull ha) hrun with
        ⟨rfl, rfl, rfl⟩ | ⟨k, a, a', rfl, ha, htake, rfl⟩
      · -- the system served it: the pools refuse the pointer
        rcases PoolAllocators.free_cases hfree with ⟨-, rfl⟩ | ⟨k, a, a', hserver, -⟩
        · rfl
        · cases hserver
      · rcases PoolAllocators.free_cases hfree with
          ⟨hserver, -⟩ | ⟨j, b, a'', hserver, hb, hput, rfl⟩
        · cases hserver
        obtain ⟨hk, hak⟩ := List.getElem?_eq_some_iff.mp ha
        obtain rfl := Server.pool.inj hserver
        rw [List.getElem?_set_self hk] at hb
        obtain rfl := Option.some.inj hb
        obtain rfl := free_allocated (h.used_lt ha) htake hput
        rw [List.set_set, ← hak, List.set_getElem_self]

end WF

/-- A call that takes another back. -/
def isFree : FrontCall → Bool
  | .allocate _ _ => false
  | .free _ => true

/-- `Free` is called with the newest live pointer, and not with one of the
`depth` oldest. -/
def Newest (depth : Nat) (w : FrontSession) : FrontCall → Prop
  | .allocate _ _ => True
  | .free p => depth < w.live.length ∧ w.live.head?.map Grant.ptr = some p

instance (depth : Nat) (w : FrontSession) : DecidablePred (Newest depth w)
  | .allocate _ _ => isTrue trivial
  | .free _ => inferInstanceAs (Decidable (_ < _ ∧ _ = _))

theorem WF.nested (h : WF chunksNum cfg w) {calls : List FrontCall}
    (hadm : Runs.All step (fun w' call => Legal (arenas chunksNum cfg) w' call ∧
      Newest w.live.length w' call) w calls) :
    ∃ w', Runs.exec step w calls = .ok w' ∧
      Runs.exec step w (Nesting.outstanding isFree calls) = .ok w' ∧
      (w'.live.length = w.live.length → w' = w) := by
  have hbase : ∀ call, Legal (arenas chunksNum cfg) w call ∧ Newest w.live.length w call →
      isFree call = false := by
    rintro (⟨size, fallback⟩ | ⟨p⟩) hcall
    · rfl
    · exact absurd hcall.2.1 (Nat.lt_irrefl _)
  have hpush : ∀ w₁ call, WF chunksNum cfg w₁ → Legal (arenas chunksNum cfg) w₁ call ∧
      Newest w.live.length w₁ call → isFree call = false →
      ∃ w₂, step w₁ call = .ok w₂ ∧ WF chunksNum cfg w₂ :=
    fun w₁ call h₁ hcall _ => step_wf h₁ hcall.1
  obtain ⟨w', hrun, -, hout, hcount⟩ := Nesting.exec_outstanding hbase hpush
    (fun w₁ call w₂ call' h₁ hcall hpushes hstep hcall' hpops => by
      cases call with
      | free p => cases hpushes
      | allocate size fallback =>
          cases call' with
          | allocate size' fallback' => cases hpops
          | free p =>
              obtain ⟨l, hlive, hback⟩ := h₁.step_undone hcall.1 hstep
              obtain rfl : l.ptr = p := by simpa [hlive] using hcall'.2.2
              exact hback) h hadm
  refine ⟨w', hrun, hout, fun hlen => ?_⟩
  have hnone := hcount (fun w₁ => w₁.live.length) fun w₁ call w₂ h₁ hcall hpushes hstep => by
    cases call with
    | free p => cases hpushes
    | allocate size fallback =>
        obtain ⟨l, hlive, -⟩ := h₁.step_undone hcall.1 hstep
        rw [hlive, List.length_cons]
  rw [List.eq_nil_of_length_eq_zero (by omega : (Nesting.outstanding isFree calls).length = 0)]
    at hout
  exact (Except.ok.inj hout).symm

/-- **Nested use of the front end.** From any state a client has reached, a
run that only frees the newest of its own allocations leads where the
allocations it has kept lead alone; when it has kept none, all nine pools
are exactly as they were. -/
theorem nested_run {mallocs : List (Nat × List Nat)} (hlen : mallocs.length = chunkSizes.length)
    (htables : ∀ m ∈ mallocs, m.2.length = sMaxChunksNum) (hnonnull : ∀ m ∈ mallocs, m.1 ≠ nullptr)
    (hapart : (arenas sMaxChunksNum (config mallocs chunkSizes)).Pairwise Apart) :
    ∃ w₀, start sMaxChunksNum chunkSizes mallocs = .ok w₀ ∧
      ∀ (before : List FrontCall) (w : FrontSession),
        Runs.All step (Legal (arenas sMaxChunksNum (config mallocs chunkSizes))) w₀ before →
        Runs.exec step w₀ before = .ok w → ∀ calls : List FrontCall,
        Runs.All step (fun w' call => Legal (arenas sMaxChunksNum (config mallocs chunkSizes)) w'
          call ∧ Newest w.live.length w' call) w calls →
        ∃ w', Runs.exec step w calls = .ok w' ∧
          Runs.exec step w (Nesting.outstanding isFree calls) = .ok w' ∧
          (w'.live.length = w.live.length → w' = w) := by
  obtain ⟨l, hstart, hwf⟩ := wf_start (by decide) hlen htables (by decide) hnonnull hapart
  refine ⟨_, hstart, fun before w hlegal hbefore calls hadm => ?_⟩
  obtain ⟨w', hrun, hw⟩ := Runs.exec_inv (WF sMaxChunksNum (config mallocs chunkSizes))
    (Legal (arenas sMaxChunksNum (config mallocs chunkSizes)))
    (fun _ _ hw hl => step_wf hw hl) hwf hlegal
  obtain rfl := Except.ok.inj (hrun.symm.trans hbefore)
  exact hw.nested hadm

/-- Three chunks and a block of the system, allocated and freed inside one
another. -/
def nestedCalls : List FrontCall :=
  [.allocate 60 4096, .allocate 6000 8192, .allocate 64 16384, .free 10063872,
    .allocate 3000 16384, .free 73068928, .free 8192, .free 10063936]

theorem nested_run_four : ∃ w₀ w, start sMaxChunksNum chunkSizes spacedMallocs = .ok w₀ ∧
    Runs.exec step w₀ [.allocate 100 4096] = .ok w ∧ w.live = [⟨20127872, 100, .pool 1⟩] ∧
    Runs.exec step w nestedCalls = .ok w := by
  obtain ⟨w₀, hstart, hall⟩ := nested_run length_spacedMallocs spacedMallocs_table
    spacedMallocs_nonnull spacedMallocs_apart
  obtain rfl := Except.ok.inj (start_spacedMallocs.symm.trans hstart)
  have hlive : (Runs.exec step spacedPools [.allocate 100 4096]).map FrontSession.live
      = .ok [⟨20127872, 100, .pool 1⟩] := by decide +kernel
  obtain ⟨w, hbefore, hone⟩ := map_eq_ok.mp hlive
  have hlength : w.live.length = 1 := by rw [hone, List.length_singleton]
  have hadm : Runs.All step (fun w' call =>
      Legal (arenas sMaxChunksNum (config spacedMallocs chunkSizes)) w' call ∧ Newest 1 w' call)
      spacedPools ([.allocate 100 4096] ++ nestedCalls) := by decide +kernel
  have hafter := ((Runs.all_append hbefore).mp hadm).2
  rw [← hlength] at hafter
  obtain ⟨w', hrun, hout, -⟩ := hall _ w (by decide +kernel) hbefore nestedCalls hafter
  obtain rfl : w = w' := Except.ok.inj hout
  exact ⟨_, w, start_spacedMallocs, hbefore, hone, hrun⟩

end FrontSession

end MemAlloc
