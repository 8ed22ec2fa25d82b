import MemAlloc.Linearizability

/-!
# Progress

On an object with one lock, what can a call under way wait for? Only for the
owner of the lock to end its call, and the owner waits for nobody
(`alone_busy`). So as long as the calls under way return when made alone
from the state between two calls, some schedule lets one of them make its
last access (`progress`); a lock that was kept is what its hypothesis
excludes.
-/

namespace MemAlloc

namespace Threads

variable {κ ι σ ε α : Type} [DecidableEq ι] {prog : κ → Prog ι σ ε α}
  {S S' : Threads κ ι σ ε α} {j : Nat} {call : κ} {tested : Bool} {p : Prog ι σ ε α}

/-- What is in the log stays there. -/
theorem log_exec {schedule : List (Nat × κ)}
    (hrun : Runs.exec (step prog) S schedule = .ok S') : ∃ more, S'.log = S.log ++ more := by
  refine Runs.exec_keeps (fun S'' => ∃ more, S''.log = S.log ++ more) ?_ ⟨[], by simp⟩ hrun
  rintro S₁ ⟨j, chosen⟩ S₂ ⟨more, hmore⟩ hstep
  have hsettle : ∀ (T : Threads κ ι σ ε α) (call : κ) (tested : Bool) (p : Prog ι σ ε α),
      T.log = S₁.log → ∃ more, (T.settle j call tested p).log = S.log ++ more := by
    intro T call tested p hT
    rcases settle_cases T j call tested p with ⟨a, rfl, heq⟩ | ⟨-, heq⟩
    · exact ⟨more ++ [(j, call, a)], by rw [heq, hT, hmore, List.append_assoc]⟩
    · exact ⟨more, by rw [heq, hT, hmore]⟩
  rcases step_cases hstep with ⟨-, rfl⟩ | ⟨call, tested, p, s, tested', p', -, -, rfl⟩
  · exact hsettle _ _ _ _ rfl
  · exact hsettle _ _ _ _ rfl

/-- A call under way has something left to do. -/
def Underway (S : Threads κ ι σ ε α) : Prop :=
  ∀ (j : Nat) call tested p, S.threads[j]? = some (.busy call tested p) → ∀ a, p ≠ .ret a

omit [DecidableEq ι] in
theorem Underway.settle (h : S.Underway) (j : Nat) (call : κ) (tested : Bool)
    (p : Prog ι σ ε α) : (S.settle j call tested p).Underway := by
  intro j' call' tested' p' hbusy
  rcases settle_cases S j call tested p with ⟨a, rfl, heq⟩ | ⟨hne, heq⟩
  · rw [heq] at hbusy
    by_cases hjj : j' = j
    · subst hjj
      obtain ⟨hlt, hidle⟩ := List.getElem?_eq_some_iff.mp hbusy
      simp at hidle
    · exact h j' call' tested' p' (by rwa [← List.getElem?_set_ne (Ne.symm hjj)])
  · rw [heq] at hbusy
    by_cases hjj : j' = j
    · subst hjj
      obtain ⟨hlt, heq'⟩ := List.getElem?_eq_some_iff.mp hbusy
      simp only [List.getElem_set_self] at heq'
      cases heq'
      exact hne
    · exact h j' call' tested' p' (by rwa [← List.getElem?_set_ne (Ne.symm hjj)])

theorem underway_exec {s : Shared ι σ} {n : Nat} {schedule : List (Nat × κ)}
    (hrun : Runs.exec (step prog) (start s n) schedule = .ok S) : S.Underway := by
  refine Runs.exec_keeps Underway ?_ (fun j call tested p hbusy => ?_) hrun
  · intro S₁ choice S₂ h hstep
    rcases step_cases hstep with ⟨-, rfl⟩ | ⟨call, tested, p, s, tested', p', -, -, rfl⟩
    · exact h.settle _ _ _ _
    · exact Underway.settle (S := { S₁ with shared := s }) h _ _ _ _
  · obtain ⟨hlt, heq⟩ := List.getElem?_eq_some_iff.mp hbusy
    simp [start] at heq

/-- A thread in the middle of a call, scheduled alone, ends it as the rest
of its program does. -/
theorem alone_busy {spins : ε} {a : α} {s : Shared ι σ}
    (hbusy : S.threads[j]? = some (.busy call tested p)) (hne : ∀ b, p ≠ .ret b)
    (hrun : p.run spins S.shared = .ok (a, s)) (choice : κ) :
    ∃ k, Runs.exec (step prog) S (List.replicate k (j, choice)) =
      .ok ⟨s, S.threads.set j .idle, S.log ++ [(j, call, a)]⟩ := by
  obtain ⟨hj, hget⟩ := List.getElem?_eq_some_iff.mp hbusy
  -- one access, and `alone_settle` for the rest
  have hfirst : ∀ {u : Shared ι σ} {q : Prog ι σ ε α},
      p.access S.shared tested = some (u, false, q) → q.run spins u = .ok (a, s) →
      ∃ k, Runs.exec (step prog) S (List.replicate k (j, choice)) =
        .ok ⟨s, S.threads.set j .idle, S.log ++ [(j, call, a)]⟩ := by
    intro u q haccess hq
    obtain ⟨k, hk⟩ := alone_settle (S := { S with shared := u }) prog call choice q hj hq
    refine ⟨k + 1, ?_⟩
    rw [List.replicate_succ, Runs.exec_cons_ok (step_busy hbusy haccess choice), hk]
  cases p with
  | ret b => exact absurd rfl (hne b)
  | fail e => cases hrun
  | read r => exact hfirst rfl hrun
  | write f q =>
      cases hf : f S.shared.data with
      | error e => simp [Prog.run, hf] at hrun
      | ok d =>
          simp only [Prog.run, hf] at hrun
          exact hfirst (by rw [Prog.access, hf]) hrun
  | lock i q =>
      cases tested with
      | false =>
          have hsame : S.settle j call false (.lock i q) = S := by
            rw [settle, ← hget, List.set_getElem_self]
            rintro a ⟨⟩
          obtain ⟨k, hk⟩ := alone_settle prog call choice (.lock i q) hj hrun
          exact ⟨k, by rwa [hsame] at hk⟩
      | true =>
          cases hflag : S.shared.flag i with
          | true => simp [Prog.run, hflag] at hrun
          | false =>
              simp only [Prog.run, hflag, Bool.false_eq_true, if_false] at hrun
              exact hfirst (by rw [Prog.access, if_pos rfl, hflag]; rfl) hrun
  | unlock i q => exact hfirst rfl hrun

variable {ω : Type} {i : ι} {stable : σ → ω}

/-- **Progress.** In a state some schedule leads to, with a call under way:
if each of these calls returns when made alone from the state between two
calls, then one of them can make its last access. -/
theorem progress (hprog : ∀ call, (prog call).Guarded i stable) (spins : ε) (s : Shared ι σ)
    (n : Nat) {schedule : List (Nat × κ)}
    (hrun : Runs.exec (step prog) (start s n) schedule = .ok S) (hbusy : ¬S.Quiet)
    (hreturn : ∀ t, Replay prog spins s S.log t → ∀ (j : Nat) call tested p,
      S.threads[j]? = some (.busy call tested p) → ∃ a u, (prog call).run spins t = .ok (a, u)) :
    ∃ j call a more S', Runs.exec (step prog) S more = .ok S' ∧
      S'.log = S.log ++ [(j, call, a)] := by
  have hunderway := underway_exec hrun
  obtain ⟨t, owner, h⟩ := Runs.exec_keeps
    (fun S => ∃ t owner, Linear prog i stable spins s t S owner)
    (fun _ _ _ ⟨_, _, h⟩ hstep => h.step hprog hstep)
    ⟨s, none, linear_start s n⟩ hrun
  -- the owner, or else any thread with a call
  obtain ⟨j, call, tested, p, hj, hp⟩ : ∃ (j : Nat) (call : κ) (tested : Bool)
      (p : Prog ι σ ε α),
      S.threads[j]? = some (.busy call tested p) ∧
        p.run spins S.shared = (prog call).run spins t := by
    have howned := h.owned
    cases owner with
    | some j =>
        obtain ⟨call, tested, p, hj, -, -, hp⟩ := howned
        exact ⟨j, call, tested, p, hj, hp⟩
    | none =>
        obtain rfl : S.shared = t := howned
        rw [Quiet] at hbusy
        push Not at hbusy
        obtain ⟨th, hth, hne⟩ := hbusy
        obtain ⟨j, hj⟩ := List.mem_iff_getElem?.mp hth
        cases th with
        | idle => exact absurd rfl hne
        | busy call tested p =>
            exact ⟨j, call, tested, p, hj, (h.pending j call tested p hj nofun).2 _ h.stable_eq.2⟩
  obtain ⟨a, u, hcall⟩ := hreturn t h.replay j call tested p hj
  obtain ⟨k, hk⟩ := alone_busy hj (hunderway j call tested p hj) (hp.trans hcall) call
  exact ⟨j, call, a, _, _, hk, rfl⟩

end Threads

end MemAlloc
