import Mathlib.Data.List.Induction
import MemAlloc.Answers
import MemAlloc.Interleaving

/-!
# Linearizability

The general theorem on objects with one lock: if each call reads only
constant data before it takes the lock, takes no other, and unlocks with its
last access if at all, then under every schedule the calls that have made
their last access answer as they do one after the other, in the order of
their last accesses (`linearizable`). Nothing else can be observed, and
everything sequential can (`Replay.schedule`).

The invariant is `Linear`: between two critical sections the shared state is
the one the calls of the log lead to, and inside one the owner is on its way
from there to the end of its call.
-/

namespace MemAlloc

namespace Threads

variable {κ ι σ ε α : Type} [DecidableEq ι] {prog : κ → Prog ι σ ε α}
  {S S' : Threads κ ι σ ε α} {j : Nat} {call : κ} {tested : Bool} {p : Prog ι σ ε α}

/-! ## One call after the other -/

/-- The calls of the list, made one after the other from `s`, give the
listed answers and end in the last argument. -/
inductive Replay (prog : κ → Prog ι σ ε α) (spins : ε) (s : Shared ι σ) :
    List (Nat × κ × α) → Shared ι σ → Prop where
  | nil : Replay prog spins s [] s
  | snoc {log : List (Nat × κ × α)} {t u : Shared ι σ} {j : Nat} {call : κ} {a : α}
      (h : Replay prog spins s log t) (hrun : (prog call).run spins t = .ok (a, u)) :
      Replay prog spins s (log ++ [(j, call, a)]) u

section Replay

variable {spins : ε} {s t : Shared ι σ} {log : List (Nat × κ × α)}

theorem Replay.nil_eq (h : Replay prog spins s [] t) : t = s := by
  generalize hlog : ([] : List (Nat × κ × α)) = log at h
  cases h with
  | nil => rfl
  | snoc => simp at hlog

theorem Replay.snoc_inv {e : Nat × κ × α} {u : Shared ι σ}
    (h : Replay prog spins s (log ++ [e]) u) :
    ∃ t, Replay prog spins s log t ∧ (prog e.2.1).run spins t = .ok (e.2.2, u) := by
  generalize hlog : log ++ [e] = log' at h
  cases h with
  | nil => simp at hlog
  | snoc h hrun =>
      obtain ⟨rfl, hlast⟩ := List.append_inj' hlog rfl
      obtain rfl := List.singleton_injective hlast
      exact ⟨_, h, hrun⟩

/-- If in the states of a sequential object the programs do what the object
does, the replays are its runs. -/
theorem replay_iff {τ : Type} {serve : τ → κ → Except ε (α × τ)} {view : τ → Shared ι σ}
    (hserve : ∀ x call, (prog call).run spins (view x) =
      (serve x call).map fun r => (r.1, view r.2)) {x : τ} :
    Replay prog spins (view x) log t ↔ ∃ y, t = view y ∧
      Runs.exec (Runs.recording serve) (x, []) (log.map fun e => e.2.1) =
        .ok (y, log.map fun e => e.2.2) := by
  constructor
  · intro h
    induction h with
    | nil => exact ⟨x, rfl, rfl⟩
    | @snoc log t u j call a _ hrun ih =>
        obtain ⟨y, rfl, hexec⟩ := ih
        rw [hserve] at hrun
        cases hcall : serve y call with
        | error e => rw [hcall] at hrun; cases hrun
        | ok r =>
            rw [hcall] at hrun
            obtain ⟨rfl, rfl⟩ := Prod.mk.inj (Except.ok.inj hrun)
            refine ⟨r.2, rfl, ?_⟩
            rw [List.map_append, Runs.exec_append hexec, List.map_append]
            exact Runs.exec_recording hcall _ []
  · rintro ⟨y, rfl, hexec⟩
    induction log using List.reverseRecOn generalizing y with
    | nil =>
        obtain ⟨rfl, -⟩ := Prod.mk.inj (Except.ok.inj hexec)
        exact .nil
    | append_singleton log e ih =>
        obtain ⟨j, call, a⟩ := e
        rw [List.map_append, List.map_append] at hexec
        obtain ⟨⟨z, answers⟩, hbefore, hlast⟩ := Runs.exec_append_ok hexec
        -- the last call was the only one left, and its answer the last one noted
        cases hcall : serve z call with
        | error e =>
            rw [List.map_singleton, Runs.exec_cons_error (Runs.recording_error hcall _)] at hlast
            cases hlast
        | ok r =>
            rw [List.map_singleton, Runs.exec_recording hcall] at hlast
            obtain ⟨rfl, hanswers⟩ := Prod.mk.inj (Except.ok.inj hlast)
            obtain ⟨rfl, ha⟩ := List.append_inj' hanswers rfl
            obtain rfl := List.singleton_injective ha
            exact (ih z hbefore).snoc (by rw [hserve, hcall]; rfl)

/-- Every replay by threads that exist is a schedule. -/
theorem Replay.schedule {n : Nat} (h : Replay prog spins s log t) (hthreads : ∀ e ∈ log, e.1 < n) :
    ∃ schedule, Runs.exec (step prog) (start s n) schedule =
      .ok ⟨t, List.replicate n .idle, log⟩ := by
  induction h with
  | nil => exact ⟨[], rfl⟩
  | @snoc log t u j call a _ hrun ih =>
      obtain ⟨schedule, hexec⟩ := ih fun e he => hthreads e (List.mem_append_left _ he)
      have hj : j < n := hthreads (j, call, a) (List.mem_append_right _ (List.mem_singleton_self _))
      have hidle : (List.replicate n (Thread.idle : Thread κ ι σ ε α))[j]? = some .idle := by
        rw [List.getElem?_replicate, if_pos hj]
      obtain ⟨k, hk⟩ := alone_call (S := ⟨t, List.replicate n .idle, log⟩) hidle hrun
      exact ⟨schedule ++ List.replicate k (j, call), by rw [Runs.exec_append hexec, hk]⟩

end Replay

/-! ## The invariant -/

section Linearizable

variable {ω : Type} (i : ι) (stable : σ → ω) (prog) (spins : ε)

/-- What is left of a call that has not taken the lock yet does what the
whole call does, from any state with the same stable part. -/
def Pending (w : ω) (call : κ) (p : Prog ι σ ε α) : Prop :=
  p.Guarded i stable ∧ ∀ s : Shared ι σ, stable s.data = w →
    p.run spins s = (prog call).run spins s

/-- The invariant, with the state `t` between two calls: the lock's owner,
if any, is on its way from `t` to the end of its call; all other calls have
not begun. -/
structure Linear (s t : Shared ι σ) (S : Threads κ ι σ ε α) (owner : Option Nat) : Prop where
  replay : Replay prog spins s S.log t
  stable_eq : stable t.data = stable s.data ∧ stable S.shared.data = stable s.data
  pending : ∀ j call tested p, S.threads[j]? = some (.busy call tested p) → owner ≠ some j →
    Pending prog i stable spins (stable s.data) call p
  owned : match owner with
    | none => S.shared = t
    | some j => ∃ call tested p, S.threads[j]? = some (.busy call tested p) ∧
        p.Sealed i stable ∧ S.shared.flag i = true ∧
        p.run spins S.shared = (prog call).run spins t

variable {i stable prog spins} {s t : Shared ι σ} {owner : Option Nat}

theorem pending_start (hprog : ∀ call, (prog call).Guarded i stable) (w : ω) (call : κ) :
    Pending prog i stable spins w call (prog call) :=
  ⟨hprog call, fun _ _ => rfl⟩

theorem linear_start (s : Shared ι σ) (n : Nat) :
    Linear prog i stable spins s s (start s n) none where
  replay := .nil
  stable_eq := ⟨rfl, rfl⟩
  pending j call tested p h _ := by
    obtain ⟨hlt, heq⟩ := List.getElem?_eq_some_iff.mp h
    simp [start] at heq
  owned := rfl

omit [DecidableEq ι] in
/-- Writing a thread's entry changes no other. -/
theorem getElem?_set_busy {threads : List (Thread κ ι σ ε α)} {th : Thread κ ι σ ε α} {j' : Nat}
    (hne : j' ≠ j) : (threads.set j th)[j']? = threads[j']? :=
  List.getElem?_set_ne (Ne.symm hne)

/-- A thread that is not the owner moves without effect on the shared state. -/
theorem Linear.outside (h : Linear prog i stable spins s t S owner) (hj : owner ≠ some j)
    (hp : Pending prog i stable spins (stable s.data) call p) :
    Linear prog i stable spins s t { S with threads := S.threads.set j (.busy call tested p) }
      owner where
  replay := h.replay
  stable_eq := h.stable_eq
  pending j' call' tested' p' hbusy hne := by
    by_cases hjj : j' = j
    · subst hjj
      obtain ⟨hlt, heq⟩ := List.getElem?_eq_some_iff.mp hbusy
      simp only [List.getElem_set_self] at heq
      cases heq
      exact hp
    · exact h.pending j' call' tested' p' (by rwa [← getElem?_set_busy hjj]) hne
  owned := by
    have howned := h.owned
    cases owner with
    | none => exact howned
    | some k =>
        obtain ⟨call', tested', p', hbusy, hrest⟩ := howned
        have hjk : k ≠ j := fun heq => hj (by rw [heq])
        exact ⟨call', tested', p', by rwa [getElem?_set_busy hjk], hrest⟩

/-- The owner goes on, or ends its call. -/
theorem Linear.inside (h : Linear prog i stable spins s t S owner)
    (howner : owner = none ∨ owner = some j) (hj : j < S.threads.length) {u : Shared ι σ}
    (hstable : stable u.data = stable s.data) (hp : p.Sealed i stable)
    (hheld : (∀ a, p ≠ .ret a) → u.flag i = true)
    (hrun : p.run spins u = (prog call).run spins t) :
    ∃ t' owner', Linear prog i stable spins s t'
      ({ S with shared := u }.settle j call tested p) owner' := by
  have hother : ∀ {th : Thread κ ι σ ε α} {j' call' tested' p'}, j' ≠ j →
      (S.threads.set j th)[j']? = some (.busy call' tested' p') →
      Pending prog i stable spins (stable s.data) call' p' := by
    intro th j' call' tested' p' hne hbusy
    rw [getElem?_set_busy hne] at hbusy
    refine h.pending j' call' tested' p' hbusy ?_
    rcases howner with rfl | rfl
    · exact nofun
    · exact fun heq => hne (Option.some.inj heq).symm
  rcases settle_cases { S with shared := u } j call tested p with ⟨a, rfl, heq⟩ | ⟨hne, heq⟩
  · -- the last access: the call joins the log, and its end is the next state between calls
    refine ⟨u, none, ?_⟩
    rw [heq]
    refine ⟨h.replay.snoc hrun.symm, ⟨hstable, hstable⟩, ?_, rfl⟩
    intro j' call' tested' p' hbusy _
    by_cases hjj : j' = j
    · subst hjj
      obtain ⟨hlt, hidle⟩ := List.getElem?_eq_some_iff.mp hbusy
      simp at hidle
    · exact hother hjj hbusy
  · refine ⟨t, some j, ?_⟩
    rw [heq]
    refine ⟨h.replay, ⟨h.stable_eq.1, hstable⟩, ?_, ?_⟩
    · intro j' call' tested' p' hbusy hne'
      exact hother (fun heq' => hne' (by rw [heq'])) hbusy
    · exact ⟨call, tested, p, List.getElem?_set_self hj, hp, hheld hne, hrun⟩

/-- **Step lemma.** Whichever thread moves, the invariant is kept. -/
theorem Linear.step (hprog : ∀ call, (prog call).Guarded i stable)
    (h : Linear prog i stable spins s t S owner) {choice : Nat × κ}
    (hstep : Threads.step prog S choice = .ok S') :
    ∃ t' owner', Linear prog i stable spins s t' S' owner' := by
  obtain ⟨j, chosen⟩ := choice
  rcases step_cases hstep with ⟨hidle, rfl⟩ | ⟨call, tested, p, u, tested', p', hbusy, haccess, rfl⟩
  · -- a call begins
    have hj : owner ≠ some j := by
      rintro rfl
      obtain ⟨call, tested, p, hbusy, -⟩ := h.owned
      rw [hidle] at hbusy
      cases hbusy
    rcases settle_cases S j chosen false (prog chosen) with ⟨a, hret, -⟩ | ⟨-, heq⟩
    · have := hprog chosen
      rw [hret] at this
      cases this
    · exact ⟨t, owner, heq ▸ h.outside hj (pending_start hprog _ chosen)⟩
  have hlt := (List.getElem?_eq_some_iff.mp hbusy).1
  by_cases hj : owner = some j
  · -- the owner makes an access
    subst hj
    obtain ⟨call', tested'', q, hbusy', hsealed, hflag, hrun⟩ := h.owned
    cases hbusy.symm.trans hbusy'
    cases p with
    | ret a => cases haccess
    | fail e => cases haccess
    | read k =>
        cases haccess
        exact h.inside (Or.inr rfl) hlt h.stable_eq.2 (hsealed _) (fun _ => hflag) hrun
    | write f p =>
        cases hf : f S.shared.data with
        | error e => simp [Prog.access, hf] at haccess
        | ok d =>
            simp only [Prog.access, hf] at haccess
            cases haccess
            refine h.inside (Or.inr rfl) hlt ?_ hsealed.2 (fun _ => hflag) ?_
            · exact (hsealed.1 _ _ hf).trans h.stable_eq.2
            · rw [← hrun, Prog.run, hf]
    | lock i' p => cases hsealed
    | unlock i' p =>
        obtain ⟨rfl, a, rfl⟩ := hsealed
        cases haccess
        exact h.inside (Or.inr rfl) hlt h.stable_eq.2 trivial (fun hne => absurd rfl (hne a)) hrun
  · -- another thread makes an access
    have hpend := h.pending j call tested p hbusy hj
    cases p with
    | ret a => cases haccess
    | fail e => cases haccess
    | read k =>
        cases haccess
        obtain ⟨⟨hcongr, hk⟩, hrun⟩ := hpend
        have hnext : Pending prog i stable spins (stable s.data) call (k S.shared.data) := by
          refine ⟨hk _, fun s' hs' => ?_⟩
          rw [← hrun s' hs', Prog.run, hcongr _ s'.data (h.stable_eq.2.trans hs'.symm)]
        rcases settle_cases { S with shared := S.shared } j call false (k S.shared.data) with
          ⟨a, hret, -⟩ | ⟨-, heq⟩
        · rw [hret] at hnext
          cases hnext.1
        · exact ⟨t, owner, heq ▸ h.outside hj hnext⟩
    | write f p => cases hpend.1
    | lock i' p =>
        obtain ⟨⟨rfl, hsealed⟩, hrun⟩ := hpend
        have hwait : ∀ b, ∃ t' owner', Linear prog i' stable spins s t'
            (S.settle j call b (.lock i' p)) owner' := fun b =>
          ⟨t, owner, h.outside hj ⟨⟨rfl, hsealed⟩, hrun⟩⟩
        cases htested : tested with
        | false =>
            simp only [Prog.access, htested, Bool.false_eq_true, if_false] at haccess
            cases haccess
            exact hwait _
        | true =>
            cases hflag : S.shared.flag i' with
            | true =>
                -- the exchange stores what is there
                simp only [Prog.access, htested, if_true, Shared.setFlag_eq_self hflag,
                  hflag] at haccess
                cases haccess
                exact hwait _
            | false =>
                simp only [Prog.access, htested, if_true, hflag, Bool.false_eq_true,
                  if_false] at haccess
                cases haccess
                have hnone : owner = none := by
                  cases owner with
                  | none => rfl
                  | some k =>
                      obtain ⟨_, _, _, -, -, htaken, -⟩ := h.owned
                      rw [hflag] at htaken
                      cases htaken
                subst hnone
                obtain rfl : S.shared = t := h.owned
                refine h.inside (Or.inl rfl) hlt h.stable_eq.2 hsealed (fun _ => by simp) ?_
                rw [← hrun _ h.stable_eq.2, Prog.run, hflag]
                rfl
    | unlock i' p => cases hpend.1

/-- **Every schedule is a sequential run.** From a state with all threads
idle, whatever the threads do: the calls that have made their last access,
in the order of these accesses, give the same answers one after the other,
and while no call is under way the shared state is the one they lead to. -/
theorem linearizable (hprog : ∀ call, (prog call).Guarded i stable) (spins : ε) (s : Shared ι σ)
    (n : Nat) {schedule : List (Nat × κ)}
    (hrun : Runs.exec (Threads.step prog) (start s n) schedule = .ok S) :
    ∃ t, Replay prog spins s S.log t ∧ (S.Quiet → S.shared = t) := by
  obtain ⟨t, owner, h⟩ := Runs.exec_keeps
    (fun S => ∃ t owner, Linear prog i stable spins s t S owner)
    (fun _ _ _ ⟨_, _, h⟩ hstep => h.step hprog hstep)
    ⟨s, none, linear_start s n⟩ hrun
  refine ⟨t, h.replay, fun hquiet => ?_⟩
  have howned := h.owned
  cases owner with
  | none => exact howned
  | some j =>
      obtain ⟨call, tested, p, hbusy, -⟩ := howned
      cases hquiet _ (List.mem_of_getElem? hbusy)

/-- **What can be observed.** An object whose programs do what a sequential
object does has, under any number of threads, exactly the histories of the
sequential one. -/
theorem histories_iff {τ : Type} {serve : τ → κ → Except ε (α × τ)} {view : τ → Shared ι σ}
    (hprog : ∀ call, (prog call).Guarded i stable)
    (hserve : ∀ x call, (prog call).run spins (view x) =
      (serve x call).map fun r => (r.1, view r.2))
    (x : τ) {n : Nat} {log : List (Nat × κ × α)} (hthreads : ∀ e ∈ log, e.1 < n) :
    (∃ schedule S, Runs.exec (Threads.step prog) (start (view x) n) schedule = .ok S ∧
        S.log = log) ↔
      ∃ y, Runs.exec (Runs.recording serve) (x, []) (log.map fun e => e.2.1) =
        .ok (y, log.map fun e => e.2.2) := by
  constructor
  · rintro ⟨schedule, S, hrun, rfl⟩
    obtain ⟨t, hreplay, -⟩ := linearizable hprog spins (view x) n hrun
    obtain ⟨y, -, hexec⟩ := (replay_iff hserve).mp hreplay
    exact ⟨y, hexec⟩
  · rintro ⟨y, hexec⟩
    obtain ⟨schedule, hrun⟩ := ((replay_iff hserve).mpr ⟨y, rfl, hexec⟩).schedule hthreads
    exact ⟨schedule, _, hrun, rfl⟩

end Linearizable

end Threads

end MemAlloc
