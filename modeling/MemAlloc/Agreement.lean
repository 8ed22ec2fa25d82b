import MemAlloc.Clients

/-!
# Programs that agree

A library. As long as the data satisfy an invariant a program may take only
some of its branches; another program that has just these agrees with it
(`Prog.Agrees`), and threads that run either cannot be told apart
(`Threads.Agree`). So a theorem about the simpler programs, such as
`linearizable`, serves for runs of the others.
-/

namespace MemAlloc

namespace Prog

variable {ι σ ε α β : Type} {inv : σ → Prop} {mid post : α → Prop} {p q : Prog ι σ ε α}
  {k k' : α → Prog ι σ ε β}

/-- The same accesses and the same answer, on data that satisfy the
invariant, which the writes keep. -/
def Agrees (inv : σ → Prop) : Prog ι σ ε α → Prog ι σ ε α → Prop
  | ret a, q => q = ret a
  | fail e, q => q = fail e
  | read k, q => ∃ k', q = read k' ∧ ∀ d, inv d → (k d).Agrees inv (k' d)
  | write f p, q => ∃ p', q = write f p' ∧ (∀ d d', inv d → f d = .ok d' → inv d') ∧
      p.Agrees inv p'
  | lock i p, q => ∃ p', q = lock i p' ∧ p.Agrees inv p'
  | unlock i p, q => ∃ p', q = unlock i p' ∧ p.Agrees inv p'

/-- What follows needs to agree on the answers that are ensured. -/
theorem Ensures.agrees_bind (hp : p.Ensures inv mid) (hk : ∀ a, mid a → (k a).Agrees inv (k' a)) :
    (p >>= k).Agrees inv (p >>= k') := by
  induction p with
  | ret a => exact hk a hp
  | fail e => rfl
  | read r ih => exact ⟨_, rfl, fun d hd => ih d (hp d hd)⟩
  | write f p ih => exact ⟨_, rfl, hp.1, ih hp.2⟩
  | lock i p ih => exact ⟨_, rfl, ih hp⟩
  | unlock i p ih => exact ⟨_, rfl, ih hp⟩

/-- Alone, they do the same. -/
theorem Agrees.run [DecidableEq ι] {spins : ε} {s : Shared ι σ} (h : p.Agrees inv q)
    (hs : inv s.data) : p.run spins s = q.run spins s := by
  induction p generalizing q s with
  | ret a => rw [show q = ret a from h]
  | fail e => rw [show q = fail e from h]
  | read r ih =>
      obtain ⟨r', rfl, hr⟩ := h
      simp only [Prog.run]
      exact ih s.data (hr _ hs) hs
  | write f p ih =>
      obtain ⟨p', rfl, hf, hp⟩ := h
      simp only [Prog.run]
      cases hd : f s.data with
      | error e => rfl
      | ok d => exact ih hp (hf _ _ hs hd)
  | lock i p ih =>
      obtain ⟨p', rfl, hp⟩ := h
      simp only [Prog.run]
      split
      · rfl
      · exact ih (s := s.setFlag i true) hp hs
  | unlock i p ih =>
      obtain ⟨p', rfl, hp⟩ := h
      simp only [Prog.run]
      exact ih (s := s.setFlag i false) hp hs

end Prog

/-- Both idle, or in the same call at programs that agree. -/
def Thread.Agrees {κ ι σ ε α : Type} (inv : σ → Prop) :
    Thread κ ι σ ε α → Thread κ ι σ ε α → Prop
  | .idle, .idle => True
  | .busy call tested p, .busy call' tested' q => call' = call ∧ tested' = tested ∧ p.Agrees inv q
  | _, _ => False

namespace Threads

variable {κ ι σ ε α : Type} {prog prog' : κ → Prog ι σ ε α} {inv : σ → Prop}
  {S S' T : Threads κ ι σ ε α}

/-- States that cannot be told apart. -/
structure Agree (inv : σ → Prop) (S T : Threads κ ι σ ε α) : Prop where
  data : inv S.shared.data
  shared : T.shared = S.shared
  log : T.log = S.log
  length : T.threads.length = S.threads.length
  threads : ∀ (j : Nat) (th th' : Thread κ ι σ ε α), S.threads[j]? = some th →
    T.threads[j]? = some th' → th.Agrees inv th'

theorem agree_start {s : Shared ι σ} (hs : inv s.data) (n : Nat) :
    Agree inv (start s n : Threads κ ι σ ε α) (start s n) := by
  refine ⟨hs, rfl, rfl, rfl, fun j th th' hth hth' => ?_⟩
  rw [List.eq_of_mem_replicate (List.mem_of_getElem? hth),
    List.eq_of_mem_replicate (List.mem_of_getElem? hth')]
  trivial

namespace Agree

/-- Both go on with programs that agree. -/
theorem settle (h : Agree inv S T) {u : Shared ι σ} (hu : inv u.data) (j : Nat) (call : κ)
    (tested : Bool) {p q : Prog ι σ ε α} (hpq : p.Agrees inv q) :
    Agree inv ({ S with shared := u }.settle j call tested p)
      ({ T with shared := u }.settle j call tested q) := by
  have hset : ∀ {th th' : Thread κ ι σ ε α}, th.Agrees inv th' →
      ∀ (k : Nat) (t t' : Thread κ ι σ ε α),
      (S.threads.set j th)[k]? = some t → (T.threads.set j th')[k]? = some t' →
      t.Agrees inv t' := by
    intro th th' hagree k t t' ht ht'
    by_cases hk : j = k
    · subst hk
      obtain ⟨hlt, rfl⟩ := List.getElem?_eq_some_iff.mp ht
      obtain ⟨hlt', rfl⟩ := List.getElem?_eq_some_iff.mp ht'
      simpa using hagree
    · rw [List.getElem?_set_ne hk] at ht ht'
      exact h.threads k t t' ht ht'
  have hlen : ∀ {th th' : Thread κ ι σ ε α},
      (T.threads.set j th').length = (S.threads.set j th).length := fun {th th'} => by
    rw [List.length_set, List.length_set, h.length]
  cases p with
  | ret a =>
      obtain rfl : q = .ret a := hpq
      exact ⟨hu, rfl, congrArg (· ++ [(j, call, a)]) h.log, hlen, hset trivial⟩
  | fail e =>
      obtain rfl : q = .fail e := hpq
      exact ⟨hu, rfl, h.log, hlen, hset ⟨rfl, rfl, rfl⟩⟩
  | read k =>
      obtain ⟨k', rfl, hk⟩ := hpq
      exact ⟨hu, rfl, h.log, hlen, hset ⟨rfl, rfl, k', rfl, hk⟩⟩
  | write f p =>
      obtain ⟨p', rfl, hp⟩ := hpq
      exact ⟨hu, rfl, h.log, hlen, hset ⟨rfl, rfl, p', rfl, hp⟩⟩
  | lock i p =>
      obtain ⟨p', rfl, hp⟩ := hpq
      exact ⟨hu, rfl, h.log, hlen, hset ⟨rfl, rfl, p', rfl, hp⟩⟩
  | unlock i p =>
      obtain ⟨p', rfl, hp⟩ := hpq
      exact ⟨hu, rfl, h.log, hlen, hset ⟨rfl, rfl, p', rfl, hp⟩⟩

variable [DecidableEq ι]

/-- Both make the same access. -/
theorem access (h : Agree inv S T) {p q p' : Prog ι σ ε α} (hpq : p.Agrees inv q)
    {tested tested' : Bool} {u : Shared ι σ}
    (haccess : p.access S.shared tested = some (u, tested', p')) :
    ∃ q', q.access T.shared tested = some (u, tested', q') ∧ inv u.data ∧ p'.Agrees inv q' := by
  rw [h.shared]
  cases p with
  | ret a => cases haccess
  | fail e => cases haccess
  | read k =>
      obtain ⟨k', rfl, hk⟩ := hpq
      cases haccess
      exact ⟨_, rfl, h.data, hk _ h.data⟩
  | write f p =>
      obtain ⟨r, rfl, hf, hp⟩ := hpq
      cases hrun : f S.shared.data with
      | error e => simp [Prog.access, hrun] at haccess
      | ok d =>
          simp only [Prog.access, hrun] at haccess ⊢
          cases haccess
          exact ⟨r, rfl, hf _ _ h.data hrun, hp⟩
  | lock i p =>
      obtain ⟨r, rfl, hp⟩ := id hpq
      cases tested with
      | false =>
          simp only [Prog.access, Bool.false_eq_true, if_false] at haccess ⊢
          cases haccess
          exact ⟨_, rfl, h.data, hpq⟩
      | true =>
          simp only [Prog.access, if_true] at haccess ⊢
          cases haccess
          refine ⟨_, rfl, h.data, ?_⟩
          split
          · exact hpq
          · exact hp
  | unlock i p =>
      obtain ⟨r, rfl, hp⟩ := hpq
      cases haccess
      exact ⟨r, rfl, h.data, hp⟩

/-- **Step lemma.** A call that begins must agree. -/
theorem step (h : Agree inv S T) {choice : Nat × κ}
    (hcall : S.threads[choice.1]? = some .idle → (prog choice.2).Agrees inv (prog' choice.2))
    (hstep : Threads.step prog S choice = .ok S') :
    ∃ T', Threads.step prog' T choice = .ok T' ∧ Agree inv S' T' := by
  have hget : ∀ {th}, S.threads[choice.1]? = some th →
      ∃ th', T.threads[choice.1]? = some th' ∧ th.Agrees inv th' := by
    intro th hth
    obtain ⟨hlt, -⟩ := List.getElem?_eq_some_iff.mp hth
    have hth' := List.getElem?_eq_getElem (h.length ▸ hlt)
    exact ⟨_, hth', h.threads _ _ _ hth hth'⟩
  rcases step_cases hstep with
    ⟨hidle, rfl⟩ | ⟨call, tested, p, u, tested', p', hbusy, haccess, rfl⟩
  · obtain ⟨th', hth', hagree⟩ := hget hidle
    cases th' with
    | busy => cases hagree
    | idle =>
        refine ⟨_, step_idle hth' choice.2, ?_⟩
        have hsettle := h.settle (u := S.shared) h.data choice.1 choice.2 false (hcall hidle)
        have hT : { T with shared := S.shared } = T := by rw [← h.shared]
        rwa [hT] at hsettle
  · obtain ⟨th', hth', hagree⟩ := hget hbusy
    cases th' with
    | idle => cases hagree
    | busy call' tested'' q =>
        obtain ⟨rfl, rfl, hpq⟩ := hagree
        obtain ⟨q', haccess', hu, hpq'⟩ := h.access hpq haccess
        exact ⟨_, step_busy hth' haccess' choice.2, h.settle hu choice.1 _ _ hpq'⟩

end Agree

end Threads

end MemAlloc
