import MemAlloc.Interleaving

/-!
# Locks left behind

A call that returns without unlocking leaves its lock taken for good. The
theorem, for any one of the locks of an object: if an answer of a certain
kind is only given without unlocking, then once such an answer was given no
call that needs the lock makes its last access, under any schedule
(`left_behind`).

`Outer` and `Inside` describe the code of a call before and after it has
taken the lock, `Avoids` code that has nothing to do with it; `Needs` says
that every way through the code takes it. What the code branches on before
may be read from a part of the data that never changes.
-/

namespace MemAlloc

namespace Prog

variable {ι σ ε α ω : Type} (i : ι) (stable : σ → ω) (kept : α → Prop)

/-- After lock `i`: it is not taken again, and released with the last access
if at all; then the answer is not one of those given with the lock kept. -/
def Inside : Prog ι σ ε α → Prop
  | ret _ | fail _ => True
  | read k => ∀ d, (k d).Inside
  | write f p => (∀ d d', f d = .ok d' → stable d' = stable d) ∧ p.Inside
  | lock j p => j ≠ i ∧ p.Inside
  | unlock j p => (j = i → ∃ a, p = ret a ∧ ¬kept a) ∧ (j ≠ i → p.Inside)

/-- Before lock `i`. -/
def Outer : Prog ι σ ε α → Prop
  | ret a => ¬kept a
  | fail _ => True
  | read k => ∀ d, (k d).Outer
  | write f p => (∀ d d', f d = .ok d' → stable d' = stable d) ∧ p.Outer
  | lock j p => (j = i → p.Inside i stable kept) ∧ (j ≠ i → p.Outer)
  | unlock j p => j ≠ i ∧ p.Outer

/-- Every way to an answer takes lock `i`, if the stable part of the data is
the given one. -/
def Needs (w : ω) : Prog ι σ ε α → Prop
  | ret _ => False
  | fail _ => True
  | read k => ∀ d, stable d = w → (k d).Needs w
  | write _ p => p.Needs w
  | lock j p => j = i ∨ p.Needs w
  | unlock _ p => p.Needs w

/-- The program does not access lock `i`. -/
def Avoids : Prog ι σ ε α → Prop
  | ret _ | fail _ => True
  | read k => ∀ d, (k d).Avoids
  | write f p => (∀ d d', f d = .ok d' → stable d' = stable d) ∧ p.Avoids
  | lock j p | unlock j p => j ≠ i ∧ p.Avoids

variable {i stable kept} {β : Type} {p : Prog ι σ ε α} {k : α → Prog ι σ ε β} {kept' : β → Prop}
  {w : ω}

theorem Avoids.bind (hp : p.Avoids i stable) (hk : ∀ a, (k a).Avoids i stable) :
    (p >>= k).Avoids i stable := by
  induction p with
  | ret a => exact hk a
  | fail e => trivial
  | read r ih => exact fun d => ih d (hp d)
  | write f p ih => exact ⟨hp.1, ih hp.2⟩
  | lock j p ih => exact ⟨hp.1, ih hp.2⟩
  | unlock j p ih => exact ⟨hp.1, ih hp.2⟩

theorem Avoids.inside_bind (hp : p.Avoids i stable) (hk : ∀ a, (k a).Inside i stable kept') :
    (p >>= k).Inside i stable kept' := by
  induction p with
  | ret a => exact hk a
  | fail e => trivial
  | read r ih => exact fun d => ih d (hp d)
  | write f p ih => exact ⟨hp.1, ih hp.2⟩
  | lock j p ih => exact ⟨hp.1, ih hp.2⟩
  | unlock j p ih => exact ⟨fun hj => absurd hj hp.1, fun _ => ih hp.2⟩

theorem Avoids.outer_bind (hp : p.Avoids i stable) (hk : ∀ a, (k a).Outer i stable kept') :
    (p >>= k).Outer i stable kept' := by
  induction p with
  | ret a => exact hk a
  | fail e => trivial
  | read r ih => exact fun d => ih d (hp d)
  | write f p ih => exact ⟨hp.1, ih hp.2⟩
  | lock j p ih => exact ⟨fun hj => absurd hj hp.1, fun _ => ih hp.2⟩
  | unlock j p ih => exact ⟨hp.1, ih hp.2⟩

theorem avoids_get (f : σ → Except ε α) : (get f : Prog ι σ ε α).Avoids i stable := by
  intro d
  dsimp only
  split <;> trivial

theorem avoids_modify {f : σ → Except ε σ} (h : ∀ d d', f d = .ok d' → stable d' = stable d) :
    (modify f : Prog ι σ ε Unit).Avoids i stable := ⟨h, trivial⟩

theorem avoids_acquire {j : ι} (h : j ≠ i) :
    (acquire j : Prog ι σ ε Unit).Avoids i stable := ⟨h, trivial⟩

end Prog

namespace Threads

variable {κ ι σ ε α ω : Type} {prog : κ → Prog ι σ ε α} {i : ι}
  {stable : σ → ω} {kept : κ → α → Prop} {w : ω} {S S' : Threads κ ι σ ε α} {j : Nat} {call : κ}
  {tested : Bool} {p : Prog ι σ ε α}

/-- A call in front of the lock: it needs the lock if the whole call does. -/
def Before (prog : κ → Prog ι σ ε α) (i : ι) (stable : σ → ω) (kept : κ → α → Prop) (w : ω)
    (call : κ) (p : Prog ι σ ε α) : Prop :=
  p.Outer i stable (kept call) ∧ ((prog call).Needs i stable w → p.Needs i stable w)

/-- The invariant: all calls but the owner's are in front of the lock, the
owner's is behind it and the lock taken; once an answer was given with the
lock kept there is no owner, the lock stays taken, and no call that needs it
has made its last access since. -/
structure Watched (prog : κ → Prog ι σ ε α) (i : ι) (stable : σ → ω) (kept : κ → α → Prop)
    (w : ω) (S : Threads κ ι σ ε α) (owner : Option Nat) : Prop where
  stable_eq : stable S.shared.data = w
  others : ∀ j call tested p, S.threads[j]? = some (.busy call tested p) → owner ≠ some j →
    Before prog i stable kept w call p
  owned : ∀ j, owner = some j → S.shared.flag i = true ∧
    ∃ call tested p, S.threads[j]? = some (.busy call tested p) ∧ p.Inside i stable (kept call)
  dead : (∃ e ∈ S.log, kept e.2.1 e.2.2) → owner = none ∧ S.shared.flag i = true
  after : ∀ l₁ e l₂, S.log = l₁ ++ e :: l₂ → kept e.2.1 e.2.2 →
    ∀ e' ∈ l₂, ¬(prog e'.2.1).Needs i stable w

theorem watched_start (s : Shared ι σ) (n : Nat) :
    Watched prog i stable kept (stable s.data) (start s n) none where
  stable_eq := rfl
  others j call tested p h _ := by
    obtain ⟨hlt, heq⟩ := List.getElem?_eq_some_iff.mp h
    simp [start] at heq
  owned := nofun
  dead := fun ⟨_, he, _⟩ => (List.not_mem_nil he).elim
  after l₁ e l₂ h := by simp [start] at h

variable {owner : Option Nat}

/-- A thread in front of the lock goes on, or is done. -/
theorem Watched.outside (h : Watched prog i stable kept w S owner) (hj : owner ≠ some j)
    {u : Shared ι σ} (hstable : stable u.data = w) (hflag : u.flag i = S.shared.flag i)
    (hp : Before prog i stable kept w call p) :
    Watched prog i stable kept w ({ S with shared := u }.settle j call tested p) owner := by
  have hothers : ∀ {th : Thread κ ι σ ε α} {j' call' tested' p'}, j' ≠ j →
      (S.threads.set j th)[j']? = some (.busy call' tested' p') → owner ≠ some j' →
      Before prog i stable kept w call' p' := by
    intro th j' call' tested' p' hne hbusy hown
    rw [List.getElem?_set_ne (Ne.symm hne)] at hbusy
    exact h.others j' call' tested' p' hbusy hown
  have howned : ∀ {th : Thread κ ι σ ε α} k, owner = some k → u.flag i = true ∧
      ∃ call tested p, (S.threads.set j th)[k]? = some (.busy call tested p) ∧
        p.Inside i stable (kept call) := by
    rintro th k rfl
    obtain ⟨htaken, call', tested', p', hbusy, hinside⟩ := h.owned k rfl
    have hne : j ≠ k := fun heq => hj (by rw [heq])
    exact ⟨hflag.trans htaken, call', tested', p', by rwa [List.getElem?_set_ne hne], hinside⟩
  rcases settle_cases { S with shared := u } j call tested p with ⟨a, rfl, heq⟩ | ⟨-, heq⟩
  · rw [heq]
    refine ⟨hstable, ?_, howned, ?_, ?_⟩
    · intro j' call' tested' p' hbusy hown
      by_cases hjj : j' = j
      · subst hjj
        obtain ⟨hlt, hidle⟩ := List.getElem?_eq_some_iff.mp hbusy
        simp at hidle
      · exact hothers hjj hbusy hown
    · -- the answer was given in front of the lock, so it is not one of those
      rintro ⟨e, he, hkept⟩
      rcases List.mem_append.mp he with he | he
      · exact (h.dead ⟨e, he, hkept⟩).imp_right hflag.trans
      · obtain rfl := List.mem_singleton.mp he
        exact absurd hkept hp.1
    · intro l₁ e l₂ hsplit hkept e' he'
      rcases log_cases hsplit with ⟨rfl, -⟩ | ⟨l₃, rfl, hlog⟩
      · cases he'
      · rcases List.mem_append.mp he' with he' | he'
        · exact h.after l₁ e l₃ hlog hkept e' he'
        · obtain rfl := List.mem_singleton.mp he'
          exact fun hneeds => hp.2 hneeds
  · rw [heq]
    refine ⟨hstable, ?_, howned, fun hdead => (h.dead hdead).imp_right hflag.trans, h.after⟩
    intro j' call' tested' p' hbusy hown
    by_cases hjj : j' = j
    · subst hjj
      obtain ⟨hlt, heq'⟩ := List.getElem?_eq_some_iff.mp hbusy
      simp only [List.getElem_set_self] at heq'
      cases heq'
      exact hp
    · exact hothers hjj hbusy hown

/-- The owner goes on, or is done. -/
theorem Watched.inside (h : Watched prog i stable kept w S owner)
    (howner : owner = none ∨ owner = some j) (hj : j < S.threads.length)
    (hlog : ∀ e ∈ S.log, ¬kept e.2.1 e.2.2) {u : Shared ι σ} (hstable : stable u.data = w)
    (hp : p.Inside i stable (kept call))
    (hheld : u.flag i = true ∨ ∃ a, p = .ret a ∧ ¬kept call a) :
    ∃ owner', Watched prog i stable kept w ({ S with shared := u }.settle j call tested p)
      owner' := by
  have hothers : ∀ {th : Thread κ ι σ ε α} {j' call' tested' p'}, j' ≠ j →
      (S.threads.set j th)[j']? = some (.busy call' tested' p') →
      Before prog i stable kept w call' p' := by
    intro th j' call' tested' p' hne hbusy
    rw [List.getElem?_set_ne (Ne.symm hne)] at hbusy
    refine h.others j' call' tested' p' hbusy ?_
    rcases howner with rfl | rfl
    · exact nofun
    · exact fun heq => hne (Option.some.inj heq).symm
  rcases settle_cases { S with shared := u } j call tested p with ⟨a, rfl, heq⟩ | ⟨hne, heq⟩
  · refine ⟨none, ?_⟩
    rw [heq]
    refine ⟨hstable, ?_, nofun, ?_, ?_⟩
    · intro j' call' tested' p' hbusy _
      by_cases hjj : j' = j
      · subst hjj
        obtain ⟨hlt, hidle⟩ := List.getElem?_eq_some_iff.mp hbusy
        simp at hidle
      · exact hothers hjj hbusy
    · rintro ⟨e, he, hkept⟩
      rcases List.mem_append.mp he with he | he
      · exact absurd hkept (hlog e he)
      · obtain rfl := List.mem_singleton.mp he
        refine ⟨rfl, hheld.resolve_right ?_⟩
        rintro ⟨b, hb, hnot⟩
        cases hb
        exact hnot hkept
    · intro l₁ e l₂ hsplit hkept e' he'
      rcases log_cases hsplit with ⟨rfl, -⟩ | ⟨l₃, rfl, hlog'⟩
      · cases he'
      · exact absurd hkept (hlog e (by rw [hlog']; simp))
  · refine ⟨some j, ?_⟩
    rw [heq]
    refine ⟨hstable, ?_, ?_, ?_, h.after⟩
    · intro j' call' tested' p' hbusy hown
      exact hothers (fun heq' => hown (by rw [heq'])) hbusy
    · rintro k hk
      obtain rfl := Option.some.inj hk
      refine ⟨hheld.resolve_right fun ⟨a, ha, _⟩ => hne a ha, call, tested, p, ?_, hp⟩
      exact List.getElem?_set_self hj
    · rintro ⟨e, he, hkept⟩
      exact absurd hkept (hlog e he)

variable [DecidableEq ι]

/-- **Step lemma.** Whichever thread moves, the invariant is kept. -/
theorem Watched.step (hprog : ∀ call, (prog call).Outer i stable (kept call))
    (h : Watched prog i stable kept w S owner) {choice : Nat × κ}
    (hstep : Threads.step prog S choice = .ok S') :
    ∃ owner', Watched prog i stable kept w S' owner' := by
  obtain ⟨j, chosen⟩ := choice
  rcases step_cases hstep with ⟨hidle, rfl⟩ | ⟨call, tested, p, u, tested', p', hbusy, haccess, rfl⟩
  · have hj : owner ≠ some j := by
      rintro rfl
      obtain ⟨-, call, tested, p, hbusy, -⟩ := h.owned j rfl
      rw [hidle] at hbusy
      cases hbusy
    exact ⟨owner, h.outside hj h.stable_eq rfl ⟨hprog chosen, id⟩⟩
  have hlt := (List.getElem?_eq_some_iff.mp hbusy).1
  by_cases hj : owner = some j
  · -- the owner makes an access
    subst hj
    obtain ⟨hflag, call', tested'', q, hbusy', hinside⟩ := h.owned j rfl
    cases hbusy.symm.trans hbusy'
    have hlog : ∀ e ∈ S.log, ¬kept e.2.1 e.2.2 := fun e he hkept =>
      nomatch (h.dead ⟨e, he, hkept⟩).1
    cases p with
    | ret a => cases haccess
    | fail e => cases haccess
    | read k =>
        cases haccess
        exact h.inside (Or.inr rfl) hlt hlog h.stable_eq (hinside _) (Or.inl hflag)
    | write f p =>
        cases hf : f S.shared.data with
        | error e => simp [Prog.access, hf] at haccess
        | ok d =>
            simp only [Prog.access, hf] at haccess
            cases haccess
            exact h.inside (Or.inr rfl) hlt hlog ((hinside.1 _ _ hf).trans h.stable_eq) hinside.2
              (Or.inl hflag)
    | lock i' p =>
        have hother : ∀ b, (S.shared.setFlag i' b).flag i = true := fun b =>
          (S.shared.setFlag_of_ne (Ne.symm hinside.1) b).trans hflag
        cases tested with
        | false =>
            simp only [Prog.access, Bool.false_eq_true, if_false] at haccess
            cases haccess
            exact h.inside (Or.inr rfl) hlt hlog h.stable_eq hinside (Or.inl hflag)
        | true =>
            simp only [Prog.access, if_true] at haccess
            cases haccess
            refine h.inside (Or.inr rfl) hlt hlog h.stable_eq ?_ (Or.inl (hother true))
            split
            · exact hinside
            · exact hinside.2
    | unlock i' p =>
        cases haccess
        by_cases hi : i' = i
        · subst hi
          obtain ⟨a, rfl, hnot⟩ := hinside.1 rfl
          exact h.inside (Or.inr rfl) hlt hlog h.stable_eq trivial (Or.inr ⟨a, rfl, hnot⟩)
        · exact h.inside (Or.inr rfl) hlt hlog h.stable_eq (hinside.2 hi)
            (Or.inl ((S.shared.setFlag_of_ne (Ne.symm hi) false).trans hflag))
  · -- another thread makes an access
    obtain ⟨houter, hneeds⟩ := h.others j call tested p hbusy hj
    cases p with
    | ret a => cases haccess
    | fail e => cases haccess
    | read k =>
        cases haccess
        exact ⟨owner, h.outside hj h.stable_eq rfl
          ⟨houter _, fun hn => hneeds hn _ h.stable_eq⟩⟩
    | write f p =>
        cases hf : f S.shared.data with
        | error e => simp [Prog.access, hf] at haccess
        | ok d =>
            simp only [Prog.access, hf] at haccess
            cases haccess
            exact ⟨owner, h.outside hj ((houter.1 _ _ hf).trans h.stable_eq) rfl
              ⟨houter.2, hneeds⟩⟩
    | lock i' p =>
        cases tested with
        | false =>
            simp only [Prog.access, Bool.false_eq_true, if_false] at haccess
            cases haccess
            exact ⟨owner, h.outside hj h.stable_eq rfl ⟨houter, hneeds⟩⟩
        | true =>
            simp only [Prog.access, if_true] at haccess
            cases haccess
            by_cases hi : i' = i
            · subst hi
              cases hflag : S.shared.flag i' with
              | true =>
                  -- the exchange stores what is there
                  rw [Shared.setFlag_eq_self hflag]
                  exact ⟨owner, h.outside hj h.stable_eq rfl ⟨houter, hneeds⟩⟩
              | false =>
                  -- the thread becomes the owner
                  have hnone : owner = none := by
                    cases owner with
                    | none => rfl
                    | some k => exact absurd (h.owned k rfl).1 (by rw [hflag]; decide)
                  have hlog : ∀ e ∈ S.log, ¬kept e.2.1 e.2.2 := fun e he hkept =>
                    absurd (h.dead ⟨e, he, hkept⟩).2 (by rw [hflag]; decide)
                  exact h.inside (Or.inl hnone) hlt hlog h.stable_eq (houter.1 rfl)
                    (Or.inl (S.shared.setFlag_self i' true))
            · refine ⟨owner, h.outside hj h.stable_eq (S.shared.setFlag_of_ne (Ne.symm hi) true) ?_⟩
              split
              · exact ⟨houter, hneeds⟩
              · exact ⟨houter.2 hi, fun hn => (hneeds hn).resolve_left hi⟩
    | unlock i' p =>
        cases haccess
        exact ⟨owner, h.outside hj h.stable_eq (S.shared.setFlag_of_ne (Ne.symm houter.1) false)
          ⟨houter.2, hneeds⟩⟩

/-- **A lock left behind.** From a state with all threads idle: after an
answer of the kind that is given with lock `i` kept, no call that needs the
lock makes its last access. -/
theorem left_behind (hprog : ∀ call, (prog call).Outer i stable (kept call)) (s : Shared ι σ)
    (n : Nat) {schedule : List (Nat × κ)}
    (hrun : Runs.exec (Threads.step prog) (start s n) schedule = .ok S)
    {before after : List (Nat × κ × α)} {e : Nat × κ × α} (hlog : S.log = before ++ e :: after)
    (hkept : kept e.2.1 e.2.2) :
    ∀ e' ∈ after, ¬(prog e'.2.1).Needs i stable (stable s.data) := by
  obtain ⟨owner, h⟩ := Runs.exec_keeps
    (fun S => ∃ owner, Watched prog i stable kept (stable s.data) S owner)
    (fun _ _ _ ⟨_, h⟩ hstep => h.step hprog hstep) ⟨none, watched_start s n⟩ hrun
  exact h.after before e after hlog hkept

end Threads

end MemAlloc
