import Mathlib.Data.List.Basic
import Mathlib.Logic.Relation

/-!
# Runs of a sequential component

A component is a state type `σ`, a type `ι` of calls and a step
`σ → ι → Except ε σ`, where an error means that the call does not return
(it hangs, or its behaviour is undefined). `exec` makes a list of calls in
order; `steps` lists the calls of a run together with the state each one
was made in, up to and including the first that does not return.

Four rules carry every whole-run result:

- `exec_keeps` - an invariant that every call which returns keeps holds at
  the end of every run that returns;
- `exec_inv` - an invariant that each admitted call keeps holds at the end
  of a run of admitted calls, and no call of the run got stuck;
- `steps_inv` - it holds in every state a call was made in;
- `steps_iff` - if in each invariant state a property of the call holds
  exactly under a condition that keeps the invariant, the property holds
  all along a run exactly when the condition does.

`exec_simulates` and `exec_reaches` are the first two with a simulation: if
each call takes what is seen of the state a step of a relation further, a
run takes it as many steps.
-/

namespace MemAlloc

namespace Runs

variable {σ ι ε : Type*} (step : σ → ι → Except ε σ)

/-- The state after the calls, or the first error. -/
def exec : σ → List ι → Except ε σ
  | s, [] => .ok s
  | s, i :: is =>
      match step s i with
      | .ok s' => exec s' is
      | .error e => .error e

/-- The calls of a run, each with the state it was made in. -/
def steps : σ → List ι → List (σ × ι)
  | _, [] => []
  | s, i :: is =>
      (s, i) :: match step s i with
        | .ok s' => steps s' is
        | .error _ => []

/-- Every call of the run satisfies `R` in the state it was made in. -/
def All (R : σ → ι → Prop) (s : σ) (is : List ι) : Prop :=
  ∀ x ∈ steps step s is, R x.1 x.2

variable {step}

instance {R : σ → ι → Prop} [∀ s i, Decidable (R s i)] (s : σ) (is : List ι) :
    Decidable (All step R s is) :=
  inferInstanceAs (Decidable (∀ x ∈ steps step s is, R x.1 x.2))

theorem exec_cons_ok {s s' : σ} {i : ι} (h : step s i = .ok s') (is : List ι) :
    exec step s (i :: is) = exec step s' is := by
  rw [exec, h]

theorem exec_cons_error {s : σ} {i : ι} {e : ε} (h : step s i = .error e) (is : List ι) :
    exec step s (i :: is) = .error e := by
  rw [exec, h]

@[simp] theorem all_nil (R : σ → ι → Prop) (s : σ) : All step R s [] := by
  simp [All, steps]

/-- A run satisfies `R` throughout when its first call does and, if that
call returns, the rest of the run does. -/
theorem all_cons {R : σ → ι → Prop} {s : σ} {i : ι} {is : List ι} :
    All step R s (i :: is) ↔ R s i ∧ ∀ s', step s i = .ok s' → All step R s' is := by
  simp only [All, steps, List.mem_cons, forall_eq_or_imp]
  refine and_congr_right ?_
  intro _
  cases h : step s i with
  | ok s' => simp
  | error e => simp

theorem All.uncons {R : σ → ι → Prop} {s : σ} {i : ι} {is : List ι}
    (hall : All step R s (i :: is)) : R s i ∧ ∀ s', step s i = .ok s' → All step R s' is :=
  all_cons.mp hall

/-- What holds of each call in any state holds along every run. -/
theorem all_of_forall {R : σ → ι → Prop} {s : σ} {is : List ι} (h : ∀ i ∈ is, ∀ s, R s i) :
    All step R s is := by
  induction is generalizing s with
  | nil => exact all_nil R s
  | cons i is ih =>
      exact all_cons.mpr ⟨h i (List.mem_cons_self ..) s, fun _ _ =>
        ih fun j hj => h j (List.mem_cons_of_mem _ hj)⟩

theorem All.imp {R R' : σ → ι → Prop} {s : σ} {is : List ι} (h : ∀ s i, R s i → R' s i)
    (hall : All step R s is) : All step R' s is :=
  fun x hx => h x.1 x.2 (hall x hx)

/-- Calls made one list after the other. -/
theorem exec_append {s t : σ} {is js : List ι} (h : exec step s is = .ok t) :
    exec step s (is ++ js) = exec step t js := by
  induction is generalizing s with
  | nil => obtain rfl := Except.ok.inj h; rfl
  | cons i is ih =>
      cases hs : step s i with
      | ok s' =>
          rw [exec_cons_ok hs] at h
          rw [List.cons_append, exec_cons_ok hs, ih h]
      | error e => rw [exec_cons_error hs] at h; cases h

/-- A run that returns can be cut anywhere. -/
theorem exec_append_ok {s t : σ} {is js : List ι} (h : exec step s (is ++ js) = .ok t) :
    ∃ u, exec step s is = .ok u ∧ exec step u js = .ok t := by
  induction is generalizing s with
  | nil => exact ⟨s, rfl, h⟩
  | cons i is ih =>
      cases hs : step s i with
      | ok s' =>
          rw [List.cons_append, exec_cons_ok hs] at h
          rw [exec_cons_ok hs]
          exact ih h
      | error e => rw [List.cons_append, exec_cons_error hs] at h; cases h

theorem all_append {R : σ → ι → Prop} {s t : σ} {is js : List ι} (h : exec step s is = .ok t) :
    All step R s (is ++ js) ↔ All step R s is ∧ All step R t js := by
  induction is generalizing s with
  | nil => obtain rfl := Except.ok.inj h; simp
  | cons i is ih =>
      cases hs : step s i with
      | ok s' =>
          rw [exec_cons_ok hs] at h
          simp [all_cons, hs, ih h, and_assoc]
      | error e => rw [exec_cons_error hs] at h; cases h

/-! ## The invariant rules -/

variable (Inv : σ → Prop) {Adm : σ → ι → Prop}

/-- Whatever the calls, a run that returns keeps what each call keeps. -/
theorem exec_keeps (hstep : ∀ s i s', Inv s → step s i = .ok s' → Inv s') {s t : σ}
    {is : List ι} (hs : Inv s) (h : exec step s is = .ok t) : Inv t := by
  induction is generalizing s with
  | nil => obtain rfl := Except.ok.inj h; exact hs
  | cons i is ih =>
      cases hok : step s i with
      | ok s' =>
          rw [exec_cons_ok hok] at h
          exact ih (hstep s i s' hs hok) h
      | error e => rw [exec_cons_error hok] at h; cases h

/-- The whole-run rule: each admitted call from an invariant state returns
and keeps the invariant, hence so does a run of admitted calls. -/
theorem exec_inv (Adm : σ → ι → Prop)
    (hstep : ∀ s i, Inv s → Adm s i → ∃ s', step s i = .ok s' ∧ Inv s') {s : σ}
    {is : List ι} (hs : Inv s) (hadm : All step Adm s is) :
    ∃ t, exec step s is = .ok t ∧ Inv t := by
  induction is generalizing s with
  | nil => exact ⟨s, rfl, hs⟩
  | cons i is ih =>
      obtain ⟨hi, hrest⟩ := hadm.uncons
      obtain ⟨s', hok, hs'⟩ := hstep s i hs hi
      rw [exec_cons_ok hok]
      exact ih hs' (hrest s' hok)

/-- The invariant holds in every state a call of the run is made in. -/
theorem steps_inv (hstep : ∀ s i, Inv s → Adm s i → ∃ s', step s i = .ok s' ∧ Inv s') {s : σ}
    {is : List ι} (hs : Inv s) (hadm : All step Adm s is) :
    All step (fun s _ => Inv s) s is := by
  induction is generalizing s with
  | nil => exact all_nil _ s
  | cons i is ih =>
      obtain ⟨hi, hrest⟩ := hadm.uncons
      obtain ⟨s', hok, hs'⟩ := hstep s i hs hi
      refine all_cons.mpr ⟨hs, fun s'' hok' => ?_⟩
      obtain rfl := Except.ok.inj (hok.symm.trans hok')
      exact ih hs' (hrest s' hok)

/-- A property of single calls holds all along a run exactly when the
condition that decides it in invariant states does. -/
theorem steps_iff {T Cond : σ → ι → Prop}
    (hiff : ∀ s i, Inv s → Adm s i → (T s i ↔ Cond s i))
    (hstep : ∀ s i, Inv s → Adm s i → Cond s i → ∃ s', step s i = .ok s' ∧ Inv s') {s : σ}
    {is : List ι} (hs : Inv s) (hadm : All step Adm s is) :
    All step T s is ↔ All step Cond s is := by
  induction is generalizing s with
  | nil => simp
  | cons i is ih =>
      obtain ⟨hi, hrest⟩ := hadm.uncons
      rw [all_cons, all_cons, hiff s i hs hi]
      refine and_congr_right fun hc => forall₂_congr fun s'' hok' => ?_
      obtain ⟨s', hok, hs'⟩ := hstep s i hs hi hc
      obtain rfl := Except.ok.inj (hok.symm.trans hok')
      exact ih hs' (hrest s' hok)

/-- Likewise when every call that returns keeps the invariant, whether or not
it has the property. -/
theorem all_iff {T Cond : σ → ι → Prop} (hiff : ∀ s i, Inv s → Adm s i → (T s i ↔ Cond s i))
    (hstep : ∀ s i s', Inv s → Adm s i → step s i = .ok s' → Inv s') {s : σ} {is : List ι}
    (hs : Inv s) (hadm : All step Adm s is) : All step T s is ↔ All step Cond s is := by
  induction is generalizing s with
  | nil => simp
  | cons i is ih =>
      obtain ⟨hi, hrest⟩ := hadm.uncons
      rw [all_cons, all_cons, hiff s i hs hi]
      exact and_congr_right fun _ => forall₂_congr fun s' hok =>
        ih (hstep s i s' hs hi hok) (hrest s' hok)

/-- What the calls of a run put out adds up: an invariant of the state and
what was put out so far holds at the end of the whole output. -/
theorem exec_ledger {β : Type*} (Inv : σ → List β → Prop) (Adm : σ → ι → Prop)
    (out : σ → ι → List β)
    (hstep : ∀ s i s' pre, Inv s pre → Adm s i → step s i = .ok s' → Inv s' (pre ++ out s i))
    {is : List ι} : ∀ {s t : σ} (pre : List β), Inv s pre → All step Adm s is →
      exec step s is = .ok t → Inv t (pre ++ (steps step s is).flatMap fun x => out x.1 x.2) := by
  induction is with
  | nil =>
      intro s t pre hs _ h
      obtain rfl := Except.ok.inj h
      simpa [steps] using hs
  | cons i is ih =>
      intro s t pre hs hadm h
      obtain ⟨hi, hrest⟩ := hadm.uncons
      cases hok : step s i with
      | ok s' =>
          rw [exec_cons_ok hok] at h
          have ht := ih _ (hstep s i s' pre hs hi hok) (hrest s' hok) h
          simpa [steps, hok, List.append_assoc] using ht
      | error e => rw [exec_cons_error hok] at h; cases h

/-- An error no admitted call ends in is not what a run ends in. -/
theorem exec_ne_error (Adm : σ → ι → Prop) {e : ε}
    (hstep : ∀ s i s', Inv s → Adm s i → step s i = .ok s' → Inv s')
    (herror : ∀ s i, Inv s → Adm s i → step s i ≠ .error e) {is : List ι} :
    ∀ {s : σ}, Inv s → All step Adm s is → exec step s is ≠ .error e := by
  induction is with
  | nil => exact fun _ _ h => by cases h
  | cons i is ih =>
      intro s hs hadm
      obtain ⟨hi, hrest⟩ := hadm.uncons
      cases hok : step s i with
      | ok s' =>
          rw [exec_cons_ok hok]
          exact ih (hstep s i s' hs hi hok) (hrest s' hok)
      | error e' =>
          rw [exec_cons_error hok]
          exact fun heq => herror s i hs hi (hok.trans heq)

/-! ## Simulation -/

section

variable {τ : Type*} {R : τ → τ → Prop} (view : σ → τ)

/-- Whatever the calls, a run that returns is a run of the relation. -/
theorem exec_reaches
    (hstep : ∀ s i s', Inv s → step s i = .ok s' → Inv s' ∧ R (view s) (view s')) {s t : σ}
    {is : List ι} (hs : Inv s) (h : exec step s is = .ok t) :
    Relation.ReflTransGen R (view s) (view t) := by
  induction is generalizing s with
  | nil => obtain rfl := Except.ok.inj h; exact .refl
  | cons i is ih =>
      cases hok : step s i with
      | ok s' =>
          rw [exec_cons_ok hok] at h
          obtain ⟨hs', hR⟩ := hstep s i s' hs hok
          exact .head hR (ih hs' h)
      | error e => rw [exec_cons_error hok] at h; cases h

/-- A run of admitted calls returns, and is a run of the relation. -/
theorem exec_simulates (Adm : σ → ι → Prop)
    (hstep : ∀ s i, Inv s → Adm s i → ∃ s', step s i = .ok s' ∧ Inv s' ∧ R (view s) (view s'))
    {s : σ} {is : List ι} (hs : Inv s) (hadm : All step Adm s is) :
    ∃ t, exec step s is = .ok t ∧ Relation.ReflTransGen R (view s) (view t) := by
  induction is generalizing s with
  | nil => exact ⟨s, rfl, .refl⟩
  | cons i is ih =>
      obtain ⟨hi, hrest⟩ := hadm.uncons
      obtain ⟨s', hok, hs', hR⟩ := hstep s i hs hi
      obtain ⟨t, hrun, hreach⟩ := ih hs' (hrest s' hok)
      exact ⟨t, by rw [exec_cons_ok hok, hrun], .head hR hreach⟩

end

end Runs

end MemAlloc
