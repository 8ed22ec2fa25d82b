import MemAlloc.Runs

/-!
# Runs that note their answers

A component whose calls answer is a function `σ → κ → Except ε (α × σ)`;
`recording` turns it into one for `Runs`, which keeps the answers given so
far. `recording_simulates` is the refinement rule: if each admitted call of
two components answers alike and keeps a relation between their states, then
so does every run of admitted calls. `recording_alike` is the same for calls
that may get stuck in both, `exec_follows` the rule for calls without
answers.
-/

namespace MemAlloc

namespace Runs

variable {σ τ κ ε α : Type}

/-- A component that notes its answers. -/
def recording (serve : σ → κ → Except ε (α × σ)) (x : σ × List α) (call : κ) :
    Except ε (σ × List α) :=
  (serve x.1 call).map fun (a, s) => (s, x.2 ++ [a])

variable {serve : σ → κ → Except ε (α × σ)} {s s' : σ} {call : κ} {a : α}

theorem recording_ok (h : serve s call = .ok (a, s')) (pre : List α) :
    recording serve (s, pre) call = .ok (s', pre ++ [a]) := by
  rw [recording, h]
  rfl

theorem recording_error {e : ε} (h : serve s call = .error e) (pre : List α) :
    recording serve (s, pre) call = .error e := by
  rw [recording, h]
  rfl

/-- A recorded call answers, and the rest of the list follows. -/
theorem exec_recording (h : serve s call = .ok (a, s')) (pre : List α) (calls : List κ) :
    exec (recording serve) (s, pre) (call :: calls) =
      exec (recording serve) (s', pre ++ [a]) calls :=
  exec_cons_ok (recording_ok h pre) calls

/-- What was noted stays noted. -/
theorem exec_recording_prefix {calls : List κ} : ∀ {x y : σ} {pre answers : List α},
    exec (recording serve) (x, pre) calls = .ok (y, answers) → ∃ more, answers = pre ++ more := by
  induction calls with
  | nil =>
      intro x y pre answers h
      obtain ⟨-, rfl⟩ := Prod.mk.inj (Except.ok.inj h)
      exact ⟨[], (List.append_nil _).symm⟩
  | cons call calls ih =>
      intro x y pre answers h
      cases hcall : serve x call with
      | error e =>
          rw [exec_cons_error (recording_error hcall pre)] at h
          cases h
      | ok r =>
          rw [exec_recording hcall] at h
          obtain ⟨more, rfl⟩ := ih h
          exact ⟨r.1 :: more, List.append_assoc ..⟩

/-- **Refinement.** Calls that are admitted in the abstract component are
answered by both alike, and the relation between their states is kept. -/
theorem recording_simulates {serve' : τ → κ → Except ε (α × τ)} (R : σ → τ → Prop)
    (Adm : τ → κ → Prop)
    (hstep : ∀ s t call, R s t → Adm t call → ∃ a s' t',
      serve s call = .ok (a, s') ∧ serve' t call = .ok (a, t') ∧ R s' t') {calls : List κ} :
    ∀ {s : σ} {t : τ} {pre : List α}, R s t →
      All (recording serve') (fun x call => Adm x.1 call) (t, pre) calls →
      ∃ answers s' t', exec (recording serve) (s, pre) calls = .ok (s', answers) ∧
        exec (recording serve') (t, pre) calls = .ok (t', answers) ∧ R s' t' := by
  induction calls with
  | nil => exact fun {s t pre} hR _ => ⟨pre, s, t, rfl, rfl, hR⟩
  | cons call calls ih =>
      intro s t pre hR hadm
      obtain ⟨hcall, hrest⟩ := hadm.uncons
      obtain ⟨a, s', t', hs, ht, hR'⟩ := hstep s t call hR hcall
      rw [exec_recording hs, exec_recording ht]
      exact ih hR' (hrest _ (recording_ok ht pre))

/-- The outcomes of a call in two components: the same answer, in related
states after it, or the same error. -/
def Alike (R : σ → τ → Prop) (x : Except ε (α × σ)) (y : Except ε (α × τ)) : Prop :=
  (∃ a s t, x = .ok (a, s) ∧ y = .ok (a, t) ∧ R s t) ∨ ∃ e, x = .error e ∧ y = .error e

/-- Calls that end alike make runs that end alike. -/
theorem recording_alike {serve' : τ → κ → Except ε (α × τ)} (R : σ → τ → Prop)
    (Adm : τ → κ → Prop)
    (hstep : ∀ s t call, R s t → Adm t call → Alike R (serve s call) (serve' t call))
    {calls : List κ} : ∀ {s : σ} {t : τ} {pre : List α}, R s t →
      All (recording serve') (fun x call => Adm x.1 call) (t, pre) calls →
      (∃ answers s' t', exec (recording serve) (s, pre) calls = .ok (s', answers) ∧
        exec (recording serve') (t, pre) calls = .ok (t', answers) ∧ R s' t') ∨
      ∃ e, exec (recording serve) (s, pre) calls = .error e ∧
        exec (recording serve') (t, pre) calls = .error e := by
  induction calls with
  | nil => exact fun {s t pre} hR _ => Or.inl ⟨pre, s, t, rfl, rfl, hR⟩
  | cons call calls ih =>
      intro s t pre hR hadm
      obtain ⟨hcall, hrest⟩ := hadm.uncons
      rcases hstep s t call hR hcall with ⟨a, s', t', hs, ht, hR'⟩ | ⟨e, hs, ht⟩
      · rw [exec_recording hs, exec_recording ht]
        exact ih hR' (hrest _ (recording_ok ht pre))
      · exact Or.inr ⟨e, exec_cons_error (recording_error hs pre) calls,
          exec_cons_error (recording_error ht pre) calls⟩

/-- Likewise for calls that return nothing, and an abstract component that is
a function. -/
theorem exec_follows {step : σ → κ → Except ε σ} {next : τ → κ → τ} (R : σ → τ → Prop)
    (Adm : τ → κ → Prop)
    (hstep : ∀ s t call, R s t → Adm t call → ∃ s', step s call = .ok s' ∧ R s' (next t call))
    {calls : List κ} : ∀ {s : σ} {t : τ}, R s t →
      All (fun t call => (.ok (next t call) : Except ε τ)) Adm t calls →
      ∃ s', exec step s calls = .ok s' ∧ R s' (calls.foldl next t) := by
  induction calls with
  | nil => exact fun {s t} hR _ => ⟨s, rfl, hR⟩
  | cons call calls ih =>
      intro s t hR hadm
      obtain ⟨hcall, hrest⟩ := hadm.uncons
      obtain ⟨s', hs, hR'⟩ := hstep s t call hR hcall
      rw [exec_cons_ok hs]
      exact ih hR' (hrest _ rfl)

end Runs

end MemAlloc
