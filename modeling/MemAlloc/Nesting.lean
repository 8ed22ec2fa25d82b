import MemAlloc.Runs

/-!
# Nested runs

Some calls of a component take back the newest call that has not been taken
back yet; `back` says which. `outstanding` lists the calls that are left of a
run when each of these has cancelled the call it takes back.

`exec_outstanding` is the rule: where taking a call back immediately gives
the state before it, a run leads where the calls outstanding lead alone. It
may not take back more than it has called (`hbase`).
-/

namespace MemAlloc

namespace Nesting

open Runs

variable {σ ι ε : Type*} (back : ι → Bool)

/-- The calls not taken back, the newest first; the first argument has those
of the run so far. -/
def pending : List ι → List ι → List ι
  | waiting, [] => waiting
  | waiting, i :: is => pending (if back i then waiting.tail else i :: waiting) is

/-- The same in the order they were made in. -/
def outstanding (is : List ι) : List ι := (pending back [] is).reverse

variable (step : σ → ι → Except ε σ) (Inv : σ → Prop) (Adm : σ → ι → Prop) (s₀ : σ)

/-- The calls, listed from the newest on, lead from `s₀` to the state. -/
def Leads : List ι → σ → Prop
  | [], s => s = s₀
  | i :: waiting, s =>
      ∃ s', Leads waiting s' ∧ Inv s' ∧ Adm s' i ∧ back i = false ∧ step s' i = .ok s

variable {step back Inv Adm s₀}

theorem Leads.exec : ∀ {waiting : List ι} {s : σ}, Leads back step Inv Adm s₀ waiting s →
    exec step s₀ waiting.reverse = .ok s
  | [], s, h => by
      obtain rfl : s = s₀ := h
      rfl
  | i :: waiting, s, ⟨s', h, _, _, _, hok⟩ => by
      rw [List.reverse_cons, exec_append h.exec, exec_cons_ok hok]
      rfl

/-- An observation that every call outstanding adds one to. -/
theorem Leads.measure {measure : σ → Nat}
    (hone : ∀ s i s', Inv s → Adm s i → back i = false → step s i = .ok s' →
      measure s' = measure s + 1) :
    ∀ {waiting : List ι} {s : σ}, Leads back step Inv Adm s₀ waiting s →
      measure s = measure s₀ + waiting.length
  | [], s, h => by
      obtain rfl : s = s₀ := h
      rfl
  | i :: waiting, s, ⟨s', h, hinv, hadm, hback, hok⟩ => by
      rw [hone s' i s hinv hadm hback hok, h.measure hone, List.length_cons, Nat.add_assoc]

variable (hbase : ∀ j, Adm s₀ j → back j = false)
  (hpush : ∀ s i, Inv s → Adm s i → back i = false → ∃ s', step s i = .ok s' ∧ Inv s')
  (hpop : ∀ s i s' j, Inv s → Adm s i → back i = false → step s i = .ok s' → Adm s' j →
    back j = true → step s' j = .ok s)
include hbase hpush hpop

/-- A call either waits to be taken back or cancels the newest that does. -/
theorem exec_leads : ∀ (waiting : List ι) {is : List ι} {s : σ},
    Leads back step Inv Adm s₀ waiting s → Inv s → All step Adm s is →
    ∃ t, exec step s is = .ok t ∧ Inv t ∧ Leads back step Inv Adm s₀ (pending back waiting is) t
  | _, [], s, hleads, hs, _ => ⟨s, rfl, hs, hleads⟩
  | waiting, i :: is, s, hleads, hs, hadm => by
      obtain ⟨hi, hrest⟩ := all_cons.mp hadm
      cases hback : back i with
      | false =>
          obtain ⟨s', hok, hs'⟩ := hpush s i hs hi hback
          obtain ⟨t, hrun, ht⟩ := exec_leads (i :: waiting)
            ⟨s, hleads, hs, hi, hback, hok⟩ hs' (hrest s' hok)
          exact ⟨t, by rw [exec_cons_ok hok, hrun], by rw [pending, hback]; exact ht⟩
      | true =>
          cases waiting with
          | nil =>
              obtain rfl : s = s₀ := hleads
              rw [hbase i hi] at hback
              cases hback
          | cons j waiting =>
              obtain ⟨s', hleads', hs', hj, hbackj, hokj⟩ := hleads
              have hok := hpop s' j s i hs' hj hbackj hokj hi hback
              obtain ⟨t, hrun, ht⟩ := exec_leads waiting hleads' hs' (hrest s' hok)
              exact ⟨t, by rw [exec_cons_ok hok, hrun], by rw [pending, hback]; exact ht⟩

/-- **Nested calls cancel.** -/
theorem exec_outstanding (hs : Inv s₀) {is : List ι} (hadm : All step Adm s₀ is) :
    ∃ t, exec step s₀ is = .ok t ∧ Inv t ∧ exec step s₀ (outstanding back is) = .ok t ∧
      ∀ measure : σ → Nat, (∀ s i s', Inv s → Adm s i → back i = false → step s i = .ok s' →
        measure s' = measure s + 1) → measure t = measure s₀ + (outstanding back is).length := by
  obtain ⟨t, hrun, ht, hleads⟩ := exec_leads hbase hpush hpop [] rfl hs hadm
  refine ⟨t, hrun, ht, hleads.exec, fun measure hone => ?_⟩
  rw [hleads.measure hone, outstanding, List.length_reverse]

end Nesting

end MemAlloc
