import Mathlib.Data.List.Perm.Basic

/-!
# One coalescing pass over an unordered array

An array of entries is walked from its last index down. The entry at the
current index (the *pivot*) looks for a lower-indexed entry it touches,
highest index first; if there is one the pivot is joined into it and the
last entry of the array is moved into the pivot's place, otherwise nothing
happens. The walk then goes on below the pivot.

The pass is generic in the entries, in `touch` and in `join`. Two results:

- `pass_induction` - a property of the array as a multiset survives the
  pass when it survives joining two entries that touch;
- `pass_separated` - afterwards no two entries touch, although every pivot
  was joined at most once and the entries moved into a pivot's place are
  not visited again.

The second rests on `Settled q`: no entry at an index from `q` on touches
any other. A join makes an entry *below* the pivot grow, and what the grown
entry touches, one of its two parts touched (`Laws.touch_join`), so the
settled entries stay settled; the entry moved down was settled already.
-/

namespace MemAlloc

namespace Coalesce

variable {β : Type*}

/-! ## Removal by moving the last entry -/

/-- Removes the entry at `q` by moving the last entry into its place. -/
def swapRemove (l : List β) (q : Nat) : List β :=
  match l.getLast? with
  | some x => (l.set q x).dropLast
  | none => l

theorem swapRemove_perm {l : List β} {q : Nat} (hq : q < l.length) :
    (swapRemove l q).Perm (l.eraseIdx q) := by
  rcases List.eq_nil_or_concat l with rfl | ⟨l', x, rfl⟩
  · exact absurd hq (Nat.not_lt_zero q)
  · rw [List.concat_eq_append] at hq ⊢
    simp only [swapRemove, List.getLast?_concat]
    rw [List.length_append, List.length_singleton] at hq
    by_cases hlast : q = l'.length
    · subst hlast
      rw [List.set_append_right _ _ (Nat.le_refl _),
        List.eraseIdx_append_of_length_le (Nat.le_refl _)]
      simp
    · have hlt : q < l'.length := by omega
      rw [List.set_append_left _ _ hlt, List.dropLast_concat,
        List.eraseIdx_append_of_lt_length hlt]
      exact (List.set_perm_cons_eraseIdx hlt x).trans (List.perm_append_singleton x _).symm

theorem getElem?_swapRemove {l : List β} {q k : Nat} (hq : q < l.length) :
    (swapRemove l q)[k]? =
      if k < l.length - 1 then if k = q then l[l.length - 1]? else l[k]? else none := by
  rcases List.eq_nil_or_concat l with rfl | ⟨l', x, rfl⟩
  · exact absurd hq (Nat.not_lt_zero q)
  · rw [List.concat_eq_append] at hq ⊢
    simp only [swapRemove, List.getLast?_concat, List.getElem?_dropLast, List.length_set]
    rw [List.length_append, List.length_singleton] at hq ⊢
    by_cases hk : k < l'.length + 1 - 1
    · rw [if_pos hk, if_pos hk, List.getElem?_set]
      by_cases hkq : q = k
      · subst hkq
        simp [hq]
      · rw [if_neg hkq, if_neg (Ne.symm hkq)]
    · rw [if_neg hk, if_neg hk]

/-! ## The pass -/

variable (touch : β → β → Bool) (join : β → β → β)

/-- The highest index below `i` whose entry touches `b`. -/
def partner (l : List β) (b : β) : Nat → Option Nat
  | 0 => none
  | i + 1 => if (l[i]?).any (touch · b) then some i else partner l b i

/-- Joins the pivot `q` into its partner, if it has one. -/
def mergeAt (l : List β) (q : Nat) : List β :=
  match l[q]? with
  | none => l
  | some b =>
      match partner touch l b q with
      | none => l
      | some i => swapRemove (l.modify i (join · b)) q

/-- The pivots below `q`, from the highest down. -/
def passFrom (l : List β) : Nat → List β
  | 0 => l
  | q + 1 => passFrom (mergeAt touch join l q) q

/-- One pass over the whole array. -/
def pass (l : List β) : List β := passFrom touch join l l.length

variable {touch} {join}

theorem partner_none {l : List β} {b : β} : ∀ {n : Nat}, partner touch l b n = none →
    ∀ i a, i < n → l[i]? = some a → touch a b = false
  | 0, _, i, _, hi, _ => absurd hi (Nat.not_lt_zero i)
  | n + 1, h, i, a, hi, ha => by
      rw [partner] at h
      split at h
      · cases h
      · rename_i hany
        rcases Nat.lt_succ_iff_lt_or_eq.mp hi with hlt | rfl
        · exact partner_none h i a hlt ha
        · simpa [ha] using hany

theorem partner_some {l : List β} {b : β} {i : Nat} : ∀ {n : Nat}, partner touch l b n = some i →
    i < n ∧ ∃ a, l[i]? = some a ∧ touch a b = true
  | 0, h => by cases h
  | n + 1, h => by
      rw [partner] at h
      split at h
      · rename_i hany
        obtain rfl := Option.some.inj h
        cases ha : l[n]? with
        | none => simp [ha] at hany
        | some a => exact ⟨Nat.lt_succ_self n, a, rfl, by simpa [ha] using hany⟩
      · obtain ⟨hlt, ha⟩ := partner_some h
        exact ⟨Nat.lt_succ_of_lt hlt, ha⟩

/-- What one pivot can do: nothing, when no lower entry touches it, or join
itself into a lower entry that does. -/
theorem mergeAt_cases (join : β → β → β) {l : List β} {q : Nat} {b : β} (hb : l[q]? = some b) :
    (mergeAt touch join l q = l ∧ ∀ i a, i < q → l[i]? = some a → touch a b = false) ∨
      ∃ i a, i < q ∧ l[i]? = some a ∧ touch a b = true ∧
        mergeAt touch join l q = swapRemove (l.set i (join a b)) q := by
  simp only [mergeAt, hb]
  cases hp : partner touch l b q with
  | none => exact Or.inl ⟨rfl, partner_none hp⟩
  | some i =>
      obtain ⟨hlt, a, ha, ht⟩ := partner_some hp
      refine Or.inr ⟨i, a, hlt, ha, ht, ?_⟩
      show swapRemove (l.modify i (join · b)) q = swapRemove (l.set i (join a b)) q
      rw [List.modify_eq_set_getElem?, ha]
      rfl

theorem mergeAt_of_length_le {l : List β} {q : Nat} (hq : l.length ≤ q) :
    mergeAt touch join l q = l := by
  simp [mergeAt, List.getElem?_eq_none hq]

/-- A join, seen on the multiset of entries: the two parts are replaced by
the whole. -/
theorem join_perm {l : List β} {i q : Nat} {a b : β} (c : β) (hiq : i < q) (ha : l[i]? = some a)
    (hb : l[q]? = some b) : ∃ rest : List β, l.Perm (a :: b :: rest) ∧
      (swapRemove (l.set i c) q).Perm (c :: rest) := by
  obtain ⟨hi, rfl⟩ := List.getElem?_eq_some_iff.mp ha
  obtain ⟨hq, rfl⟩ := List.getElem?_eq_some_iff.mp hb
  have hq1 : q - 1 < (l.eraseIdx i).length := by rw [List.length_eraseIdx_of_lt hi]; omega
  have hget : (l.eraseIdx i)[q - 1] = l[q] := by
    rw [List.getElem_eraseIdx_of_ge hq1 (by omega)]
    congr 1
    omega
  refine ⟨(l.eraseIdx i).eraseIdx (q - 1), ?_, ?_⟩
  · have h1 := List.getElem_cons_eraseIdx_perm hi
    have h2 := List.getElem_cons_eraseIdx_perm hq1
    rw [hget] at h2
    exact (h1.symm).trans (h2.symm.cons _)
  · have hqs : q < (l.set i c).length := by rwa [List.length_set]
    have h1 := List.getElem_cons_eraseIdx_perm hqs
    have h2 := List.set_perm_cons_eraseIdx hi c
    have h3 := List.getElem_cons_eraseIdx_perm hq1
    rw [hget] at h3
    rw [List.getElem_set_ne (by omega)] at h1
    have h4 : (l[q] :: (l.set i c).eraseIdx q).Perm
        (l[q] :: c :: (l.eraseIdx i).eraseIdx (q - 1)) :=
      h1.trans (h2.trans ((h3.symm.cons c).trans (List.Perm.swap _ _ _)))
    exact (swapRemove_perm hqs).trans h4.cons_inv

/-! ## What the pass keeps -/

/-- A property of the multiset of entries that survives a join of two
entries that touch survives the processing of a pivot, hence the pass. -/
theorem mergeAt_induction {P : List β → Prop} (hperm : ∀ l l', l.Perm l' → P l → P l')
    (hjoin : ∀ a b rest, touch a b = true → P (a :: b :: rest) → P (join a b :: rest))
    {l : List β} (h : P l) (q : Nat) : P (mergeAt touch join l q) := by
  cases hb : l[q]? with
  | none => rwa [mergeAt_of_length_le (List.getElem?_eq_none_iff.mp hb)]
  | some b =>
      rcases mergeAt_cases join hb with ⟨heq, -⟩ | ⟨i, a, hiq, ha, ht, heq⟩
      · rwa [heq]
      · obtain ⟨rest, hl, hl'⟩ := join_perm (join a b) hiq ha hb
        rw [heq]
        exact hperm _ _ hl'.symm (hjoin a b rest ht (hperm _ _ hl h))

theorem passFrom_induction {P : List β → Prop} (hperm : ∀ l l', l.Perm l' → P l → P l')
    (hjoin : ∀ a b rest, touch a b = true → P (a :: b :: rest) → P (join a b :: rest)) :
    ∀ {q : Nat} {l : List β}, P l → P (passFrom touch join l q)
  | 0, _, h => h
  | q + 1, l, h => by
      rw [passFrom]
      exact passFrom_induction hperm hjoin (mergeAt_induction hperm hjoin h q)

theorem pass_induction {P : List β → Prop} (hperm : ∀ l l', l.Perm l' → P l → P l')
    (hjoin : ∀ a b rest, touch a b = true → P (a :: b :: rest) → P (join a b :: rest))
    {l : List β} (h : P l) : P (pass touch join l) :=
  passFrom_induction hperm hjoin h

/-! ## Completeness of the pass -/

/-- What `touch` and `join` have to satisfy on the admissible entries. -/
structure Laws (touch : β → β → Bool) (join : β → β → β) (ok : β → Prop) : Prop where
  touch_comm : ∀ a b, touch a b = touch b a
  join_ok : ∀ a b, ok a → ok b → touch a b = true → ok (join a b)
  touch_join : ∀ a b c, ok a → ok b → ok c → touch a b = true → touch (join a b) c = true →
    touch a c = true ∨ touch b c = true

/-- The entries from index `q` on touch no other entry. -/
def Settled (touch : β → β → Bool) (q : Nat) (l : List β) : Prop :=
  ∀ k j a b, q ≤ k → j ≠ k → l[k]? = some a → l[j]? = some b → touch a b = false

variable {ok : β → Prop}

/-- Processing the pivot `q` settles index `q`. -/
theorem Settled.mergeAt (laws : Laws touch join ok) {l : List β} {q : Nat}
    (hok : ∀ a ∈ l, ok a) (h : Settled touch (q + 1) l) :
    Settled touch q (mergeAt touch join l q) := by
  cases hb : l[q]? with
  | none =>
      have hlen := List.getElem?_eq_none_iff.mp hb
      rw [mergeAt_of_length_le hlen]
      intro k j a b' hk hjk ha hb'
      have hkl : k < l.length := (List.getElem?_eq_some_iff.mp ha).1
      omega
  | some b =>
      have hq : q < l.length := (List.getElem?_eq_some_iff.mp hb).1
      rcases mergeAt_cases join hb with ⟨heq, hnone⟩ | ⟨i, a, hiq, ha, ht, heq⟩
      · rw [heq]
        intro k j x y hk hjk hx hy
        rcases Nat.lt_or_eq_of_le hk with hlt | rfl
        · exact h k j x y hlt hjk hx hy
        · obtain rfl := Option.some.inj (hb.symm.trans hx)
          rw [laws.touch_comm]
          rcases Nat.lt_or_gt_of_ne hjk with hj | hj
          · exact hnone j y hj hy
          · exact h j q y b hj hjk.symm hy hb
      · rw [heq]
        intro k j x y hk hjk hx hy
        have hqs : q < (l.set i (join a b)).length := by rwa [List.length_set]
        rw [getElem?_swapRemove hqs, List.length_set] at hx hy
        -- `x` sat at a settled index `k'` of the old array
        obtain ⟨k', hk', hxk, hkk⟩ : ∃ k', q < k' ∧ l[k']? = some x ∧
            (k' = k ∧ k ≠ q ∧ k < l.length - 1 ∨ k' = l.length - 1 ∧ k = q) := by
          split at hx
          · rename_i hlt
            split at hx
            · rename_i hkq
              rw [List.getElem?_set_ne (by omega)] at hx
              exact ⟨l.length - 1, by omega, hx, Or.inr ⟨rfl, hkq⟩⟩
            · rename_i hkq
              rw [List.getElem?_set_ne (by omega)] at hx
              exact ⟨k, by omega, hx, Or.inl ⟨rfl, hkq, hlt⟩⟩
          · cases hx
        have hset : ∀ j' b', j' ≠ k' → l[j']? = some b' → touch x b' = false :=
          fun j' b' hne hb' => h k' j' x b' hk' hne hxk hb'
        split at hy
        · by_cases hjq : j = q
          · rw [if_pos hjq, List.getElem?_set_ne (by omega)] at hy
            exact hset _ y (by omega) hy
          · rw [if_neg hjq] at hy
            by_cases hji : j = i
            · -- the grown entry: one of its parts would touch `x`
              subst hji
              rw [List.getElem?_set_self (by omega)] at hy
              obtain rfl := Option.some.inj hy
              by_contra hne
              rw [Bool.not_eq_false, laws.touch_comm] at hne
              rcases laws.touch_join a b x (hok a (List.mem_of_getElem? ha))
                (hok b (List.mem_of_getElem? hb)) (hok x (List.mem_of_getElem? hxk)) ht hne
                with hax | hbx
              · rw [laws.touch_comm, hset j a (by omega) ha] at hax
                cases hax
              · rw [laws.touch_comm, hset q b (by omega) hb] at hbx
                cases hbx
            · rw [List.getElem?_set_ne (Ne.symm hji)] at hy
              exact hset j y (by omega) hy
        · cases hy

theorem mergeAt_ok (laws : Laws touch join ok) {l : List β} (hok : ∀ a ∈ l, ok a) (q : Nat) :
    ∀ a ∈ mergeAt touch join l q, ok a := by
  refine mergeAt_induction (P := fun l => ∀ a ∈ l, ok a)
    (fun l l' hp h a ha => h a (hp.mem_iff.mpr ha)) (fun a b rest ht h x hx => ?_) hok q
  rcases List.mem_cons.mp hx with rfl | hx'
  · exact laws.join_ok a b (h a (by simp)) (h b (by simp)) ht
  · exact h x (by simp [hx'])

theorem passFrom_settled (laws : Laws touch join ok) : ∀ {q : Nat} {l : List β},
    (∀ a ∈ l, ok a) → Settled touch q l → Settled touch 0 (passFrom touch join l q)
  | 0, _, _, h => h
  | q + 1, l, hok, h => by
      rw [passFrom]
      exact passFrom_settled laws (mergeAt_ok laws hok q) (h.mergeAt laws hok)

/-- **Completeness of one pass**: afterwards no two entries touch. -/
theorem pass_separated (laws : Laws touch join ok) {l : List β} (hok : ∀ a ∈ l, ok a) :
    (pass touch join l).Pairwise fun a b => touch a b = false := by
  have hstart : Settled touch l.length l := by
    intro k j a b hk hjk ha hb
    have : k < l.length := (List.getElem?_eq_some_iff.mp ha).1
    omega
  have hset := passFrom_settled laws hok hstart
  refine List.pairwise_iff_getElem.mpr ?_
  intro i j hi hj hij
  exact hset i j _ _ (Nat.zero_le i) (by omega) (List.getElem?_eq_getElem hi)
    (List.getElem?_eq_getElem hj)

/-- An array no two of whose entries touch is left as it is. -/
theorem mergeAt_eq_self {l : List β} (hsep : l.Pairwise fun a b => touch a b = false) (q : Nat) :
    mergeAt touch join l q = l := by
  cases hb : l[q]? with
  | none => exact mergeAt_of_length_le (List.getElem?_eq_none_iff.mp hb)
  | some b =>
      rcases mergeAt_cases join hb with ⟨heq, -⟩ | ⟨i, a, hiq, ha, ht, -⟩
      · exact heq
      · obtain ⟨hi, rfl⟩ := List.getElem?_eq_some_iff.mp ha
        obtain ⟨hq, rfl⟩ := List.getElem?_eq_some_iff.mp hb
        rw [List.pairwise_iff_getElem.mp hsep i q hi hq hiq] at ht
        cases ht

theorem passFrom_eq_self {l : List β} (hsep : l.Pairwise fun a b => touch a b = false) :
    ∀ {q : Nat}, passFrom touch join l q = l
  | 0 => rfl
  | q + 1 => by rw [passFrom, mergeAt_eq_self hsep, passFrom_eq_self hsep]

end Coalesce

end MemAlloc
