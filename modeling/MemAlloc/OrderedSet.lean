import Mathlib.Data.Finset.Sort

/-!
# Ordered sets with a key

`std::set` with a comparison of keys, as the sorted list of its elements:
two elements with equal keys count as equal, and `emplace` does nothing when
there is an element with the key already.

`mem_fill` is the law: of the elements emplaced, those stay that no earlier
one shares its key with. Where the key is the element itself, the set is the
sorted list of all of them (`fill_id`).
-/

namespace MemAlloc

namespace OrderedSet

variable {α κ : Type*} [LinearOrder κ] (key : α → κ)

def emplace (x : α) : List α → List α
  | [] => [x]
  | y :: l =>
      if key x < key y then x :: y :: l
      else if key y < key x then y :: emplace x l
      else y :: l

/-- The elements emplaced one after the other. -/
def fill (xs : List α) : List α := xs.foldl (fun l x => emplace key x l) []

/-- Sorted, with different keys. -/
def Sorted (l : List α) : Prop := l.Pairwise fun x y => key x < key y

variable {key} {x y : α} {l : List α}

theorem mem_of_mem_emplace : ∀ {l : List α}, y ∈ emplace key x l → y = x ∨ y ∈ l
  | [], h => Or.inl (List.mem_singleton.mp h)
  | z :: l, h => by
      rw [emplace] at h
      split at h
      · exact List.mem_cons.mp h
      · split at h
        · rcases List.mem_cons.mp h with rfl | h'
          · exact Or.inr (List.mem_cons_self ..)
          · exact (mem_of_mem_emplace h').imp_right (List.mem_cons_of_mem z)
        · exact Or.inr h

theorem Sorted.emplace (x : α) : ∀ {l : List α}, Sorted key l → Sorted key (emplace key x l)
  | [], _ => List.pairwise_singleton _ _
  | y :: l, h => by
      obtain ⟨hy, hl⟩ := List.pairwise_cons.mp h
      rw [OrderedSet.emplace]
      split
      · rename_i hxy
        refine List.pairwise_cons.mpr ⟨fun z hz => ?_, h⟩
        rcases List.mem_cons.mp hz with rfl | hz'
        · exact hxy
        · exact hxy.trans (hy z hz')
      · split
        · rename_i hyx
          refine List.pairwise_cons.mpr ⟨fun z hz => ?_, Sorted.emplace x hl⟩
          rcases mem_of_mem_emplace hz with rfl | hz'
          · exact hyx
          · exact hy z hz'
        · exact h

/-- A key that is taken: nothing changes. -/
theorem emplace_of_mem : ∀ {l : List α}, Sorted key l → y ∈ l → key y = key x →
    emplace key x l = l
  | z :: l, h, hy, heq => by
      obtain ⟨hz, hl⟩ := List.pairwise_cons.mp h
      rw [emplace]
      rcases List.mem_cons.mp hy with rfl | hy'
      · rw [if_neg (by rw [heq]; exact lt_irrefl _), if_neg (by rw [heq]; exact lt_irrefl _)]
      · have hlt := hz y hy'
        rw [heq] at hlt
        rw [if_neg (not_lt_of_gt hlt), if_pos hlt, emplace_of_mem hl hy' heq]

/-- A key that is not: the element joins the others. -/
theorem mem_emplace_of_forall : ∀ {l : List α}, (∀ z ∈ l, key z ≠ key x) →
    (y ∈ emplace key x l ↔ y = x ∨ y ∈ l)
  | [], _ => by simp [emplace]
  | z :: l, h => by
      have ih := mem_emplace_of_forall fun z' hz' => h z' (List.mem_cons_of_mem _ hz')
      rw [emplace]
      split
      · exact List.mem_cons
      · rename_i hnot
        have hlt : key z < key x :=
          lt_of_le_of_ne (not_lt.mp hnot) (h z (List.mem_cons_self ..))
        rw [if_pos hlt, List.mem_cons, ih, List.mem_cons]
        tauto

/-! ## Filling a set -/

theorem fill_append (xs : List α) (x : α) : fill key (xs ++ [x]) = emplace key x (fill key xs) := by
  rw [fill, List.foldl_append]
  rfl

theorem sorted_fill (xs : List α) : Sorted key (fill key xs) := by
  induction xs using List.reverseRecOn with
  | nil => exact List.Pairwise.nil
  | append_singleton xs x ih =>
      rw [fill_append]
      exact ih.emplace x

/-- An element with a key no earlier one has. -/
def First (key : α → κ) (xs : List α) (x : α) : Prop :=
  ∃ before after, xs = before ++ x :: after ∧ ∀ y ∈ before, key y ≠ key x

omit [LinearOrder κ] in
theorem first_append_iff : First key (l ++ [y]) x ↔
    First key l x ∨ x = y ∧ ∀ z ∈ l, key z ≠ key y := by
  constructor
  · rintro ⟨before, after, heq, hnew⟩
    rcases List.eq_nil_or_concat after with rfl | ⟨after, z, rfl⟩
    · obtain ⟨rfl, hlast⟩ := List.append_inj' heq rfl
      obtain rfl := List.head_eq_of_cons_eq hlast
      exact Or.inr ⟨rfl, hnew⟩
    · rw [List.concat_eq_append, ← List.cons_append, ← List.append_assoc] at heq
      obtain ⟨rfl, -⟩ := List.append_inj' heq rfl
      exact Or.inl ⟨before, after, rfl, hnew⟩
  · rintro (⟨before, after, rfl, hnew⟩ | ⟨rfl, hnew⟩)
    · exact ⟨before, after ++ [y], by simp, hnew⟩
    · exact ⟨l, [], rfl, hnew⟩

omit [LinearOrder κ] in
theorem First.mem (h : First key l x) : x ∈ l := by
  obtain ⟨before, after, rfl, -⟩ := h
  exact List.mem_append_right _ (List.mem_cons_self ..)

/-- Some first element has the key of any given one. -/
theorem exists_fill_key (xs : List α) (hx : x ∈ xs) : ∃ y ∈ fill key xs, key y = key x := by
  induction xs using List.reverseRecOn with
  | nil => cases hx
  | append_singleton xs z ih =>
      rw [fill_append]
      by_cases htaken : ∃ y ∈ fill key xs, key y = key z
      · obtain ⟨y, hy, heq⟩ := htaken
        rw [emplace_of_mem (sorted_fill xs) hy heq]
        rcases List.mem_append.mp hx with hx' | hx'
        · exact ih hx'
        · obtain rfl := List.mem_singleton.mp hx'
          exact ⟨y, hy, heq⟩
      · have hnew : ∀ y ∈ fill key xs, key y ≠ key z := fun y hy heq => htaken ⟨y, hy, heq⟩
        rcases List.mem_append.mp hx with hx' | hx'
        · obtain ⟨y, hy, heq⟩ := ih hx'
          exact ⟨y, (mem_emplace_of_forall hnew).mpr (Or.inr hy), heq⟩
        · obtain rfl := List.mem_singleton.mp hx'
          exact ⟨_, (mem_emplace_of_forall hnew).mpr (Or.inl rfl), rfl⟩

/-- **The law of `emplace`.** -/
theorem mem_fill (xs : List α) (x : α) : x ∈ fill key xs ↔ First key xs x := by
  induction xs using List.reverseRecOn generalizing x with
  | nil =>
      exact ⟨fun h => (List.not_mem_nil h).elim, fun h => (List.not_mem_nil h.mem).elim⟩
  | append_singleton xs z ih =>
      rw [fill_append, first_append_iff, ← ih]
      by_cases htaken : ∃ y ∈ xs, key y = key z
      · obtain ⟨y, hy, heq⟩ := htaken
        obtain ⟨y', hy', heq'⟩ : ∃ y' ∈ fill key xs, key y' = key y := exists_fill_key xs hy
        rw [emplace_of_mem (sorted_fill xs) hy' (heq'.trans heq)]
        exact ⟨Or.inl, fun h => h.elim id fun h' => absurd heq (h'.2 y hy)⟩
      · have hnew : ∀ y ∈ xs, key y ≠ key z := fun y hy heq => htaken ⟨y, hy, heq⟩
        rw [mem_emplace_of_forall fun y hy => hnew y ((ih y).mp hy).mem, or_comm]
        exact or_congr_right ⟨fun h => ⟨h, hnew⟩, And.left⟩

/-- As many elements as there were different keys. -/
theorem length_fill (xs : List α) : (fill key xs).length = (xs.map key).toFinset.card := by
  have hnodup : ((fill key xs).map key).Nodup :=
    List.pairwise_map.mpr ((sorted_fill xs).imp ne_of_lt)
  rw [← List.length_map key, ← List.toFinset_card_of_nodup hnodup]
  congr 1
  ext k
  simp only [List.mem_toFinset, List.mem_map]
  constructor
  · rintro ⟨x, hx, rfl⟩
    exact ⟨x, ((mem_fill xs x).mp hx).mem, rfl⟩
  · rintro ⟨x, hx, rfl⟩
    exact exists_fill_key xs hx

/-- A set of keys: neither the order nor the number of the calls matters. -/
theorem fill_id (xs : List κ) : fill id xs = xs.toFinset.sort (· ≤ ·) := by
  refine List.Pairwise.eq_of_mem_iff (r := (· < ·)) (sorted_fill xs)
    (Finset.sortedLT_sort _).pairwise fun k => ?_
  rw [Finset.mem_sort, List.mem_toFinset]
  refine ⟨fun h => ((mem_fill xs k).mp h).mem, fun h => ?_⟩
  obtain ⟨y, hy, rfl⟩ : ∃ y ∈ fill id xs, y = k := exists_fill_key xs h
  exact hy

end OrderedSet

end MemAlloc
