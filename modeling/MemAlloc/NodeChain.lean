import Mathlib.Data.List.Infix
import Mathlib.Logic.Function.Basic

/-!
# Chains of nodes

A library for linked lists. `next` gives the successor of each node;
`Links next a xs b` says that from `a` one comes along the nodes of `xs` to
`b`. `Owned` is a family of such lists that end at one `null` and have no
node in common.

`Owned.change` is the frame rule: an operation on one list that redirects
only nodes of that list, or nodes of none, leaves the other lists alone.
The lemmas before it say what the usual changes of `next` do to one list.
-/

namespace MemAlloc

namespace NodeChain

variable {α ι : Type} [DecidableEq α] {next next' : α → α} {a b n p d null : α}
  {xs ys : List α}

/-- From `a`, along the nodes of the list, to the last argument. -/
def Links (next : α → α) : α → List α → α → Prop
  | a, [], b => a = b
  | a, x :: xs, b => a = x ∧ Links next (next x) xs b

/-! ## One list -/

omit [DecidableEq α] in
theorem links_append : Links next a (xs ++ ys) b ↔ ∃ m, Links next a xs m ∧ Links next m ys b := by
  induction xs generalizing a with
  | nil => simp [Links]
  | cons x xs ih => simp [Links, ih, and_assoc]

omit [DecidableEq α] in
/-- Only the successors of the list's own nodes matter. -/
theorem Links.congr (h : Links next a xs b) (heq : ∀ x ∈ xs, next' x = next x) :
    Links next' a xs b := by
  induction xs generalizing a with
  | nil => exact h
  | cons x xs ih =>
      refine ⟨h.1, ?_⟩
      rw [heq x (List.mem_cons_self ..)]
      exact ih h.2 fun y hy => heq y (List.mem_cons_of_mem _ hy)

theorem Links.update (h : Links next a xs b) (hn : n ∉ xs) (v : α) :
    Links (Function.update next n v) a xs b :=
  h.congr fun _ hx => Function.update_of_ne (ne_of_mem_of_not_mem hx hn) ..

/-- A new node in front. -/
theorem Links.push (h : Links next a xs b) (hn : n ∉ xs) :
    Links (Function.update next n a) n (n :: xs) b := by
  refine ⟨rfl, ?_⟩
  rw [Function.update_self]
  exact h.update hn a

/-- A new node behind `p`: it takes over the successor of `p`. -/
theorem Links.insert (h : Links next a (xs ++ p :: ys) b) (hnodup : (xs ++ p :: ys).Nodup)
    (hn : n ∉ xs ++ p :: ys) :
    Links (Function.update (Function.update next n (next p)) p n) a (xs ++ p :: n :: ys) b := by
  obtain ⟨m, hxs, rfl, hys⟩ := links_append.mp h
  obtain ⟨-, hp, hdisj⟩ := List.nodup_append.mp hnodup
  have hpxs : m ∉ xs := fun hm => hdisj m hm m (List.mem_cons_self ..) rfl
  have hpys : m ∉ ys := (List.nodup_cons.mp hp).1
  simp only [List.mem_append, List.mem_cons, not_or] at hn
  obtain ⟨hnxs, hnm, hnys⟩ := hn
  refine links_append.mpr ⟨m, (hxs.update hnxs _).update hpxs n, rfl, ?_⟩
  rw [Function.update_self]
  refine ⟨rfl, ?_⟩
  rw [Function.update_of_ne hnm, Function.update_self]
  exact (hys.update hnys _).update hpys n

/-- The node behind `p` left out. -/
theorem Links.remove (h : Links next a (xs ++ p :: d :: ys) b)
    (hnodup : (xs ++ p :: d :: ys).Nodup) :
    Links (Function.update next p (next d)) a (xs ++ p :: ys) b := by
  obtain ⟨m, hxs, rfl, rfl, hys⟩ := links_append.mp h
  obtain ⟨-, hp, hdisj⟩ := List.nodup_append.mp hnodup
  have hpxs : m ∉ xs := fun hm => hdisj m hm m (List.mem_cons_self ..) rfl
  have hpys : m ∉ ys := fun hm => (List.nodup_cons.mp hp).1 (List.mem_cons_of_mem _ hm)
  refine links_append.mpr ⟨m, hxs.update hpxs _, rfl, ?_⟩
  rw [Function.update_self]
  exact hys.update hpys _

/-! ## Families of lists -/

/-- Lists with nodes of their own. -/
structure Owned (next : α → α) (null : α) (heads : ι → α) (lists : ι → List α) : Prop where
  links : ∀ i, Links next (heads i) (lists i) null
  nodup : ∀ i, (lists i).Nodup
  nonnull : ∀ i, null ∉ lists i
  apart : ∀ i j, i ≠ j → ∀ x ∈ lists i, x ∉ lists j

variable {heads : ι → α} {lists : ι → List α} {i : ι}

omit [DecidableEq α] in
theorem owned_nil (next : α → α) (null : α) :
    Owned next null (fun _ : ι => null) fun _ => [] where
  links _ := rfl
  nodup _ := List.nodup_nil
  nonnull _ := List.not_mem_nil
  apart _ _ _ _ hx := absurd hx List.not_mem_nil

omit [DecidableEq α] in
/-- An empty list is one whose head is `null`. -/
theorem Owned.head_eq_null (h : Owned next null heads lists) :
    heads i = null ↔ lists i = [] := by
  have hlinks := h.links i
  constructor
  · intro hnull
    cases hlist : lists i with
    | nil => rfl
    | cons x xs =>
        rw [hlist] at hlinks
        exact absurd (hlinks.1 ▸ hnull) fun heq =>
          h.nonnull i (by rw [hlist, heq]; exact List.mem_cons_self ..)
  · intro hlist
    rwa [hlist] at hlinks

omit [DecidableEq α] in
/-- **Frame rule.** List `i` becomes `xs`; redirected are at most its nodes
and nodes of no list. -/
theorem Owned.change [DecidableEq ι] (h : Owned next null heads lists)
    (hlinks : Links next' a xs null) (hnodup : xs.Nodup) (hnonnull : null ∉ xs)
    (hnew : ∀ x ∈ xs, x ∈ lists i ∨ ∀ j, x ∉ lists j)
    (hframe : ∀ x, next' x ≠ next x → x ∈ lists i ∨ ∀ j, x ∉ lists j) :
    Owned next' null (Function.update heads i a) (Function.update lists i xs) := by
  have hother : ∀ j, j ≠ i → ∀ x ∈ lists j, x ∉ lists i ∧ ¬∀ k, x ∉ lists k := fun j hj x hx =>
    ⟨h.apart j i hj x hx, fun hall => hall j hx⟩
  have hxs : ∀ j, j ≠ i → ∀ x ∈ lists j, x ∉ xs := by
    intro j hj x hx hmem
    obtain ⟨hni, hnone⟩ := hother j hj x hx
    exact (hnew x hmem).elim hni hnone
  refine ⟨fun j => ?_, fun j => ?_, fun j => ?_, fun j k hjk x => ?_⟩
  · by_cases hj : j = i
    · subst hj
      rwa [Function.update_self, Function.update_self]
    · rw [Function.update_of_ne hj, Function.update_of_ne hj]
      refine (h.links j).congr fun x hx => ?_
      by_contra hne
      obtain ⟨hni, hnone⟩ := hother j hj x hx
      exact (hframe x hne).elim hni hnone
  · by_cases hj : j = i
    · subst hj
      rwa [Function.update_self]
    · rw [Function.update_of_ne hj]
      exact h.nodup j
  · by_cases hj : j = i
    · subst hj
      rwa [Function.update_self]
    · rw [Function.update_of_ne hj]
      exact h.nonnull j
  · by_cases hj : j = i
    · subst hj
      rw [Function.update_self, Function.update_of_ne (Ne.symm hjk)]
      exact fun hx hk => hxs k (Ne.symm hjk) x hk hx
    · rw [Function.update_of_ne hj]
      by_cases hk : k = i
      · subst hk
        rw [Function.update_self]
        exact hxs j hj x
      · rw [Function.update_of_ne hk]
        exact h.apart j k hjk x

end NodeChain

end MemAlloc
