import Mathlib.Algebra.GroupWithZero.Nat
import Mathlib.Data.Finset.Card
import Mathlib.Data.List.Perm.Basic
import Mathlib.Data.List.Perm.Lattice
import Mathlib.Order.Interval.Finset.Nat

/-!
# Extents and tilings

An extent `⟨start, len⟩` is the half-open interval `[start, start + len)`
of natural numbers. A list of extents *tiles* `[0, n)` when its members
are non-empty, pairwise disjoint, and together cover exactly `[0, n)`.

Tiling does not depend on the order of the list (`Tiles.perm`) and is kept
by splitting an extent in two (`Tiles.split`) and by joining two that touch
(`Tiles.join`); the lengths add up to `n` (`Tiles.sum_len`), and the
remaining member is determined by all the others (`Tiles.head_unique`).

A list is *separated* when no two of its members touch. Separation is what
a maximal merge reaches, and it makes the list canonical: an interval
covered by a separated disjoint list lies in one member
(`exists_cover_of_separated`), its members are the maximal runs of what it
covers (`mem_iff_maximalRun`), and a separated tiling is the single extent
`[0, n)` (`Tiles.eq_single`).
-/

namespace MemAlloc

/-- The half-open interval `[start, start + len)`. -/
@[ext]
structure Extent where
  start : Nat
  len : Nat
deriving DecidableEq, Repr

namespace Extent

/-- The end of an extent, not itself covered. -/
def stop (e : Extent) : Nat := e.start + e.len

/-- The numbers an extent covers. -/
def bytes (e : Extent) : Finset Nat := Finset.Ico e.start e.stop

/-- One extent starts where the other stops. -/
def Touches (e f : Extent) : Prop := e.stop = f.start ∨ f.stop = e.start

instance (e f : Extent) : Decidable (e.Touches f) := inferInstanceAs (Decidable (_ ∨ _))

@[simp] theorem mem_bytes {e : Extent} {x : Nat} : x ∈ e.bytes ↔ e.start ≤ x ∧ x < e.stop :=
  Finset.mem_Ico

@[simp] theorem card_bytes (e : Extent) : e.bytes.card = e.len := by
  simp [bytes, stop]

theorem Touches.symm {e f : Extent} (h : e.Touches f) : f.Touches e := Or.symm h

theorem start_mem {e : Extent} (h : 0 < e.len) : e.start ∈ e.bytes := by
  simp [stop, h]

/-- Non-empty extents are disjoint when one stops before the other starts. -/
theorem disjoint_iff {e f : Extent} (he : 0 < e.len) (hf : 0 < f.len) :
    Disjoint e.bytes f.bytes ↔ e.stop ≤ f.start ∨ f.stop ≤ e.start := by
  rw [Finset.disjoint_left]
  simp only [mem_bytes, stop]
  constructor
  · intro h
    have h1 := @h e.start
    have h2 := @h f.start
    omega
  · intro h x hx hx'
    omega

/-- Non-empty extents that cover the same numbers are equal. -/
theorem eq_of_bytes_eq {e f : Extent} (he : 0 < e.len) (hf : 0 < f.len)
    (h : e.bytes = f.bytes) : e = f := by
  have hlen : e.len = f.len := by rw [← card_bytes e, ← card_bytes f, h]
  have h1 : f.start ≤ e.start := (mem_bytes.mp (h ▸ start_mem he)).1
  have h2 : e.start ≤ f.start := (mem_bytes.mp (h ▸ start_mem hf)).1
  exact Extent.ext (Nat.le_antisymm h2 h1) hlen

end Extent

open Extent

/-! ## Tilings -/

/-- The extents are non-empty, pairwise disjoint and cover exactly `[0, n)`. -/
structure Tiles (n : Nat) (l : List Extent) : Prop where
  pos : ∀ e ∈ l, 0 < e.len
  disjoint : l.Pairwise fun e f => Disjoint e.bytes f.bytes
  cover : ∀ x, x < n ↔ ∃ e ∈ l, x ∈ e.bytes

/-- No two members touch. -/
def Separated (l : List Extent) : Prop := l.Pairwise fun e f => ¬e.Touches f

namespace Tiles

variable {n : Nat} {l l' : List Extent} {e f : Extent}

theorem perm (h : Tiles n l) (hp : l.Perm l') : Tiles n l' where
  pos e he := h.pos e (hp.mem_iff.mpr he)
  disjoint := (hp.pairwise_iff fun {_ _} hd => hd.symm).mp h.disjoint
  cover x := (h.cover x).trans ⟨fun ⟨e, he, hx⟩ => ⟨e, hp.mem_iff.mp he, hx⟩,
    fun ⟨e, he, hx⟩ => ⟨e, hp.mem_iff.mpr he, hx⟩⟩

/-- The whole interval as one extent. -/
theorem single (hn : 0 < n) : Tiles n [⟨0, n⟩] where
  pos e he := by obtain rfl := List.mem_singleton.mp he; exact hn
  disjoint := List.pairwise_singleton _ _
  cover x := by simp [stop]

theorem stop_le (h : Tiles n l) (he : e ∈ l) : e.stop ≤ n := by
  have hpos := h.pos e he
  have hlast : e.stop - 1 < n := (h.cover _).mpr ⟨e, he, by simp only [mem_bytes, stop]; omega⟩
  simp only [stop] at *
  omega

/-- Members of a tiling other than the head are disjoint from it. -/
theorem disjoint_head (h : Tiles n (e :: l)) (hf : f ∈ l) : Disjoint e.bytes f.bytes :=
  (List.pairwise_cons.mp h.disjoint).1 f hf

/-- Extents from the two halves of a tiling lie one after the other. -/
theorem apart (h : Tiles n (l ++ l')) (he : e ∈ l) (hf : f ∈ l') :
    e.stop ≤ f.start ∨ f.stop ≤ e.start :=
  (disjoint_iff (h.pos e (List.mem_append_left _ he)) (h.pos f (List.mem_append_right _ hf))).mp
    ((List.pairwise_append.mp h.disjoint).2.2 e he f hf)

/-- The first half covers what the second does not. -/
theorem cover_left (h : Tiles n (l ++ l')) (x : Nat) :
    (∃ e ∈ l, x ∈ e.bytes) ↔ x < n ∧ ∀ f ∈ l', x ∉ f.bytes := by
  constructor
  · rintro ⟨e, he, hx⟩
    refine ⟨(h.cover x).mpr ⟨e, List.mem_append_left _ he, hx⟩, fun f hf => ?_⟩
    exact Finset.disjoint_left.mp ((List.pairwise_append.mp h.disjoint).2.2 e he f hf) hx
  · rintro ⟨hn, hout⟩
    obtain ⟨e, he, hx⟩ := (h.cover x).mp hn
    rcases List.mem_append.mp he with he | he
    · exact ⟨e, he, hx⟩
    · exact absurd hx (hout e he)

/-- Cutting one extent in two. -/
theorem split {s a b : Nat} (h : Tiles n (⟨s, a + b⟩ :: l)) (ha : 0 < a) (hb : 0 < b) :
    Tiles n (⟨s, a⟩ :: ⟨s + a, b⟩ :: l) := by
  have hrest := (List.pairwise_cons.mp h.disjoint).2
  have hhead : ∀ f ∈ l, s + a + b ≤ f.start ∨ f.stop ≤ s := by
    intro f hf
    have hf0 : 0 < f.len := h.pos f (List.mem_cons_of_mem _ hf)
    have hd := (disjoint_iff (h.pos _ (List.mem_cons_self ..)) hf0).mp (h.disjoint_head hf)
    simp only [stop] at hd ⊢
    omega
  refine ⟨?_, ?_, fun x => ?_⟩
  · simp only [List.mem_cons, forall_eq_or_imp]
    exact ⟨ha, hb, fun f hf => h.pos f (List.mem_cons_of_mem _ hf)⟩
  · simp only [List.pairwise_cons, List.mem_cons, forall_eq_or_imp]
    refine ⟨⟨?_, fun f hf => ?_⟩, fun f hf => ?_, hrest⟩
    · exact (disjoint_iff ha hb).mpr (Or.inl (Nat.le_refl _))
    · refine (disjoint_iff ha (h.pos f (List.mem_cons_of_mem _ hf))).mpr ?_
      have := hhead f hf
      simp only [stop] at this ⊢
      omega
    · refine (disjoint_iff hb (h.pos f (List.mem_cons_of_mem _ hf))).mpr ?_
      have := hhead f hf
      simp only [stop] at this ⊢
      omega
  · rw [h.cover x]
    simp only [List.mem_cons, exists_eq_or_imp, mem_bytes, stop]
    constructor
    · rintro (hx | hx)
      · by_cases hxa : x < s + a
        · exact Or.inl ⟨hx.1, hxa⟩
        · exact Or.inr (Or.inl (by omega))
      · exact Or.inr (Or.inr hx)
    · rintro (hx | hx | hx)
      · exact Or.inl (by omega)
      · exact Or.inl (by omega)
      · exact Or.inr hx

/-- Joining two extents that touch. -/
theorem join {s a b : Nat} (h : Tiles n (⟨s, a⟩ :: ⟨s + a, b⟩ :: l)) :
    Tiles n (⟨s, a + b⟩ :: l) := by
  obtain ⟨ha, hb⟩ : 0 < a ∧ 0 < b :=
    ⟨h.pos _ (List.mem_cons_self ..), h.pos ⟨s + a, b⟩ (by simp)⟩
  obtain ⟨hd1, hd2, hrest⟩ : (∀ f ∈ l, Disjoint (⟨s, a⟩ : Extent).bytes f.bytes)
      ∧ (∀ f ∈ l, Disjoint (⟨s + a, b⟩ : Extent).bytes f.bytes)
      ∧ l.Pairwise fun e f => Disjoint e.bytes f.bytes := by
    have hd := h.disjoint
    simp only [List.pairwise_cons, List.mem_cons, forall_eq_or_imp] at hd
    exact ⟨hd.1.2, hd.2.1, hd.2.2⟩
  have hpos : ∀ f ∈ l, 0 < f.len := fun f hf =>
    h.pos f (List.mem_cons_of_mem _ (List.mem_cons_of_mem _ hf))
  refine ⟨?_, ?_, fun x => ?_⟩
  · simp only [List.mem_cons, forall_eq_or_imp]
    exact ⟨by omega, hpos⟩
  · refine List.pairwise_cons.mpr ⟨fun f hf => ?_, hrest⟩
    have h1 := (disjoint_iff ha (hpos f hf)).mp (hd1 f hf)
    have h2 := (disjoint_iff hb (hpos f hf)).mp (hd2 f hf)
    have hf0 := hpos f hf
    refine (disjoint_iff (by simp only; omega) hf0).mpr ?_
    simp only [stop] at h1 h2 ⊢
    omega
  · rw [h.cover x]
    simp only [List.mem_cons, exists_eq_or_imp, mem_bytes, stop]
    constructor
    · rintro (hx | hx | hx)
      · exact Or.inl (by omega)
      · exact Or.inl (by omega)
      · exact Or.inr hx
    · rintro (hx | hx)
      · by_cases hxa : x < s + a
        · exact Or.inl ⟨hx.1, hxa⟩
        · exact Or.inr (Or.inl (by omega))
      · exact Or.inr (Or.inr hx)

/-- The numbers of a pairwise disjoint list, counted. -/
theorem card_cover : ∀ {l : List Extent}, (l.Pairwise fun e f => Disjoint e.bytes f.bytes) →
    ∀ s : Finset Nat, (∀ x, x ∈ s ↔ ∃ e ∈ l, x ∈ e.bytes) → s.card = (l.map len).sum
  | [], _, s, hs => by
      have : s = ∅ := Finset.eq_empty_of_forall_notMem fun x hx => by simpa using (hs x).mp hx
      simp [this]
  | e :: l, hd, s, hs => by
      obtain ⟨he, hl⟩ := List.pairwise_cons.mp hd
      -- the head's numbers leave exactly the tail's
      have htail : ∀ x, x ∈ s \ e.bytes ↔ ∃ f ∈ l, x ∈ f.bytes := by
        intro x
        rw [Finset.mem_sdiff, hs x]
        constructor
        · rintro ⟨⟨f, hf, hx⟩, hne⟩
          rcases List.mem_cons.mp hf with rfl | hf'
          · exact absurd hx hne
          · exact ⟨f, hf', hx⟩
        · rintro ⟨f, hf, hx⟩
          exact ⟨⟨f, List.mem_cons_of_mem _ hf, hx⟩,
            fun hxe => Finset.disjoint_left.mp (he f hf) hxe hx⟩
      have hsub : e.bytes ⊆ s := fun x hx => (hs x).mpr ⟨e, List.mem_cons_self .., hx⟩
      have hcard := Finset.card_sdiff_add_card_eq_card hsub
      rw [card_cover hl _ htail, card_bytes] at hcard
      rw [List.map_cons, List.sum_cons, ← hcard, Nat.add_comm]

/-- The lengths of a tiling of `[0, n)` add up to `n`. -/
theorem sum_len (h : Tiles n l) : (l.map len).sum = n := by
  have := card_cover h.disjoint (Finset.range n) fun x => by rw [Finset.mem_range, h.cover x]
  rw [← this, Finset.card_range]

/-- The other members determine the head. -/
theorem head_unique (he : Tiles n (e :: l)) (hf : Tiles n (f :: l)) : e = f := by
  have hsub : ∀ {e f : Extent}, Tiles n (e :: l) → Tiles n (f :: l) → e.bytes ⊆ f.bytes := by
    intro e f he hf x hx
    have hxn : x < n := (he.cover x).mpr ⟨e, List.mem_cons_self .., hx⟩
    obtain ⟨g, hg, hxg⟩ := (hf.cover x).mp hxn
    rcases List.mem_cons.mp hg with rfl | hg'
    · exact hxg
    · exact absurd hxg (Finset.disjoint_left.mp (he.disjoint_head hg') hx)
  exact eq_of_bytes_eq (he.pos e (List.mem_cons_self ..)) (hf.pos f (List.mem_cons_self ..))
    (Finset.Subset.antisymm (hsub he hf) (hsub hf he))

end Tiles

/-- Disjoint non-empty extents differ. -/
theorem nodup_of_disjoint {l : List Extent} (hpos : ∀ e ∈ l, 0 < e.len)
    (hd : l.Pairwise fun e f => Disjoint e.bytes f.bytes) : l.Nodup := by
  refine hd.imp_of_mem ?_
  rintro e f he - hdisj rfl
  exact Finset.disjoint_left.mp hdisj (start_mem (hpos e he)) (start_mem (hpos e he))

/-- Disjoint extents inside an interval are together no longer than it. -/
theorem sum_len_le {l : List Extent} (hd : l.Pairwise fun e f => Disjoint e.bytes f.bytes)
    {a t : Nat} (hin : ∀ e ∈ l, a ≤ e.start ∧ e.stop ≤ a + t) : (l.map len).sum ≤ t := by
  have hcard := Tiles.card_cover hd ((Finset.Ico a (a + t)).filter fun x => ∃ e ∈ l, x ∈ e.bytes)
    fun x => by
      rw [Finset.mem_filter, Finset.mem_Ico, and_iff_right_iff_imp]
      rintro ⟨e, he, hx⟩
      have hbounds := hin e he
      rw [mem_bytes] at hx
      omega
  rw [← hcard]
  calc _ ≤ (Finset.Ico a (a + t)).card := Finset.card_filter_le _ _
    _ = t := by rw [Nat.card_Ico, Nat.add_sub_cancel_left]

/-! ## Separated lists -/

instance : Std.Symm fun e f : Extent => ¬e.Touches f where
  symm _ _ hne ht := hne ht.symm

instance : Std.Symm fun e f : Extent => Disjoint e.bytes f.bytes where
  symm _ _ hd := hd.symm

/-- An interval covered by a separated, pairwise disjoint list lies inside
one member: the member holding its first number cannot stop short, since
the next number's member would touch it. -/
theorem exists_cover_of_separated {l : List Extent}
    (hd : l.Pairwise fun e f => Disjoint e.bytes f.bytes) (hsep : Separated l) {x k : Nat}
    (hk : 0 < k) (hcov : ∀ y, x ≤ y → y < x + k → ∃ e ∈ l, y ∈ e.bytes) :
    ∃ e ∈ l, e.start ≤ x ∧ x + k ≤ e.stop := by
  obtain ⟨e, he, hx⟩ := hcov x (Nat.le_refl x) (by omega)
  rw [mem_bytes] at hx
  refine ⟨e, he, hx.1, ?_⟩
  by_contra hshort
  obtain ⟨f, hf, hy⟩ := hcov e.stop (by omega) (by omega)
  rw [mem_bytes] at hy
  have hne : e ≠ f := by
    intro heq
    rw [← heq] at hy
    omega
  have hstart : f.start = e.stop := by
    by_contra hlt
    have hlast : e.stop - 1 ∈ e.bytes ∧ e.stop - 1 ∈ f.bytes := by
      simp only [mem_bytes]; omega
    exact Finset.disjoint_left.mp (hd.forall he hf hne) hlast.1 hlast.2
  exact hsep.forall he hf hne (Or.inl hstart.symm)

/-- A maximal run of numbers that satisfy `P`. -/
structure MaximalRun (P : Nat → Prop) (e : Extent) : Prop where
  pos : 0 < e.len
  inside : ∀ x ∈ e.bytes, P x
  below : 0 < e.start → ¬P (e.start - 1)
  above : ¬P e.stop

section Canonical

variable {l l' : List Extent} {P : Nat → Prop}

/-- Of a separated list of disjoint extents the member over a number just
outside another member would touch it. -/
theorem eq_of_adjacent (hd : l.Pairwise fun e f => Disjoint e.bytes f.bytes) (hsep : Separated l)
    {e f : Extent} (he : e ∈ l) (hf : f ∈ l) (hpos : 0 < e.len) {x : Nat} (hx : x ∈ f.bytes)
    (hout : x = e.stop ∨ x + 1 = e.start) : e = f := by
  by_contra hne
  have hf0 : 0 < f.len := by
    rw [← card_bytes]
    exact Finset.card_pos.mpr ⟨x, hx⟩
  have hap := (disjoint_iff hpos hf0).mp (hd.forall he hf hne)
  refine hsep.forall he hf hne ?_
  rw [mem_bytes] at hx
  simp only [Touches, stop] at *
  omega

/-- The members of a separated list of disjoint extents are the maximal runs
of what it covers. -/
theorem mem_iff_maximalRun (hpos : ∀ e ∈ l, 0 < e.len)
    (hd : l.Pairwise fun e f => Disjoint e.bytes f.bytes) (hsep : Separated l)
    (hcover : ∀ x, P x ↔ ∃ e ∈ l, x ∈ e.bytes) {e : Extent} : e ∈ l ↔ MaximalRun P e := by
  constructor
  · intro he
    refine ⟨hpos e he, fun x hx => (hcover x).mpr ⟨e, he, hx⟩, ?_, ?_⟩
    · intro hstart hP
      obtain ⟨f, hf, hx⟩ := (hcover _).mp hP
      obtain rfl := eq_of_adjacent hd hsep he hf (hpos e he) hx (Or.inr (by omega))
      rw [mem_bytes] at hx
      omega
    · intro hP
      obtain ⟨f, hf, hx⟩ := (hcover _).mp hP
      obtain rfl := eq_of_adjacent hd hsep he hf (hpos e he) hx (Or.inl rfl)
      rw [mem_bytes] at hx
      omega
  · intro he
    obtain ⟨f, hf, hstart, hstop⟩ := exists_cover_of_separated hd hsep he.pos
      fun x hlo hhi => (hcover x).mp (he.inside x (mem_bytes.mpr ⟨hlo, hhi⟩))
    have hinside : ∀ x ∈ f.bytes, P x := fun x hx => (hcover x).mpr ⟨f, hf, hx⟩
    -- `f` cannot reach further than the run on either side
    have hlo : f.start = e.start := by
      by_contra hne
      refine he.below (by omega) (hinside _ ?_)
      simp only [mem_bytes, stop] at *
      omega
    have hhi : f.stop = e.stop := by
      by_contra hne
      refine he.above (hinside _ ?_)
      simp only [mem_bytes, stop] at *
      omega
    obtain rfl : e = f := Extent.ext hlo.symm (by simp only [stop] at hhi; omega)
    exact hf

end Canonical

/-- A separated tiling is a single extent. -/
theorem Tiles.eq_single {n : Nat} {l : List Extent} (h : Tiles n l) (hsep : Separated l)
    (hn : 0 < n) : l = [⟨0, n⟩] := by
  obtain ⟨e, he, hstart, hstop⟩ := exists_cover_of_separated h.disjoint hsep hn
    fun y (_ : 0 ≤ y) hy => (h.cover y).mp (by omega)
  have hle : e.stop ≤ n := h.stop_le he
  have heq : e = ⟨0, n⟩ := by
    have hstart' : e.start = 0 := Nat.le_zero.mp hstart
    have hlen : e.len = n := by simp only [stop] at *; omega
    exact Extent.ext hstart' hlen
  have hperm := List.perm_cons_erase he
  have hrest : l.erase e = [] := by
    rw [List.eq_nil_iff_forall_not_mem]
    intro f hf
    have h' := h.perm hperm
    have hf0 : 0 < f.len := h'.pos f (List.mem_cons_of_mem _ hf)
    have hfn : f.stop ≤ n := h'.stop_le (List.mem_cons_of_mem _ hf)
    have hfe : f.start ∈ e.bytes := by simp only [heq, mem_bytes, stop] at *; omega
    exact Finset.disjoint_left.mp (h'.disjoint_head hf) hfe (start_mem hf0)
  rw [hrest, heq] at hperm
  exact List.perm_singleton.mp hperm

theorem Separated.perm {l l' : List Extent} (h : Separated l) (hp : l.Perm l') : Separated l' :=
  (hp.pairwise_iff fun {_ _} hne ht => hne ht.symm).mp h

/-- In a tiling, separated members lie between the others: there is at most
one more of them. Each ends where one of the others starts, or at the end of
the interval. -/
theorem Tiles.length_le_of_separated {n : Nat} {l l' : List Extent} (h : Tiles n (l ++ l'))
    (hsep : Separated l) : l.length ≤ l'.length + 1 := by
  have hmem : ∀ {e}, e ∈ l → e ∈ l ++ l' := fun he => List.mem_append_left _ he
  have hnext : ∀ e ∈ l, e.stop ∈ n :: l'.map start := by
    intro e he
    rcases Nat.lt_or_eq_of_le (h.stop_le (hmem he)) with hlt | heq
    · obtain ⟨f, hf, hx⟩ := (h.cover _).mp hlt
      have hne : e ≠ f := by
        rintro rfl
        simp at hx
      have hap := (disjoint_iff (h.pos e (hmem he)) (h.pos f hf)).mp
        (h.disjoint.forall (hmem he) hf hne)
      have hstart : f.start = e.stop := by
        simp only [mem_bytes, stop] at *
        omega
      rcases List.mem_append.mp hf with hf | hf
      · exact absurd (Or.inl hstart.symm) (hsep.forall he hf hne)
      · exact List.mem_cons_of_mem _ (hstart ▸ List.mem_map_of_mem hf)
    · exact heq ▸ List.mem_cons_self ..
  have hnodup : (l.map stop).Nodup := by
    refine List.pairwise_map.mpr ((List.pairwise_append.mp h.disjoint).1.imp_of_mem ?_)
    intro e f he hf hd heq
    have hap := (disjoint_iff (h.pos e (hmem he)) (h.pos f (hmem hf))).mp hd
    have hpos := h.pos e (hmem he)
    have hpos' := h.pos f (hmem hf)
    simp only [stop] at *
    omega
  have hle := (hnodup.subperm (List.forall_mem_map.mpr hnext)).length_le
  simpa using hle

end MemAlloc
