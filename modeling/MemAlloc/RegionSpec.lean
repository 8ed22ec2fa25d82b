import Mathlib.Logic.Relation
import MemAlloc.Extent

/-!
# What an allocator is for

The abstract component, without tables, headers or counters: a list of the
regions in use, in any order. A step takes an allowed region into use that
is disjoint from those in use, or gives some of them up. From no region in
use, the regions in use are always allowed and disjoint (`steps_safe`).

An implementation only has to show that its states are `Safe` and that a
call adds at most one region: disjointness of what is added follows
(`Step.of_safe`).
-/

namespace MemAlloc

/-- The second extent lies inside the first. -/
def Extent.Contains (a e : Extent) : Prop := a.start ≤ e.start ∧ e.stop ≤ a.stop

namespace RegionSpec

variable {allowed : Extent → Prop} {live live' : List Extent} {e : Extent}

/-- The regions in use are allowed and do not overlap. -/
structure Safe (allowed : Extent → Prop) (live : List Extent) : Prop where
  allowed : ∀ e ∈ live, allowed e
  disjoint : live.Pairwise fun e f => Disjoint e.bytes f.bytes

inductive Step (allowed : Extent → Prop) : List Extent → List Extent → Prop where
  | grant {live live' : List Extent} {e : Extent} (hperm : live'.Perm (e :: live))
      (hallowed : allowed e) (hfree : ∀ f ∈ live, Disjoint e.bytes f.bytes) :
      Step allowed live live'
  | release {live live' dead : List Extent} (hperm : live.Perm (dead ++ live')) :
      Step allowed live live'

theorem Safe.nil : Safe allowed [] := ⟨fun _ he => (List.not_mem_nil he).elim, .nil⟩

theorem Safe.perm (h : Safe allowed live) (hp : live.Perm live') : Safe allowed live' where
  allowed e he := h.allowed e (hp.mem_iff.mpr he)
  disjoint := (hp.pairwise_iff fun {_ _} hd => hd.symm).mp h.disjoint

/-- **Step lemma.** A step keeps the regions allowed and disjoint. -/
theorem Step.safe (hstep : Step allowed live live') (h : Safe allowed live) :
    Safe allowed live' := by
  cases hstep with
  | grant hperm hallowed hfree =>
      refine Safe.perm ⟨?_, List.pairwise_cons.mpr ⟨hfree, h.disjoint⟩⟩ hperm.symm
      exact List.forall_mem_cons.mpr ⟨hallowed, h.allowed⟩
  | release hperm =>
      have hall := h.perm hperm
      exact ⟨fun e he => hall.allowed e (List.mem_append_right _ he),
        (List.pairwise_append.mp hall.disjoint).2.1⟩

/-- Whatever was done, from no region in use. -/
theorem steps_safe (hsteps : Relation.ReflTransGen (Step allowed) [] live) : Safe allowed live := by
  induction hsteps with
  | refl => exact Safe.nil
  | tail _ hstep ih => exact hstep.safe ih

/-- A safe list with one more region is a step away. -/
theorem Step.of_safe (h : Safe allowed live') (hperm : live'.Perm (e :: live)) :
    Step allowed live live' := by
  have hcons := h.perm hperm
  exact .grant hperm (hcons.allowed e (List.mem_cons_self ..))
    (List.pairwise_cons.mp hcons.disjoint).1

theorem Step.same (hperm : live.Perm live') : Step allowed live live' :=
  .release (show live.Perm ([] ++ live') from hperm)

/-- Deleting the first match gives up at most one region. -/
theorem Step.eraseP {α : Type*} (region : α → Extent) (p : α → Bool) (l : List α) :
    Step allowed (l.map region) ((l.eraseP p).map region) := by
  rcases List.exists_or_eq_self_of_eraseP p l with heq | ⟨a, l₁, l₂, -, -, heq, herase⟩
  · rw [heq]
    exact .same (.refl _)
  · rw [herase, heq]
    have hperm : ((l₁ ++ a :: l₂).map region).Perm (region a :: (l₁ ++ l₂).map region) :=
      List.perm_middle.map region
    exact .release (show List.Perm _ ([region a] ++ (l₁ ++ l₂).map region) from hperm)

end RegionSpec

end MemAlloc
