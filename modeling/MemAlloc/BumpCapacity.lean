import Mathlib.Algebra.Order.BigOperators.Group.List
import MemAlloc.BumpSafety
import MemAlloc.RoundUp

/-!
# The capacity of the bump allocators

A list of requests with one alignment, in an arena whose size covers their
sizes rounded up. The padding `alignment - size % alignment` is never 0: a
size that is a multiple of the alignment already takes `alignment` bytes
more (`consumed_eq`). So the requests succeed exactly when these bytes fit
as well, and a request is refused although its rounded size fits exactly
when it is such a size and the room is less (`bump_capacity_iff`).
-/

namespace MemAlloc

open BumpAllocator

namespace BumpAllocator

variable {alignment : Nat}

theorem pos_of_two_pow (hal : ∃ k ≤ 63, alignment = 2 ^ k) : 0 < alignment := by
  obtain ⟨k, -, rfl⟩ := hal
  exact Nat.two_pow_pos k

theorem consumed_eq (hpos : 0 < alignment) (size : Nat) :
    consumed size alignment = roundUp size alignment + if alignment ∣ size then alignment else 0 :=
  sub_mod_add hpos size

theorem dvd_consumed (hpos : 0 < alignment) (size : Nat) : alignment ∣ consumed size alignment :=
  dvd_sub_mod_add hpos size

/-- The sizes rounded up, and the alignment once more for each multiple. -/
theorem sum_consumed (hpos : 0 < alignment) : ∀ sizes : List Nat,
    (sizes.map (consumed · alignment)).sum
      = (sizes.map (roundUp · alignment)).sum + alignment * sizes.countP (alignment ∣ ·)
  | [] => rfl
  | size :: sizes => by
      rw [List.map_cons, List.map_cons, List.sum_cons, List.sum_cons, sum_consumed hpos sizes,
        consumed_eq hpos, List.countP_cons]
      simp only [decide_eq_true_eq]
      split
      · rw [Nat.mul_add, Nat.mul_one]
        omega
      · rw [Nat.add_zero, Nat.add_zero]
        omega

end BumpAllocator

namespace BumpSession

/-- `Allocate` of each size in order. -/
def requests (sizes : List Nat) (alignment : Nat) : List BumpCall :=
  sizes.map (.allocate · alignment)

/-- The request is not refused. -/
def Granted (kind : BumpKind) (w : BumpSession) : BumpCall → Prop
  | .allocate size alignment => (kind.allocate w.alloc size alignment).1 ≠ none
  | .freeLast => True

/-- The offset is a multiple of the alignment, and in the arena. -/
structure OnGrid (totalSize alignment : Nat) (w : BumpSession) : Prop where
  total : w.alloc.totalSize = totalSize
  dvd : alignment ∣ w.alloc.offset
  le : w.alloc.offset ≤ totalSize

variable {totalSize alignment arena size : Nat} {kind : BumpKind} {w w' : BumpSession}

theorem onGrid_start (totalSize alignment arena : Nat) :
    OnGrid totalSize alignment (start totalSize arena) :=
  ⟨rfl, Nat.dvd_zero _, Nat.zero_le _⟩

/-- A multiple of a power of two below `2 ^ 63` leaves room for one more. -/
theorem add_le_of_dvd (hal : ∃ k ≤ 63, alignment = 2 ^ k) {o : Nat} (hd : alignment ∣ o)
    (ho : o < 2 ^ 63) : o + alignment ≤ 2 ^ 63 := by
  obtain ⟨k, hk, rfl⟩ := hal
  have hgap := Nat.le_of_dvd (by omega) (Nat.dvd_sub (Nat.pow_dvd_pow 2 hk) hd)
  omega

/-- A request whose rounded size fits in the arena does not wrap around. -/
theorem OnGrid.allocate (h : OnGrid totalSize alignment w) (htotal : totalSize < 2 ^ 63)
    (hal : ∃ k ≤ 63, alignment = 2 ^ k) (hsize : roundUp size alignment ≤ totalSize)
    (kind : BumpKind) :
    totalSize < w.alloc.offset + consumed size alignment ∧
        kind.allocate w.alloc size alignment = (none, w.alloc) ∨
      ∃ p a, kind.allocate w.alloc size alignment = (some p, a) ∧
        a.offset = w.alloc.offset + consumed size alignment ∧
        ∀ live, OnGrid totalSize alignment ⟨a, live⟩ := by
  have hpos := pos_of_two_pow hal
  have hroom := add_le_of_dvd hal (dvd_roundUp size alignment) (by omega)
  have hoffset := add_le_of_dvd hal h.dvd (Nat.lt_of_le_of_lt h.le htotal)
  have hcons : consumed size alignment ≤ roundUp size alignment + alignment := by
    rw [consumed_eq hpos]
    split <;> omega
  have hmod : (w.alloc.offset + consumed size alignment) % 2 ^ 64
      = w.alloc.offset + consumed size alignment := Nat.mod_eq_of_lt (by omega)
  rw [BumpKind.allocate_eq]
  rcases allocate_cases w.alloc size hal with ⟨hbig, hrun⟩ | ⟨hle, hrun⟩
  · rw [hmod, h.total] at hbig
    exact Or.inl ⟨hbig, hrun⟩
  · rw [hmod, h.total] at hle
    rw [hmod] at hrun
    exact Or.inr ⟨_, _, hrun, rfl, fun live =>
      ⟨h.total, Nat.dvd_add h.dvd (dvd_consumed hpos size), hle⟩⟩

/-- **Run lemma.** Requests that fit rounded up succeed exactly when the
offset stays in the arena. -/
theorem OnGrid.granted_iff (htotal : totalSize < 2 ^ 63) (hal : ∃ k ≤ 63, alignment = 2 ^ k) :
    ∀ {sizes : List Nat} {w : BumpSession}, OnGrid totalSize alignment w →
      (∀ size ∈ sizes, roundUp size alignment ≤ totalSize) →
      (Runs.All (step kind) (Granted kind) w (requests sizes alignment) ↔
        w.alloc.offset + (sizes.map (consumed · alignment)).sum ≤ totalSize)
  | [], w, h, _ => by simpa [requests] using h.le
  | size :: sizes, w, h, hsizes => by
      have hrest : ∀ size ∈ sizes, roundUp size alignment ≤ totalSize := fun size' hs =>
        hsizes size' (List.mem_cons_of_mem _ hs)
      rw [requests, List.map_cons, Runs.all_cons, List.map_cons, List.sum_cons, ← Nat.add_assoc]
      rcases h.allocate htotal hal (hsizes size (List.mem_cons_self ..)) kind with
        ⟨hbig, hrun⟩ | ⟨p, a, hrun, hoffset, hgrid⟩
      · refine iff_of_false ?_ (by omega)
        rintro ⟨hgranted, -⟩
        exact hgranted (congrArg Prod.fst hrun)
      · have hstep : step kind w (.allocate size alignment) = .ok ⟨a, ⟨p, size⟩ :: w.live⟩ := by
          simp only [step, hrun]
        have hgranted : Granted kind w (.allocate size alignment) := by
          simp only [Granted, hrun]
          exact Option.some_ne_none p
        rw [hstep, ← hoffset]
        have ih := granted_iff htotal hal (hgrid (⟨p, size⟩ :: w.live)) hrest
        constructor
        · rintro ⟨-, hall⟩
          exact ih.mp (hall _ rfl)
        · intro hle
          refine ⟨hgranted, fun w' hok => ?_⟩
          obtain rfl := Except.ok.inj hok
          exact ih.mpr hle

/-- Every call of the run, granted or refused, keeps the grid. -/
theorem OnGrid.exec (htotal : totalSize < 2 ^ 63) (hal : ∃ k ≤ 63, alignment = 2 ^ k) :
    ∀ {sizes : List Nat} {w w' : BumpSession}, OnGrid totalSize alignment w →
      (∀ size ∈ sizes, roundUp size alignment ≤ totalSize) →
      Runs.exec (step kind) w (requests sizes alignment) = .ok w' →
      OnGrid totalSize alignment w'
  | [], w, w', h, _, hrun => by
      obtain rfl := Except.ok.inj hrun
      exact h
  | size :: sizes, w, w', h, hsizes, hrun => by
      have hrest : ∀ size ∈ sizes, roundUp size alignment ≤ totalSize := fun size' hs =>
        hsizes size' (List.mem_cons_of_mem _ hs)
      rcases h.allocate htotal hal (hsizes size (List.mem_cons_self ..)) kind with
        ⟨-, hcall⟩ | ⟨p, a, hcall, -, hgrid⟩
      · have hstep : step kind w (.allocate size alignment) = .ok w := by simp only [step, hcall]
        rw [requests, List.map_cons, Runs.exec_cons_ok hstep] at hrun
        exact OnGrid.exec htotal hal h hrest hrun
      · have hstep : step kind w (.allocate size alignment) = .ok ⟨a, ⟨p, size⟩ :: w.live⟩ := by
          simp only [step, hcall]
        rw [requests, List.map_cons, Runs.exec_cons_ok hstep] at hrun
        exact OnGrid.exec htotal hal (hgrid _) hrest hrun

/-- A request of any size is refused only if its rounded size does not fit,
unless the size is a multiple of the alignment and fits without padding
only. -/
theorem OnGrid.refused_iff (h : OnGrid totalSize alignment w) (htotal : totalSize < 2 ^ 63)
    (hal : ∃ k ≤ 63, alignment = 2 ^ k) (size : Nat) :
    ((kind.allocate w.alloc size alignment).1 = none →
        totalSize - w.alloc.offset < roundUp size alignment) ↔
      ¬(alignment ∣ size ∧ size ≤ totalSize - w.alloc.offset ∧
        totalSize - w.alloc.offset < size + alignment) := by
  have hpos := pos_of_two_pow hal
  have hle := h.le
  have hup := le_roundUp hpos size
  by_cases hroom : totalSize - w.alloc.offset < roundUp size alignment
  · refine iff_of_true (fun _ => hroom) ?_
    rintro ⟨hd, hsize, -⟩
    rw [roundUp_of_dvd hpos hd] at hroom
    omega
  · have heq := consumed_eq hpos size
    rcases h.allocate htotal hal (show roundUp size alignment ≤ totalSize by omega) kind with
      ⟨hbig, hrun⟩ | ⟨p, a, hrun, hoffset, hgrid⟩
    · -- refused although the rounded size fits: the size is a multiple
      refine iff_of_false (fun himp => hroom (himp (congrArg Prod.fst hrun))) (not_not.mpr ?_)
      by_cases hd : alignment ∣ size
      · rw [if_pos hd, roundUp_of_dvd hpos hd] at heq
        exact ⟨hd, by omega, by omega⟩
      · rw [if_neg hd] at heq
        omega
    · refine iff_of_true (fun hnone => ?_) ?_
      · rw [hrun] at hnone
        cases hnone
      · rintro ⟨hd, -, hlast⟩
        have hin := (hgrid []).le
        rw [if_pos hd, roundUp_of_dvd hpos hd] at heq
        simp only at hin
        omega

/-- **Capacity, exactly.** Requests whose sizes, rounded up, add up to no more
than the arena all succeed if and only if the arena also holds the alignment
once more for each size that is a multiple of it; in every state of their
run, a request is refused only for lack of room for its rounded size, unless
it is a multiple with less than the alignment to spare. -/
theorem bump_capacity_iff (kind : BumpKind) {totalSize alignment : Nat}
    (htotal : totalSize < 2 ^ 63) (hal : ∃ k ≤ 63, alignment = 2 ^ k) (arena : Nat)
    (sizes : List Nat)
    (hsum : (sizes.map (roundUp · alignment)).sum ≤ totalSize) :
    (Runs.All (step kind) (Granted kind) (start totalSize arena) (requests sizes alignment) ↔
      (sizes.map (roundUp · alignment)).sum + alignment * sizes.countP (alignment ∣ ·)
        ≤ totalSize) ∧
    ∀ done todo w, sizes = done ++ todo →
      Runs.exec (step kind) (start totalSize arena) (requests done alignment) = .ok w →
      ∀ size,
        ((kind.allocate w.alloc size alignment).1 = none →
            totalSize - w.alloc.offset < roundUp size alignment) ↔
          ¬(alignment ∣ size ∧ size ≤ totalSize - w.alloc.offset ∧
            totalSize - w.alloc.offset < size + alignment) := by
  have hpos := pos_of_two_pow hal
  have hsizes : ∀ size ∈ sizes, roundUp size alignment ≤ totalSize := by
    intro size hs
    refine Nat.le_trans (List.single_le_sum (fun _ _ => Nat.zero_le _) _ ?_) hsum
    exact List.mem_map_of_mem hs
  have hgrid := onGrid_start totalSize alignment arena
  refine ⟨?_, ?_⟩
  · rw [hgrid.granted_iff htotal hal hsizes, sum_consumed hpos]
    simp [start, init, construct]
  · rintro done todo w rfl hrun size
    have hdone : ∀ size ∈ done, roundUp size alignment ≤ totalSize := fun size hs =>
      hsizes size (List.mem_append_left _ hs)
    exact (hgrid.exec htotal hal hdone hrun).refused_iff htotal hal size

/-- The rule on sizes that are no multiples of the alignment and fill the
arena to the last byte, in either class. -/
theorem bump_capacity_iff_filled :
    Runs.All (step .linear) (Granted .linear) (start 24 4096) (requests [5, 9] 8) ∧
      Runs.All (step .stack) (Granted .stack) (start 24 4096) (requests [5, 9] 8) :=
  ⟨(bump_capacity_iff .linear (by decide) ⟨3, by decide, rfl⟩ 4096 [5, 9] (by decide)).1.mpr
    (by decide),
  (bump_capacity_iff .stack (by decide) ⟨3, by decide, rfl⟩ 4096 [5, 9] (by decide)).1.mpr
    (by decide)⟩

/-- A single request for the whole arena is refused, by either class. -/
theorem not_granted_whole_arena :
    (([8].map (roundUp · 8)).sum ≤ 8) ∧
      ¬Runs.All (step .linear) (Granted .linear) (start 8 4096) (requests [8] 8) ∧
      ¬Runs.All (step .stack) (Granted .stack) (start 8 4096) (requests [8] 8) := by
  refine ⟨by decide, ?_, ?_⟩ <;>
  · intro hall
    exact (Runs.all_cons.mp hall).1 (by decide +kernel)

end BumpSession

end MemAlloc
