import MemAlloc.Bump
import MemAlloc.Extent
import MemAlloc.Runs

/-!
# When the bump allocators are safe

`Allocate` compares `m_offset + padding + size`, computed modulo `2 ^ 64`,
with the size of the arena. A run hands out disjoint regions inside the
arena, and refuses what does not fit, exactly when no accepted request
wrapped around (`bump_safe_iff`).

The two classes are treated together; only the stack may free, and only its
latest pointer.
-/

namespace MemAlloc

open BumpAllocator

inductive BumpKind where
  | linear
  | stack
deriving DecidableEq, Repr

inductive BumpCall where
  | allocate (size alignment : Nat)
  | freeLast
deriving DecidableEq, Repr

/-- The `Allocate` of either class. -/
def BumpKind.allocate (kind : BumpKind) (s : BumpAllocator) (size alignment : Nat) :
    Option Nat × BumpAllocator :=
  match kind with
  | .linear => LinearAllocator.allocate s size alignment
  | .stack => StackAllocator.allocate s size alignment

theorem BumpKind.allocate_eq (kind : BumpKind) (s : BumpAllocator) (size alignment : Nat) :
    kind.allocate s size alignment = BumpAllocator.allocate s size alignment := by
  cases kind <;> rfl

/-- The region of a live pointer. -/
def Lease.region (l : Lease) : Extent := ⟨l.ptr, l.size⟩

/-- An allocator with the live pointers of its clients, latest first. -/
structure BumpSession where
  alloc : BumpAllocator
  live : List Lease
deriving DecidableEq

namespace BumpSession

/-- `Init()` on a constructed allocator; nothing is live. -/
def start (totalSize arena : Nat) : BumpSession := ⟨init (construct totalSize) arena, []⟩

/-- One call of a client. Every call returns. -/
def step (kind : BumpKind) (w : BumpSession) : BumpCall → Except Stuck BumpSession
  | .allocate size alignment =>
      let (result, alloc) := kind.allocate w.alloc size alignment
      .ok ⟨alloc, match result with
        | some ptr => ⟨ptr, size⟩ :: w.live
        | none => w.live⟩
  | .freeLast =>
      match kind, w.live with
      | .stack, l :: live => .ok ⟨(StackAllocator.free w.alloc l.ptr).2, live⟩
      | _, _ => .ok w

/-- The calls clients may make: any size, a power of two as alignment, and,
for the stack, `Free` of the latest live pointer. -/
def Legal (kind : BumpKind) (w : BumpSession) : BumpCall → Prop
  | .allocate size alignment => size < 2 ^ 64 ∧ ∃ k ≤ 63, alignment = 2 ^ k
  | .freeLast => kind = .stack ∧ w.live ≠ []

/-- The offset is in the arena, the live regions are too, and are disjoint. -/
structure Safe (totalSize arena : Nat) (w : BumpSession) : Prop where
  offset : w.alloc.offset ≤ totalSize
  inside : ∀ l ∈ w.live, arena ≤ l.ptr ∧ l.ptr + l.size ≤ arena + totalSize
  disjoint : w.live.Pairwise fun l l' => Disjoint l.region.bytes l'.region.bytes

/-- The call leaves a safe state, an accepted request does not move the
offset back, and a request that does not fit is refused, changing nothing. -/
def Keeps (totalSize arena : Nat) (kind : BumpKind) (w : BumpSession) (call : BumpCall) : Prop :=
  (∃ w', step kind w call = .ok w' ∧ Safe totalSize arena w') ∧
    ∀ size alignment, call = .allocate size alignment →
      (∀ p alloc, kind.allocate w.alloc size alignment = (some p, alloc) →
        w.alloc.offset ≤ alloc.offset) ∧
      (totalSize < w.alloc.offset + consumed size alignment →
        kind.allocate w.alloc size alignment = (none, w.alloc))

/-- The sum `Allocate` compares does not wrap around, or does so to a value
that is refused. -/
def NoWrap (w : BumpSession) : BumpCall → Prop
  | .allocate size alignment => w.alloc.offset + consumed size alignment < 2 ^ 64 ∨
      w.alloc.totalSize < (w.alloc.offset + consumed size alignment) % 2 ^ 64
  | .freeLast => True

instance (w : BumpSession) : DecidablePred (NoWrap w)
  | .allocate _ _ => inferInstanceAs (Decidable (_ ∨ _))
  | .freeLast => isTrue trivial

/-- The live regions lie one below the other, all below `top`. -/
def Below (arena : Nat) : Nat → List Lease → Prop
  | _, [] => True
  | top, l :: live => arena ≤ l.ptr ∧ l.ptr + l.size ≤ top ∧ Below arena l.ptr live

/-- The invariant of a run without wrap-around. -/
structure WF (totalSize arena : Nat) (w : BumpSession) : Prop where
  total : w.alloc.totalSize = totalSize
  totalLt : totalSize < 2 ^ 64
  start : w.alloc.startPtr = arena
  offset : w.alloc.offset ≤ totalSize
  below : Below arena (arena + w.alloc.offset) w.live

variable {totalSize arena : Nat} {kind : BumpKind} {w : BumpSession} {call : BumpCall}

theorem wf_start (htotal : totalSize < 2 ^ 64) (arena : Nat) :
    WF totalSize arena (start totalSize arena) :=
  ⟨rfl, htotal, rfl, Nat.zero_le _, trivial⟩

theorem Below.mem : ∀ {live : List Lease} {top : Nat}, Below arena top live → ∀ l ∈ live,
    arena ≤ l.ptr ∧ l.ptr + l.size ≤ top
  | l :: live, top, ⟨hlo, hhi, hbelow⟩, l', hl' => by
      rcases List.mem_cons.mp hl' with rfl | hmem
      · exact ⟨hlo, hhi⟩
      · have := hbelow.mem l' hmem
        omega

theorem Below.disjoint : ∀ {live : List Lease} {top : Nat}, Below arena top live →
    live.Pairwise fun l l' => Disjoint l.region.bytes l'.region.bytes
  | [], _, _ => List.Pairwise.nil
  | l :: live, top, ⟨_, _, hbelow⟩ => by
      refine List.pairwise_cons.mpr ⟨fun l' hl' => ?_, hbelow.disjoint⟩
      have hle := (hbelow.mem l' hl').2
      rw [Finset.disjoint_left]
      intro x hx hx'
      rw [Extent.mem_bytes] at hx hx'
      simp only [Lease.region, Extent.stop] at hx hx'
      omega

theorem WF.safe (h : WF totalSize arena w) : Safe totalSize arena w where
  offset := h.offset
  inside l hl := by
    have := h.below.mem l hl
    have := h.offset
    omega
  disjoint := h.below.disjoint

/-- A request that does not wrap is refused, or is granted the bytes from
the offset on. -/
theorem WF.allocate (h : WF totalSize arena w) (kind : BumpKind) {size alignment : Nat}
    (hal : ∃ k ≤ 63, alignment = 2 ^ k) (hwrap : NoWrap w (.allocate size alignment)) :
    kind.allocate w.alloc size alignment = (none, w.alloc) ∨
      ∃ a, kind.allocate w.alloc size alignment = (some (arena + w.alloc.offset), a) ∧
        a.offset = w.alloc.offset + consumed size alignment ∧
        WF totalSize arena ⟨a, ⟨arena + w.alloc.offset, size⟩ :: w.live⟩ := by
  rw [BumpKind.allocate_eq]
  rcases allocate_cases w.alloc size hal with ⟨-, hrun⟩ | ⟨hle, hrun⟩
  · exact Or.inl hrun
  · -- accepted: the sum did not wrap
    have hsum : w.alloc.offset + consumed size alignment < 2 ^ 64 :=
      hwrap.resolve_right (Nat.not_lt_of_le hle)
    rw [Nat.mod_eq_of_lt hsum, h.total] at hle
    rw [Nat.mod_eq_of_lt hsum, h.start] at hrun
    refine Or.inr ⟨_, hrun, rfl, h.total, h.totalLt, rfl, hle, Nat.le_add_right _ _, ?_, h.below⟩
    show arena + w.alloc.offset + size ≤ arena + (w.alloc.offset + consumed size alignment)
    unfold consumed
    omega

/-- `Free` of the latest pointer of a stack. -/
theorem WF.freeLast {alloc : BumpAllocator} {l : Lease} {live : List Lease}
    (h : WF totalSize arena ⟨alloc, l :: live⟩) :
    WF totalSize arena ⟨(StackAllocator.free alloc l.ptr).2, live⟩ := by
  obtain ⟨hlo, hhi, hbelow⟩ := h.below
  have hoff := h.offset
  have hlt := h.totalLt
  have hstart := h.start
  simp only at hhi hoff hstart
  obtain ⟨o, ho⟩ : ∃ o, l.ptr = alloc.startPtr + o := ⟨l.ptr - arena, by omega⟩
  rw [ho, free_offset (by omega)]
  refine ⟨h.total, hlt, hstart, by simp only; omega, ?_⟩
  show Below arena (arena + o) live
  rw [← hstart, ← ho, hstart]
  exact hbelow

/-- **Step lemma.** A legal call that does not wrap keeps the invariant. -/
theorem step_wf (h : WF totalSize arena w) (hlegal : Legal kind w call) (hwrap : NoWrap w call) :
    ∃ w', step kind w call = .ok w' ∧ WF totalSize arena w' := by
  cases call with
  | allocate size alignment =>
      rcases h.allocate kind hlegal.2 hwrap with hrun | ⟨a, hrun, -, ha⟩
      · exact ⟨w, by simp only [step, hrun], h⟩
      · exact ⟨_, by simp only [step, hrun], ha⟩
  | freeLast =>
      obtain ⟨rfl, hne⟩ := hlegal
      obtain ⟨alloc, live⟩ := w
      cases live with
      | nil => exact absurd rfl hne
      | cons l live => exact ⟨_, rfl, h.freeLast⟩

theorem keeps_of_noWrap (h : WF totalSize arena w) (hlegal : Legal kind w call)
    (hwrap : NoWrap w call) : Keeps totalSize arena kind w call := by
  obtain ⟨w', hrun, hw'⟩ := step_wf h hlegal hwrap
  refine ⟨⟨w', hrun, hw'.safe⟩, ?_⟩
  rintro size alignment rfl
  rcases h.allocate kind hlegal.2 hwrap with hrun | ⟨a, hrun, hoff, ha⟩
  · refine ⟨fun p alloc hp => ?_, fun _ => hrun⟩
    rw [hrun] at hp
    cases hp
  · refine ⟨fun p alloc hp => ?_, fun hnofit => ?_⟩
    · rw [hrun] at hp
      cases hp
      omega
    · have := ha.offset
      simp only at this
      omega

/-- A request that wraps around to a value in the arena is accepted although
it does not fit. -/
theorem noWrap_of_keeps (h : WF totalSize arena w) (hlegal : Legal kind w call)
    (hkeeps : Keeps totalSize arena kind w call) : NoWrap w call := by
  cases call with
  | allocate size alignment =>
      by_contra hwrap
      simp only [NoWrap, not_or, Nat.not_lt] at hwrap
      obtain ⟨hge, hle⟩ := hwrap
      have htotal := h.totalLt
      have hnone := (hkeeps.2 size alignment rfl).2 (by omega)
      rw [BumpKind.allocate_eq] at hnone
      rcases allocate_cases w.alloc size hlegal.2 with ⟨hlt, -⟩ | ⟨-, hrun⟩
      · omega
      · rw [hnone] at hrun
        cases hrun
  | freeLast => trivial

/-- **Safety, exactly.** A run from `Init()` is safe throughout if and only
if no request of it wraps around to a value that is accepted. -/
theorem bump_safe_iff (kind : BumpKind) {totalSize : Nat} (htotal : totalSize < 2 ^ 64)
    (arena : Nat) (calls : List BumpCall)
    (hlegal : Runs.All (step kind) (Legal kind) (start totalSize arena) calls) :
    Safe totalSize arena (start totalSize arena) ∧
      (Runs.All (step kind) (Keeps totalSize arena kind) (start totalSize arena) calls ↔
        Runs.All (step kind) NoWrap (start totalSize arena) calls) := by
  refine ⟨(wf_start htotal arena).safe, ?_⟩
  exact Runs.steps_iff (WF totalSize arena)
    (fun _ _ hw hl => ⟨noWrap_of_keeps hw hl, keeps_of_noWrap hw hl⟩)
    (fun _ _ hw hl hc => step_wf hw hl hc) (wf_start htotal arena) hlegal

/-- The rule on a stack that frees its latest pointer. -/
theorem bump_safe_iff_stack :
    Safe 64 4096 (start 64 4096) ∧
      Runs.All (step .stack) (Keeps 64 4096 .stack) (start 64 4096)
        [.allocate 8 8, .freeLast] := by
  have hlive : (step .stack (start 64 4096) (.allocate 8 8)).map (·.live) = .ok [⟨4096, 8⟩] := by
    decide +kernel
  have hnowrap : Runs.All (step .stack) NoWrap (start 64 4096) [.allocate 8 8, .freeLast] := by
    decide +kernel
  refine (bump_safe_iff .stack (by decide) 4096 _ ?_).imp_right fun hiff => hiff.mpr hnowrap
  refine Runs.all_cons.mpr ⟨⟨by decide, 3, by decide, rfl⟩, fun w hw => ?_⟩
  rw [hw] at hlive
  refine Runs.all_cons.mpr ⟨⟨rfl, ?_⟩, fun _ _ => Runs.all_nil _ _⟩
  rw [show w.live = [⟨4096, 8⟩] from Except.ok.inj hlive]
  exact List.cons_ne_nil _ _

/-- With 16 of 64 bytes taken, a request for `2 ^ 64 - 16` bytes wraps around
to offset 8 and is accepted, by either class. -/
theorem not_keeps_wrapped_request :
    (Runs.All (step .linear) (Legal .linear) (start 64 4096)
        [.allocate 8 8, .allocate (2 ^ 64 - 16) 8] ∧
      ¬Runs.All (step .linear) (Keeps 64 4096 .linear) (start 64 4096)
        [.allocate 8 8, .allocate (2 ^ 64 - 16) 8]) ∧
    Runs.All (step .stack) (Legal .stack) (start 64 4096)
        [.allocate 8 8, .allocate (2 ^ 64 - 16) 8] ∧
      ¬Runs.All (step .stack) (Keeps 64 4096 .stack) (start 64 4096)
        [.allocate 8 8, .allocate (2 ^ 64 - 16) 8] := by
  have hlegal : ∀ kind, Runs.All (step kind) (Legal kind) (start 64 4096)
      [.allocate 8 8, .allocate (2 ^ 64 - 16) 8] := fun kind =>
    Runs.all_of_forall (by
      simp only [List.mem_cons, List.not_mem_nil, or_false, forall_eq_or_imp, forall_eq]
      exact ⟨fun _ => ⟨by decide, 3, by decide, rfl⟩, fun _ => ⟨by decide, 3, by decide, rfl⟩⟩)
  have hwrapped : ∀ kind, ¬Runs.All (step kind) (Keeps 64 4096 kind) (start 64 4096)
      [.allocate 8 8, .allocate (2 ^ 64 - 16) 8] := by
    intro kind hall
    have haccepted : ∃ x ∈ Runs.steps (step kind) (start 64 4096)
        [.allocate 8 8, .allocate (2 ^ 64 - 16) 8], x.2 = .allocate (2 ^ 64 - 16) 8 ∧
          64 < x.1.alloc.offset + consumed (2 ^ 64 - 16) 8 ∧
          (kind.allocate x.1.alloc (2 ^ 64 - 16) 8).1 ≠ none := by
      cases kind <;> decide +kernel
    obtain ⟨x, hx, hcall, hnofit, haccept⟩ := haccepted
    exact haccept (congrArg Prod.fst (((hall x hx).2 _ _ hcall).2 hnofit))
  exact ⟨⟨hlegal _, hwrapped _⟩, hlegal _, hwrapped _⟩

end BumpSession

end MemAlloc
