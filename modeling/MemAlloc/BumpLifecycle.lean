import MemAlloc.BumpSafety
import MemAlloc.StackRollback

/-!
# The life of a bump allocator

`LinearAllocator` and `StackAllocator` from construction on, with `Init`,
`Allocate`, `Free` and `Reset` in any order. Two laws are settled:

- `linear_owns_iff` - an `Allocate` that moves `m_offset` forward returns
  bytes of the arena, and nothing is reserved without one. There is no test
  for an arena in `Allocate`; the law holds exactly as long as `Allocate` is
  refused whenever there is none.
- `accounted_iff` - `m_used` is `m_offset` and what the live pointers took.
  `Init` leaves `m_used` alone; the law holds exactly as long as it is called
  when `m_used` is 0.
-/

namespace MemAlloc

open BumpAllocator

inductive LifeCall where
  | init (arena : Nat)
  | allocate (size alignment : Nat)
  | free (ptr : Nat)
  | reset
deriving DecidableEq, Repr

namespace BumpKind

variable (kind : BumpKind) (s : BumpAllocator)

/-- The `Init` of either class. -/
def init (arena : Nat) : BumpAllocator :=
  match kind with
  | .linear => LinearAllocator.init s arena
  | .stack => StackAllocator.init s arena

def free (ptr : Nat) : Bool × BumpAllocator :=
  match kind with
  | .linear => LinearAllocator.free s ptr
  | .stack => StackAllocator.free s ptr

def reset : BumpAllocator :=
  match kind with
  | .linear => LinearAllocator.reset s
  | .stack => StackAllocator.reset s

theorem init_eq (arena : Nat) : kind.init s arena = BumpAllocator.init s arena := by
  cases kind <;> rfl

end BumpKind

/-- An allocator, the arena it got from `malloc` and has not freed, and the
live pointers of its clients, latest first. -/
structure BumpLife where
  alloc : BumpAllocator
  owned : Option Nat
  live : List StackFrame

namespace BumpLife

/-- After construction, before any `Init()`. -/
def fresh (totalSize : Nat) : BumpLife := ⟨construct totalSize, none, []⟩

/-- One call. `Init()` and `Reset()` end the life of all pointers, `Free`
that of its pointer and of those allocated after it. -/
def step (kind : BumpKind) (w : BumpLife) : LifeCall → Except Stuck BumpLife
  | .init arena => .ok ⟨kind.init w.alloc arena, some arena, []⟩
  | .allocate size alignment =>
      let (result, alloc) := kind.allocate w.alloc size alignment
      .ok ⟨alloc, w.owned, match result with
        | some ptr => ⟨ptr, size, alignment⟩ :: w.live
        | none => w.live⟩
  | .free ptr =>
      let (ok, alloc) := kind.free w.alloc ptr
      .ok ⟨alloc, w.owned, if ok then (w.live.dropWhile (·.ptr != ptr)).tail else w.live⟩
  | .reset => .ok ⟨kind.reset w.alloc, match kind with
      | .linear => none
      | .stack => w.owned, []⟩

variable {totalSize : Nat} {kind : BumpKind} {w w' : BumpLife} {call : LifeCall}
variable {size alignment : Nat}

theorem step_allocate_some {ptr : Nat} {a : BumpAllocator}
    (h : BumpAllocator.allocate w.alloc size alignment = (some ptr, a)) :
    step kind w (.allocate size alignment)
      = .ok ⟨a, w.owned, ⟨ptr, size, alignment⟩ :: w.live⟩ := by
  rw [← kind.allocate_eq] at h
  simp only [step, h]

theorem step_allocate_none {a : BumpAllocator}
    (h : BumpAllocator.allocate w.alloc size alignment = (none, a)) :
    step kind w (.allocate size alignment) = .ok ⟨a, w.owned, w.live⟩ := by
  rw [← kind.allocate_eq] at h
  simp only [step, h]

/-! ## Ownership -/

/-- The calls of a linear allocator's life, `malloc` succeeding. -/
def LinearCall (_ : BumpLife) : LifeCall → Prop
  | .init arena => arena ≠ nullptr
  | .allocate size alignment => size < 2 ^ 32 ∧ 0 < alignment ∧ alignment < 2 ^ 64
  | .free _ => False
  | .reset => True

/-- An `Allocate` that advances the offset returns bytes of the arena; one
without an arena returns `nullptr`, and one that returns `nullptr` reserved
nothing. -/
def Owns (totalSize : Nat) (w : BumpLife) : LifeCall → Prop
  | .allocate size alignment => ∀ result alloc,
      LinearAllocator.allocate w.alloc size alignment = (result, alloc) →
        (w.alloc.offset < alloc.offset → ∃ arena p, w.owned = some arena ∧ result = some p ∧
          p ≠ nullptr ∧ arena ≤ p ∧ p + size ≤ arena + totalSize) ∧
        (w.owned = none → result.getD nullptr = nullptr ∧ alloc.offset = w.alloc.offset ∧
          alloc.used = w.alloc.used) ∧
        (result.getD nullptr = nullptr → alloc.offset = w.alloc.offset ∧
          alloc.used = w.alloc.used)
  | _ => True

/-- There is an arena, or the request is too large. -/
def HasArena (w : BumpLife) : LifeCall → Prop
  | .allocate size alignment => w.alloc.startPtr ≠ nullptr ∨
      w.alloc.totalSize < (w.alloc.offset + consumed size alignment) % 2 ^ 64
  | _ => True

instance (w : BumpLife) : DecidablePred (HasArena w)
  | .allocate _ _ => inferInstanceAs (Decidable (_ ∨ _))
  | .init _ => isTrue trivial
  | .free _ => isTrue trivial
  | .reset => isTrue trivial

/-- `m_start_ptr` is the arena owned, `nullptr` if there is none. -/
structure Holding (totalSize : Nat) (w : BumpLife) : Prop where
  total : w.alloc.totalSize = totalSize
  start : w.alloc.startPtr = w.owned.getD nullptr
  arena : w.owned ≠ some nullptr
  lt : w.alloc.offset < 2 ^ 64

theorem holding_fresh (totalSize : Nat) : Holding totalSize (fresh totalSize) where
  total := rfl
  start := rfl
  arena := by simp [fresh]
  lt := Nat.two_pow_pos 64

namespace Holding

variable (h : Holding totalSize w)
include h

theorem startPtr_eq_nullptr : w.alloc.startPtr = nullptr ↔ w.owned = none := by
  have hstart := h.start
  cases howned : w.owned with
  | none => simp [hstart, howned]
  | some arena =>
      have harena := h.arena
      rw [howned] at harena hstart
      rw [hstart, Option.getD_some]
      simpa using harena

theorem step (hcall : LinearCall w call) (hok : step .linear w call = .ok w') :
    Holding totalSize w' := by
  cases call with
  | init arena =>
      obtain rfl := Except.ok.inj hok
      exact ⟨h.total, rfl, fun h0 => hcall (Option.some.inj h0), Nat.two_pow_pos 64⟩
  | allocate size alignment =>
      rcases allocate_cases_of_pos w.alloc size hcall.2.1 hcall.2.2 with ⟨-, hrun⟩ | ⟨-, hrun⟩
      · rw [step_allocate_none hrun] at hok
        obtain rfl := Except.ok.inj hok
        exact ⟨h.total, h.start, h.arena, h.lt⟩
      · rw [step_allocate_some hrun] at hok
        obtain rfl := Except.ok.inj hok
        exact ⟨h.total, h.start, h.arena, Nat.mod_lt _ (Nat.two_pow_pos 64)⟩
  | free ptr => cases hcall
  | reset =>
      obtain rfl := Except.ok.inj hok
      exact ⟨h.total, rfl, by simp, Nat.two_pow_pos 64⟩

/-- **Step lemma.** `Allocate` keeps to its arena if and only if there is
one or the request is refused. -/
theorem owns_iff (hcall : LinearCall w call) : Owns totalSize w call ↔ HasArena w call := by
  cases call with
  | allocate size alignment =>
      obtain ⟨hsize, hpos, hlt⟩ := hcall
      have hsome := consumed_pos size hpos
      have hcons := consumed_lt hsize hpos hlt
      have hoff := h.lt
      have htotal := h.total
      rw [Owns, HasArena, LinearAllocator.allocate]
      rcases allocate_cases_of_pos w.alloc size hpos hlt with ⟨hbig, hrun⟩ | ⟨hle, hrun⟩
      · -- refused
        refine iff_of_true ?_ (Or.inr hbig)
        intro result alloc heq
        obtain ⟨rfl, rfl⟩ := Prod.mk.inj (hrun.symm.trans heq)
        exact ⟨fun hlt => absurd hlt (Nat.lt_irrefl _), fun _ => ⟨rfl, rfl, rfl⟩,
          fun _ => ⟨rfl, rfl⟩⟩
      · -- accepted: the offset moves
        constructor
        · intro howns
          refine Or.inl fun hnull => ?_
          have hkept := ((howns _ _ hrun).2.1 (h.startPtr_eq_nullptr.mp hnull)).2.1
          simp only at hkept
          omega
        · intro harena
          have hne := harena.resolve_right (Nat.not_lt_of_le hle)
          obtain ⟨arena, howned⟩ : ∃ arena, w.owned = some arena :=
            Option.ne_none_iff_exists'.mp (mt h.startPtr_eq_nullptr.mpr hne)
          have hstart : w.alloc.startPtr = arena := by rw [h.start, howned, Option.getD_some]
          have hfit : size ≤ consumed size alignment := Nat.le_add_left _ _
          have hnonnull : w.alloc.startPtr + w.alloc.offset ≠ nullptr := fun h0 =>
            hne (Nat.eq_zero_of_add_eq_zero_right h0)
          intro result alloc heq
          obtain ⟨rfl, rfl⟩ := Prod.mk.inj (hrun.symm.trans heq)
          refine ⟨fun hmoved => ?_, fun hnone => ?_, fun hnull => absurd hnull hnonnull⟩
          · simp only at hmoved
            exact ⟨arena, _, howned, rfl, hnonnull, by omega, by omega⟩
          · rw [howned] at hnone
            cases hnone
  | init arena => exact Iff.rfl
  | free ptr => cases hcall
  | reset => exact Iff.rfl

end Holding

/-- **Ownership, exactly.** In a run from construction every `Allocate` of a
linear allocator keeps to its arena if and only if each is made with an
arena or refused as too large. -/
theorem linear_owns_iff (totalSize : Nat) (calls : List LifeCall)
    (hcalls : Runs.All (step .linear) LinearCall (fresh totalSize) calls) :
    Runs.All (step .linear) (Owns totalSize) (fresh totalSize) calls ↔
      Runs.All (step .linear) HasArena (fresh totalSize) calls :=
  Runs.all_iff (Holding totalSize) (fun _ _ hw hcall => hw.owns_iff hcall)
    (fun _ _ _ hw hcall hok => hw.step hcall hok) (holding_fresh totalSize) hcalls

/-- The rule on an allocator that is initialised, used, reset and asked for
more than it has. -/
theorem linear_owns_iff_init :
    Runs.All (step .linear) (Owns 64) (fresh 64)
      [.init 4096, .allocate 8 8, .reset, .allocate 64 8] := by
  refine (linear_owns_iff 64 _ ?_).mpr (by decide +kernel)
  refine Runs.all_of_forall ?_
  simp [LinearCall, nullptr]

/-- Before `Init()`, `Allocate` returns `nullptr` and takes 16 bytes. -/
theorem not_owns_before_init :
    Runs.All (step .linear) LinearCall (fresh 64) [.allocate 8 8] ∧
      ¬Runs.All (step .linear) (Owns 64) (fresh 64) [.allocate 8 8] := by
  refine ⟨Runs.all_of_forall (by simp [LinearCall]), ?_⟩
  intro hall
  have howns := (Runs.all_cons.mp hall).1
  have hmoved : (LinearAllocator.allocate (fresh 64).alloc 8 8).2.offset ≠
      (fresh 64).alloc.offset := by decide +kernel
  exact hmoved ((howns _ _ rfl).2.1 rfl).2.1

/-! ## Accounting -/

/-- The calls of a life: any request, and, for the stack, `Free` of the most
recent live pointer. -/
def Legal (kind : BumpKind) (w : BumpLife) : LifeCall → Prop
  | .allocate size alignment => size < 2 ^ 64 ∧ 0 < alignment ∧ alignment < 2 ^ 64
  | .free ptr => kind = .stack ∧ ∃ f older, w.live = f :: older ∧ f.ptr = ptr
  | _ => True

/-- `m_used`, `m_offset` and what the live pointers took, modulo `2 ^ 64`,
are the same. -/
structure Accounted (w : BumpLife) : Prop where
  used : w.alloc.getUsedSize = w.alloc.offset
  offset : w.alloc.offset = StackSession.total w.live % 2 ^ 64

/-- After the call the account is right. -/
def KeepsAccount (kind : BumpKind) (w : BumpLife) (call : LifeCall) : Prop :=
  ∃ w', step kind w call = .ok w' ∧ Accounted w'

/-- `Init()` is called when the counter is 0. -/
def FreshInit (w : BumpLife) : LifeCall → Prop
  | .init _ => w.alloc.used = 0
  | _ => True

instance (w : BumpLife) : DecidablePred (FreshInit w)
  | .init _ => inferInstanceAs (Decidable (_ = _))
  | .allocate _ _ => isTrue trivial
  | .free _ => isTrue trivial
  | .reset => isTrue trivial

/-- The account is right, and each live pointer lies at what those below it
took. -/
structure Ledger (w : BumpLife) : Prop extends Accounted w where
  stacked : StackSession.Stacked w.alloc.startPtr w.live

theorem ledger_fresh (totalSize : Nat) : Ledger (fresh totalSize) where
  used := rfl
  offset := rfl
  stacked := trivial

/-- No live pointers, both counters 0. -/
theorem ledger_nil {alloc : BumpAllocator} {owned : Option Nat} (hoffset : alloc.offset = 0)
    (hused : alloc.used = 0) : Ledger ⟨alloc, owned, []⟩ where
  used := hused.trans hoffset.symm
  offset := hoffset
  stacked := trivial

/-- **Step lemma.** A legal call that does not re-initialise a used
allocator keeps the account. -/
theorem Ledger.step (h : Ledger w) (hlegal : Legal kind w call) (hfresh : FreshInit w call) :
    ∃ w', step kind w call = .ok w' ∧ Ledger w' := by
  cases call with
  | init arena =>
      refine ⟨_, rfl, ledger_nil ?_ ?_⟩
      · rw [kind.init_eq]
        rfl
      · rw [kind.init_eq]
        exact hfresh
  | allocate size alignment =>
      rcases allocate_cases_of_pos w.alloc size hlegal.2.1 hlegal.2.2 with ⟨-, hrun⟩ | ⟨-, hrun⟩
      · exact ⟨_, step_allocate_none hrun, ⟨h.used, h.offset⟩, h.stacked⟩
      · refine ⟨_, step_allocate_some hrun, ⟨rfl, ?_⟩, ?_, h.stacked⟩
        · show (w.alloc.offset + consumed size alignment) % 2 ^ 64
            = (consumed size alignment + StackSession.total w.live) % 2 ^ 64
          rw [h.offset, Nat.mod_add_mod, Nat.add_comm]
        · show w.alloc.startPtr + w.alloc.offset = _
          rw [h.offset]
  | free ptr =>
      obtain ⟨rfl, f, older, hlive, rfl⟩ := hlegal
      have hstacked := h.stacked
      rw [hlive] at hstacked
      obtain ⟨hptr, hold⟩ := hstacked
      have hdrop : (w.live.dropWhile (·.ptr != f.ptr)).tail = older := by simp [hlive]
      have hfree := free_offset (s := w.alloc) (Nat.mod_lt (StackSession.total older)
        (Nat.two_pow_pos 64))
      rw [← hptr] at hfree
      refine ⟨⟨{ w.alloc with
          offset := StackSession.total older % 2 ^ 64
          used := StackSession.total older % 2 ^ 64 }, w.owned, older⟩, ?_, ⟨rfl, rfl⟩, hold⟩
      simp only [step, BumpKind.free, hfree, hdrop, if_true]
  | reset => cases kind <;> exact ⟨_, rfl, ledger_nil rfl rfl⟩

/-- `Init()` on a used allocator leaves the counter behind. -/
theorem freshInit_of_keeps (hkeeps : KeepsAccount kind w call) : FreshInit w call := by
  cases call with
  | init arena =>
      obtain ⟨w', hok, haccount⟩ := hkeeps
      obtain rfl := Except.ok.inj hok
      have hused := haccount.used
      rw [kind.init_eq] at hused
      exact hused
  | allocate size alignment => trivial
  | free ptr => trivial
  | reset => trivial

/-- **Accounting, exactly.** In a run from construction `m_used`, `m_offset`
and what the live pointers took agree in every state if and only if every
`Init()` of it is called with `m_used` 0. -/
theorem accounted_iff (kind : BumpKind) (totalSize : Nat) (calls : List LifeCall)
    (hlegal : Runs.All (step kind) (Legal kind) (fresh totalSize) calls) :
    Accounted (fresh totalSize) ∧
      (Runs.All (step kind) (KeepsAccount kind) (fresh totalSize) calls ↔
        Runs.All (step kind) FreshInit (fresh totalSize) calls) := by
  refine ⟨(ledger_fresh totalSize).toAccounted, ?_⟩
  refine Runs.steps_iff Ledger ?_ (fun _ _ hw hl hf => hw.step hl hf) (ledger_fresh _) hlegal
  intro w call hw hl
  refine ⟨freshInit_of_keeps, fun hf => ?_⟩
  obtain ⟨w', hok, hw'⟩ := hw.step hl hf
  exact ⟨w', hok, hw'.toAccounted⟩

/-- The rule on allocators of either class that are reset before they are
initialised again. -/
theorem accounted_iff_reset :
    Runs.All (step .linear) (KeepsAccount .linear) (fresh 64)
        [.init 4096, .allocate 8 8, .reset, .init 8192] ∧
      Runs.All (step .stack) (KeepsAccount .stack) (fresh 64)
        [.init 4096, .allocate 8 8, .reset, .init 8192] := by
  have hlegal : ∀ kind, Runs.All (step kind) (Legal kind) (fresh 64)
      [.init 4096, .allocate 8 8, .reset, .init 8192] := fun kind =>
    Runs.all_of_forall (by simp [Legal])
  exact ⟨(accounted_iff .linear 64 _ (hlegal _)).2.mpr (by decide +kernel),
    (accounted_iff .stack 64 _ (hlegal _)).2.mpr (by decide +kernel)⟩

/-- The second `Init()` leaves `m_used` at 16 and `m_offset` at 0, in either
class. -/
theorem not_accounted_second_init :
    (Runs.All (step .linear) (Legal .linear) (fresh 64) [.init 4096, .allocate 8 8, .init 8192] ∧
      ¬Runs.All (step .linear) (KeepsAccount .linear) (fresh 64)
        [.init 4096, .allocate 8 8, .init 8192]) ∧
    Runs.All (step .stack) (Legal .stack) (fresh 64) [.init 4096, .allocate 8 8, .init 8192] ∧
      ¬Runs.All (step .stack) (KeepsAccount .stack) (fresh 64)
        [.init 4096, .allocate 8 8, .init 8192] := by
  have hlegal : ∀ kind, Runs.All (step kind) (Legal kind) (fresh 64)
      [.init 4096, .allocate 8 8, .init 8192] := fun kind =>
    Runs.all_of_forall (by simp [Legal])
  have hwrong : ∀ kind, ¬Runs.All (step kind) (KeepsAccount kind) (fresh 64)
      [.init 4096, .allocate 8 8, .init 8192] := by
    intro kind hall
    have hused : ¬Runs.All (step kind) FreshInit (fresh 64)
        [.init 4096, .allocate 8 8, .init 8192] := by cases kind <;> decide +kernel
    exact hused (Runs.All.imp (fun _ _ => freshInit_of_keeps) hall)
  exact ⟨⟨hlegal _, hwrong _⟩, hlegal _, hwrong _⟩

end BumpLife

end MemAlloc
