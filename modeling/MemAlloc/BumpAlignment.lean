import MemAlloc.BumpLifecycle

/-!
# Alignment of the bump allocators

The padding goes behind a block and is computed from its size, so the
address of the next block is a multiple of the alignments of the blocks
before it, not of its own. An accepted `Allocate` returns an aligned address
exactly when `m_offset` is a multiple of its alignment, and all runs with
requests of a given set do so exactly when each alignment of the set divides
what each request of the set takes (`bump_aligned_iff`).
-/

namespace MemAlloc

open BumpAllocator

namespace BumpLife

/-- After the first `Init()`. -/
def start (totalSize arena : Nat) : BumpLife := ⟨init (construct totalSize) arena, some arena, []⟩

/-- Requests clients may make of an arena that is a multiple of every
alignment used. -/
def Admissible (arena : Nat) (requests : Set Request) : Prop :=
  ∀ r ∈ requests, r.size < 2 ^ 32 ∧ (∃ k ≤ 63, r.alignment = 2 ^ k) ∧ r.alignment ∣ arena

/-- The calls: requests of the set, and, for the stack, `Free` of any live
pointer. -/
def RequestCall (kind : BumpKind) (requests : Set Request) (w : BumpLife) : LifeCall → Prop
  | .allocate size alignment => ⟨size, alignment⟩ ∈ requests
  | .free ptr => kind = .stack ∧ ∃ f ∈ w.live, f.ptr = ptr
  | _ => False

/-- A successful `Allocate` returns a multiple of its alignment. -/
def Aligned (kind : BumpKind) (w : BumpLife) : LifeCall → Prop
  | .allocate size alignment => ∀ p, (kind.allocate w.alloc size alignment).1 = some p →
      alignment ∣ p
  | _ => True

/-- The offset is a multiple of the alignment, or the request is refused. -/
def AtMultiple (w : BumpLife) : LifeCall → Prop
  | .allocate size alignment => alignment ∣ w.alloc.offset ∨
      w.alloc.totalSize < (w.alloc.offset + consumed size alignment) % 2 ^ 64
  | _ => True

variable {totalSize arena : Nat} {kind : BumpKind} {requests : Set Request}
variable {w w' : BumpLife} {call : LifeCall}

/-! ## One run -/

theorem aligned_iff (hadm : Admissible arena requests) (hstart : w.alloc.startPtr = arena)
    (hcall : RequestCall kind requests w call) : Aligned kind w call ↔ AtMultiple w call := by
  cases call with
  | allocate size alignment =>
      obtain ⟨-, hpow, hbase⟩ := hadm _ hcall
      simp only [Aligned, AtMultiple, kind.allocate_eq]
      rcases allocate_cases w.alloc size hpow with ⟨hbig, hrun⟩ | ⟨hle, hrun⟩
      · refine iff_of_true ?_ (Or.inr hbig)
        intro p hp
        rw [hrun] at hp
        cases hp
      · simp only [hrun, Option.some.injEq, forall_eq', hstart, Nat.dvd_add_right hbase]
        exact (or_iff_left (Nat.not_lt_of_le hle)).symm
  | init arena => cases hcall
  | free ptr => exact Iff.rfl
  | reset => cases hcall

theorem step_startPtr (hadm : Admissible arena requests)
    (hcall : RequestCall kind requests w call) (hok : step kind w call = .ok w') :
    w'.alloc.startPtr = w.alloc.startPtr := by
  cases call with
  | allocate size alignment =>
      rcases allocate_cases w.alloc size (hadm _ hcall).2.1 with ⟨-, hrun⟩ | ⟨-, hrun⟩
      · rw [step_allocate_none hrun] at hok
        obtain rfl := Except.ok.inj hok
        rfl
      · rw [step_allocate_some hrun] at hok
        obtain rfl := Except.ok.inj hok
        rfl
  | free ptr =>
      obtain rfl := Except.ok.inj hok
      cases kind <;> rfl
  | init arena => cases hcall
  | reset => cases hcall

/-! ## All runs of a set of requests -/

/-- Each alignment of the set divides what each request of it takes. -/
def Commensurate (requests : Set Request) : Prop :=
  ∀ r ∈ requests, ∀ r' ∈ requests, r.alignment ∣ consumed r'.size r'.alignment

/-- The offset, and those of the live pointers, are multiples of all
alignments of the set. -/
structure OnGrid (arena : Nat) (requests : Set Request) (w : BumpLife) : Prop where
  start : w.alloc.startPtr = arena
  offset : ∀ r ∈ requests, r.alignment ∣ w.alloc.offset
  live : ∀ f ∈ w.live, ∃ o < 2 ^ 64, f.ptr = arena + o ∧ ∀ r ∈ requests, r.alignment ∣ o
  lt : w.alloc.offset < 2 ^ 64

theorem onGrid_start (totalSize arena : Nat) (requests : Set Request) :
    OnGrid arena requests (start totalSize arena) where
  start := rfl
  offset r _ := Nat.dvd_zero _
  live f hf := by cases hf
  lt := Nat.two_pow_pos 64

theorem OnGrid.step (h : OnGrid arena requests w) (hadm : Admissible arena requests)
    (hcomm : Commensurate requests) (hcall : RequestCall kind requests w call) :
    ∃ w', step kind w call = .ok w' ∧ OnGrid arena requests w' := by
  cases call with
  | allocate size alignment =>
      rcases allocate_cases w.alloc size (hadm _ hcall).2.1 with ⟨-, hrun⟩ | ⟨-, hrun⟩
      · exact ⟨_, step_allocate_none hrun, h.start, h.offset, h.live, h.lt⟩
      · refine ⟨_, step_allocate_some hrun, h.start, ?_, ?_, Nat.mod_lt _ (Nat.two_pow_pos 64)⟩
        · intro r hr
          obtain ⟨-, ⟨k, hk, hpow⟩, -⟩ := hadm r hr
          have hsum := Nat.dvd_add (h.offset r hr) (hcomm r hr _ hcall)
          refine (Nat.dvd_mod_iff ?_).mpr hsum
          rw [hpow]
          exact Nat.pow_dvd_pow 2 (by omega)
        · intro f hf
          rcases List.mem_cons.mp hf with rfl | hf'
          · exact ⟨w.alloc.offset, h.lt, congrArg (· + _) h.start, h.offset⟩
          · exact h.live f hf'
  | free ptr =>
      obtain ⟨rfl, f, hf, rfl⟩ := hcall
      obtain ⟨o, ho, hptr, hgrid⟩ := h.live f hf
      have hfree := free_offset (s := w.alloc) ho
      rw [← h.start] at hptr
      rw [← hptr] at hfree
      refine ⟨⟨{ w.alloc with offset := o, used := o }, w.owned,
        (w.live.dropWhile (·.ptr != f.ptr)).tail⟩, ?_, h.start, hgrid, ?_, ho⟩
      · simp only [BumpLife.step, BumpKind.free, hfree, if_true]
      · intro g hg
        exact h.live g ((List.dropWhile_sublist _).subset (List.mem_of_mem_tail hg))
  | init arena => cases hcall
  | reset => cases hcall

/-- Two requests in a row, in an arena large enough. -/
theorem dvd_of_aligned (hadm : Admissible arena requests) {r r' : Request} (hr : r ∈ requests)
    (hr' : r' ∈ requests) (hall : Runs.All (step kind) (Aligned kind) (start (2 ^ 64 - 1) arena)
      [.allocate r'.size r'.alignment, .allocate r.size r.alignment]) :
    r.alignment ∣ consumed r'.size r'.alignment := by
  obtain ⟨-, hpow, hbase⟩ := hadm r hr
  obtain ⟨hsize', ⟨k, hk, hpow'⟩, -⟩ := hadm r' hr'
  have hlt : consumed r'.size r'.alignment < 2 ^ 64 := by
    refine consumed_lt hsize' ?_ ?_ <;> rw [hpow']
    · exact Nat.two_pow_pos k
    · exact Nat.pow_lt_pow_right (by decide) (by omega)
  rcases allocate_cases (start (2 ^ 64 - 1) arena).alloc r'.size ⟨k, hk, hpow'⟩ with
    ⟨hbig, -⟩ | ⟨-, hrun⟩
  · -- no request is too large for this arena
    have hmod := Nat.mod_lt ((start (2 ^ 64 - 1) arena).alloc.offset
      + consumed r'.size r'.alignment) (Nat.two_pow_pos 64)
    have htotal : (start (2 ^ 64 - 1) arena).alloc.totalSize = 2 ^ 64 - 1 := rfl
    omega
  · have hsecond := (Runs.all_cons.mp ((Runs.all_cons.mp hall).2 _ (step_allocate_some hrun))).1
    rw [Aligned, kind.allocate_eq] at hsecond
    rcases allocate_cases { (start (2 ^ 64 - 1) arena).alloc with
        offset := (0 + consumed r'.size r'.alignment) % 2 ^ 64
        used := (0 + consumed r'.size r'.alignment) % 2 ^ 64 } r.size hpow with
      ⟨hbig, -⟩ | ⟨-, hrun'⟩
    · have hmod := Nat.mod_lt ((0 + consumed r'.size r'.alignment) % 2 ^ 64
        + consumed r.size r.alignment) (Nat.two_pow_pos 64)
      have htotal : (start (2 ^ 64 - 1) arena).alloc.totalSize = 2 ^ 64 - 1 := rfl
      simp only [htotal] at hbig
      omega
    · have hdvd := hsecond _ (congrArg Prod.fst hrun')
      simp only [Nat.zero_add, Nat.mod_eq_of_lt hlt] at hdvd
      exact (Nat.dvd_add_right hbase).mp hdvd

/-- **Alignment, exactly.** A run after `Init()` returns aligned addresses
only if and only if every accepted request of it is made at a multiple of its
alignment; all runs with requests of a set do if and only if each alignment
of the set divides what each request of the set takes. -/
theorem bump_aligned_iff (kind : BumpKind) {arena : Nat} {requests : Set Request}
    (hadm : Admissible arena requests) :
    (∀ totalSize calls,
      Runs.All (step kind) (RequestCall kind requests) (start totalSize arena) calls →
      (Runs.All (step kind) (Aligned kind) (start totalSize arena) calls ↔
        Runs.All (step kind) AtMultiple (start totalSize arena) calls)) ∧
    ((∀ totalSize < 2 ^ 64, ∀ calls,
      Runs.All (step kind) (RequestCall kind requests) (start totalSize arena) calls →
      Runs.All (step kind) (Aligned kind) (start totalSize arena) calls) ↔
        Commensurate requests) := by
  have hrun : ∀ totalSize calls,
      Runs.All (step kind) (RequestCall kind requests) (start totalSize arena) calls →
      (Runs.All (step kind) (Aligned kind) (start totalSize arena) calls ↔
        Runs.All (step kind) AtMultiple (start totalSize arena) calls) := by
    intro totalSize calls hcalls
    exact Runs.all_iff (fun w => w.alloc.startPtr = arena)
      (fun _ _ hw hc => aligned_iff hadm hw hc)
      (fun _ _ _ hw hc hok => (step_startPtr hadm hc hok).trans hw) rfl hcalls
  refine ⟨hrun, ?_, ?_⟩
  · intro hall r hr r' hr'
    refine dvd_of_aligned hadm hr hr' (hall _ (by decide) _ ?_)
    refine Runs.all_cons.mpr ⟨hr', fun w' _ => Runs.all_cons.mpr ⟨hr, ?_⟩⟩
    intro _ _
    exact Runs.all_nil _ _
  · intro hcomm totalSize _ calls hcalls
    rw [hrun totalSize calls hcalls]
    have hgrid := Runs.steps_inv (OnGrid arena requests)
      (fun _ _ hw hc => hw.step hadm hcomm hc) (onGrid_start totalSize arena requests) hcalls
    rintro ⟨w, call⟩ hmem
    cases call with
    | allocate size alignment => exact Or.inl ((hgrid _ hmem).offset _ (hcalls _ hmem))
    | init arena => trivial
    | free ptr => trivial
    | reset => trivial

/-- The rule on requests with two alignments that go together, in either
class. -/
theorem bump_aligned_iff_commensurate :
    Runs.All (step .linear) (Aligned .linear) (start 256 4096)
        [.allocate 24 8, .allocate 8 16, .allocate 24 8] ∧
      Runs.All (step .stack) (Aligned .stack) (start 256 4096)
        [.allocate 24 8, .allocate 8 16, .allocate 24 8] := by
  have hadm : Admissible 4096 {⟨24, 8⟩, ⟨8, 16⟩} := by
    simp only [Admissible, Set.mem_insert_iff, Set.mem_singleton_iff, forall_eq_or_imp, forall_eq]
    exact ⟨⟨by decide, ⟨3, by decide, rfl⟩, by decide⟩,
      ⟨by decide, ⟨4, by decide, rfl⟩, by decide⟩⟩
  have hcomm : Commensurate {⟨24, 8⟩, ⟨8, 16⟩} := by
    simp only [Commensurate, Set.mem_insert_iff, Set.mem_singleton_iff, forall_eq_or_imp, forall_eq]
    decide
  have hcalls : ∀ kind, Runs.All (step kind) (RequestCall kind {⟨24, 8⟩, ⟨8, 16⟩}) (start 256 4096)
      [.allocate 24 8, .allocate 8 16, .allocate 24 8] := fun kind =>
    Runs.all_of_forall (by simp [RequestCall])
  exact ⟨(bump_aligned_iff .linear hadm).2.mpr hcomm 256 (by decide) _ (hcalls _),
    (bump_aligned_iff .stack hadm).2.mpr hcomm 256 (by decide) _ (hcalls _)⟩

/-- A byte, then a word: the word lands at an odd offset, in either class. -/
theorem not_aligned_after_byte :
    (Admissible 4096 {⟨1, 1⟩, ⟨8, 8⟩} ∧
      Runs.All (step .linear) (RequestCall .linear {⟨1, 1⟩, ⟨8, 8⟩}) (start 64 4096)
        [.allocate 1 1, .allocate 8 8] ∧
      ¬Runs.All (step .linear) (Aligned .linear) (start 64 4096)
        [.allocate 1 1, .allocate 8 8]) ∧
    Runs.All (step .stack) (RequestCall .stack {⟨1, 1⟩, ⟨8, 8⟩}) (start 64 4096)
        [.allocate 1 1, .allocate 8 8] ∧
      ¬Runs.All (step .stack) (Aligned .stack) (start 64 4096)
        [.allocate 1 1, .allocate 8 8] := by
  have hcalls : ∀ kind, Runs.All (step kind) (RequestCall kind {⟨1, 1⟩, ⟨8, 8⟩}) (start 64 4096)
      [.allocate 1 1, .allocate 8 8] := fun kind =>
    Runs.all_of_forall (by simp [RequestCall])
  have hodd : ∀ kind, ¬Runs.All (step kind) (Aligned kind) (start 64 4096)
      [.allocate 1 1, .allocate 8 8] := by
    intro kind hall
    have hfirst : ((kind.allocate (start 64 4096).alloc 1 1).2.offset,
        (kind.allocate (kind.allocate (start 64 4096).alloc 1 1).2 8 8).1) = (2, some 4098) := by
      cases kind <;> decide +kernel
    have hsecond := (Runs.all_cons.mp ((Runs.all_cons.mp hall).2 _ rfl)).1
    exact absurd (hsecond _ (Prod.mk.inj hfirst).2) (by decide)
  refine ⟨⟨?_, hcalls _, hodd _⟩, hcalls _, hodd _⟩
  simp only [Admissible, Set.mem_insert_iff, Set.mem_singleton_iff, forall_eq_or_imp, forall_eq]
  exact ⟨⟨by decide, ⟨0, by decide, rfl⟩, by decide⟩, ⟨by decide, ⟨3, by decide, rfl⟩, by decide⟩⟩

end BumpLife

end MemAlloc
