import MemAlloc.Runs
import MemAlloc.StackRollback

/-!
# Releasing what was never returned

A client of the stack that makes a list of requests and then frees all the
results, the last one first, without looking at them (`thenRelease`). A
refused request returned `nullptr`, and `Free` takes any pointer: it moves
the offset to the distance from `m_start_ptr`, which for `nullptr` is
`2 ^ 64 - m_start_ptr`.

So a refused request does harm when its result is released, except at the
one offset whose address is `nullptr` modulo `2 ^ 64`; and it is the only
thing that does (`restores_iff`). The induction is on the requests: what lies
between the first `Allocate` and the last `Free` is the same client with one
request less (`thenRelease_cons`).
-/

namespace MemAlloc

open BumpAllocator

namespace StackAllocator

def step (s : StackAllocator) (c : StackCall) : Except Stuck StackAllocator := .ok (call s c).2

/-- `Allocate` of each request in order. -/
def allocations (requests : List Request) : List StackCall :=
  requests.map fun r => .allocate r.size r.alignment

/-- `Free` of each result, the last one first, `nullptr` included. -/
def releases (results : List (Option Nat)) : List StackCall :=
  results.reverse.map fun result => .free (result.getD nullptr)

def thenRelease (s : StackAllocator) (requests : List Request) : List StackCall :=
  allocations requests ++ releases (trace s (allocations requests)).1

/-- What the requests take from the arena when none is refused. -/
def taken (requests : List Request) : Nat :=
  (requests.map fun r => consumed r.size r.alignment).sum

/-- After the call the offset is in the arena and the counter is the offset;
a `Free(nullptr)` moved neither. -/
structure Harmless (s : StackAllocator) (c : StackCall) : Prop where
  le : (call s c).2.offset ≤ (call s c).2.totalSize
  used : (call s c).2.used = (call s c).2.offset
  free_nullptr : c = .free nullptr → (call s c).2.offset = s.offset ∧ (call s c).2.used = s.used

/-- No call of the client does harm, and at the end offset and counter are
what they were. -/
structure Restores (s : StackAllocator) (requests : List Request) : Prop where
  harmless : Runs.All step Harmless s (thenRelease s requests)
  offset : (trace s (thenRelease s requests)).2.offset = s.offset
  used : (trace s (thenRelease s requests)).2.used = s.used

/-- The request is not refused, or at the offset where `Free(nullptr)` leaves
the offset alone. -/
def Fits (s : StackAllocator) : StackCall → Prop
  | .allocate size alignment =>
      (s.offset + consumed size alignment) % 2 ^ 64 ≤ s.totalSize ∨ s.startPtr + s.offset = 2 ^ 64
  | _ => True

instance (s : StackAllocator) : DecidablePred (Fits s)
  | .allocate _ _ => inferInstanceAs (Decidable (_ ∨ _))
  | .free _ => isTrue trivial
  | .reset => isTrue trivial

variable {s s' : StackAllocator} {c : StackCall} {cs : List StackCall}
variable {size alignment : Nat} {r : Request} {requests : List Request}

theorem exec_eq_trace (s : StackAllocator) (cs : List StackCall) :
    Runs.exec step s cs = .ok (trace s cs).2 := by
  induction cs generalizing s with
  | nil => rfl
  | cons c cs ih =>
      have hstep : step s c = .ok (call s c).2 := rfl
      rw [Runs.exec_cons_ok hstep, ih, trace]

theorem thenRelease_cons {result : Option Nat}
    (hrun : s.allocate r.size r.alignment = (result, s')) :
    thenRelease s (r :: requests) = .allocate r.size r.alignment ::
      (thenRelease s' requests ++ [.free (result.getD nullptr)]) := by
  simp [thenRelease, allocations, releases, trace, call, hrun]

/-- The client with one request more: its `Allocate` before, its `Free` after. -/
theorem trace_thenRelease_cons {result : Option Nat}
    (hrun : s.allocate r.size r.alignment = (result, s')) :
    (trace s (thenRelease s (r :: requests))).2
      = (StackAllocator.free (trace s' (thenRelease s' requests)).2 (result.getD nullptr)).2 := by
  rw [thenRelease_cons hrun, trace]
  simp only [call, hrun, trace_append, trace]

theorem harmless_thenRelease_cons {result : Option Nat}
    (hrun : s.allocate r.size r.alignment = (result, s')) :
    Runs.All step Harmless s (thenRelease s (r :: requests)) ↔
      Harmless s (.allocate r.size r.alignment) ∧
        Runs.All step Harmless s' (thenRelease s' requests) ∧
        Harmless (trace s' (thenRelease s' requests)).2 (.free (result.getD nullptr)) := by
  have hstep : step s (.allocate r.size r.alignment) = .ok s' := by simp only [step, call, hrun]
  rw [thenRelease_cons hrun, Runs.all_cons, hstep]
  simp only [Except.ok.injEq, forall_eq', Runs.all_append (exec_eq_trace s' _), Runs.all_cons,
    Runs.all_nil, implies_true, and_true]

/-- What every call keeps from `Init` on: the arena, and that the offset is a
64-bit value. -/
structure Initialised (arena totalSize : Nat) (s : StackAllocator) : Prop where
  start : s.startPtr = arena
  total : s.totalSize = totalSize
  lt : s.offset < 2 ^ 64

variable {arena totalSize : Nat}

theorem Initialised.call (h : Initialised arena totalSize s) (c : StackCall) :
    Initialised arena totalSize (call s c).2 := by
  obtain ⟨htotal, hstart⟩ := call_frame s c
  refine ⟨hstart.trans h.start, htotal.trans h.total, ?_⟩
  cases c with
  | allocate size alignment =>
      rw [StackAllocator.call, StackAllocator.allocate, BumpAllocator.allocate]
      dsimp only
      split
      · exact h.lt
      · exact SizeT.add_lt _ _
  | free ptr => exact SizeT.ofInt_lt _
  | reset => exact Nat.two_pow_pos 64

theorem Initialised.trace (h : Initialised arena totalSize s) (cs : List StackCall) :
    Initialised arena totalSize (trace s cs).2 := by
  induction cs generalizing s with
  | nil => exact h
  | cons c cs ih => exact ih (h.call c)

/-- `nullptr` is at the distance `2 ^ 64 - m_start_ptr`. -/
theorem free_nullptr (h : Initialised arena totalSize s) (harena : arena ≠ nullptr)
    (hlt : arena < 2 ^ 64) : StackAllocator.free s nullptr
      = (true, { s with offset := 2 ^ 64 - arena, used := 2 ^ 64 - arena }) := by
  have hpos : 0 < arena := Nat.pos_of_ne_zero harena
  have hdistance : SizeT.ofInt ((nullptr : Int) - s.startPtr) = 2 ^ 64 - arena := by
    rw [h.start]
    unfold SizeT.ofInt nullptr
    omega
  simp only [StackAllocator.free, hdistance]

/-- The counter is the offset, which lies in the arena. -/
structure AtRest (arena totalSize : Nat) (s : StackAllocator) : Prop
    extends Initialised arena totalSize s where
  used : s.used = s.offset
  le : s.offset ≤ s.totalSize

theorem AtRest.eta (h : AtRest arena totalSize s) :
    ({ s with used := s.offset } : StackAllocator) = s :=
  congrArg (fun u => ({ s with used := u } : StackAllocator)) h.used.symm

/-- **Step lemma.** A request is refused, or `Free` of what it returned
undoes it. -/
theorem AtRest.allocate (h : AtRest arena totalSize s) (size : Nat) (hpos : 0 < alignment)
    (hlt : alignment < 2 ^ 64) :
    (s.totalSize < (s.offset + consumed size alignment) % 2 ^ 64 ∧
        s.allocate size alignment = (none, s)) ∨
      ((s.offset + consumed size alignment) % 2 ^ 64 ≤ s.totalSize ∧
        ∃ s', s.allocate size alignment = (some (arena + s.offset), s') ∧
          AtRest arena totalSize s' ∧
          s'.offset = (s.offset + consumed size alignment) % 2 ^ 64 ∧
          (StackAllocator.free s' (arena + s.offset)).2 = s) := by
  rcases allocate_cases_of_pos s size hpos hlt with hrefused | ⟨hle, hrun⟩
  · exact Or.inl hrefused
  · rw [← h.start]
    refine Or.inr ⟨hle, _, hrun, ⟨⟨rfl, h.total, Nat.mod_lt _ (Nat.two_pow_pos 64)⟩, rfl, hle⟩,
      rfl, ?_⟩
    rw [free_offset (s := { s with
      offset := (s.offset + consumed size alignment) % 2 ^ 64
      used := (s.offset + consumed size alignment) % 2 ^ 64 }) h.lt]
    exact h.eta

/-- A call that ends at rest and is no `Free(nullptr)` is harmless. -/
theorem AtRest.harmless (h : AtRest arena totalSize s') (hcall : (StackAllocator.call s c).2 = s')
    (hc : c ≠ .free nullptr) : Harmless s c := by
  subst hcall
  exact ⟨h.le, h.used, fun hfree => absurd hfree hc⟩

section

variable (harena : arena ≠ nullptr) (hlt : arena < 2 ^ 64)
include harena hlt

/-- Where the address of the offset is `2 ^ 64`, `Free(nullptr)` does
nothing; -/
theorem AtRest.free_nullptr (h : AtRest arena totalSize s) (hwrap : arena + s.offset = 2 ^ 64) :
    (StackAllocator.free s nullptr).2 = s := by
  have hoffset : 2 ^ 64 - arena = s.offset := by rw [← hwrap, Nat.add_sub_cancel_left]
  rw [StackAllocator.free_nullptr h.toInitialised harena hlt, hoffset]
  exact h.eta

/-- elsewhere it moves the offset. -/
theorem Initialised.wraps (h : Initialised arena totalSize s) (hfree : Harmless s (.free nullptr)) :
    arena + s.offset = 2 ^ 64 := by
  have hkept := (hfree.free_nullptr rfl).1
  rw [StackAllocator.call, free_nullptr h harena hlt] at hkept
  simp only at hkept
  omega

variable (hlegal : ∀ r ∈ requests, 0 < r.alignment ∧ r.alignment < 2 ^ 64)
include hlegal

/-- **Run lemma.** Without a refused request the client does no harm and
leaves the allocator as it was. -/
theorem AtRest.restores (h : AtRest arena totalSize s)
    (hfits : Runs.All step Fits s (allocations requests)) :
    Runs.All step Harmless s (thenRelease s requests) ∧
      (StackAllocator.trace s (thenRelease s requests)).2 = s := by
  induction requests generalizing s with
  | nil => exact ⟨Runs.all_nil _ s, rfl⟩
  | cons r requests ih =>
      obtain ⟨hr, hlegal⟩ := List.forall_mem_cons.mp hlegal
      obtain ⟨hfit, hrest⟩ := Runs.all_cons.mp hfits
      rcases h.allocate r.size hr.1 hr.2 with ⟨hbig, hrun⟩ | ⟨-, s', hrun, hs', -, hfree⟩
      · -- refused: the result is `nullptr`, released where it does nothing
        have hwrap := hfit.resolve_left (Nat.not_le_of_lt hbig)
        rw [h.start] at hwrap
        have hnothing := h.free_nullptr harena hlt hwrap
        obtain ⟨hharmless, htrace⟩ := ih hlegal h (hrest s (by simp only [step, call, hrun]))
        rw [harmless_thenRelease_cons hrun, trace_thenRelease_cons hrun, htrace]
        have hcall : (StackAllocator.call s (.allocate r.size r.alignment)).2 = s := by
          rw [StackAllocator.call, hrun]
        have hfree : (StackAllocator.call s (.free nullptr)).2 = s := hnothing
        refine ⟨⟨h.harmless hcall (by simp), hharmless, ?_, ?_, fun _ => ?_⟩, hnothing⟩
        · rw [Option.getD_none, hfree]
          exact h.le
        · rw [Option.getD_none, hfree]
          exact h.used
        · rw [Option.getD_none, hfree]
          exact ⟨rfl, rfl⟩
      · -- accepted: its `Free` undoes it
        obtain ⟨hharmless, htrace⟩ := ih hlegal hs' (hrest s' (by simp only [step, call, hrun]))
        rw [harmless_thenRelease_cons hrun, trace_thenRelease_cons hrun, htrace]
        have hcall : (StackAllocator.call s (.allocate r.size r.alignment)).2 = s' := by
          rw [StackAllocator.call, hrun]
        refine ⟨⟨hs'.harmless hcall (by simp), hharmless, h.harmless hfree ?_⟩, hfree⟩
        intro heq
        exact harena (Nat.eq_zero_of_add_eq_zero_right (StackCall.free.inj heq))

/-- Conversely, a refused request does harm. -/
theorem AtRest.fits (h : AtRest arena totalSize s)
    (hharmless : Runs.All step Harmless s (thenRelease s requests)) :
    Runs.All step Fits s (allocations requests) := by
  induction requests generalizing s with
  | nil => exact Runs.all_nil _ s
  | cons r requests ih =>
      obtain ⟨hr, hlegal⟩ := List.forall_mem_cons.mp hlegal
      rcases h.allocate r.size hr.1 hr.2 with ⟨-, hrun⟩ | ⟨hle, s', hrun, hs', -, -⟩
      · -- refused: the others leave the allocator as it was, then `Free(nullptr)`
        obtain ⟨-, hinner, hfree⟩ := (harmless_thenRelease_cons hrun).mp hharmless
        have hrest := ih hlegal h hinner
        rw [(h.restores harena hlt hlegal hrest).2] at hfree
        have hwrap := h.wraps harena hlt hfree
        rw [← h.start] at hwrap
        refine Runs.all_cons.mpr ⟨Or.inr hwrap, fun s' hok => ?_⟩
        simp only [step, call, hrun, Except.ok.injEq] at hok
        rw [← hok]
        exact hrest
      · obtain ⟨-, hinner, -⟩ := (harmless_thenRelease_cons hrun).mp hharmless
        refine Runs.all_cons.mpr ⟨Or.inl hle, fun s'' hok => ?_⟩
        simp only [step, call, hrun, Except.ok.injEq] at hok
        rw [← hok]
        exact ih hlegal hs' hinner

end

/-- A client that changed nothing found the allocator at rest, its last call
having left it so. -/
theorem Initialised.atRest (h : Initialised arena totalSize s)
    (hrestores : Restores s (r :: requests)) : AtRest arena totalSize s := by
  have hrun : s.allocate r.size r.alignment = ((s.allocate r.size r.alignment).1,
      (s.allocate r.size r.alignment).2) := rfl
  obtain ⟨-, -, hlast⟩ := (harmless_thenRelease_cons hrun).mp hrestores.harmless
  have htotal := (h.trace (thenRelease s (r :: requests))).total
  have hoffset := hrestores.offset
  have hused := hrestores.used
  rw [trace_thenRelease_cons hrun] at htotal hoffset hused
  refine ⟨h, ?_, ?_⟩
  · rw [← hused, ← hoffset]
    exact hlast.used
  · rw [← hoffset, h.total, ← htotal]
    exact hlast.le

theorem taken_cons (r : Request) (requests : List Request) :
    taken (r :: requests) = consumed r.size r.alignment + taken requests := rfl

theorem AtRest.empty_fits (h : AtRest arena totalSize s) :
    (s.offset + taken []) % 2 ^ 64 ≤ totalSize := by
  rw [← h.total]
  exact Nat.le_trans (Nat.mod_le _ _) h.le

/-- In an arena that ends below `2 ^ 64` the sums of what the requests take
decide whether one is refused. -/
theorem AtRest.fits_iff (h : AtRest arena totalSize s) (hend : arena + totalSize < 2 ^ 64)
    (hlegal : ∀ r ∈ requests, 0 < r.alignment ∧ r.alignment < 2 ^ 64) :
    Runs.All step Fits s (allocations requests) ↔
      ∀ done, done <+: requests → (s.offset + taken done) % 2 ^ 64 ≤ totalSize := by
  induction requests generalizing s with
  | nil =>
      refine iff_of_true (Runs.all_nil _ s) fun done hdone => ?_
      rw [List.prefix_nil.mp hdone]
      exact h.empty_fits
  | cons r requests ih =>
      obtain ⟨hr, hlegal⟩ := List.forall_mem_cons.mp hlegal
      have hin : arena + s.offset < 2 ^ 64 := by
        have hle := h.le
        rw [h.total] at hle
        omega
      have hfirst : (s.offset + taken [r]) % 2 ^ 64
          = (s.offset + consumed r.size r.alignment) % 2 ^ 64 := rfl
      rw [allocations, List.map_cons, Runs.all_cons]
      rcases h.allocate r.size hr.1 hr.2 with ⟨hbig, hrun⟩ | ⟨hle, s', hrun, hs', hoffset, -⟩
      · -- refused
        refine iff_of_false ?_ ?_
        · rintro ⟨hle | hwrap, -⟩
          · exact Nat.not_le_of_lt hbig hle
          · rw [h.start] at hwrap
            exact Nat.ne_of_lt hin hwrap
        · intro hall
          have hle := hall [r] (List.prefix_append [r] requests)
          rw [hfirst, ← h.total] at hle
          exact Nat.not_le_of_lt hbig hle
      · have hshift : ∀ done, (s.offset + taken (r :: done)) % 2 ^ 64
            = (s'.offset + taken done) % 2 ^ 64 := by
          intro done
          rw [hoffset, taken_cons, Nat.mod_add_mod, Nat.add_assoc]
        have hstep : step s (.allocate r.size r.alignment) = .ok s' := by
          simp only [step, call, hrun]
        rw [hstep]
        constructor
        · rintro ⟨-, hrest⟩ done hdone
          rcases List.prefix_cons_iff.mp hdone with rfl | ⟨tail, rfl, htail⟩
          · exact h.empty_fits
          · rw [hshift]
            exact (ih hs' hlegal).mp (hrest s' rfl) tail htail
        · intro hall
          refine ⟨Or.inl hle, fun s'' hok => ?_⟩
          obtain rfl := Except.ok.inj hok
          refine (ih hs' hlegal).mpr fun done hdone => ?_
          rw [← hshift]
          exact hall (r :: done) (List.prefix_cons_iff.mpr (Or.inr ⟨done, rfl, hdone⟩))

/-- **Releasing everything, exactly.** In a state reached by any calls from
`Init()`, making some requests and freeing all their results does no harm if
and only if there are none or the counter is the offset, in the arena, and no
request is refused but at the one offset where `Free(nullptr)` does nothing.
In an arena that ends below `2 ^ 64` there is no such offset, and no request
is refused exactly when all prefixes of the list fit. -/
theorem restores_iff (s : StackAllocator) {arena : Nat} (harena : arena ≠ nullptr)
    (hlt : arena < 2 ^ 64) (calls : List StackCall) {w : StackAllocator}
    (hw : (trace (StackAllocator.init s arena) calls).2 = w) (requests : List Request)
    (hlegal : ∀ r ∈ requests, 0 < r.alignment ∧ r.alignment < 2 ^ 64) :
    (Restores w requests ↔ requests = [] ∨
      w.used = w.offset ∧ w.offset ≤ w.totalSize ∧
        Runs.All step Fits w (allocations requests)) ∧
    (arena + s.totalSize < 2 ^ 64 → (Restores w requests ↔ requests = [] ∨
      w.used = w.offset ∧
        ∀ done, done <+: requests → (w.offset + taken done) % 2 ^ 64 ≤ s.totalSize)) := by
  have hinit : Initialised arena s.totalSize (StackAllocator.init s arena) :=
    ⟨rfl, rfl, Nat.two_pow_pos 64⟩
  have h : Initialised arena s.totalSize w := hw ▸ hinit.trace calls
  have hiff : Restores w requests ↔ requests = [] ∨
      w.used = w.offset ∧ w.offset ≤ w.totalSize ∧
        Runs.All step Fits w (allocations requests) := by
    cases requests with
    | nil => exact iff_of_true ⟨Runs.all_nil _ w, rfl, rfl⟩ (Or.inl rfl)
    | cons r requests =>
        constructor
        · intro hrestores
          have hrest := h.atRest hrestores
          exact Or.inr ⟨hrest.used, hrest.le, hrest.fits harena hlt hlegal hrestores.harmless⟩
        · rintro (hnil | ⟨hused, hle, hfits⟩)
          · cases hnil
          · have hrest : AtRest arena s.totalSize w := ⟨h, hused, hle⟩
            obtain ⟨hharmless, htrace⟩ := hrest.restores harena hlt hlegal hfits
            exact ⟨hharmless, congrArg _ htrace, congrArg (·.used) htrace⟩
  refine ⟨hiff, fun hend => hiff.trans (or_congr_right (and_congr_right fun hused => ?_))⟩
  constructor
  · rintro ⟨hle, hfits⟩
    exact (AtRest.fits_iff ⟨h, hused, hle⟩ hend hlegal).mp hfits
  · intro hall
    have hle : w.offset ≤ w.totalSize := by
      have hnil := hall [] List.nil_prefix
      rw [taken, List.map_nil, List.sum_nil, Nat.add_zero, Nat.mod_eq_of_lt h.lt, ← h.total] at hnil
      exact hnil
    exact ⟨hle, (AtRest.fits_iff ⟨h, hused, hle⟩ hend hlegal).mpr hall⟩

/-- The rule right after `Init()`, on two requests that fit. -/
theorem restores_iff_fitting :
    Restores (StackAllocator.init (construct 64) 4096) [⟨8, 8⟩, ⟨3, 8⟩] :=
  (restores_iff (construct 64) (by decide) (by decide) [] rfl [⟨8, 8⟩, ⟨3, 8⟩]
    (by decide)).1.mpr (Or.inr (by decide +kernel))

/-- One request for 100 of 64 bytes: it is refused, and the `Free` of its
result moves the offset 4096 bytes below 0. -/
theorem not_restores_refused :
    (trace (StackAllocator.init (construct 64) 4096)
        (thenRelease (StackAllocator.init (construct 64) 4096) [⟨100, 8⟩])).2.offset
      = 2 ^ 64 - 4096 ∧
    ¬Restores (StackAllocator.init (construct 64) 4096) [⟨100, 8⟩] := by
  have hoffset : (trace (StackAllocator.init (construct 64) 4096)
        (thenRelease (StackAllocator.init (construct 64) 4096) [⟨100, 8⟩])).2.offset
      = 2 ^ 64 - 4096 := by decide +kernel
  refine ⟨hoffset, fun hrestores => ?_⟩
  have hback := hrestores.offset
  rw [hoffset] at hback
  cases hback

end StackAllocator

end MemAlloc
