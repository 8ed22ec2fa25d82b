import Mathlib.Data.List.Basic
import MemAlloc.Bump

/-!
# Rollback of `StackAllocator`

`Free` keeps no header: it computes the old offset from the pointer alone.
Since `Allocate` returns the address of its offset and the counter always
equals the offset, that is enough - `Free` of any pointer returned since
`Init`, at whatever depth, gives back the state before the `Allocate` that
returned it (`Returned.free`).

`Step` lists what the calls do to the stack of live pointers. Two live
pointers may be equal, when a request took nothing from the arena modulo
`2 ^ 64`; a `Free` may then end the life of either.
-/

namespace MemAlloc

open BumpAllocator

inductive StackCall where
  | allocate (size alignment : Nat)
  | free (ptr : Nat)
  | reset
deriving DecidableEq, Repr

namespace StackAllocator

/-- One call: the returned pointer, for `Allocate`, and the new state. -/
def call (s : StackAllocator) : StackCall → Option Nat × StackAllocator
  | .allocate size alignment => s.allocate size alignment
  | .free ptr => (none, (StackAllocator.free s ptr).2)
  | .reset => (none, StackAllocator.reset s)

/-- A list of calls: what each returned, and the final state. -/
def trace (s : StackAllocator) : List StackCall → List (Option Nat) × StackAllocator
  | [] => ([], s)
  | c :: cs => ((call s c).1 :: (trace (call s c).2 cs).1, (trace (call s c).2 cs).2)

/-- A sequence of `Allocate` and `Free` calls in which every pointer that
was returned is freed again, the last one first. -/
inductive Bracketed : StackAllocator → List StackCall → Prop
  | nil (s) : Bracketed s []
  | refuse {s size alignment cs} : (s.allocate size alignment).1 = none →
      Bracketed (s.allocate size alignment).2 cs →
      Bracketed s (.allocate size alignment :: cs)
  | pair {s : StackAllocator} {size alignment ptr inner cs} :
      (s.allocate size alignment).1 = some ptr →
      Bracketed (s.allocate size alignment).2 inner →
      Bracketed (StackAllocator.free (trace (s.allocate size alignment).2 inner).2 ptr).2 cs →
      Bracketed s (.allocate size alignment :: (inner ++ .free ptr :: cs))

end StackAllocator

/-- A live pointer, with the request it was returned for. -/
structure StackFrame where
  ptr : Nat
  size : Nat
  alignment : Nat
deriving DecidableEq, Repr

/-- An allocator with the live pointers of its clients, latest first. -/
structure StackSession where
  alloc : StackAllocator
  live : List StackFrame

namespace StackSession

open StackAllocator

/-- The first `Init()`; nothing is live. -/
def start (totalSize arena : Nat) : StackSession :=
  ⟨StackAllocator.init (construct totalSize) arena, []⟩

/-- What a call does to the live pointers: `Free` ends the life of its
pointer and of those allocated after it, `Reset` ends all. -/
inductive Step : StackSession → StackCall → StackSession → Prop
  | allocate {w size alignment ptr} : (w.alloc.allocate size alignment).1 = some ptr →
      Step w (.allocate size alignment)
        ⟨(w.alloc.allocate size alignment).2, ⟨ptr, size, alignment⟩ :: w.live⟩
  | refuse {w size alignment} : (w.alloc.allocate size alignment).1 = none →
      Step w (.allocate size alignment) ⟨(w.alloc.allocate size alignment).2, w.live⟩
  | free {w newer older} {f : StackFrame} : w.live = newer ++ f :: older →
      Step w (.free f.ptr) ⟨(StackAllocator.free w.alloc f.ptr).2, older⟩
  | reset {w} : Step w .reset ⟨StackAllocator.reset w.alloc, []⟩

/-- A run of calls. -/
inductive Run : StackSession → List StackCall → StackSession → Prop
  | nil (w) : Run w [] w
  | cons {w w' w'' c cs} : Step w c w' → Run w' cs w'' → Run w (c :: cs) w''

end StackSession

namespace StackAllocator

variable {s : StackAllocator} {c : StackCall} {cs cs' : List StackCall}

/-! ## The allocator alone -/

/-- Powers of two that fit a `size_t`, the alignments clients may ask for. -/
def AlignedCall : StackCall → Prop
  | .allocate _ alignment => ∃ k ≤ 63, alignment = 2 ^ k
  | _ => True

/-- What holds from `Init` on: the counter is the offset, a 64-bit value. -/
structure Synced (base : Nat) (s : StackAllocator) : Prop where
  start : s.startPtr = base
  used : s.used = s.offset
  lt : s.offset < 2 ^ 64

variable {base : Nat}

theorem Synced.call (h : Synced base s) (hal : AlignedCall c) : Synced base (call s c).2 := by
  cases c with
  | allocate size alignment =>
      rcases allocate_cases s size hal with ⟨-, hrun⟩ | ⟨-, hrun⟩
      · rw [StackAllocator.call, StackAllocator.allocate, hrun]
        exact h
      · rw [StackAllocator.call, StackAllocator.allocate, hrun]
        exact ⟨h.start, rfl, Nat.mod_lt _ (Nat.two_pow_pos 64)⟩
  | free ptr => exact ⟨h.start, rfl, SizeT.ofInt_lt _⟩
  | reset => exact ⟨h.start, rfl, Nat.two_pow_pos 64⟩

theorem Synced.trace (h : Synced base s) (hal : ∀ c ∈ cs, AlignedCall c) :
    Synced base (trace s cs).2 := by
  induction cs generalizing s with
  | nil => exact h
  | cons c cs ih =>
      exact ih (h.call (hal c (List.mem_cons_self ..))) fun c' hc' =>
        hal c' (List.mem_cons_of_mem _ hc')

/-- The arena is left alone by every call. -/
theorem call_frame (s : StackAllocator) (c : StackCall) :
    (StackAllocator.call s c).2.totalSize = s.totalSize ∧
      (StackAllocator.call s c).2.startPtr = s.startPtr := by
  cases c with
  | allocate size alignment =>
      rw [StackAllocator.call, StackAllocator.allocate, BumpAllocator.allocate]
      dsimp only
      split <;> exact ⟨rfl, rfl⟩
  | free ptr => exact ⟨rfl, rfl⟩
  | reset => exact ⟨rfl, rfl⟩

theorem totalSize_trace (s : StackAllocator) (cs : List StackCall) :
    (StackAllocator.trace s cs).2.totalSize = s.totalSize := by
  induction cs generalizing s with
  | nil => rfl
  | cons c cs ih => exact (ih _).trans (call_frame s c).1

theorem trace_append (s : StackAllocator) : ∀ cs cs' : List StackCall,
    StackAllocator.trace s (cs ++ cs') =
      ((StackAllocator.trace s cs).1 ++ (StackAllocator.trace (StackAllocator.trace s cs).2 cs').1,
        (StackAllocator.trace (StackAllocator.trace s cs).2 cs').2) := by
  intro cs
  induction cs generalizing s with
  | nil => intro cs'; rfl
  | cons c cs ih => intro cs'; simp [StackAllocator.trace, ih]

/-- **`Free` undoes `Allocate`**, whatever was called in between. -/
theorem free_trace (h : Synced base s) {size alignment ptr : Nat}
    (hal : ∃ k ≤ 63, alignment = 2 ^ k) (hptr : (s.allocate size alignment).1 = some ptr)
    (hals : ∀ c ∈ cs, AlignedCall c) :
    StackAllocator.free (StackAllocator.trace s (.allocate size alignment :: cs)).2 ptr
      = (true, s) := by
  have hcalls : ∀ c ∈ StackCall.allocate size alignment :: cs, AlignedCall c := by
    intro c hc
    rcases List.mem_cons.mp hc with rfl | hc'
    · exact hal
    · exact hals c hc'
  have hlast := h.trace hcalls
  have htotal := totalSize_trace s (.allocate size alignment :: cs)
  generalize hs' : (StackAllocator.trace s (.allocate size alignment :: cs)).2 = s' at hlast htotal
  -- the pointer is the address of the offset before the call
  have haddr : ptr = s'.startPtr + s.offset := by
    rw [hlast.start, ← h.start]
    exact ptr_of_allocate hptr
  rw [haddr, free_offset h.lt]
  obtain ⟨⟨total, used⟩, startPtr, offset⟩ := s
  obtain ⟨⟨total', used'⟩, startPtr', offset'⟩ := s'
  obtain ⟨hstart, hused, -⟩ := h
  simp only at hstart hused htotal
  have hstart' := hlast.start
  simp only at hstart'
  rw [htotal, hused, hstart, hstart']

/-- **Well-bracketed calls** change nothing. -/
theorem Bracketed.trace (hb : Bracketed s cs) (h : Synced base s)
    (hal : ∀ c ∈ cs, AlignedCall c) : (StackAllocator.trace s cs).2 = s := by
  induction hb with
  | nil s => rfl
  | @refuse s size alignment cs hnone _ ih =>
      have hsame : (s.allocate size alignment).2 = s := allocate_refused hnone
      rw [hsame] at ih
      show (StackAllocator.trace (s.allocate size alignment).2 cs).2 = s
      rw [hsame]
      exact ih h fun c hc => hal c (List.mem_cons_of_mem _ hc)
  | @pair s size alignment ptr inner cs hptr _ _ _ ih =>
      have hinner : ∀ c ∈ inner, AlignedCall c := fun c hc =>
        hal c (List.mem_cons_of_mem _ (List.mem_append_left _ hc))
      have hundo := free_trace h (hal _ (List.mem_cons_self ..)) hptr hinner
      have hfree : (StackAllocator.free (StackAllocator.trace (s.allocate size alignment).2 inner).2
          ptr).2 = s := congrArg Prod.snd hundo
      rw [hfree] at ih
      show (StackAllocator.trace (s.allocate size alignment).2 (inner ++ .free ptr :: cs)).2 = s
      rw [trace_append]
      show (StackAllocator.trace (StackAllocator.free _ ptr).2 cs).2 = s
      rw [hfree]
      exact ih h fun c hc => hal c
        (List.mem_cons_of_mem _ (List.mem_append_right _ (List.mem_cons_of_mem _ hc)))

end StackAllocator

namespace StackSession

open StackAllocator

/-! ## The stack of live pointers -/

/-- What the live pointers took from the arena. -/
def total (live : List StackFrame) : Nat := (live.map fun f => consumed f.size f.alignment).sum

/-- Each live pointer lies at what the pointers below it took. -/
def Stacked (base : Nat) : List StackFrame → Prop
  | [] => True
  | f :: older => f.ptr = base + total older % 2 ^ 64 ∧ Stacked base older

theorem Stacked.suffix {base : Nat} {f : StackFrame} {older : List StackFrame} :
    ∀ newer : List StackFrame, Stacked base (newer ++ f :: older) →
      f.ptr = base + total older % 2 ^ 64 ∧ Stacked base older
  | [], h => h
  | _ :: newer, h => Stacked.suffix newer h.2

/-- The session after the calls `history`, made from `s₀`. -/
structure Good (base : Nat) (s₀ : StackAllocator) (history : List StackCall) (w : StackSession) :
    Prop where
  state : w.alloc = (trace s₀ history).2
  synced : Synced base w.alloc
  sum : w.alloc.offset = total w.live % 2 ^ 64
  stacked : Stacked base w.live
  origin : ∀ f ∈ w.live, ∃ pre mid, history = pre ++ .allocate f.size f.alignment :: mid ∧
    .reset ∉ mid ∧ ((trace s₀ pre).2.allocate f.size f.alignment).1 = some f.ptr

variable {base : Nat} {s₀ : StackAllocator} {history calls : List StackCall} {c : StackCall}
variable {w w' : StackSession}

/-- One more call after the `Allocate` of a pointer that stays live. -/
theorem Good.origin_snoc (h : Good base s₀ history w) {f : StackFrame} (hf : f ∈ w.live)
    (hc : c ≠ .reset) : ∃ pre mid, history ++ [c] = pre ++ .allocate f.size f.alignment :: mid ∧
      .reset ∉ mid ∧ ((trace s₀ pre).2.allocate f.size f.alignment).1 = some f.ptr := by
  obtain ⟨pre, mid, heq, hmid, hptr⟩ := h.origin f hf
  refine ⟨pre, mid ++ [c], by rw [heq, List.append_assoc, List.cons_append], ?_, hptr⟩
  rw [List.mem_append, List.mem_singleton]
  rintro (hreset | rfl)
  · exact hmid hreset
  · exact hc rfl

theorem Good.step (h : Good base s₀ history w) (hal : AlignedCall c) (hstep : Step w c w') :
    Good base s₀ (history ++ [c]) w' := by
  have hstate : ∀ alloc, alloc = (StackAllocator.call w.alloc c).2 →
      alloc = (trace s₀ (history ++ [c])).2 := by
    rintro _ rfl
    rw [trace_append, ← h.state]
    rfl
  cases hstep with
  | @allocate size alignment ptr hptr =>
      refine ⟨hstate _ rfl, h.synced.call hal, ?_, ?_, fun f hf => ?_⟩
      · rcases allocate_cases w.alloc size hal with ⟨-, hrun⟩ | ⟨-, hrun⟩ <;>
          rw [StackAllocator.allocate, hrun] at hptr ⊢
        · cases hptr
        · show (w.alloc.offset + _) % 2 ^ 64 = (_ + total w.live) % 2 ^ 64
          rw [h.sum, Nat.mod_add_mod, Nat.add_comm]
      · refine ⟨?_, h.stacked⟩
        rw [← h.sum, ← h.synced.start]
        exact ptr_of_allocate hptr
      · rcases List.mem_cons.mp hf with rfl | hf'
        · exact ⟨history, [], rfl, List.not_mem_nil, by rw [← h.state]; exact hptr⟩
        · exact h.origin_snoc hf' (by simp)
  | @refuse size alignment hnone =>
      have hsame : (w.alloc.allocate size alignment).2 = w.alloc := allocate_refused hnone
      refine ⟨hstate _ rfl, h.synced.call hal, ?_, h.stacked, fun f hf => ?_⟩
      · rw [hsame]
        exact h.sum
      · exact h.origin_snoc hf (by simp)
  | @free newer older f heq =>
      have hs := h.stacked
      rw [heq] at hs
      obtain ⟨hptr, hold⟩ := hs.suffix
      refine ⟨hstate _ rfl, h.synced.call hal, ?_, hold, fun g hg => ?_⟩
      · rw [hptr, ← h.synced.start, free_offset (Nat.mod_lt _ (Nat.two_pow_pos 64))]
      · refine h.origin_snoc ?_ (by simp)
        rw [heq]
        exact List.mem_append_right _ (List.mem_cons_of_mem _ hg)
  | reset =>
      exact ⟨hstate _ rfl, h.synced.call hal, rfl, trivial, fun f hf => by cases hf⟩

theorem Good.run (h : Good base s₀ history w) (hrun : Run w calls w')
    (hal : ∀ c ∈ calls, AlignedCall c) : Good base s₀ (history ++ calls) w' := by
  induction hrun generalizing history with
  | nil w => rwa [List.append_nil]
  | @cons w w₁ w₂ c cs hstep _ ih =>
      have h₁ := ih (h.step (hal c (List.mem_cons_self ..)) hstep) fun c' hc' =>
        hal c' (List.mem_cons_of_mem _ hc')
      rwa [List.append_assoc] at h₁

/-- **The rollback law.** After any run from the first `Init()`: the counter
is the offset and, modulo `2 ^ 64`, what the live pointers took; `Free` of
any live pointer gives back the state before the `Allocate` that returned
it, from which the calls since then return and reach the same again; and
well-bracketed calls change nothing. -/
theorem rollback_law {totalSize arena : Nat} (hrun : Run (start totalSize arena) calls w)
    (hal : ∀ c ∈ calls, AlignedCall c) :
    (w.alloc.getUsedSize = w.alloc.offset ∧ w.alloc.getUsedSize = total w.live % 2 ^ 64) ∧
    (∀ f ∈ w.live, ∃ pre mid before results,
      calls = pre ++ .allocate f.size f.alignment :: mid ∧ .reset ∉ mid ∧
        before = (trace (start totalSize arena).alloc pre).2 ∧
        (before.allocate f.size f.alignment).1 = some f.ptr ∧
        StackAllocator.free w.alloc f.ptr = (true, before) ∧
        trace (start totalSize arena).alloc calls
          = ((trace (start totalSize arena).alloc pre).1 ++ results, w.alloc) ∧
        trace (StackAllocator.free w.alloc f.ptr).2 (.allocate f.size f.alignment :: mid)
          = (results, w.alloc)) ∧
    ∀ cs, Bracketed w.alloc cs → (∀ c ∈ cs, AlignedCall c) → (trace w.alloc cs).2 = w.alloc := by
  have hsynced : Synced arena (start totalSize arena).alloc := ⟨rfl, rfl, Nat.two_pow_pos 64⟩
  have hstart : Good arena (start totalSize arena).alloc [] (start totalSize arena) :=
    ⟨rfl, hsynced, rfl, trivial, fun f hf => by cases hf⟩
  have h := hstart.run hrun hal
  rw [List.nil_append] at h
  refine ⟨⟨h.synced.used, h.synced.used.trans h.sum⟩, fun f hf => ?_, fun cs hb hcs =>
    hb.trace h.synced hcs⟩
  obtain ⟨pre, mid, heq, hmid, hptr⟩ := h.origin f hf
  have hpre : ∀ c ∈ pre, AlignedCall c := fun c hc =>
    hal c (by rw [heq]; exact List.mem_append_left _ hc)
  have hmids : ∀ c ∈ mid, AlignedCall c := fun c hc =>
    hal c (by rw [heq]; exact List.mem_append_right _ (List.mem_cons_of_mem _ hc))
  have hf : AlignedCall (.allocate f.size f.alignment) :=
    hal _ (by rw [heq]; exact List.mem_append_right _ (List.mem_cons_self ..))
  -- the state now is the one reached from before the `Allocate`
  have hstate := h.state
  rw [heq, trace_append] at hstate
  have hfree := free_trace (hsynced.trace hpre) hf hptr hmids
  rw [← hstate] at hfree
  refine ⟨pre, mid, (trace (start totalSize arena).alloc pre).2,
    (trace (trace (start totalSize arena).alloc pre).2 (.allocate f.size f.alignment :: mid)).1,
    heq, hmid, rfl, hptr, hfree, ?_, ?_⟩
  · rw [heq, trace_append, ← hstate]
  · rw [hfree]
    exact Prod.ext rfl hstate.symm

/-- Two blocks are live, after one was freed and a request was refused; the
`Free` of the older goes back to the start, and the calls since then lead here
again. -/
theorem rollback_law_restored : ∃ w,
    Run (start 64 4096)
        [.allocate 8 8, .allocate 5 8, .free 4112, .allocate 100 8, .allocate 3 16] w ∧
      w.live = [⟨4112, 3, 16⟩, ⟨4096, 8, 8⟩] ∧ w.alloc.getUsedSize = 32 ∧
      StackAllocator.free w.alloc 4096 = (true, (start 64 4096).alloc) ∧
      trace (StackAllocator.free w.alloc 4096).2
          [.allocate 8 8, .allocate 5 8, .free 4112, .allocate 100 8, .allocate 3 16]
        = ([some 4096, some 4112, none, none, some 4112], w.alloc) := by
  have h₁ : ((start 64 4096).alloc.allocate 8 8).1 = some 4096 := by decide +kernel
  have h₂ : (((start 64 4096).alloc.allocate 8 8).2.allocate 5 8).1 = some 4112 := by
    decide +kernel
  obtain ⟨w, hrun, hlive⟩ : ∃ w, Run (start 64 4096)
      [.allocate 8 8, .allocate 5 8, .free 4112, .allocate 100 8, .allocate 3 16] w ∧
      w.live = [⟨4112, 3, 16⟩, ⟨4096, 8, 8⟩] :=
    ⟨_, Run.cons (Step.allocate h₁) (Run.cons (Step.allocate h₂)
      (Run.cons (Step.free (f := ⟨4112, 5, 8⟩) (show _ = [] ++ _ from rfl))
        (Run.cons (Step.refuse (by decide +kernel))
          (Run.cons (Step.allocate (by decide +kernel)) (Run.nil _))))), rfl⟩
  obtain ⟨⟨-, hused⟩, hrestore, -⟩ := rollback_law hrun (by
    simp only [List.forall_mem_cons, List.not_mem_nil, false_implies, implies_true, and_true]
    exact ⟨⟨3, by decide, rfl⟩, ⟨3, by decide, rfl⟩, trivial, ⟨3, by decide, rfl⟩,
      ⟨4, by decide, rfl⟩⟩)
  obtain ⟨pre, mid, before, results, hcalls, -, hbefore, -, hfree, htrace, hreplay⟩ :=
    hrestore ⟨4096, 8, 8⟩ (by simp [hlive])
  -- the request stands at the front only
  obtain ⟨rfl, rfl⟩ : pre = [] ∧ mid = [.allocate 5 8, .free 4112, .allocate 100 8,
      .allocate 3 16] := by
    cases pre with
    | nil => exact ⟨rfl, (List.cons.inj hcalls).2.symm⟩
    | cons c pre =>
        have hmem : StackCall.allocate 8 8 ∈ [.allocate 5 8, .free 4112, .allocate 100 8,
            .allocate 3 16] := by
          rw [(List.cons.inj hcalls).2]
          exact List.mem_append_right _ (List.mem_cons_self ..)
        exact absurd hmem (by decide)
  have hresults : results = [some 4096, some 4112, none, none, some 4112] := by
    have hcheck : (trace (start 64 4096).alloc [.allocate 8 8, .allocate 5 8, .free 4112,
        .allocate 100 8, .allocate 3 16]).1 = [some 4096, some 4112, none, none, some 4112] := by
      decide +kernel
    rw [htrace] at hcheck
    exact hcheck
  rw [hbefore] at hfree
  rw [hresults] at hreplay
  refine ⟨w, hrun, hlive, ?_, hfree, hreplay⟩
  rw [hused, hlive]
  decide

end StackSession

end MemAlloc
