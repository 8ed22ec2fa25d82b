import MemAlloc.PoolAccesses
import MemAlloc.PoolThreads

/-!
# A pool is a stack of chunks

Any number of threads on one `PoolAllocator` under `ENABLE_SPIN_LOCK`, each
call cut at its accesses. What they can observe is exactly what they would
observe of a stack: `Allocate` pops the chunk freed last, `Free` pushes its
argument, and after an `Allocate` on the empty stack no call makes its last
access. The order is that of the last accesses.

`lifo` is the stack, on answers alone. `serve_lifo` relates one call of the
sequential pool to it, `answers_iff` a list of calls.
-/

namespace MemAlloc

/-- What a call of one pool returns. -/
inductive ChunkAnswer where
  | chunk (result : Option Nat)
  | freed (ok : Bool)
deriving DecidableEq, Repr

/-- The stack of free chunks. -/
def lifo (stack : List Nat) : ThreadCall → Except Stuck (ChunkAnswer × List Nat)
  | .allocate _ => .ok (.chunk stack.head?, stack.tail)
  | .free p => .ok (.freed true, p :: stack)

namespace PoolAllocator

/-- One call of the sequential pool under the spin lock. -/
def serve (s : PoolAllocator) : ThreadCall → Except Stuck (ChunkAnswer × PoolAllocator)
  | .allocate _ => (s.allocate .enableSpinLock).map fun r => (.chunk r.1, r.2)
  | .free p => (s.free .enableSpinLock p).map fun r => (.freed r.1, r.2)

theorem serve_held {s : PoolAllocator} (h : s.held = true) (call : ThreadCall) :
    s.serve call = .error .spinsForever := by
  cases call <;> simp [serve, allocate, free, lock_held h, Except.map]

/-! ## One call and the stack -/

variable {s : PoolAllocator} {ptr : Nat} {arena chunksNum chunkSize : Nat} {live : List Nat}

/-- The free chunks as a stack: the slot at the index is its top. -/
def stack (s : PoolAllocator) : List Nat := s.freeList.reverse

namespace Partition

variable (h : Partition arena chunksNum chunkSize live s)
include h

/-- `Allocate` pops. -/
theorem allocate_stack : (s.stack = [] ∧ s.allocate .none = .ok (none, s)) ∨
    ∃ p s', s.stack = p :: s'.stack ∧ s.allocate .none = .ok (some p, s') ∧
      Partition arena chunksNum chunkSize (p :: live) s' := by
  have hlen := h.length_freeList
  have hadd := h.length_add
  rcases Nat.lt_or_ge live.length chunksNum with hroom | hfull
  · obtain ⟨p, s', hrun, h'⟩ := h.allocate_some hroom
    refine Or.inr ⟨p, s', ?_, hrun, h'⟩
    obtain ⟨i, hi⟩ : ∃ i : Nat, s.currFreeChunksIdx = i := ⟨s.currFreeChunksIdx.toNat, by omega⟩
    have hin : i < s.freeChunks.length := by
      have := h.idxLt
      rw [h.table]
      omega
    obtain ⟨hp, rfl⟩ := Prod.mk.inj (Except.ok.inj ((allocate_pop hi hin).symm.trans hrun))
    obtain rfl := Option.some.inj hp
    have hlast : s.freeList = s.freeChunks.take i ++ [s.freeChunks[i]] := by
      rw [freeList, hi, show ((i : Int) + 1).toNat = i + 1 by omega, List.take_add_one,
        List.getElem?_eq_getElem hin]
      rfl
    have hrest : freeList { s with
        currFreeChunksIdx := (i : Int) - 1
        used := SizeT.add s.used s.chunkSize } = s.freeChunks.take i := by
      rw [freeList, show ((i : Int) - 1 + 1).toNat = i by omega]
    rw [stack, stack, hlast, hrest, List.reverse_append]
    rfl
  · refine Or.inl ⟨?_, h.allocate_full (by omega)⟩
    have hnil : s.freeList = [] := List.eq_nil_of_length_eq_zero (by omega)
    rw [stack, hnil, List.reverse_nil]

/-- `Free` pushes. -/
theorem free_stack (hp : ptr ∈ live) : ∃ s', s.free .none ptr = .ok (true, s') ∧
    s'.stack = ptr :: s.stack ∧ Partition arena chunksNum chunkSize (live.erase ptr) s' := by
  obtain ⟨s', hrun, h'⟩ := h.free_live hp
  refine ⟨s', hrun, ?_, h'⟩
  have hlen := h.length_freeList
  have hadd := h.length_add
  have hpos := List.length_pos_of_mem hp
  obtain ⟨i, hi⟩ : ∃ i : Nat, s.currFreeChunksIdx + 1 = i :=
    ⟨(s.currFreeChunksIdx + 1).toNat, by have := h.idxGe; omega⟩
  have hin : i < s.freeChunks.length := by
    rw [h.table]
    omega
  have hchunk := chunk_le (h.live_mem hp)
  have hrange : ¬(ptr < s.startPtr ∨ ptr > s.startPtr + s.totalSize) := by
    rw [h.start, h.total]
    omega
  obtain ⟨-, rfl⟩ := Prod.mk.inj (Except.ok.inj ((free_push hrange hi hin).symm.trans hrun))
  have hfree : (s.freeChunks.set i ptr).take ((i : Int) + 1).toNat = s.freeList ++ [ptr] := by
    rw [show ((i : Int) + 1).toNat = i + 1 by omega, List.take_add_one,
      List.getElem?_set_self hin, List.take_set_of_le (Nat.le_refl i), freeList, hi,
      Int.toNat_natCast]
    rfl
  rw [stack, freeList]
  simp only [hfree, List.reverse_append]
  rfl

end Partition

/-- What a call does to the chunks held, given its answer. -/
def hold (live : List Nat) : ThreadCall × ChunkAnswer → List Nat
  | (.allocate _, .chunk (some p)) => p :: live
  | (.free p, .freed true) => live.erase p
  | _ => live

/-- The call may be made: `Free` takes a held chunk. -/
def Held (live : List Nat) : ThreadCall → Prop
  | .allocate _ => True
  | .free p => p ∈ live

/-- **Step lemma.** A call of a pool with its lock free answers as the stack
does; afterwards the lock is free unless there was no chunk. -/
theorem serve_lifo (h : Partition arena chunksNum chunkSize live s) (hfree : s.held = false)
    {call : ThreadCall} (hheld : Held live call) :
    ∃ a s', s.serve call = .ok (a, s') ∧ lifo s.stack call = .ok (a, s'.stack) ∧
      Partition arena chunksNum chunkSize (hold live (call, a)) s' ∧
      s'.held = decide (a = .chunk none) := by
  have hlocked : Partition arena chunksNum chunkSize live s.locked := h.withSpinlock _
  cases call with
  | allocate size =>
      rcases hlocked.allocate_stack with ⟨hnil, hrun⟩ | ⟨p, s', htop, hrun, h'⟩
      · have hnil : s.stack = [] := hnil
        refine ⟨.chunk none, s.locked, ?_, ?_, hlocked, rfl⟩
        · rw [serve, allocate_enableSpinLock hfree, hrun]
          rfl
        · show lifo s.stack _ = .ok (_, s.stack)
          rw [lifo, hnil]
          rfl
      · have htop : s.stack = p :: s'.stack := htop
        refine ⟨.chunk (some p), s'.unlock .enableSpinLock, ?_, ?_, h'.withSpinlock _, rfl⟩
        · rw [serve, allocate_enableSpinLock hfree, hrun]
          rfl
        · rw [lifo, htop]
          rfl
  | free p =>
      obtain ⟨s', hrun, htop, h'⟩ := hlocked.free_stack hheld
      refine ⟨.freed true, s'.unlock .enableSpinLock, ?_, ?_, h'.withSpinlock _, rfl⟩
      · rw [serve, free_enableSpinLock hfree, hrun]
        rfl
      · show lifo s.stack _ = .ok (_, s'.stack)
        rw [lifo, htop]
        rfl

/-! ## Lists of calls -/

/-- Every `Free` of the list takes a chunk that is held at that moment. -/
def FreesHeld : List Nat → List (ThreadCall × ChunkAnswer) → Prop
  | _, [] => True
  | live, e :: es => Held live e.1 ∧ FreesHeld (hold live e) es

/-- No answer but the last is `nullptr`. -/
def NullLast (answers : List ChunkAnswer) : Prop := .chunk none ∉ answers.dropLast

instance (answers : List ChunkAnswer) : Decidable (NullLast answers) :=
  inferInstanceAs (Decidable (_ ∉ _))

theorem nullLast_cons {a : ChunkAnswer} {answers : List ChunkAnswer} :
    NullLast (a :: answers) ↔ (a = .chunk none → answers = []) ∧ NullLast answers := by
  cases answers with
  | nil => simp [NullLast]
  | cons b answers => simp [NullLast, eq_comm]

/-- **Run lemma.** The sequential pool gives the listed answers exactly when
the stack does and none but the last is `nullptr`. -/
theorem answers_iff : ∀ {es : List (ThreadCall × ChunkAnswer)} {s : PoolAllocator}
    {live : List Nat}, Partition arena chunksNum chunkSize live s → s.held = false →
    FreesHeld live es → ∀ pre : List ChunkAnswer,
    ((∃ y, Runs.exec (Runs.recording serve) (s, pre) (es.map Prod.fst) =
        .ok (y, pre ++ es.map Prod.snd)) ↔
      (∃ z, Runs.exec (Runs.recording lifo) (s.stack, pre) (es.map Prod.fst) =
        .ok (z, pre ++ es.map Prod.snd)) ∧ NullLast (es.map Prod.snd))
  | [], s, live, _, _, _, pre => by
      simp [Runs.exec, NullLast]
  | (call, a) :: es, s, live, h, hfree, hfrees, pre => by
      obtain ⟨b, s', hserve, hlifo, h', hheld⟩ := serve_lifo h hfree hfrees.1
      simp only [List.map_cons, Runs.exec_recording hserve, Runs.exec_recording hlifo,
        nullLast_cons]
      by_cases hab : b = a
      · -- the answer is the listed one
        subst hab
        have hmove : pre ++ b :: es.map Prod.snd = (pre ++ [b]) ++ es.map Prod.snd := by simp
        rw [hmove]
        by_cases hnull : b = .chunk none
        · -- the lock is kept: no call gets through any more
          subst hnull
          have htaken : s'.held = true := by rw [hheld]; rfl
          cases es with
          | nil => simp [Runs.exec, NullLast]
          | cons e es =>
              rw [List.map_cons,
                Runs.exec_cons_error (Runs.recording_error (serve_held htaken e.1) _)]
              simp
        · have hopen : s'.held = false := by rw [hheld, decide_eq_false hnull]
          rw [answers_iff h' hopen hfrees.2]
          simp [hnull]
      · -- both answer something else
        have hother : ∀ {τ : Type} {serve : τ → ThreadCall → Except Stuck (ChunkAnswer × τ)}
            {x : τ}, ¬∃ y, Runs.exec (Runs.recording serve) (x, pre ++ [b]) (es.map Prod.fst) =
              .ok (y, pre ++ a :: es.map Prod.snd) := by
          rintro τ serve x ⟨y, hrun⟩
          obtain ⟨more, hmore⟩ := Runs.exec_recording_prefix hrun
          rw [List.append_assoc, List.append_cancel_left_eq, List.singleton_append] at hmore
          exact hab (List.cons.inj hmore).1.symm
        exact iff_of_false hother fun hboth => hother hboth.1

end PoolAllocator

/-! ## Threads -/

namespace PoolLifo

open PoolAccesses PoolAllocator

/-- The code of a call. -/
def code : ThreadCall → Code ChunkAnswer
  | .allocate _ => (PoolAccesses.allocate 0).answering .chunk
  | .free p => (PoolAccesses.free 0 p).answering .freed

/-- The pool, the threads, and the calls that have made their last access. -/
abbrev State := Threads ThreadCall Nat (List PoolAllocator) Stuck ChunkAnswer

/-- One access of one thread. -/
def step : State → Nat × ThreadCall → Except Immobile State := Threads.step code

/-- Threads before their first call. -/
def start (s : PoolAllocator) (n : Nat) : State := Threads.start (share [s]) n

/-- Before the lock nothing is read, so no part of the data need be constant. -/
abbrev nothing (_ : List PoolAllocator) : Unit := ()

theorem keeps_read {α : Type} (f : PoolAllocator → Except Stuck α) :
    (PoolAccesses.read 0 f).Keeps nothing := Prog.keeps_get _

theorem keeps_write (f : PoolAllocator → Except Stuck PoolAllocator) :
    (PoolAccesses.write 0 f).Keeps nothing := Prog.keeps_modify fun _ _ _ => rfl

theorem guarded_allocate : (PoolAccesses.allocate 0).Guarded 0 nothing := by
  refine ⟨rfl, (keeps_read _).sealed_bind fun idx => ?_⟩
  split
  · trivial
  · exact (keeps_read _).sealed_bind fun idx => (keeps_write _).sealed_bind fun _ =>
      (keeps_read _).sealed_bind fun chunk => (keeps_read _).sealed_bind fun used =>
        (keeps_read _).sealed_bind fun size => (keeps_write _).sealed_bind fun _ => ⟨rfl, _, rfl⟩

theorem guarded_free (p : Nat) : (PoolAccesses.free 0 p).Guarded 0 nothing := by
  refine ⟨rfl, (keeps_read _).sealed_bind fun low => ?_⟩
  split
  · trivial
  refine (keeps_read _).sealed_bind fun low => (keeps_read _).sealed_bind fun total => ?_
  split
  · trivial
  · exact (keeps_read _).sealed_bind fun used => (keeps_read _).sealed_bind fun size =>
      (keeps_write _).sealed_bind fun _ => (keeps_read _).sealed_bind fun idx =>
        (keeps_write _).sealed_bind fun _ => (keeps_read _).sealed_bind fun idx =>
          (keeps_write _).sealed_bind fun _ => ⟨rfl, _, rfl⟩

theorem guarded_code (call : ThreadCall) : (code call).Guarded 0 nothing := by
  cases call with
  | allocate size => exact guarded_allocate.answering _
  | free p => exact (guarded_free p).answering _

/-- Alone, the code of a call does what the sequential call does. -/
theorem run_code (s : PoolAllocator) (call : ThreadCall) :
    (code call).run .spinsForever (share [s]) =
      (s.serve call).map fun r => (r.1, share [r.2]) := by
  cases call with
  | allocate size =>
      rw [code, Prog.run_answering, allocate_share (i := 0) (s := s) rfl, serve]
      cases s.allocate .enableSpinLock <;> rfl
  | free p =>
      rw [code, Prog.run_answering, free_share (i := 0) (s := s) rfl, serve]
      cases s.free .enableSpinLock p <;> rfl

variable {s : PoolAllocator} {arena chunksNum chunkSize : Nat} {live : List Nat}

/-- **A linearizable stack.** Threads that free chunks held by one of them can
observe a sequence of calls, in the order of their last accesses, under some
schedule exactly when a stack of the free chunks gives these answers in this
order and `nullptr` is not among them except as the last. -/
theorem histories_lifo (hpart : Partition arena chunksNum chunkSize live s)
    (hfree : s.held = false) {n : Nat} {log : List (Nat × ThreadCall × ChunkAnswer)}
    (hthreads : ∀ e ∈ log, e.1 < n) (hfrees : FreesHeld live (log.map Prod.snd)) :
    (∃ schedule S, Runs.exec step (start s n) schedule = .ok S ∧ S.log = log) ↔
      (∃ rest, Runs.exec (Runs.recording lifo) (s.stack, []) (log.map fun e => e.2.1) =
          .ok (rest, log.map fun e => e.2.2)) ∧
        NullLast (log.map fun e => e.2.2) := by
  have hseq := Threads.histories_iff guarded_code run_code s hthreads
  refine hseq.trans ?_
  have hiff := answers_iff hpart hfree hfrees []
  rwa [List.map_map, List.map_map, List.nil_append] at hiff

/-- Two threads on a fresh pool of two chunks: the chunk freed last comes
back first, and no call gets through after the fourth `Allocate`. -/
theorem histories_lifo_two : ∃ s, (construct 2 16).init .enableSpinLock 4096 [0, 0] = .ok s ∧
    ∃ schedule S, Runs.exec step (start s 2) schedule = .ok S ∧
      S.log = [(0, .allocate 16, .chunk (some 4112)), (1, .allocate 8, .chunk (some 4096)),
        (1, .free 4112, .freed true), (0, .allocate 1, .chunk (some 4112)),
        (1, .allocate 1, .chunk none)] := by
  obtain ⟨s, hinit, hpart, hfree⟩ := init_enableSpinLock_spec (show 0 < 16 by decide)
    (show 2 * 16 < 2 ^ 64 by decide) (by decide) 4096 (show [0, 0].length = 2 from rfl)
  refine ⟨s, hinit, (histories_lifo hpart hfree (by decide) ?_).mpr ⟨?_, ?_⟩⟩
  · simp [FreesHeld, Held, hold]
  · have hstack : s.stack = [4112, 4096] := by
      have hcheck : ((construct 2 16).init .enableSpinLock 4096 [0, 0]).map stack =
          .ok [4112, 4096] := by decide +kernel
      rw [hinit] at hcheck
      exact Except.ok.inj hcheck
    rw [hstack]
    exact ⟨[], rfl⟩
  · decide

end PoolLifo

end MemAlloc
