import MemAlloc.Bump
import MemAlloc.FreeListOps
import MemAlloc.Resets

/-!
# Who frees what

The buffers that the allocators get from `malloc` and give back to `free`:
`Init`, `Reset` of a linear allocator, the copy constructor of a pool and
the destructors, of any number of objects of the four classes. The heap is
the list of the buffers that `malloc` returned and `free` has not had back;
`free` of anything else, the null pointer apart, is undefined.

- `buffers_conserved` - without a copied pool no buffer is freed twice, and
  the heap is at all times what the objects hold and what `Init` of pools
  that already had buffers lost;
- `copy_freed_twice` - a copied pool and its original cannot both be
  destroyed.
-/

namespace MemAlloc

/-- Why a call does not return: `free` is given what is no buffer of the
heap, or the allocator gets stuck. -/
inductive Fault where
  | badFree
  | stuck (e : Stuck)
deriving DecidableEq, Repr

theorem mapError_eq_ok {α : Type} {x : Except Stuck α} {f : Stuck → Fault} {a : α} :
    x.mapError f = .ok a ↔ x = .ok a := by
  cases x <;> simp [Except.mapError]

/-- The buffers `malloc` returned and `free` has not had back. -/
abbrev Heap := List Nat

namespace Heap

variable (heap : Heap)

/-- After a `malloc` that returned `ptr`. -/
def malloc (ptr : Nat) : Heap := if ptr = nullptr then heap else ptr :: heap

def free (ptr : Nat) : Except Fault Heap :=
  if ptr = nullptr then .ok heap
  else if ptr ∈ heap then .ok (heap.erase ptr)
  else .error .badFree

/-- What `malloc` may return. -/
def Fresh (ptr : Nat) : Prop := ptr = nullptr ∨ ptr ∉ heap

instance (ptr : Nat) : Decidable (heap.Fresh ptr) := inferInstanceAs (Decidable (_ ∨ _))

/-- The buffers among some pointers. -/
def buffers (ptrs : List Nat) : List Nat := ptrs.filter (· ≠ nullptr)

variable {heap} {ptr : Nat} {ptrs rest : List Nat}

theorem malloc_perm (h : heap.Perm rest) : (heap.malloc ptr).Perm (buffers [ptr] ++ rest) := by
  by_cases hptr : ptr = nullptr
  · simpa [malloc, buffers, hptr] using h
  · simpa [malloc, buffers, hptr] using h

/-- The first of some buffers of the heap can be freed. -/
theorem free_perm (h : heap.Perm (buffers (ptr :: ptrs) ++ rest)) :
    ∃ heap', heap.free ptr = .ok heap' ∧ heap'.Perm (buffers ptrs ++ rest) := by
  by_cases hptr : ptr = nullptr
  · refine ⟨heap, by rw [free, if_pos hptr], ?_⟩
    simpa [buffers, hptr] using h
  · have hcons : buffers (ptr :: ptrs) = ptr :: buffers ptrs := by simp [buffers, hptr]
    rw [hcons, List.cons_append] at h
    have hmem : ptr ∈ heap := h.mem_iff.mpr (List.mem_cons_self ..)
    refine ⟨heap.erase ptr, by rw [free, if_neg hptr, if_pos hmem], ?_⟩
    simpa using h.erase ptr

theorem free_bad (hptr : ptr ≠ nullptr) (hmem : ptr ∉ heap) :
    heap.free ptr = .error .badFree := by
  rw [free, if_neg hptr, if_neg hmem]

theorem nodup_malloc (h : heap.Nodup) (hfresh : heap.Fresh ptr) : (heap.malloc ptr).Nodup := by
  rw [malloc]
  split
  · exact h
  · exact List.nodup_cons.mpr ⟨hfresh.resolve_left ‹_›, h⟩

theorem free_sublist {heap' : Heap} (h : heap.free ptr = .ok heap') : heap'.Sublist heap := by
  rw [free] at h
  split at h
  · obtain rfl := Except.ok.inj h
    exact .refl _
  · split at h
    · obtain rfl := Except.ok.inj h
      exact List.erase_sublist
    · cases h

end Heap

/-! ## The objects -/

/-- An object, and, for a pool, the address of its table. -/
inductive Object where
  | linear (s : LinearAllocator)
  | stack (s : StackAllocator)
  | freeList (s : FreeListAllocator)
  | pool (s : PoolAllocator) (freeChunks : Nat)

/-- What the calls of `malloc` in an `Init` return; the slots are those of
the table of a pool. -/
structure Mallocs where
  arena : Nat
  table : Nat
  slots : List Nat

/-- The calls that use an allocator. -/
inductive Use where
  | allocate (size alignment : Nat)
  | free (ptr : Nat)
  | fullMergeMemBlocks
  | reset

namespace Object

/-- The members that point to a buffer. -/
def ptrs : Object → List Nat
  | linear s => [s.startPtr]
  | stack s => [s.startPtr]
  | freeList s => [s.startPtr]
  | pool s freeChunks => [s.startPtr, freeChunks]

/-- The buffers the object has. -/
def held (o : Object) : List Nat := Heap.buffers o.ptrs

/-- `Init` of the three classes that free the arena they have. -/
def initOne (heap : Heap) (startPtr arena : Nat) : Except Fault Heap :=
  (if startPtr ≠ nullptr then heap.free startPtr else .ok heap).map fun heap => heap.malloc arena

def init (heap : Heap) (m : Mallocs) : Object → Except Fault (Object × Heap)
  | linear s => (initOne heap s.startPtr m.arena).map fun heap =>
      (linear (LinearAllocator.init s m.arena), heap)
  | stack s => (initOne heap s.startPtr m.arena).map fun heap =>
      (stack (StackAllocator.init s m.arena), heap)
  | freeList s => (initOne heap s.startPtr m.arena).map fun heap =>
      (freeList (s.init m.arena), heap)
  | pool s _ =>
      ((s.init cPoolAllocThreadPolicy m.arena m.slots).mapError .stuck).map fun s =>
        (pool s m.table, (heap.malloc m.arena).malloc m.table)

/-- The destructors. -/
def destroy (heap : Heap) : Object → Except Fault Heap
  | linear s => heap.free s.startPtr
  | stack s => heap.free s.startPtr
  | freeList s => heap.free s.startPtr
  | pool s freeChunks => do
      let heap ← heap.free s.startPtr
      heap.free freeChunks

/-- `FullMergeMemBlocks` is a member of the free list only. -/
def use (heap : Heap) : Object → Use → Except Fault (Object × Heap)
  | linear s, .allocate size alignment =>
      .ok (linear (LinearAllocator.allocate s size alignment).2, heap)
  | linear s, .free ptr => .ok (linear (LinearAllocator.free s ptr).2, heap)
  | linear s, .reset => do
      let heap ← heap.free s.startPtr
      return (linear (LinearAllocator.reset s), heap)
  | linear s, .fullMergeMemBlocks => .ok (linear s, heap)
  | stack s, .allocate size alignment =>
      .ok (stack (StackAllocator.allocate s size alignment).2, heap)
  | stack s, .free ptr => .ok (stack (StackAllocator.free s ptr).2, heap)
  | stack s, .reset => .ok (stack (StackAllocator.reset s), heap)
  | stack s, .fullMergeMemBlocks => .ok (stack s, heap)
  | freeList s, .allocate size alignment =>
      ((s.allocate cFreeListThreadPolicy size alignment).mapError .stuck).map fun r =>
        (freeList r.2, heap)
  | freeList s, .free ptr =>
      ((s.free cFreeListThreadPolicy cMergePolicy ptr).mapError .stuck).map fun r =>
        (freeList r.2, heap)
  | freeList s, .reset => .ok (freeList s.reset, heap)
  | freeList s, .fullMergeMemBlocks =>
      (s.fullMergeMemBlocks.mapError .stuck).map fun s => (freeList s, heap)
  | pool s freeChunks, .allocate _ _ =>
      ((s.allocate cPoolAllocThreadPolicy).mapError .stuck).map fun r => (pool r.2 freeChunks, heap)
  | pool s freeChunks, .free ptr =>
      ((s.free cPoolAllocThreadPolicy ptr).mapError .stuck).map fun r => (pool r.2 freeChunks, heap)
  | pool s freeChunks, .reset =>
      ((s.reset cPoolAllocThreadPolicy).mapError .stuck).map fun s => (pool s freeChunks, heap)
  | pool s freeChunks, .fullMergeMemBlocks => .ok (pool s freeChunks, heap)

/-- What `Init` loses: a pool does not free the buffers it has. -/
def lost : Object → List Nat
  | pool s freeChunks => (pool s freeChunks).held
  | _ => []

/-- The free blocks of a free list fit in its table. -/
def InTable : Object → Prop
  | freeList s => FreeListAllocator.InTable s
  | _ => True

/-- What a call on an object does to the heap, of which the rest belongs to
others: it frees no stranger's buffer, and accounts for its own. -/
structure Sound (rest lost : List Nat) (r : Except Fault (Object × Heap)) : Prop where
  safe : r ≠ .error .badFree
  keeps : ∀ o heap, r = .ok (o, heap) → heap.Perm (o.held ++ (rest ++ lost)) ∧ o.InTable

variable {o : Object} {heap : Heap} {rest : List Nat}

/-- A call that does not touch the heap. -/
theorem sound_same (h : heap.Perm (o.held ++ rest)) {α : Type} {x : Except Stuck α}
    {f : α → Object} (hf : ∀ a, x = .ok a → (f a).ptrs = o.ptrs ∧ (f a).InTable) :
    Sound rest [] ((x.mapError .stuck).map fun a => (f a, heap)) := by
  cases hx : x with
  | error e => exact ⟨nofun, nofun⟩
  | ok a =>
      obtain ⟨hptrs, hin⟩ := hf a hx
      refine ⟨nofun, fun o' heap' heq => ?_⟩
      obtain ⟨rfl, rfl⟩ := Prod.mk.inj (Except.ok.inj heq)
      refine ⟨?_, hin⟩
      rw [List.append_nil, held, hptrs]
      exact h

theorem sound_ok (h : heap.Perm (o.held ++ rest)) {o' : Object} (hptrs : o'.ptrs = o.ptrs)
    (hin : o'.InTable) : Sound rest [] (.ok (o', heap)) :=
  sound_same (x := .ok ()) (f := fun _ => o') h fun _ _ => ⟨hptrs, hin⟩

/-- The arena is freed if there is one, and `malloc` called. -/
theorem initOne_perm {startPtr : Nat} (arena : Nat)
    (h : heap.Perm (Heap.buffers [startPtr] ++ rest)) :
    ∃ heap', initOne heap startPtr arena = .ok heap' ∧
      heap'.Perm (Heap.buffers [arena] ++ rest) := by
  obtain ⟨heap', hfree, hrest⟩ := Heap.free_perm h
  refine ⟨heap'.malloc arena, ?_, Heap.malloc_perm hrest⟩
  by_cases hptr : startPtr = nullptr
  · have hsame : heap' = heap := by
      rw [Heap.free, if_pos hptr] at hfree
      exact (Except.ok.inj hfree).symm
    simp [initOne, hptr, hsame, Except.map]
  · simp [initOne, hptr, hfree, Except.map]

theorem resetLoop_startPtr : ∀ {n : Nat} {s s' : PoolAllocator}, s.resetLoop n = .ok s' →
    s'.startPtr = s.startPtr
  | 0, s, s', h => by
      obtain rfl := Except.ok.inj h
      rfl
  | n + 1, s, s', h => by
      obtain ⟨a, hloop, hset⟩ := bind_eq_ok.mp h
      rw [PoolAllocator.setChunk] at hset
      split at hset
      · have hsame := resetLoop_startPtr hloop
        obtain rfl := Except.ok.inj hset
        exact hsame
      · cases hset

theorem reset_startPtr {s s' : PoolAllocator} (h : s.reset .none = .ok s') :
    s'.startPtr = s.startPtr := by
  simp only [PoolAllocator.reset, PoolAllocator.lock, pure_bind] at h
  obtain ⟨a, hloop, h⟩ := bind_eq_ok.mp h
  have hsame := resetLoop_startPtr hloop
  obtain rfl := Except.ok.inj h
  exact hsame

theorem sound_init (m : Mallocs) (h : heap.Perm (o.held ++ rest)) :
    Sound rest o.lost (o.init heap m) := by
  have hone : ∀ {startPtr : Nat} {f : Heap → Object},
      heap.Perm (Heap.buffers [startPtr] ++ rest) →
      (∀ heap, (f heap).ptrs = [m.arena] ∧ (f heap).InTable) →
      Sound rest [] ((initOne heap startPtr m.arena).map fun heap => (f heap, heap)) := by
    intro startPtr f h hf
    obtain ⟨heap', hinit, hperm⟩ := initOne_perm m.arena h
    rw [hinit]
    refine ⟨nofun, fun o' heap'' heq => ?_⟩
    obtain ⟨rfl, rfl⟩ := Prod.mk.inj (Except.ok.inj heq)
    refine ⟨?_, (hf heap').2⟩
    rw [List.append_nil, held, (hf heap').1]
    exact hperm
  cases o with
  | linear s => exact hone h fun _ => ⟨rfl, trivial⟩
  | stack s => exact hone h fun _ => ⟨rfl, trivial⟩
  | freeList s =>
      exact hone h fun _ => ⟨rfl, show 1 ≤ freeMemBlocksSize by decide⟩
  | pool s freeChunks =>
      cases hrun : s.init cPoolAllocThreadPolicy m.arena m.slots with
      | error e =>
          rw [init, hrun]
          exact ⟨nofun, nofun⟩
      | ok s' =>
          rw [init, hrun]
          refine ⟨nofun, fun o' heap' heq => ?_⟩
          obtain ⟨rfl, rfl⟩ := Prod.mk.inj (Except.ok.inj heq)
          refine ⟨?_, trivial⟩
          have hstart : s'.startPtr = m.arena := reset_startPtr hrun
          have hnew : (Heap.malloc (heap.malloc m.arena) m.table).Perm
              (Heap.buffers [m.table] ++ (Heap.buffers [m.arena] ++ heap)) :=
            Heap.malloc_perm (Heap.malloc_perm (.refl _))
          have hheld : Heap.buffers [m.arena] ++ Heap.buffers [m.table]
              = (pool s' m.table).held := by
            rw [held, ptrs, hstart, Heap.buffers, Heap.buffers, ← List.filter_append]
            rfl
          rw [← hheld]
          refine hnew.trans ?_
          rw [← List.append_assoc]
          exact List.perm_append_comm.append (h.trans List.perm_append_comm)

theorem allocate_startPtr (s : BumpAllocator) (size alignment : Nat) :
    (BumpAllocator.allocate s size alignment).2.startPtr = s.startPtr := by
  rw [BumpAllocator.allocate]
  dsimp only
  split <;> rfl

theorem allocate_inTable {s : FreeListAllocator} (hin : s.InTable) {size alignment : Nat}
    {r : Option Nat × FreeListAllocator} (h : s.allocate .none size alignment = .ok r) :
    r.2.startPtr = s.startPtr ∧ r.2.InTable := by
  obtain ⟨-, ⟨-, -, hs⟩ | ⟨k, b, t, n, -, -, -, -, hn, -, -, hs⟩⟩ := hin.allocate_ok h
  · rw [hs]
    exact ⟨rfl, hin⟩
  · rw [hs]
    exact ⟨rfl, Nat.le_trans hn hin⟩

theorem free_inTable {s : FreeListAllocator} (hin : s.InTable) {merge : MergePolicy} {ptr : Nat}
    {r : Bool × FreeListAllocator} (h : s.free .none merge ptr = .ok r) :
    r.2.startPtr = s.startPtr ∧ r.2.InTable := by
  rcases hin.free_ok h with ⟨-, -, hs⟩ | ⟨hcap, -, t, n, hn, hs⟩
  · rw [hs]
    exact ⟨rfl, hin⟩
  · rw [hs]
    exact ⟨rfl, Nat.le_trans hn hcap⟩

theorem sound_use (h : heap.Perm (o.held ++ rest)) (hin : o.InTable) (u : Use) :
    Sound rest [] (o.use heap u) := by
  cases o with
  | linear s =>
      cases u with
      | allocate size alignment =>
          exact sound_ok h (congrArg (fun p => [p]) (allocate_startPtr s size alignment)) trivial
      | free ptr => exact sound_ok h rfl trivial
      | fullMergeMemBlocks => exact sound_ok h rfl trivial
      | reset =>
          obtain ⟨heap', hfree, hrest⟩ := Heap.free_perm h
          rw [use, hfree]
          refine ⟨nofun, fun o' heap'' heq => ?_⟩
          obtain ⟨rfl, rfl⟩ := Prod.mk.inj (Except.ok.inj heq)
          rw [List.append_nil]
          exact ⟨hrest, trivial⟩
  | stack s =>
      cases u with
      | allocate size alignment =>
          exact sound_ok h (congrArg (fun p => [p]) (allocate_startPtr s size alignment)) trivial
      | free ptr => exact sound_ok h rfl trivial
      | fullMergeMemBlocks => exact sound_ok h rfl trivial
      | reset => exact sound_ok h rfl trivial
  | freeList s =>
      cases u with
      | allocate size alignment =>
          refine sound_same h fun r hrun => ?_
          obtain ⟨hstart, hin'⟩ := allocate_inTable hin hrun
          exact ⟨congrArg (fun p => [p]) hstart, hin'⟩
      | free ptr =>
          refine sound_same h fun r hrun => ?_
          obtain ⟨hstart, hin'⟩ := free_inTable hin hrun
          exact ⟨congrArg (fun p => [p]) hstart, hin'⟩
      | fullMergeMemBlocks =>
          refine sound_same h fun s' hrun => ?_
          obtain ⟨t, n, hmerge, hn, -⟩ := FreeListAllocator.fullMergeMemBlocks_spec hin
          obtain rfl := Except.ok.inj (hmerge.symm.trans hrun)
          exact ⟨rfl, Nat.le_trans hn hin⟩
      | reset =>
          exact sound_ok h rfl (show 1 ≤ freeMemBlocksSize by decide)
  | pool s freeChunks =>
      cases u with
      | allocate size alignment =>
          refine sound_same h fun r hrun => ⟨?_, trivial⟩
          rw [ptrs, ptrs, (PoolAllocator.allocate_sameArena hrun).start]
      | free ptr =>
          refine sound_same h fun r hrun => ⟨?_, trivial⟩
          rw [ptrs, ptrs, (PoolAllocator.free_sameArena hrun).start]
      | fullMergeMemBlocks => exact sound_ok h rfl trivial
      | reset =>
          refine sound_same h fun s' hrun => ⟨?_, trivial⟩
          rw [ptrs, ptrs, reset_startPtr hrun]

theorem destroy_perm (h : heap.Perm (o.held ++ rest)) :
    ∃ heap', o.destroy heap = .ok heap' ∧ heap'.Perm rest := by
  cases o with
  | pool s freeChunks =>
      obtain ⟨heap₁, harena, h₁⟩ := Heap.free_perm h
      obtain ⟨heap₂, htable, h₂⟩ := Heap.free_perm h₁
      exact ⟨heap₂, by rw [destroy, harena, ok_bind, htable], h₂⟩
  | _ => exact Heap.free_perm h

end Object

/-! ## A program -/

/-- The objects of a program and the heap. -/
structure Program where
  objects : List Object
  heap : Heap

/-- The constructors. -/
inductive Construction where
  | linear (totalSize : Nat)
  | stack (totalSize : Nat)
  | freeList (totalSize : Nat) (mem : Memory)
  | pool (chunksNum chunkSize : Nat)

def Construction.object : Construction → Object
  | linear totalSize => .linear (BumpAllocator.construct totalSize)
  | stack totalSize => .stack (BumpAllocator.construct totalSize)
  | freeList totalSize mem => .freeList (FreeListAllocator.construct totalSize mem)
  | pool chunksNum chunkSize => .pool (PoolAllocator.construct chunksNum chunkSize) nullptr

inductive ProgramCall where
  | construct (c : Construction)
  | init (i : Nat) (m : Mallocs)
  | use (i : Nat) (u : Use)
  | copy (i : Nat)
  | destroy (i : Nat)

namespace Program

def start : Program := ⟨[], []⟩

/-- A call on the object of the given number, and nothing if there is none.
Only pools have a copy constructor. -/
def step (w : Program) : ProgramCall → Except Fault Program
  | .construct c => .ok ⟨w.objects ++ [c.object], w.heap⟩
  | .init i m =>
      match w.objects[i]? with
      | some o => (o.init w.heap m).map fun r => ⟨w.objects.set i r.1, r.2⟩
      | none => .ok w
  | .use i u =>
      match w.objects[i]? with
      | some o => (o.use w.heap u).map fun r => ⟨w.objects.set i r.1, r.2⟩
      | none => .ok w
  | .copy i =>
      match w.objects[i]? with
      | some (.pool s freeChunks) => .ok ⟨w.objects ++ [.pool s.copy freeChunks], w.heap⟩
      | _ => .ok w
  | .destroy i =>
      match w.objects[i]? with
      | some o => (o.destroy w.heap).map fun heap => ⟨w.objects.eraseIdx i, heap⟩
      | none => .ok w

/-- What the call loses: the buffers of a pool that is initialised again. -/
def lost (w : Program) : ProgramCall → List Nat
  | .init i _ => (w.objects[i]?.map Object.lost).getD []
  | _ => []

/-- All that the objects hold. -/
def held (w : Program) : List Nat := w.objects.flatMap Object.held

def IsCopy : ProgramCall → Prop
  | .copy _ => True
  | _ => False

/-- The heap is what the objects hold and what was lost. -/
structure Ledger (w : Program) (lost : List Nat) : Prop where
  heap : w.heap.Perm (w.held ++ lost)
  inTable : ∀ o ∈ w.objects, o.InTable

variable {w w' : Program} {gone : List Nat} {i : Nat} {o : Object}

/-- One object in front. -/
theorem Ledger.focus (h : Ledger w gone) (hi : w.objects[i]? = some o) :
    w.heap.Perm (o.held ++ ((w.objects.eraseIdx i).flatMap Object.held ++ gone)) := by
  obtain ⟨hlt, rfl⟩ := List.getElem?_eq_some_iff.mp hi
  have hsplit := (List.getElem_cons_eraseIdx_perm hlt).flatMap_right Object.held
  rw [List.flatMap_cons] at hsplit
  refine h.heap.trans ?_
  rw [← List.append_assoc]
  exact hsplit.symm.append_right _

/-- A call on one object. -/
theorem Ledger.set (h : Ledger w gone) (hi : w.objects[i]? = some o) {more : List Nat}
    {r : Except Fault (Object × Heap)}
    (hr : Object.Sound ((w.objects.eraseIdx i).flatMap Object.held ++ gone) more r)
    (hok : r.map (fun r => (⟨w.objects.set i r.1, r.2⟩ : Program)) = .ok w') :
    Ledger w' (gone ++ more) := by
  obtain ⟨⟨o', heap⟩, hrun, rfl⟩ := map_eq_ok.mp hok
  obtain ⟨hheap, hin⟩ := hr.keeps o' heap hrun
  have hlt := (List.getElem?_eq_some_iff.mp hi).1
  have hset := (List.set_perm_cons_eraseIdx hlt o').flatMap_right Object.held
  rw [List.flatMap_cons] at hset
  refine ⟨?_, fun o'' ho'' => ?_⟩
  · refine hheap.trans ?_
    rw [List.append_assoc, ← List.append_assoc]
    exact hset.symm.append_right _
  · rcases List.mem_or_eq_of_mem_set ho'' with hold | rfl
    · exact h.inTable o'' hold
    · exact hin

theorem held_construct (c : Construction) : c.object.held = [] := by
  cases c <;> rfl

/-- **Step lemma.** -/
theorem Ledger.step (h : Ledger w gone) {call : ProgramCall} (hcall : ¬IsCopy call)
    (hok : step w call = .ok w') : Ledger w' (gone ++ lost w call) := by
  cases call with
  | construct c =>
      obtain rfl := Except.ok.inj hok
      rw [show lost w (.construct c) = [] from rfl, List.append_nil]
      refine ⟨?_, fun o ho => ?_⟩
      · rw [held, List.flatMap_append, List.flatMap_singleton, held_construct, List.append_nil]
        exact h.heap
      · rcases List.mem_append.mp ho with ho | ho
        · exact h.inTable o ho
        · obtain rfl := List.mem_singleton.mp ho
          cases c with
          | freeList => exact Nat.zero_le _
          | _ => trivial
  | init i m =>
      cases hi : w.objects[i]? with
      | none =>
          rw [Program.step, hi] at hok
          obtain rfl := Except.ok.inj hok
          rw [lost, hi]
          simpa using h
      | some o =>
          rw [Program.step, hi] at hok
          rw [lost, hi]
          exact h.set hi (Object.sound_init m (h.focus hi)) hok
  | use i u =>
      show Ledger w' (gone ++ [])
      cases hi : w.objects[i]? with
      | none =>
          rw [Program.step, hi] at hok
          obtain rfl := Except.ok.inj hok
          rwa [List.append_nil]
      | some o =>
          rw [Program.step, hi] at hok
          have hin := h.inTable o (List.mem_of_getElem? hi)
          exact h.set hi (Object.sound_use (h.focus hi) hin u) hok
  | copy i => exact absurd trivial hcall
  | destroy i =>
      rw [show lost w (.destroy i) = [] from rfl, List.append_nil]
      cases hi : w.objects[i]? with
      | none =>
          rw [Program.step, hi] at hok
          obtain rfl := Except.ok.inj hok
          exact h
      | some o =>
          rw [Program.step, hi] at hok
          obtain ⟨heap, hrun, rfl⟩ := map_eq_ok.mp hok
          obtain ⟨heap', hrun', hperm⟩ := Object.destroy_perm (h.focus hi)
          obtain rfl := Except.ok.inj (hrun'.symm.trans hrun)
          exact ⟨hperm, fun o' ho' => h.inTable o' ((List.eraseIdx_sublist ..).mem ho')⟩

/-- No buffer is freed that is not in the heap. -/
theorem Ledger.safe (h : Ledger w gone) {call : ProgramCall} (hcall : ¬IsCopy call) :
    Program.step w call ≠ .error .badFree := by
  have hmap : ∀ {r : Except Fault (Object × Heap)} {f : Object × Heap → Program},
      r ≠ .error .badFree → r.map f ≠ .error .badFree := by
    intro r f hr heq
    cases r with
    | error e => exact hr (congrArg Except.error (Except.error.inj heq))
    | ok x => cases heq
  cases call with
  | construct c => exact nofun
  | init i m =>
      rw [Program.step]
      cases hi : w.objects[i]? with
      | none => exact nofun
      | some o => exact hmap (Object.sound_init m (h.focus hi)).safe
  | use i u =>
      rw [Program.step]
      cases hi : w.objects[i]? with
      | none => exact nofun
      | some o =>
          have hin := h.inTable o (List.mem_of_getElem? hi)
          exact hmap (Object.sound_use (h.focus hi) hin u).safe
  | copy i => exact absurd trivial hcall
  | destroy i =>
      rw [Program.step]
      cases hi : w.objects[i]? with
      | none => exact nofun
      | some o =>
          obtain ⟨heap', hrun, -⟩ := Object.destroy_perm (h.focus hi)
          show (o.destroy w.heap).map _ ≠ _
          rw [hrun]
          exact nofun

/-- **Conservation of buffers.** In a run of any calls but copies, no buffer
is freed twice; the heap is what the objects hold, together with what was
lost when `Init` was called on a pool that had buffers already. -/
theorem buffers_conserved {calls : List ProgramCall} (hcopy : ∀ call ∈ calls, ¬IsCopy call) :
    Runs.exec step start calls ≠ .error .badFree ∧
      ∀ w, Runs.exec step start calls = .ok w →
        w.heap.Perm (w.held ++ (Runs.steps step start calls).flatMap fun x => lost x.1 x.2) := by
  have hstart : Ledger start [] := ⟨.refl _, nofun⟩
  have hadm : Runs.All step (fun _ call => ¬IsCopy call) start calls :=
    Runs.all_of_forall fun call hcall _ => hcopy call hcall
  refine ⟨?_, fun w hrun => ?_⟩
  · exact Runs.exec_ne_error (fun w => ∃ gone, Ledger w gone) (fun _ call => ¬IsCopy call)
      (fun _ _ _ ⟨_, h⟩ hcall hok => ⟨_, h.step hcall hok⟩)
      (fun _ _ ⟨_, h⟩ hcall => h.safe hcall) ⟨[], hstart⟩ hadm
  · exact (Runs.exec_ledger Ledger (fun _ call => ¬IsCopy call) lost
      (fun _ _ _ _ h hcall hok => h.step hcall hok) [] hstart hadm hrun).heap

/-- A linear allocator, and a pool that is initialised twice. -/
theorem buffers_conserved_twice : ∃ w,
    Runs.exec step start [.construct (.linear 64), .init 0 ⟨4096, 0, []⟩, .construct (.pool 2 8),
      .init 1 ⟨8192, 12288, [0, 0]⟩, .init 1 ⟨16384, 20480, [0, 0]⟩, .destroy 1, .destroy 0]
        = .ok w ∧ w.heap.Perm (w.held ++ [8192, 12288]) := by
  obtain ⟨w, hrun⟩ : ∃ w, Runs.exec step start [.construct (.linear 64), .init 0 ⟨4096, 0, []⟩,
      .construct (.pool 2 8), .init 1 ⟨8192, 12288, [0, 0]⟩, .init 1 ⟨16384, 20480, [0, 0]⟩,
      .destroy 1, .destroy 0] = .ok w := ⟨_, rfl⟩
  refine ⟨w, hrun, ((buffers_conserved (by simp [IsCopy])).2 w hrun).trans ?_⟩
  refine .append_left _ (.of_eq ?_)
  decide +kernel

/-! ## Copies -/

/-- `malloc` returns no buffer of the heap; `Init` has freed the old arena by
then, unless the object is a pool. -/
def FreshMallocs (w : Program) : ProgramCall → Prop
  | .init i m =>
      match w.objects[i]? with
      | some (.pool _ _) => w.heap.Fresh m.arena ∧ Heap.Fresh (w.heap.malloc m.arena) m.table
      | some o => ∀ p ∈ o.ptrs, Heap.Fresh (w.heap.erase p) m.arena
      | none => True
  | _ => True

theorem nodup_initOne {heap heap' : Heap} (h : heap.Nodup) {startPtr arena : Nat}
    (hfresh : Heap.Fresh (heap.erase startPtr) arena)
    (hok : Object.initOne heap startPtr arena = .ok heap') : heap'.Nodup := by
  obtain ⟨freed, hfree, rfl⟩ := map_eq_ok.mp hok
  by_cases hptr : startPtr = nullptr
  · rw [if_neg (not_not_intro hptr)] at hfree
    obtain rfl := Except.ok.inj hfree
    refine Heap.nodup_malloc h ?_
    by_cases harena : arena = nullptr
    · exact Or.inl harena
    · exact Or.inr fun hmem => hfresh.resolve_left harena
        ((List.mem_erase_of_ne (by rwa [hptr])).mpr hmem)
  · rw [if_pos hptr, Heap.free, if_neg hptr] at hfree
    split at hfree
    · obtain rfl := Except.ok.inj hfree
      exact Heap.nodup_malloc (h.erase _) hfresh
    · cases hfree

/-- A use of an object allocates no buffer. -/
theorem use_sublist {heap heap' : Heap} {o' : Object} {u : Use}
    (hok : o.use heap u = .ok (o', heap')) : heap'.Sublist heap := by
  have hsame : ∀ {α : Type} {x : Except Stuck α} {f : α → Object},
      ((x.mapError .stuck).map fun a => (f a, heap) : Except Fault _) = .ok (o', heap') →
        heap'.Sublist heap := by
    intro α x f hx
    obtain ⟨a, -, heq⟩ := map_eq_ok.mp hx
    obtain ⟨-, rfl⟩ := Prod.mk.inj heq
    exact .refl _
  have hok' : ∀ {o : Object}, (.ok (o, heap) : Except Fault _) = .ok (o', heap') →
      heap'.Sublist heap := fun {o} hx => hsame (x := .ok ()) (f := fun _ => o) hx
  cases o with
  | linear s =>
      cases u with
      | reset =>
          obtain ⟨heap'', hfree, heq⟩ := bind_eq_ok.mp hok
          obtain ⟨-, rfl⟩ := Prod.mk.inj (Except.ok.inj heq)
          exact Heap.free_sublist hfree
      | _ => exact hok' hok
  | stack s => cases u <;> exact hok' hok
  | freeList s =>
      cases u with
      | reset => exact hok' hok
      | _ => exact hsame hok
  | pool s freeChunks =>
      cases u with
      | fullMergeMemBlocks => exact hok' hok
      | _ => exact hsame hok

theorem destroy_sublist {heap heap' : Heap} (hok : o.destroy heap = .ok heap') :
    heap'.Sublist heap := by
  cases o with
  | pool s freeChunks =>
      obtain ⟨heap'', harena, htable⟩ := bind_eq_ok.mp hok
      exact (Heap.free_sublist htable).trans (Heap.free_sublist harena)
  | _ => exact Heap.free_sublist hok

/-- **Step lemma.** No buffer is twice in the heap. -/
theorem step_nodup (h : w.heap.Nodup) {call : ProgramCall} (hfresh : FreshMallocs w call)
    (hok : step w call = .ok w') : w'.heap.Nodup := by
  cases call with
  | construct c =>
      obtain rfl := Except.ok.inj hok
      exact h
  | init i m =>
      cases hi : w.objects[i]? with
      | none =>
          rw [step, hi] at hok
          obtain rfl := Except.ok.inj hok
          exact h
      | some o =>
          rw [step, hi] at hok
          rw [FreshMallocs, hi] at hfresh
          obtain ⟨⟨o', heap⟩, hrun, rfl⟩ := map_eq_ok.mp hok
          cases o with
          | pool s freeChunks =>
              obtain ⟨s', -, heq⟩ := map_eq_ok.mp hrun
              obtain ⟨-, rfl⟩ := Prod.mk.inj heq
              exact Heap.nodup_malloc (Heap.nodup_malloc h hfresh.1) hfresh.2
          | _ =>
              obtain ⟨heap', hone, heq⟩ := map_eq_ok.mp hrun
              obtain ⟨-, rfl⟩ := Prod.mk.inj heq
              exact nodup_initOne h (hfresh _ (List.mem_cons_self ..)) hone
  | use i u =>
      cases hi : w.objects[i]? with
      | none =>
          rw [step, hi] at hok
          obtain rfl := Except.ok.inj hok
          exact h
      | some o =>
          rw [step, hi] at hok
          obtain ⟨⟨o', heap⟩, hrun, rfl⟩ := map_eq_ok.mp hok
          exact (use_sublist hrun).nodup h
  | copy i =>
      rw [step] at hok
      split at hok <;> obtain rfl := Except.ok.inj hok <;> exact h
  | destroy i =>
      cases hi : w.objects[i]? with
      | none =>
          rw [step, hi] at hok
          obtain rfl := Except.ok.inj hok
          exact h
      | some o =>
          rw [step, hi] at hok
          obtain ⟨heap, hrun, rfl⟩ := map_eq_ok.mp hok
          exact (destroy_sublist hrun).nodup h

/-- The last object is a pool on the arena of the one of the given number. -/
structure Twins (arena i : Nat) (w : Program) : Prop where
  nonnull : arena ≠ nullptr
  nodup : w.heap.Nodup
  lt : i + 1 < w.objects.length
  original : ∃ s t, w.objects[i]? = some (.pool s t) ∧ s.startPtr = arena
  copy : ∃ s t, w.objects[w.objects.length - 1]? = some (.pool s t) ∧ s.startPtr = arena

theorem use_pool {s : PoolAllocator} {t : Nat} {u : Use} {heap heap' : Heap}
    (hok : (Object.pool s t).use heap u = .ok (o, heap')) :
    heap' = heap ∧ ∃ s', o = .pool s' t ∧ s'.startPtr = s.startPtr := by
  cases u with
  | fullMergeMemBlocks =>
      obtain ⟨rfl, rfl⟩ := Prod.mk.inj (Except.ok.inj hok)
      exact ⟨rfl, s, rfl, rfl⟩
  | allocate size alignment =>
      obtain ⟨⟨result, s'⟩, hrun, heq⟩ := map_eq_ok.mp hok
      obtain ⟨rfl, rfl⟩ := Prod.mk.inj heq
      exact ⟨rfl, s', rfl, (PoolAllocator.allocate_sameArena (mapError_eq_ok.mp hrun)).start⟩
  | free ptr =>
      obtain ⟨⟨ok, s'⟩, hrun, heq⟩ := map_eq_ok.mp hok
      obtain ⟨rfl, rfl⟩ := Prod.mk.inj heq
      exact ⟨rfl, s', rfl, (PoolAllocator.free_sameArena (mapError_eq_ok.mp hrun)).start⟩
  | reset =>
      obtain ⟨s', hrun, heq⟩ := map_eq_ok.mp hok
      obtain ⟨rfl, rfl⟩ := Prod.mk.inj heq
      exact ⟨rfl, s', rfl, Object.reset_startPtr (mapError_eq_ok.mp hrun)⟩

/-- Once the arena is freed, the other of the two cannot be destroyed. -/
theorem destroy_arena {s : PoolAllocator} {t : Nat} {heap heap' : Heap} (h : heap.Nodup)
    (hnull : s.startPtr ≠ nullptr) (hok : (Object.pool s t).destroy heap = .ok heap') :
    s.startPtr ∉ heap' := by
  obtain ⟨freed, harena, htable⟩ := bind_eq_ok.mp hok
  rw [Heap.free, if_neg hnull] at harena
  split at harena
  · obtain rfl := Except.ok.inj harena
    exact fun hmem => h.not_mem_erase ((Heap.free_sublist htable).mem hmem)
  · cases harena

namespace Twins

variable {arena : Nat} (h : Twins arena i w)
include h

/-- A use of either keeps the arena of both. -/
theorem use {k : Nat} (hk : k = i ∨ k = w.objects.length - 1) {u : Use}
    (hok : step w (.use k u) = .ok w') : Twins arena i w' ∧
      w'.objects.length = w.objects.length := by
  obtain ⟨s, t, hs, hstart⟩ : ∃ s t, w.objects[k]? = some (.pool s t) ∧ s.startPtr = arena := by
    rcases hk with rfl | rfl
    · exact h.original
    · exact h.copy
  rw [step, hs] at hok
  obtain ⟨⟨o, heap⟩, hrun, rfl⟩ := map_eq_ok.mp hok
  obtain ⟨rfl, s', rfl, hstart'⟩ := use_pool hrun
  have hsame : ∀ {n : Nat}, (∃ a b, w.objects[n]? = some (.pool a b) ∧ a.startPtr = arena) →
      ∃ a b, (w.objects.set k (.pool s' t))[n]? = some (.pool a b) ∧ a.startPtr = arena := by
    intro n hn
    by_cases hkn : k = n
    · have hlt := (List.getElem?_eq_some_iff.mp hs).1
      exact ⟨s', t, by rw [← hkn, List.getElem?_set_self hlt], hstart'.trans hstart⟩
    · rwa [List.getElem?_set_ne hkn]
  have hlen : (w.objects.set k (.pool s' t)).length = w.objects.length := List.length_set
  refine ⟨⟨h.nonnull, h.nodup, by rw [hlen]; exact h.lt, hsame h.original, ?_⟩, hlen⟩
  rw [hlen]
  exact hsame h.copy

theorem uses {uses : List (Nat × Use)} (huses : ∀ x ∈ uses, x.1 = i ∨ x.1 = w.objects.length - 1)
    (hok : Runs.exec step w (uses.map fun x => .use x.1 x.2) = .ok w') :
    Twins arena i w' ∧ w'.objects.length = w.objects.length := by
  induction uses generalizing w with
  | nil =>
      obtain rfl := Except.ok.inj hok
      exact ⟨h, rfl⟩
  | cons x xs ih =>
      obtain ⟨hx, hxs⟩ := List.forall_mem_cons.mp huses
      cases hstep : step w (.use x.1 x.2) with
      | error e =>
          rw [List.map_cons, Runs.exec_cons_error hstep] at hok
          cases hok
      | ok w₁ =>
          rw [List.map_cons, Runs.exec_cons_ok hstep] at hok
          obtain ⟨h₁, hlen⟩ := h.use hx hstep
          obtain ⟨h', hlen'⟩ := ih h₁ (by rw [hlen]; exact hxs) hok
          exact ⟨h', hlen'.trans hlen⟩

/-- One of the two is destroyed, then the other, wherever it is by then. -/
theorem destroyed {k k' : Nat}
    (hk : ∃ s t, w.objects[k]? = some (.pool s t) ∧ s.startPtr = arena)
    (hk' : ∃ s t, (w.objects.eraseIdx k)[k']? = some (.pool s t) ∧ s.startPtr = arena)
    (w' : Program) : Runs.exec step w [.destroy k, .destroy k'] ≠ .ok w' := by
  obtain ⟨s, t, hs, hstart⟩ := hk
  obtain ⟨s', t', hs', hstart'⟩ := hk'
  cases hfirst : (Object.pool s t).destroy w.heap with
  | error e =>
      have hstep : step w (.destroy k) = .error e := by
        rw [step, hs]
        show Except.map _ ((Object.pool s t).destroy w.heap) = _
        rw [hfirst]
        rfl
      rw [Runs.exec_cons_error hstep]
      exact nofun
  | ok heap =>
      have hstep : step w (.destroy k) = .ok ⟨w.objects.eraseIdx k, heap⟩ := by
        rw [step, hs]
        show Except.map _ ((Object.pool s t).destroy w.heap) = _
        rw [hfirst]
        rfl
      have hgone := destroy_arena h.nodup (by rw [hstart]; exact h.nonnull) hfirst
      rw [hstart, ← hstart'] at hgone
      have hbad : (Object.pool s' t').destroy heap = .error .badFree := by
        rw [Object.destroy, Heap.free_bad (by rw [hstart']; exact h.nonnull) hgone]
        rfl
      have hstep' : step ⟨w.objects.eraseIdx k, heap⟩ (.destroy k') = .error .badFree := by
        rw [step, hs']
        show Except.map _ ((Object.pool s' t').destroy heap) = _
        rw [hbad]
        rfl
      rw [Runs.exec_cons_ok hstep, Runs.exec_cons_error hstep']
      exact nofun

end Twins

/-- **A copied pool is freed twice.** In any run, after the copy of a pool
with an arena, and whatever use is made of the two pools then, there is no
way to destroy both: neither order of the destructors returns. -/
theorem copy_freed_twice {calls : List ProgramCall}
    (hfresh : Runs.All step FreshMallocs start calls) (hrun : Runs.exec step start calls = .ok w)
    {s : PoolAllocator} {t : Nat} (hi : w.objects[i]? = some (.pool s t))
    (hinit : s.startPtr ≠ nullptr) (uses : List (Nat × Use))
    (huses : ∀ x ∈ uses, x.1 = i ∨ x.1 = w.objects.length) (w' : Program) :
    Runs.exec step w (.copy i :: (uses.map fun x => .use x.1 x.2) ++
        [.destroy w.objects.length, .destroy i]) ≠ .ok w' ∧
      Runs.exec step w (.copy i :: (uses.map fun x => .use x.1 x.2) ++
        [.destroy i, .destroy (w.objects.length - 1)]) ≠ .ok w' := by
  have hnodup : w.heap.Nodup :=
    Runs.exec_ledger (fun w (_ : List Unit) => w.heap.Nodup) FreshMallocs (fun _ _ => [])
      (fun _ _ _ _ h hcall hok => step_nodup h hcall hok) [] List.nodup_nil hfresh hrun
  have hlt := (List.getElem?_eq_some_iff.mp hi).1
  have hcopy : step w (.copy i) = .ok ⟨w.objects ++ [.pool s.copy t], w.heap⟩ := by rw [step, hi]
  have htwins : Twins s.startPtr i ⟨w.objects ++ [.pool s.copy t], w.heap⟩ := by
    have hlen : (w.objects ++ [Object.pool s.copy t]).length = w.objects.length + 1 := by simp
    refine ⟨hinit, hnodup, by simp only [hlen]; omega, ⟨s, t, ?_, rfl⟩, ⟨s.copy, t, ?_, rfl⟩⟩
    · rw [List.getElem?_append_left hlt, hi]
    · simp only [hlen, Nat.add_sub_cancel, List.getElem?_concat_length]
  have hend : ∀ {tail : List ProgramCall}, (∀ w₂ : Program, Twins s.startPtr i w₂ →
      w₂.objects.length = w.objects.length + 1 → Runs.exec step w₂ tail ≠ .ok w') →
      Runs.exec step w (.copy i :: (uses.map fun x => .use x.1 x.2) ++ tail) ≠ .ok w' := by
    intro tail htail heq
    rw [List.cons_append, Runs.exec_cons_ok hcopy] at heq
    obtain ⟨w₂, huse, hrest⟩ := Runs.exec_append_ok heq
    obtain ⟨h₂, hlen⟩ := htwins.uses (by simpa using huses) huse
    exact htail w₂ h₂ (by rw [hlen]; simp) hrest
  refine ⟨hend fun w₂ h₂ hlen => ?_, hend fun w₂ h₂ hlen => ?_⟩
  · have hlast := h₂.copy
    have hfirst := h₂.original
    rw [hlen, Nat.add_sub_cancel] at hlast
    refine h₂.destroyed hlast ?_ w'
    rwa [List.getElem?_eraseIdx_of_lt hlt]
  · have hlast := h₂.copy
    rw [hlen, Nat.add_sub_cancel] at hlast
    refine h₂.destroyed h₂.original ?_ w'
    rw [List.getElem?_eraseIdx_of_ge (by omega), Nat.sub_add_cancel (by omega)]
    exact hlast

/-- The scope of a copy ends. -/
theorem copy_freed_twice_scope : ∃ w,
    Runs.exec step start [.construct (.pool 2 8), .init 0 ⟨8192, 12288, [0, 0]⟩] = .ok w ∧
      ∀ w', Runs.exec step w [.copy 0, .use 1 (.allocate 8 8), .destroy 1, .destroy 0]
        ≠ .ok w' := by
  obtain ⟨s, hrun, hstart⟩ : ∃ s, Runs.exec step start
      [.construct (.pool 2 8), .init 0 ⟨8192, 12288, [0, 0]⟩] =
        .ok ⟨[.pool s 12288], [12288, 8192]⟩ ∧ s.startPtr = 8192 := ⟨_, rfl, rfl⟩
  have hfresh : Runs.All step FreshMallocs start
      [.construct (.pool 2 8), .init 0 ⟨8192, 12288, [0, 0]⟩] := by
    refine Runs.all_cons.mpr ⟨trivial, fun w hw => Runs.all_cons.mpr ⟨?_, fun _ _ => ?_⟩⟩
    · obtain rfl := Except.ok.inj hw
      show Heap.Fresh _ _ ∧ Heap.Fresh _ _
      decide +kernel
    · exact Runs.all_nil _ _
  refine ⟨_, hrun, fun w' => (copy_freed_twice hfresh hrun (i := 0) (s := s) (t := 12288) rfl
    (by rw [hstart]; decide) [(1, .allocate 8 8)] (by simp) w').1⟩

end Program

end MemAlloc
