import MemAlloc.Linearizability
import MemAlloc.LockBalance

/-!
# `FreeListAllocator`, access by access

`Allocate` and `Free` under `ENABLE_SPIN_LOCK` as programs over the shared
allocator: one access reads or writes one word of the table, of a data
member or of a header. The functions follow the source once more, with the
accesses where it has them; `Free` reads `m_start_ptr` before it takes the
lock.

`Computes` says that alone they do what the sequential functions do: one
lemma per function, `allocate_run` and `free_run` for the two calls.
-/

namespace MemAlloc

namespace FreeListAccesses

/-- Code that shares a free-list allocator and its spin lock. -/
abbrev Code (α : Type) := Prog Unit FreeListAllocator Stuck α

/-! ## The accesses -/

def memBlockOffsetAt (i : Int) : Code Nat := .get fun s => (s.blockAt i).map (·.memBlockOffset)

def blockSizeAt (i : Int) : Code Nat := .get fun s => (s.blockAt i).map (·.blockSize)

def setMemBlockOffset (i : Int) (memBlockOffset : Nat) : Code Unit :=
  .modify fun s => do
    let b ← s.blockAt i
    s.setBlock i { b with memBlockOffset }

def setBlockSize (i : Int) (blockSize : Nat) : Code Unit :=
  .modify fun s => do
    let b ← s.blockAt i
    s.setBlock i { b with blockSize }

def currSize : Code Nat := .get fun s => .ok s.currSize

def setCurrSize (currSize : Nat) : Code Unit := .modify fun s => .ok { s with currSize }

def used : Code Nat := .get fun s => .ok s.used

def setUsed (used : Nat) : Code Unit := .modify fun s => .ok { s with used }

def totalSize : Code Nat := .get fun s => .ok s.totalSize

def startPtr : Code Nat := .get fun s => .ok s.startPtr

def readHeader (allocationHeader : Nat) : Code Nat := .get fun s => s.readHeader allocationHeader

def writeHeader (allocationHeader blockSize : Nat) : Code Unit :=
  .modify fun s => s.writeHeader allocationHeader blockSize

def blockAt (i : Int) : Code MemBlock := do
  let memBlockOffset ← memBlockOffsetAt i
  let blockSize ← blockSizeAt i
  return { memBlockOffset, blockSize }

def setBlock (i : Int) (b : MemBlock) : Code Unit := do
  setMemBlockOffset i b.memBlockOffset
  setBlockSize i b.blockSize

/-! ## The functions -/

def swapBlocks (i j : Int) : Code Unit := do
  let bi ← blockAt i
  let bj ← blockAt j
  setBlock i bj
  setBlock j bi

def shouldFullMerge : Code Bool := do
  let currSize ← currSize
  return currSize == freeMemBlocksSize

/-- The removal of the pivot, in both branches of the loop. -/
def removePivot (pivotIndex : Nat) : Code Unit := do
  let last ← currSize
  swapBlocks pivotIndex (SizeT.sub last 1)
  let last ← currSize
  setCurrSize (SizeT.sub last 1)

def fastMergeLoop (pivotIndex : Nat) : Nat → Code Unit
  | 0 => return
  | i + 1 => do
      let block ← blockAt i
      let pivotMemBlock ← blockAt pivotIndex
      if SizeT.add block.memBlockOffset block.blockSize == pivotMemBlock.memBlockOffset then
        setBlockSize i (SizeT.add block.blockSize pivotMemBlock.blockSize)
        removePivot pivotIndex
      else if block.memBlockOffset
          == SizeT.add pivotMemBlock.memBlockOffset pivotMemBlock.blockSize then
        setMemBlockOffset i pivotMemBlock.memBlockOffset
        setBlockSize i (SizeT.add block.blockSize pivotMemBlock.blockSize)
        removePivot pivotIndex
      else fastMergeLoop pivotIndex i

def fastMergeMemBlocks (pivotIndex : Nat) : Code Unit := fastMergeLoop pivotIndex pivotIndex

def fullMergeLoop : Nat → Code Unit
  | 0 => return
  | i + 1 => do
      fastMergeMemBlocks i
      fullMergeLoop i

def fullMergeMemBlocks : Code Unit := do
  let currSize ← currSize
  fullMergeLoop currSize

def findLoop (size : Nat) : Nat → Nat → Int → Code Int
  | 0, _, bestIndex => return bestIndex
  | i + 1, smallestDiff, bestIndex => do
      let blockSize ← blockSizeAt i
      if blockSize ≥ size ∧ SizeT.ofInt (SizeT.int32 blockSize - size) < smallestDiff then
        findLoop size i (SizeT.sub blockSize size) i
      else findLoop size i smallestDiff bestIndex

def findFreeMemBlockIndex (size : Nat) : Code Int := do
  let last ← currSize
  if last = 0 then
    return -1
  let full ← shouldFullMerge
  if full then
    return -1
  let used ← used
  let total ← totalSize
  if used = total then
    return -1
  let last ← currSize
  findLoop size last SizeT.max (-1)

def carve (freeMemBlockIndex : Int) (found : MemBlock) (required : Nat) : Code Unit := do
  let restSize := SizeT.sub found.blockSize required
  if restSize > 0 then
    setBlock freeMemBlockIndex
      { memBlockOffset := SizeT.add found.memBlockOffset (SizeT.uint32 required)
        blockSize := SizeT.uint32 restSize }
  else
    let last ← currSize
    swapBlocks (freeMemBlockIndex - 1) last
    let last ← currSize
    setCurrSize (SizeT.sub last 1)

def allocate (size alignment : Nat) : Code (Option Nat) :=
  if alignment = 0 then .fail .dividesByZero
  else do
    let required := FreeListAllocator.requiredSize size alignment
    .acquire ()
    let freeMemBlockIndex ← findFreeMemBlockIndex required
    if freeMemBlockIndex = -1 then
      -- the early `return nullptr` does not unlock
      return none
    let found ← blockAt freeMemBlockIndex
    let start ← startPtr
    let freeMemBlock := start + found.memBlockOffset
    carve freeMemBlockIndex found required
    let before ← used
    setUsed (SizeT.add before required)
    writeHeader freeMemBlock required
    .release ()
    return some (freeMemBlock + cAllocationHeaderSize)

def mergeContiguous (merge : MergePolicy) : Code Unit :=
  match merge with
  | .enableFastMerge => do
      let last ← currSize
      fastMergeMemBlocks (last - 1)
  | .enableFullMerge => fullMergeMemBlocks
  | .enableFullMergeIfNoSpace => do
      let full ← shouldFullMerge
      if full then fullMergeMemBlocks else return

def free (merge : MergePolicy) (ptr : Nat) : Code Bool := do
  let allocationHeader := FreeListAllocator.allocationHeader ptr
  let start ← startPtr
  let freeMemBlock : MemBlock :=
    { memBlockOffset := SizeT.uint32OfInt ((allocationHeader : Int) - start), blockSize := 0 }
  .acquire ()
  let full ← shouldFullMerge
  if full then
    -- nor does the early `return false`
    return false
  let last ← currSize
  setBlock last freeMemBlock
  let last ← currSize
  setCurrSize (SizeT.add last 1)
  let last ← currSize
  let blockSize ← readHeader allocationHeader
  setBlockSize (SizeT.sub last 1) blockSize
  let before ← used
  let last ← currSize
  let blockSize ← blockSizeAt (SizeT.sub last 1)
  setUsed (SizeT.sub before blockSize)
  mergeContiguous merge
  .release ()
  return true

/-! ## What they do alone -/

section Alone

variable {size alignment ptr : Nat} {merge : MergePolicy} {i j : Int} {s : FreeListAllocator}

/-- The answer of a program that changes nothing. -/
abbrev Reads {α : Type} (c : Code α) (f : FreeListAllocator → Except Stuck α) : Prop :=
  Prog.Reads .spinsForever c f

/-- The effect of a program that answers nothing. -/
abbrev Does (c : Code Unit) (f : FreeListAllocator → Except Stuck FreeListAllocator) : Prop :=
  Prog.Does .spinsForever c f

theorem reads_memBlockOffsetAt (i : Int) :
    Reads (memBlockOffsetAt i) fun s => (s.blockAt i).map (·.memBlockOffset) := Prog.reads_get _

theorem reads_blockSizeAt (i : Int) :
    Reads (blockSizeAt i) fun s => (s.blockAt i).map (·.blockSize) := Prog.reads_get _

theorem does_setMemBlockOffset (i : Int) (memBlockOffset : Nat) :
    Does (setMemBlockOffset i memBlockOffset)
      (fun s => do
        let b ← s.blockAt i
        s.setBlock i { b with memBlockOffset }) :=
  Prog.does_modify _

theorem does_setBlockSize (i : Int) (blockSize : Nat) :
    Does (setBlockSize i blockSize)
      (fun s => do
        let b ← s.blockAt i
        s.setBlock i { b with blockSize }) :=
  Prog.does_modify _

theorem reads_currSize : Reads currSize fun s => .ok s.currSize := Prog.reads_get _

theorem does_setCurrSize (n : Nat) : Does (setCurrSize n) fun s => .ok { s with currSize := n } :=
  Prog.does_modify _

theorem reads_used : Reads used fun s => .ok s.used := Prog.reads_get _

theorem does_setUsed (n : Nat) : Does (setUsed n) fun s => .ok { s with used := n } :=
  Prog.does_modify _

theorem reads_totalSize : Reads totalSize fun s => .ok s.totalSize := Prog.reads_get _

theorem reads_startPtr : Reads startPtr fun s => .ok s.startPtr := Prog.reads_get _

theorem reads_readHeader (a : Nat) : Reads (readHeader a) fun s => s.readHeader a :=
  Prog.reads_get _

theorem does_writeHeader (a v : Nat) : Does (writeHeader a v) fun s => s.writeHeader a v :=
  Prog.does_modify _

theorem reads_blockAt (i : Int) : Reads (blockAt i) fun s => s.blockAt i := by
  intro s
  simp only [blockAt, (reads_memBlockOffsetAt i).bind, (reads_blockSizeAt i).bind]
  cases s.data.blockAt i <;> rfl

/-- A slot that is written reads back, and the last write counts. -/
theorem blockAt_setBlock {s s' : FreeListAllocator} {c : MemBlock} (h : s.setBlock i c = .ok s') :
    s'.blockAt i = .ok c ∧ ∀ c', s'.setBlock i c' = s.setBlock i c' := by
  unfold FreeListAllocator.setBlock at h
  split at h
  · rename_i hi
    obtain rfl := Except.ok.inj h
    constructor
    · simp only [FreeListAllocator.blockAt, dif_pos hi]
      exact congrArg Except.ok (Vector.getElem_set_self hi.2)
    · intro c'
      simp only [FreeListAllocator.setBlock, dif_pos hi, Vector.set_set]
  · cases h

theorem currSize_setBlock {s s' : FreeListAllocator} {c : MemBlock}
    (h : s.setBlock i c = .ok s') : s'.currSize = s.currSize := by
  unfold FreeListAllocator.setBlock at h
  split at h
  · obtain rfl := Except.ok.inj h
    rfl
  · cases h

/-- A slot can be written exactly if it can be read. -/
theorem blockAt_cases (s : FreeListAllocator) (i : Int) :
    s.blockAt i = .error .outOfBounds ∧ (∀ c, s.setBlock i c = .error .outOfBounds) ∨
      ∃ b, s.blockAt i = .ok b ∧ ∀ c, ∃ s', s.setBlock i c = .ok s' := by
  by_cases hi : 0 ≤ i ∧ i.toNat < freeMemBlocksSize
  · exact Or.inr ⟨_, dif_pos hi, fun c => ⟨_, dif_pos hi⟩⟩
  · exact Or.inl ⟨dif_neg hi, fun c => dif_neg hi⟩

theorem lt_of_blockAt {n : Nat} {b : MemBlock} (h : s.blockAt n = .ok b) :
    n < freeMemBlocksSize := by
  unfold FreeListAllocator.blockAt at h
  split at h
  · rename_i hn
    exact hn.2
  · cases h

/-- Inside the table, the index comes back after `++m_currSize`. -/
theorem sub_add_one {n : Nat} (h : n < freeMemBlocksSize) :
    SizeT.sub (SizeT.add n 1) 1 = n := by
  have := freeMemBlocksSize_eq
  rw [SizeT.add_of_lt (by omega), SizeT.sub_of_le (by omega) (by omega), Nat.add_sub_cancel]

theorem does_setBlock (i : Int) (b : MemBlock) : Does (setBlock i b) fun s => s.setBlock i b := by
  intro s
  simp only [setBlock, (does_setMemBlockOffset i _).bind]
  rcases blockAt_cases s.data i with ⟨hat, hset⟩ | ⟨b₀, hat, hset⟩
  · simp only [hat, hset, error_bind, Except.map]
  · obtain ⟨s₁, hs₁⟩ := hset { b₀ with memBlockOffset := b.memBlockOffset }
    obtain ⟨hat₁, hagain⟩ := blockAt_setBlock hs₁
    simp only [hat, hs₁, ok_bind, does_setBlockSize i _ _, hat₁, hagain]

theorem does_swapBlocks (i j : Int) : Does (swapBlocks i j) fun s => s.swapBlocks i j := by
  intro s
  simp only [swapBlocks, (reads_blockAt _).bind, (does_setBlock _ _).bind, does_setBlock _ _ _,
    FreeListAllocator.swapBlocks]
  cases s.data.blockAt i with
  | error e => rfl
  | ok bi =>
      cases s.data.blockAt j with
      | error e => rfl
      | ok bj =>
          simp only [ok_bind]
          cases s.data.setBlock i bj <;> rfl

theorem does_removePivot (q : Nat) :
    Does (removePivot q)
      (fun s => do
        let s ← s.swapBlocks q (SizeT.sub s.currSize 1)
        return { s with currSize := SizeT.sub s.currSize 1 }) := by
  intro s
  simp only [removePivot, reads_currSize.bind, (does_swapBlocks _ _).bind, does_setCurrSize _ _]
  cases s.data.swapBlocks q (SizeT.sub s.data.currSize 1) <;> rfl

theorem does_fastMergeLoop (q : Nat) : ∀ n,
    Does (fastMergeLoop q n) fun s => FreeListAllocator.fastMergeLoop s q n
  | 0 => fun _ => rfl
  | n + 1 => by
      intro s
      simp only [fastMergeLoop, (reads_blockAt _).bind, FreeListAllocator.fastMergeLoop]
      rcases blockAt_cases s.data n with ⟨hat, -⟩ | ⟨block, hat, hset⟩
      · simp only [hat]
        rfl
      simp only [hat, ok_bind]
      cases s.data.blockAt q with
      | error e => rfl
      | ok pivot =>
          simp only [ok_bind]
          split
          · obtain ⟨s₁, hs₁⟩ := hset
              { block with blockSize := SizeT.add block.blockSize pivot.blockSize }
            simp only [(does_setBlockSize _ _).bind, hat, ok_bind, hs₁, does_removePivot q _]
          split
          · obtain ⟨s₁, hs₁⟩ := hset { block with memBlockOffset := pivot.memBlockOffset }
            obtain ⟨hat₁, hagain⟩ := blockAt_setBlock hs₁
            obtain ⟨s₂, hs₂⟩ := hset ⟨pivot.memBlockOffset,
              SizeT.add block.blockSize pivot.blockSize⟩
            simp only [(does_setMemBlockOffset _ _).bind, (does_setBlockSize _ _).bind, hat,
              ok_bind, hs₁, hat₁, hagain, hs₂, does_removePivot q _]
          · exact does_fastMergeLoop q n s

theorem does_fullMergeLoop : ∀ n,
    Does (fullMergeLoop n) fun s => FreeListAllocator.fullMergeLoop s n
  | 0 => fun _ => rfl
  | n + 1 => by
      intro s
      have hfast : Does (fastMergeMemBlocks n) fun s => s.fastMergeMemBlocks n :=
        does_fastMergeLoop n n
      simp only [fullMergeLoop, hfast.bind, FreeListAllocator.fullMergeLoop]
      cases s.data.fastMergeMemBlocks n with
      | error e => rfl
      | ok s₁ => exact does_fullMergeLoop n { s with data := s₁ }

theorem does_fullMergeMemBlocks :
    Does fullMergeMemBlocks fun s => s.fullMergeMemBlocks := by
  intro s
  rw [fullMergeMemBlocks, reads_currSize.bind]
  exact does_fullMergeLoop s.data.currSize s

theorem reads_shouldFullMerge : Reads shouldFullMerge fun s => .ok s.shouldFullMerge := by
  intro s
  rw [shouldFullMerge, reads_currSize.bind]
  rfl

theorem reads_findLoop (size : Nat) : ∀ n smallestDiff bestIndex,
    Reads (findLoop size n smallestDiff bestIndex)
      fun s => s.findLoop size n smallestDiff bestIndex
  | 0, _, _ => fun _ => rfl
  | n + 1, smallestDiff, bestIndex => by
      intro s
      simp only [findLoop, (reads_blockSizeAt _).bind, FreeListAllocator.findLoop]
      cases s.data.blockAt n with
      | error e => rfl
      | ok block =>
          simp only [Except.map, ok_bind]
          split
          · exact reads_findLoop size n _ _ s
          · exact reads_findLoop size n _ _ s

theorem reads_findFreeMemBlockIndex (size : Nat) :
    Reads (findFreeMemBlockIndex size) fun s => s.findFreeMemBlockIndex size := by
  intro s
  simp only [findFreeMemBlockIndex, reads_currSize.bind, FreeListAllocator.findFreeMemBlockIndex]
  by_cases hzero : s.data.currSize = 0
  · rw [if_pos hzero, if_pos (Or.inl hzero)]
    rfl
  simp only [if_neg hzero, reads_shouldFullMerge.bind]
  by_cases hfull : s.data.shouldFullMerge = true
  · rw [if_pos hfull, if_pos (Or.inr (Or.inl hfull))]
    rfl
  simp only [if_neg hfull, reads_used.bind, reads_totalSize.bind]
  by_cases hused : s.data.used = s.data.totalSize
  · rw [if_pos hused, if_pos (Or.inr (Or.inr hused))]
    rfl
  simp only [if_neg hused, reads_currSize.bind]
  rw [if_neg (by simp [hzero, hfull, hused])]
  exact reads_findLoop size _ _ _ s

theorem does_carve (i : Int) (found : MemBlock) (required : Nat) :
    Does (carve i found required) fun s => s.carve i found required := by
  intro s
  simp only [carve, FreeListAllocator.carve]
  split
  · exact does_setBlock i _ s
  · simp only [reads_currSize.bind, (does_swapBlocks _ _).bind, does_setCurrSize _ _]
    cases s.data.swapBlocks (i - 1) s.data.currSize <;> rfl

theorem does_mergeContiguous (merge : MergePolicy) :
    Does (mergeContiguous merge) fun s => s.mergeContiguous merge := by
  intro s
  cases merge with
  | enableFastMerge =>
      rw [mergeContiguous, reads_currSize.bind]
      exact does_fastMergeLoop _ _ s
  | enableFullMerge => exact does_fullMergeMemBlocks s
  | enableFullMergeIfNoSpace =>
      simp only [mergeContiguous, reads_shouldFullMerge.bind, FreeListAllocator.mergeContiguous]
      split
      · exact does_fullMergeMemBlocks s
      · rfl

/-- `Allocate` alone: it takes the lock, does what it does without one, and
gives the lock back unless it returns `nullptr`. -/
theorem allocate_run (size alignment : Nat) (s : Shared Unit FreeListAllocator)
    (hfree : s.flag () = false) :
    (allocate size alignment).run .spinsForever s =
      (s.data.allocate .none size alignment).map fun r =>
        (r.1, { s with data := r.2 }.setFlag () !r.1.isSome) := by
  by_cases hne : alignment = 0
  · rw [allocate, if_pos hne, FreeListAllocator.allocate, if_pos hne]
    rfl
  simp only [allocate, FreeListAllocator.allocate, if_neg hne]
  simp only [Prog.acquire, Prog.lock_bind, Prog.ret_bind, Prog.run, hfree,
    Bool.false_eq_true, if_false, (reads_findFreeMemBlockIndex _).bind,
    FreeListAllocator.lock, pure_bind, Shared.setFlag_data]
  cases s.data.findFreeMemBlockIndex (FreeListAllocator.requiredSize size alignment) with
  | error e => rfl
  | ok k =>
      simp only [ok_bind]
      split
      · rfl
      · simp only [(reads_blockAt _).bind, Shared.setFlag_data]
        cases s.data.blockAt k with
        | error e => rfl
        | ok found =>
            simp only [ok_bind, reads_startPtr.bind, (does_carve _ _ _).bind, Shared.setFlag_data]
            cases s.data.carve k found _ with
            | error e => rfl
            | ok s₁ =>
                simp only [ok_bind, reads_used.bind, (does_setUsed _).bind,
                  (does_writeHeader _ _).bind, Prog.release, Prog.unlock_bind, Prog.ret_bind]
                cases FreeListAllocator.writeHeader _ _ _ with
                | error e => rfl
                | ok s₂ =>
                    exact congrArg Except.ok
                      (Prod.ext rfl (Shared.setFlag_data_setFlag s () true ..))

/-- Likewise `Free`, unless it returns `false`. -/
theorem free_run (merge : MergePolicy) (ptr : Nat) (s : Shared Unit FreeListAllocator)
    (hfree : s.flag () = false) :
    (free merge ptr).run .spinsForever s =
      (s.data.free .none merge ptr).map fun r =>
        (r.1, { s with data := r.2 }.setFlag () !r.1) := by
  cases hfull : s.data.shouldFullMerge with
  | true =>
      simp only [free, reads_startPtr.bind, Prog.acquire, Prog.lock_bind, Prog.ret_bind, Prog.run,
        hfree, Bool.false_eq_true, if_false, reads_shouldFullMerge.bind, FreeListAllocator.free,
        FreeListAllocator.lock, pure_bind, Shared.setFlag_data, hfull, if_true]
      rfl
  | false =>
      simp only [free, reads_startPtr.bind, Prog.acquire, Prog.lock_bind, Prog.ret_bind, Prog.run,
        hfree, Bool.false_eq_true, if_false, reads_shouldFullMerge.bind, FreeListAllocator.free,
        FreeListAllocator.lock, pure_bind, Shared.setFlag_data, hfull, reads_currSize.bind,
        (does_setBlock _ _).bind]
      rcases blockAt_cases s.data s.data.currSize with ⟨-, hset⟩ | ⟨b, hat, hset⟩
      · simp only [hset]
        rfl
      have hn := lt_of_blockAt hat
      obtain ⟨t, hs₁, -⟩ := FreeListAllocator.setBlock_ok (s := s.data) hn
        ⟨SizeT.uint32OfInt ((FreeListAllocator.allocationHeader ptr : Int) - s.data.startPtr), 0⟩
      -- the state after the push
      generalize hpushed : ({ s.data.withTable t s.data.currSize with
        currSize := SizeT.add (s.data.withTable t s.data.currSize).currSize 1 } :
          FreeListAllocator) = pushed
      have hidx : SizeT.sub (SizeT.add (s.data.withTable t s.data.currSize).currSize 1) 1
          = s.data.currSize := sub_add_one hn
      have hcur : pushed.currSize = SizeT.add (s.data.withTable t s.data.currSize).currSize 1 := by
        rw [← hpushed]
      have hat₁ : pushed.blockAt s.data.currSize = .ok ⟨SizeT.uint32OfInt
          ((FreeListAllocator.allocationHeader ptr : Int) - s.data.startPtr), 0⟩ := by
        rw [← hpushed]
        exact (blockAt_setBlock hs₁).1
      simp only [hs₁, ok_bind, reads_currSize.bind, (does_setCurrSize _).bind,
        (reads_readHeader _).bind, hpushed]
      cases hread : pushed.readHeader (FreeListAllocator.allocationHeader ptr) with
      | error e => rfl
      | ok blockSize =>
          simp only [ok_bind, (does_setBlockSize _ _).bind, hcur, hidx, hat₁]
          -- the second write of the slot, then the read of what was written
          cases hs₂ : pushed.setBlock s.data.currSize ⟨SizeT.uint32OfInt
              ((FreeListAllocator.allocationHeader ptr : Int) - s.data.startPtr), blockSize⟩ with
          | error e => rfl
          | ok s₂ =>
              have hidx₂ : SizeT.sub s₂.currSize 1 = s.data.currSize := by
                rw [currSize_setBlock hs₂, hcur]
                exact hidx
              simp only [ok_bind, reads_used.bind, reads_currSize.bind, hidx₂,
                (reads_blockSizeAt _).bind, (blockAt_setBlock hs₂).1, Except.map,
                (does_setUsed _).bind, (does_mergeContiguous merge).bind]
              cases FreeListAllocator.mergeContiguous _ merge with
              | error e => rfl
              | ok s₃ =>
                  exact congrArg Except.ok
                    (Prod.ext rfl (Shared.setFlag_data_setFlag s () true ..))

end Alone

/-! ## What they leave alone

`m_start_ptr` is never written, and the lock not touched between its two
ends: what linearizability asks for. -/

section Guarded

/-- The members no function writes; the flag of the lock is not the
functions' to write but the lock's. -/
def constants (s : FreeListAllocator) : Nat × Spinlock := (s.startPtr, s.spinlock)

/-- Code that accesses no lock and leaves the constant members alone. -/
abbrev Keeps {α : Type} (c : Code α) : Prop := c.Keeps constants

theorem constants_setBlock {s s' : FreeListAllocator} {i : Int} {c : MemBlock}
    (h : s.setBlock i c = .ok s') : constants s' = constants s := by
  unfold FreeListAllocator.setBlock at h
  split at h
  · obtain rfl := Except.ok.inj h
    rfl
  · cases h

theorem keeps_blockAt (i : Int) : Keeps (blockAt i) :=
  (Prog.keeps_get _).bind fun _ => (Prog.keeps_get _).bind fun _ => trivial

theorem keeps_setMemBlockOffset (i : Int) (n : Nat) : Keeps (setMemBlockOffset i n) := by
  refine Prog.keeps_modify fun s s' h => ?_
  obtain ⟨b, -, hset⟩ := bind_eq_ok.mp h
  exact constants_setBlock hset

theorem keeps_setBlockSize (i : Int) (n : Nat) : Keeps (setBlockSize i n) := by
  refine Prog.keeps_modify fun s s' h => ?_
  obtain ⟨b, -, hset⟩ := bind_eq_ok.mp h
  exact constants_setBlock hset

/-- A write of another data member. -/
theorem keeps_member {f : FreeListAllocator → FreeListAllocator}
    (h : ∀ s, constants (f s) = constants s) : Keeps (.modify fun s => .ok (f s)) := by
  refine Prog.keeps_modify fun s s' hs' => ?_
  obtain rfl := Except.ok.inj hs'
  exact h s

theorem keeps_setCurrSize (n : Nat) : Keeps (setCurrSize n) := keeps_member fun _ => rfl

theorem keeps_setUsed (n : Nat) : Keeps (setUsed n) := keeps_member fun _ => rfl

theorem keeps_writeHeader (a v : Nat) : Keeps (writeHeader a v) := by
  refine Prog.keeps_modify fun s s' h => ?_
  unfold FreeListAllocator.writeHeader at h
  split at h
  · obtain rfl := Except.ok.inj h
    rfl
  · cases h

theorem keeps_setBlock (i : Int) (b : MemBlock) : Keeps (setBlock i b) :=
  (keeps_setMemBlockOffset i _).bind fun _ => keeps_setBlockSize i _

theorem keeps_swapBlocks (i j : Int) : Keeps (swapBlocks i j) :=
  (keeps_blockAt i).bind fun bi => (keeps_blockAt j).bind fun bj =>
    (keeps_setBlock i bj).bind fun _ => keeps_setBlock j bi

theorem keeps_removePivot (q : Nat) : Keeps (removePivot q) :=
  (Prog.keeps_get _).bind fun _ => (keeps_swapBlocks _ _).bind fun _ =>
    (Prog.keeps_get _).bind fun _ => keeps_setCurrSize _

theorem keeps_fastMergeLoop (q : Nat) : ∀ n, Keeps (fastMergeLoop q n)
  | 0 => trivial
  | n + 1 => by
      refine (keeps_blockAt n).bind fun block => (keeps_blockAt q).bind fun pivot => ?_
      split
      · exact (keeps_setBlockSize n _).bind fun _ => keeps_removePivot q
      split
      · exact (keeps_setMemBlockOffset n _).bind fun _ => (keeps_setBlockSize n _).bind fun _ =>
          keeps_removePivot q
      · exact keeps_fastMergeLoop q n

theorem keeps_fullMergeLoop : ∀ n, Keeps (fullMergeLoop n)
  | 0 => trivial
  | n + 1 => (keeps_fastMergeLoop n n).bind fun _ => keeps_fullMergeLoop n

theorem keeps_fullMergeMemBlocks : Keeps fullMergeMemBlocks :=
  (Prog.keeps_get _).bind fun n => keeps_fullMergeLoop n

theorem keeps_shouldFullMerge : Keeps shouldFullMerge := (Prog.keeps_get _).bind fun _ => trivial

theorem keeps_mergeContiguous (merge : MergePolicy) : Keeps (mergeContiguous merge) := by
  cases merge with
  | enableFastMerge => exact (Prog.keeps_get _).bind fun n => keeps_fastMergeLoop _ _
  | enableFullMerge => exact keeps_fullMergeMemBlocks
  | enableFullMergeIfNoSpace =>
      refine keeps_shouldFullMerge.bind fun full => ?_
      split
      · exact keeps_fullMergeMemBlocks
      · trivial

theorem keeps_findLoop (size : Nat) : ∀ n smallestDiff bestIndex,
    Keeps (findLoop size n smallestDiff bestIndex)
  | 0, _, _ => trivial
  | n + 1, smallestDiff, bestIndex => by
      refine (Prog.keeps_get _).bind fun blockSize => ?_
      split
      · exact keeps_findLoop size n _ _
      · exact keeps_findLoop size n _ _

theorem keeps_findFreeMemBlockIndex (size : Nat) : Keeps (findFreeMemBlockIndex size) := by
  refine (Prog.keeps_get _).bind fun last => ?_
  split
  · trivial
  refine keeps_shouldFullMerge.bind fun full => ?_
  split
  · trivial
  refine (Prog.keeps_get _).bind fun used => (Prog.keeps_get _).bind fun total => ?_
  split
  · trivial
  · exact (Prog.keeps_get _).bind fun last => keeps_findLoop size _ _ _

theorem keeps_carve (i : Int) (found : MemBlock) (required : Nat) :
    Keeps (carve i found required) := by
  unfold carve
  dsimp only
  split
  · exact keeps_setBlock i _
  · exact (Prog.keeps_get _).bind fun last => (keeps_swapBlocks _ _).bind fun _ =>
      (Prog.keeps_get _).bind fun last => keeps_setCurrSize _

theorem guarded_allocate (size alignment : Nat) :
    (allocate size alignment).Guarded () constants := by
  unfold allocate
  split
  · trivial
  refine ⟨rfl, (keeps_findFreeMemBlockIndex _).sealed_bind fun k => ?_⟩
  split
  · trivial
  · exact (keeps_blockAt k).sealed_bind fun found => (Prog.keeps_get _).sealed_bind fun start =>
      (keeps_carve k found _).sealed_bind fun _ => (Prog.keeps_get _).sealed_bind fun before =>
        (keeps_setUsed _).sealed_bind fun _ => (keeps_writeHeader _ _).sealed_bind fun _ =>
          ⟨rfl, _, rfl⟩

/-- `Free` reads `m_start_ptr` first, then takes the lock. -/
theorem guarded_free (merge : MergePolicy) (ptr : Nat) :
    (free merge ptr).Guarded () constants := by
  have hstart : ∀ s s', constants s = constants s' → s.startPtr = s'.startPtr :=
    fun _ _ heq => congrArg Prod.fst heq
  refine ⟨fun s s' heq => by simp only [hstart s s' heq], fun s => ⟨rfl, ?_⟩⟩
  refine keeps_shouldFullMerge.sealed_bind fun full => ?_
  split
  · trivial
  · exact (Prog.keeps_get _).sealed_bind fun last => (keeps_setBlock _ _).sealed_bind fun _ =>
      (Prog.keeps_get _).sealed_bind fun last => (keeps_setCurrSize _).sealed_bind fun _ =>
        (Prog.keeps_get _).sealed_bind fun last => (Prog.keeps_get _).sealed_bind fun size =>
          (keeps_setBlockSize _ _).sealed_bind fun _ => (Prog.keeps_get _).sealed_bind fun before =>
            (Prog.keeps_get _).sealed_bind fun last => (Prog.keeps_get _).sealed_bind fun size =>
              (keeps_setUsed _).sealed_bind fun _ =>
                (keeps_mergeContiguous merge).sealed_bind fun _ => ⟨rfl, _, rfl⟩

end Guarded

end FreeListAccesses

end MemAlloc
