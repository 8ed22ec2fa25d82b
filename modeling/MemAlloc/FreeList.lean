import MemAlloc.Coalesce
import MemAlloc.Extent
import MemAlloc.Interface

/-!
# `FreeListAllocator`

The class as the code computes it. The table `m_freeMemBlocks` is a
`Vector` of the shipped capacity; every access goes through `blockAt`,
`setBlock` or `swapBlocks`, which fail with `Stuck.outOfBounds` exactly
when the index lies outside the table. `mem` is the memory, where `Allocate`
stores and `Free` reads the block headers, and `mapped` the part of it that
can be accessed: the arena, and what else the process has.

Assertions are compiled out. The merge and the thread policy are compile
time constants of the source; here they are arguments, and
`cMergePolicy`/`cFreeListThreadPolicy` are the shipped values.
-/

namespace MemAlloc

inductive MergePolicy where
  | enableFastMerge
  | enableFullMerge
  | enableFullMergeIfNoSpace
deriving DecidableEq, Repr

def cMergePolicy : MergePolicy := .enableFullMergeIfNoSpace

def cFreeListThreadPolicy : ThreadPolicy := .none

def cL1Size : Nat := 32768

def cFreeMemBlocksSize : Nat := cL1Size

/-- `sizeof(AllocationHeader)`. -/
def cAllocationHeaderSize : Nat := 8

/-- The extent of `m_freeMemBlocks`: what is left of the 32 KiB after
`sizeof(AllocatorInterface)` (two counters and the virtual table pointer),
`m_start_ptr`, `m_currSize` and `m_spinlock`, in blocks of 16 bytes. -/
def freeMemBlocksSize : Nat := (cFreeMemBlocksSize - 24 - 8 - 8 - 1) / 16

theorem freeMemBlocksSize_eq : freeMemBlocksSize = 2045 := by decide

structure MemBlock where
  memBlockOffset : Nat := 0
  blockSize : Nat := 0
deriving DecidableEq, Repr

structure FreeListAllocator extends AllocatorInterface where
  startPtr : Nat := nullptr
  currSize : Nat := 0
  spinlock : Spinlock := {}
  freeMemBlocks : Vector MemBlock freeMemBlocksSize := Vector.replicate _ {}
  mem : Memory
  mapped : AddressSpace := fun _ => false

namespace MemBlock

/-- The part of the arena a block stands for. -/
def extent (b : MemBlock) : Extent := ⟨b.memBlockOffset, b.blockSize⟩

/-- The two tests of `FastMergeMemBlocks` on a block and the pivot. -/
def touches (b pivot : MemBlock) : Bool :=
  SizeT.add b.memBlockOffset b.blockSize == pivot.memBlockOffset ||
    b.memBlockOffset == SizeT.add pivot.memBlockOffset pivot.blockSize

/-- What the two branches make of a block that touches the pivot. -/
def join (b pivot : MemBlock) : MemBlock :=
  if SizeT.add b.memBlockOffset b.blockSize == pivot.memBlockOffset then
    { b with blockSize := SizeT.add b.blockSize pivot.blockSize }
  else
    { memBlockOffset := pivot.memBlockOffset
      blockSize := SizeT.add b.blockSize pivot.blockSize }

end MemBlock

namespace FreeListAllocator

variable (s : FreeListAllocator)

/-! ## The table -/

/-- `m_freeMemBlocks[i]`, read. -/
def blockAt (i : Int) : Except Stuck MemBlock :=
  if h : 0 ≤ i ∧ i.toNat < freeMemBlocksSize then
    .ok (s.freeMemBlocks.get ⟨i.toNat, h.2⟩)
  else .error .outOfBounds

/-- `m_freeMemBlocks[i] = b`. -/
def setBlock (i : Int) (b : MemBlock) : Except Stuck FreeListAllocator :=
  if h : 0 ≤ i ∧ i.toNat < freeMemBlocksSize then
    .ok { s with freeMemBlocks := s.freeMemBlocks.set i.toNat b h.2 }
  else .error .outOfBounds

/-- `std::swap(m_freeMemBlocks[i], m_freeMemBlocks[j])`. -/
def swapBlocks (i j : Int) : Except Stuck FreeListAllocator := do
  let bi ← s.blockAt i
  let bj ← s.blockAt j
  let s ← s.setBlock i bj
  s.setBlock j bi

/-- The free blocks: the first `m_currSize` slots of the table. -/
def freeBlocks : List MemBlock := s.freeMemBlocks.toList.take s.currSize

/-- `ShouldFullMerge`. -/
def shouldFullMerge : Bool := s.currSize == freeMemBlocksSize

/-! ## The lock -/

/-- The `switch` on the thread policy at the head of an operation. -/
def lock (thread : ThreadPolicy) : Except Stuck FreeListAllocator :=
  match thread with
  | .enableSpinLock => do
      let spinlock ← s.spinlock.lock
      return { s with spinlock }
  | .none => return s

/-- The `switch` at its end. -/
def unlock (thread : ThreadPolicy) : FreeListAllocator :=
  match thread with
  | .enableSpinLock => { s with spinlock := s.spinlock.unlock }
  | .none => s

/-! ## Construction, `Init` and `Reset` -/

/-- The constructor: no arena, all slots zero. -/
def construct (totalSize : Nat) (mem : Memory) : FreeListAllocator := { totalSize, mem }

def reset : FreeListAllocator :=
  { s with
    used := 0
    freeMemBlocks := s.freeMemBlocks.set 0 ⟨0, SizeT.uint32 s.totalSize⟩ (by decide)
    currSize := 1 }

/-- `Init()`; `arena` is what `malloc(m_totalSize)` returns. -/
def init (arena : Nat) : FreeListAllocator :=
  reset { s with startPtr := arena, mapped := s.mapped.withArena arena s.totalSize }

/-! ## Merging -/

/-- The loop of `FastMergeMemBlocks`, for the indices below the last
argument. -/
def fastMergeLoop (s : FreeListAllocator) (pivotIndex : Nat) : Nat → Except Stuck FreeListAllocator
  | 0 => .ok s
  | i + 1 => do
      let block ← s.blockAt i
      let pivotMemBlock ← s.blockAt pivotIndex
      if SizeT.add block.memBlockOffset block.blockSize == pivotMemBlock.memBlockOffset then
        let s ← s.setBlock i
          { block with blockSize := SizeT.add block.blockSize pivotMemBlock.blockSize }
        let s ← s.swapBlocks pivotIndex (SizeT.sub s.currSize 1)
        return { s with currSize := SizeT.sub s.currSize 1 }
      else if block.memBlockOffset
          == SizeT.add pivotMemBlock.memBlockOffset pivotMemBlock.blockSize then
        let s ← s.setBlock i
          { memBlockOffset := pivotMemBlock.memBlockOffset
            blockSize := SizeT.add block.blockSize pivotMemBlock.blockSize }
        let s ← s.swapBlocks pivotIndex (SizeT.sub s.currSize 1)
        return { s with currSize := SizeT.sub s.currSize 1 }
      else fastMergeLoop s pivotIndex i

def fastMergeMemBlocks (pivotIndex : Nat) : Except Stuck FreeListAllocator :=
  fastMergeLoop s pivotIndex pivotIndex

/-- The loop of `FullMergeMemBlocks`, for the pivots below the last
argument. -/
def fullMergeLoop (s : FreeListAllocator) : Nat → Except Stuck FreeListAllocator
  | 0 => .ok s
  | i + 1 => do
      let s ← s.fastMergeMemBlocks i
      fullMergeLoop s i

def fullMergeMemBlocks : Except Stuck FreeListAllocator := fullMergeLoop s s.currSize

/-- `IsFullyMerged`; the comparisons short-circuit, slot 0 always exists. -/
def isFullyMerged : Bool :=
  s.currSize == 1 && (s.freeMemBlocks.get ⟨0, by decide⟩).memBlockOffset == 0 &&
    (s.freeMemBlocks.get ⟨0, by decide⟩).blockSize == s.totalSize

/-! ## Searching -/

/-- The loop of `FindFreeMemBlockIndex`, for the indices below the third
argument. The candidate's difference is taken from `static_cast<int>` of
its size, the stored one from the size itself. -/
def findLoop (size : Nat) : Nat → Nat → Int → Except Stuck Int
  | 0, _, bestIndex => .ok bestIndex
  | i + 1, smallestDiff, bestIndex => do
      let block ← s.blockAt i
      if block.blockSize ≥ size ∧
          SizeT.ofInt (SizeT.int32 block.blockSize - size) < smallestDiff then
        findLoop size i (SizeT.sub block.blockSize size) i
      else findLoop size i smallestDiff bestIndex

def findFreeMemBlockIndex (size : Nat) : Except Stuck Int :=
  if s.currSize = 0 ∨ s.shouldFullMerge ∨ s.used = s.totalSize then .ok (-1)
  else s.findLoop size s.currSize SizeT.max (-1)

/-! ## Headers -/

/-- `PTR_TO_CHAR(ptr) - cAllocationHeaderSize`; in front of a pointer below
the size of a header, the addresses wrap around. -/
def allocationHeader (ptr : Nat) : Nat :=
  if cAllocationHeaderSize ≤ ptr then ptr - cAllocationHeaderSize
  else SizeT.sub ptr cAllocationHeaderSize

/-- `allocationHeader->blockSize`, read. -/
def readHeader (allocationHeader : Nat) : Except Stuck Nat :=
  if s.mapped.hasWord allocationHeader then .ok (s.mem.readWord allocationHeader)
  else .error .unmapped

/-- `allocationHeader->blockSize = blockSize`. -/
def writeHeader (allocationHeader blockSize : Nat) : Except Stuck FreeListAllocator :=
  if s.mapped.hasWord allocationHeader then
    .ok { s with mem := s.mem.writeWord allocationHeader blockSize }
  else .error .unmapped

/-! ## `Allocate` and `Free` -/

/-- `padding` in `Allocate`, for an alignment that is not 0. -/
def padding (size alignment : Nat) : Nat :=
  SizeT.sub alignment (SizeT.add cAllocationHeaderSize size % alignment)

/-- `requiredSize` in `Allocate`. -/
def requiredSize (size alignment : Nat) : Nat :=
  SizeT.add (SizeT.add cAllocationHeaderSize (SizeT.uint32 size)) (padding size alignment)

/-- `Allocate`'s branch on `restSize`: the found block keeps its rest, or,
on an exact fit, is removed. -/
def carve (freeMemBlockIndex : Int) (found : MemBlock) (required : Nat) :
    Except Stuck FreeListAllocator :=
  let restSize := SizeT.sub found.blockSize required
  if restSize > 0 then
    s.setBlock freeMemBlockIndex
      { memBlockOffset := SizeT.add found.memBlockOffset (SizeT.uint32 required)
        blockSize := SizeT.uint32 restSize }
  else do
    let s ← s.swapBlocks (freeMemBlockIndex - 1) s.currSize
    return { s with currSize := SizeT.sub s.currSize 1 }

/-- `Allocate`; `none` is the early `return nullptr`. Computing the padding
divides by the alignment. -/
def allocate (thread : ThreadPolicy) (size alignment : Nat) :
    Except Stuck (Option Nat × FreeListAllocator) :=
  if alignment = 0 then .error .dividesByZero
  else do
    let required := requiredSize size alignment
    let s ← s.lock thread
    let freeMemBlockIndex ← s.findFreeMemBlockIndex required
    if freeMemBlockIndex = -1 then
      return (none, s)
    let found ← s.blockAt freeMemBlockIndex
    let freeMemBlock := s.startPtr + found.memBlockOffset
    let s ← s.carve freeMemBlockIndex found required
    let resultPtr := freeMemBlock + cAllocationHeaderSize
    let s := { s with used := SizeT.add s.used required }
    let s ← s.writeHeader freeMemBlock required
    return (some resultPtr, s.unlock thread)

/-- `Free`'s `switch` on the merge policy. -/
def mergeContiguous (merge : MergePolicy) : Except Stuck FreeListAllocator :=
  match merge with
  | .enableFastMerge => s.fastMergeMemBlocks (s.currSize - 1)
  | .enableFullMerge => s.fullMergeMemBlocks
  | .enableFullMergeIfNoSpace =>
      if s.shouldFullMerge then s.fullMergeMemBlocks else .ok s

def free (thread : ThreadPolicy) (merge : MergePolicy) (ptr : Nat) :
    Except Stuck (Bool × FreeListAllocator) := do
  let allocationHeader := allocationHeader ptr
  let freeMemBlock : MemBlock :=
    { memBlockOffset := SizeT.uint32OfInt ((allocationHeader : Int) - s.startPtr), blockSize := 0 }
  let s ← s.lock thread
  if s.shouldFullMerge then
    return (false, s)
  let s ← s.setBlock s.currSize freeMemBlock
  let s := { s with currSize := SizeT.add s.currSize 1 }
  let blockSize ← s.readHeader allocationHeader
  let s ← s.setBlock (SizeT.sub s.currSize 1) { freeMemBlock with blockSize }
  let s := { s with used := SizeT.sub s.used blockSize }
  let s ← s.mergeContiguous merge
  return (true, s.unlock thread)

end FreeListAllocator

end MemAlloc
