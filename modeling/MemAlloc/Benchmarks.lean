import MemAlloc.Bump
import MemAlloc.FreeListOps
import MemAlloc.PoolNesting
import MemAlloc.TestLoops

/-!
# The benchmarks

Each `BM_` function makes an allocator and, in a loop of as many iterations
as the framework asks for, allocates one byte and frees it; `BM_LinerAlloc`
does not free, and does not call `Init` either.

The pools and the stack are after every iteration as before it. The free
list is not: from the second iteration on the block fits exactly, and
`Allocate` then swaps the rest of the arena out of the list, or back into it
(`rounds_alternate`).
-/

namespace MemAlloc

/-! ## `BM_FreeListAlloc` -/

namespace FreeListBenchmark

open FreeListAllocator

/-- The loop: the pointers, in order, and the allocator. -/
def rounds (size alignment : Nat) : Nat → FreeListAllocator →
    Except Stuck (List (Option Nat) × FreeListAllocator)
  | 0, allocator => .ok ([], allocator)
  | iterations + 1, allocator => do
      let (p, allocator) ← allocator.allocate cFreeListThreadPolicy size alignment
      let (_, allocator) ← allocator.free cFreeListThreadPolicy cMergePolicy (p.getD nullptr)
      let (ps, allocator) ← rounds size alignment iterations allocator
      return (p :: ps, allocator)

/-! ### The first three slots -/

section

variable (b₀ b₁ b₂ c : MemBlock)

theorem getElem_threeSlots {i : Nat} (hi : i < freeMemBlocksSize) :
    (threeSlots b₀ b₁ b₂)[i]
      = if i = 0 then b₀ else if i = 1 then b₁ else if i = 2 then b₂ else {} := by
  have hcap := freeMemBlocksSize_eq
  rw [threeSlots, Vector.getElem_setIfInBounds, Vector.getElem_setIfInBounds,
    Vector.getElem_setIfInBounds, Vector.getElem_replicate]
  grind

variable (s : FreeListAllocator) (n : Nat)

theorem blockAt_slots : (s.withTable (threeSlots b₀ b₁ b₂) n).blockAt 0 = .ok b₀ ∧
    (s.withTable (threeSlots b₀ b₁ b₂) n).blockAt 1 = .ok b₁ ∧
    (s.withTable (threeSlots b₀ b₁ b₂) n).blockAt 2 = .ok b₂ := by
  have hcap := freeMemBlocksSize_eq
  refine ⟨?_, ?_, ?_⟩ <;> simp only [blockAt, hcap, withTable] <;> simp
  · exact getElem_threeSlots b₀ b₁ b₂ (by omega)
  · exact getElem_threeSlots b₀ b₁ b₂ (by omega)
  · exact getElem_threeSlots b₀ b₁ b₂ (by omega)

theorem setBlock_slots :
    (s.withTable (threeSlots b₀ b₁ b₂) n).setBlock 0 c
      = .ok (s.withTable (threeSlots c b₁ b₂) n) ∧
    (s.withTable (threeSlots b₀ b₁ b₂) n).setBlock 1 c
      = .ok (s.withTable (threeSlots b₀ c b₂) n) ∧
    (s.withTable (threeSlots b₀ b₁ b₂) n).setBlock 2 c
      = .ok (s.withTable (threeSlots b₀ b₁ c) n) := by
  have hcap := freeMemBlocksSize_eq
  refine ⟨?_, ?_, ?_⟩ <;> simp only [setBlock, hcap, withTable] <;> simp <;> ext i hi <;>
    simp only [Vector.getElem_set, getElem_threeSlots] <;> grind

theorem swapBlocks_slots : (s.withTable (threeSlots b₀ b₁ b₂) n).swapBlocks 0 2
    = .ok (s.withTable (threeSlots b₂ b₁ b₀) n) := by
  obtain ⟨hfirst, -, hlast⟩ := blockAt_slots b₀ b₁ b₂ s n
  rw [swapBlocks, hfirst, ok_bind, hlast, ok_bind, (setBlock_slots b₀ b₁ b₂ b₂ s n).1, ok_bind]
  exact (setBlock_slots b₂ b₁ b₂ b₀ s n).2.2

theorem freeBlocks_slots : (s.withTable (threeSlots b₀ b₁ b₂) 1).freeBlocks = [b₀] ∧
    (s.withTable (threeSlots b₀ b₁ b₂) 2).freeBlocks = [b₀, b₁] := by
  have hcap := freeMemBlocksSize_eq
  constructor <;> rw [freeBlocks_withTable] <;> apply List.ext_getElem
  · simp [hcap]
  · intro i hi hi'
    obtain rfl : i = 0 := by simpa using hi'
    rw [List.getElem_take, Vector.getElem_toList, getElem_threeSlots]
    simp
  · simp [hcap]
  · intro i hi hi'
    have hlt : i < 2 := hi'
    rw [List.getElem_take, Vector.getElem_toList, getElem_threeSlots]
    obtain rfl | rfl : i = 0 ∨ i = 1 := by omega
    · simp
    · simp

end

/-! ### One round -/

variable {arena T r used n size alignment : Nat} {b₀ b₁ b₂ : MemBlock} {s : FreeListAllocator}

/-- The allocator between two calls: the first three slots of the table, how
many of them are free blocks, and room for a header at the arena. -/
structure At (arena T : Nat) (b₀ b₁ b₂ : MemBlock) (n used : Nat) (s : FreeListAllocator) :
    Prop where
  start : s.startPtr = arena
  total : s.totalSize = T
  table : s.freeMemBlocks = threeSlots b₀ b₁ b₂
  count : s.currSize = n
  used : s.used = used
  word : s.mapped.hasWord arena = true

theorem At.eq (h : At arena T b₀ b₁ b₂ n used s) : s = s.withTable (threeSlots b₀ b₁ b₂) n := by
  rw [withTable, ← h.table, ← h.count]

/-- The first round carves the block off the one free block. -/
theorem At.allocate_first (h : At arena T ⟨0, T⟩ b₁ b₂ 1 0 s) (hsmall : T < 2 ^ 32)
    (hne : alignment ≠ 0) (hr : requiredSize size alignment = r) (hpos : 0 < r) (hlt : r < T) :
    ∃ s', s.allocate .none size alignment = .ok (some (arena + 8), s') ∧
      At arena T ⟨r, T - r⟩ b₁ b₂ 1 r s' ∧ s'.mem.readWord arena = r := by
  have hcap := freeMemBlocksSize_eq
  have hfull : s.shouldFullMerge = false := by simp [shouldFullMerge, h.count, hcap]
  have hblock : s.blockAt (0 : Nat) = .ok ⟨0, T⟩ := by
    rw [h.eq]
    exact (blockAt_slots _ _ _ s 1).1
  have hfind : s.findFreeMemBlockIndex r = .ok ((0 : Nat) : Int) := by
    rw [findFreeMemBlockIndex, if_neg (by simp [h.count, h.used, h.total, hfull]; omega), h.count,
      findLoop, hblock, ok_bind, if_pos ⟨Nat.le_of_lt hlt, narrowed_lt_max hpos (Nat.le_of_lt hlt)
        hsmall⟩]
    rfl
  have hrest : SizeT.sub T r = T - r := SizeT.sub_of_le (Nat.le_of_lt hlt) (by omega)
  have hcarve : s.carve (0 : Nat) ⟨0, T⟩ r
      = .ok (s.withTable (threeSlots ⟨r, T - r⟩ b₁ b₂) 1) := by
    simp only [carve, hrest]
    rw [if_pos (by omega), SizeT.uint32_of_lt (show r < 2 ^ 32 by omega),
      SizeT.uint32_of_lt (show T - r < 2 ^ 32 by omega), SizeT.add_of_lt (by omega), Nat.zero_add]
    conv_lhs => rw [h.eq]
    exact (setBlock_slots _ _ _ _ s 1).1
  have hblocks : s.freeBlocks[0]? = some ⟨0, T⟩ := by
    rw [h.eq, (freeBlocks_slots _ _ _ s).1]
    rfl
  subst hr
  refine ⟨s.granted (threeSlots ⟨requiredSize size alignment, _⟩ b₁ b₂) 1 (s.startPtr + 0)
    (requiredSize size alignment), ?_, ⟨h.start, h.total, rfl, rfl, ?_, h.word⟩, ?_⟩
  · rw [allocate_carved hne hfind hblocks hcarve, if_pos (by rw [h.start]; exact h.word), h.start]
    rfl
  · show SizeT.add s.used _ = _
    rw [h.used, SizeT.add_of_lt (by omega), Nat.zero_add]
  · rw [← h.start]
    exact Memory.readWord_writeWord (by omega)

/-- From then on the block fits exactly: its neighbour in the table is swapped
with the slot past the list. -/
theorem At.allocate_next (h : At arena T b₀ ⟨0, r⟩ b₂ 2 0 s) (hsmall : r < T)
    (hT : T < 2 ^ 32) (hne : alignment ≠ 0) (hr : requiredSize size alignment = r)
    (hpos : 0 < r) :
    ∃ s', s.allocate .none size alignment = .ok (some (arena + 8), s') ∧
      At arena T b₂ ⟨0, r⟩ b₀ 1 r s' ∧ s'.mem.readWord arena = r := by
  have hcap := freeMemBlocksSize_eq
  have hfull : s.shouldFullMerge = false := by simp [shouldFullMerge, h.count, hcap]
  have hblock : s.blockAt (1 : Nat) = .ok ⟨0, r⟩ := by
    rw [h.eq]
    exact (blockAt_slots _ _ _ s 2).2.1
  have hblock₀ : s.blockAt (0 : Nat) = .ok b₀ := by
    rw [h.eq]
    exact (blockAt_slots _ _ _ s 2).1
  have hzero : SizeT.sub r r = 0 := by
    unfold SizeT.sub SizeT.ofInt
    omega
  have hfind : s.findFreeMemBlockIndex r = .ok ((1 : Nat) : Int) := by
    rw [findFreeMemBlockIndex, if_neg (by simp [h.count, h.used, h.total, hfull]; omega), h.count,
      findLoop, hblock, ok_bind, if_pos ⟨Nat.le_refl r, narrowed_lt_max hpos (Nat.le_refl r)
        (show r < 2 ^ 32 by omega)⟩, findLoop, hblock₀, ok_bind, if_neg (by rw [hzero]; omega)]
    rfl
  have hcarve : s.carve (1 : Nat) ⟨0, r⟩ r
      = .ok (s.withTable (threeSlots b₂ ⟨0, r⟩ b₀) 1) := by
    have hswap : s.swapBlocks (((1 : Nat) : Int) - 1) s.currSize
        = .ok (s.withTable (threeSlots b₂ ⟨0, r⟩ b₀) 2) := by
      rw [h.count]
      conv_lhs => rw [h.eq]
      exact swapBlocks_slots _ _ _ s 2
    have hsub : SizeT.sub 2 1 = 1 := SizeT.sub_of_le (by decide) (by decide)
    simp only [carve, hzero, if_neg (Nat.lt_irrefl 0), hswap, ok_bind, withTable, hsub]
    rfl
  have hblocks : s.freeBlocks[1]? = some ⟨0, r⟩ := by
    rw [h.eq, (freeBlocks_slots _ _ _ s).2]
    rfl
  subst hr
  refine ⟨s.granted (threeSlots b₂ ⟨0, requiredSize size alignment⟩ b₀) 1 (s.startPtr + 0)
    (requiredSize size alignment), ?_, ⟨h.start, h.total, rfl, rfl, ?_, h.word⟩, ?_⟩
  · rw [allocate_carved hne hfind hblocks hcarve, if_pos (by rw [h.start]; exact h.word), h.start]
    rfl
  · show SizeT.add s.used _ = _
    rw [h.used, SizeT.add_of_lt (by omega), Nat.zero_add]
  · rw [← h.start]
    exact Memory.readWord_writeWord (by omega)

/-- `Free` pushes the block behind the one entry. -/
theorem At.free (h : At arena T b₀ b₁ b₂ 1 r s) (hmem : s.mem.readWord arena = r)
    (hsmall : r < 2 ^ 64) :
    ∃ s', s.free .none cMergePolicy (arena + 8) = .ok (true, s') ∧
      At arena T b₀ ⟨0, r⟩ b₂ 2 0 s' := by
  have hcap := freeMemBlocksSize_eq
  have hfull : s.shouldFullMerge = false := by simp [shouldFullMerge, h.count, hcap]
  have hheader : allocationHeader (arena + 8) = arena := allocationHeader_add arena
  have hoff : SizeT.uint32OfInt ((arena : Int) - s.startPtr) = 0 := by
    rw [h.start, sub_self]
    exact SizeT.uint32OfInt_of_lt (n := 0) rfl (by decide)
  have hset : s.setBlock s.currSize ⟨0, 0⟩ = .ok (s.withTable (threeSlots b₀ ⟨0, 0⟩ b₂) 1) := by
    rw [h.count]
    conv_lhs => rw [h.eq]
    exact (setBlock_slots b₀ b₁ b₂ ⟨0, 0⟩ s 1).2.1
  have hset' : (s.withTable (threeSlots b₀ ⟨0, 0⟩ b₂) 2).setBlock (1 : Nat) ⟨0, r⟩
      = .ok (s.withTable (threeSlots b₀ ⟨0, r⟩ b₂) 2) :=
    (setBlock_slots b₀ ⟨0, 0⟩ b₂ ⟨0, r⟩ s 2).2.1
  have hadd : SizeT.add 1 1 = 2 := SizeT.add_of_lt (by decide)
  have hsub : SizeT.sub 2 1 = 1 := SizeT.sub_of_le (by decide) (by decide)
  have hread : (s.withTable (threeSlots b₀ ⟨0, 0⟩ b₂) 2).readHeader arena = .ok r :=
    (if_pos h.word).trans (congrArg _ hmem)
  refine ⟨{ s.withTable (threeSlots b₀ ⟨0, r⟩ b₂) 2 with used := SizeT.sub s.used r }, ?_,
    h.start, h.total, rfl, rfl, ?_, h.word⟩
  · simp only [FreeListAllocator.free, lock, pure_bind, hheader, hfull, Bool.false_eq_true,
      if_false, hoff, hset, ok_bind]
    show (do
      let blockSize ← (s.withTable (threeSlots b₀ ⟨0, 0⟩ b₂) (SizeT.add 1 1)).readHeader arena
      let s' ← setBlock (s.withTable (threeSlots b₀ ⟨0, 0⟩ b₂) (SizeT.add 1 1))
        (SizeT.sub (SizeT.add 1 1) 1 : Nat) ⟨0, blockSize⟩
      let s' ← mergeContiguous { s' with used := SizeT.sub s'.used blockSize } cMergePolicy
      return (true, s'.unlock .none) : Except Stuck (Bool × FreeListAllocator)) = _
    rw [hadd, hsub, hread, ok_bind, hset', ok_bind]
    show (mergeContiguous { s.withTable (threeSlots b₀ ⟨0, r⟩ b₂) 2 with
      used := SizeT.sub s.used r } .enableFullMergeIfNoSpace >>= _) = _
    rw [mergeContiguous, if_neg (by simp [shouldFullMerge, withTable, hcap]), ok_bind]
    rfl
  · show SizeT.sub s.used r = 0
    rw [h.used, SizeT.sub_of_le (Nat.le_refl r) hsmall, Nat.sub_self]

/-! ### Any number of rounds -/

theorem rounds_succ {s₁ s₂ : FreeListAllocator} {p : Nat}
    (hallocate : s.allocate .none size alignment = .ok (some p, s₁))
    (hfree : s₁.free .none cMergePolicy p = .ok (true, s₂)) (iterations : Nat) :
    rounds size alignment (iterations + 1) s
      = (rounds size alignment iterations s₂).map fun (ps, s') => (some p :: ps, s') := by
  rw [rounds, cFreeListThreadPolicy, hallocate, ok_bind]
  dsimp only [Option.getD_some]
  rw [hfree, ok_bind]
  cases rounds size alignment iterations s₂ <;> rfl

/-- Every round exchanges what stands beside the block in the table. -/
theorem At.rounds (hT : T < 2 ^ 32) (hne : alignment ≠ 0)
    (hr : requiredSize size alignment = r) (hpos : 0 < r) (hlt : r < T) :
    ∀ (iterations : Nat) {b₀ b₂ : MemBlock} {s : FreeListAllocator},
    At arena T b₀ ⟨0, r⟩ b₂ 2 0 s →
    ∃ s', rounds size alignment iterations s
        = .ok (List.replicate iterations (some (arena + 8)), s') ∧
      At arena T (if iterations % 2 = 0 then b₀ else b₂) ⟨0, r⟩
        (if iterations % 2 = 0 then b₂ else b₀) 2 0 s'
  | 0, b₀, b₂, s, h => ⟨s, rfl, h⟩
  | iterations + 1, b₀, b₂, s, h => by
      obtain ⟨s₁, hallocate, h₁, hmem⟩ := h.allocate_next hlt hT hne hr hpos
      obtain ⟨s₂, hfree, h₂⟩ := h₁.free hmem (by omega)
      obtain ⟨s', hrun, hs'⟩ := At.rounds hT hne hr hpos hlt iterations h₂
      refine ⟨s', by rw [rounds_succ hallocate hfree, hrun]; rfl, ?_⟩
      rcases Nat.mod_two_eq_zero_or_one iterations with heven | hodd
      · rw [if_pos heven, if_pos heven] at hs'
        rwa [if_neg (by omega), if_neg (by omega)]
      · rw [if_neg (by omega), if_neg (by omega)] at hs'
        rwa [if_pos (by omega), if_pos (by omega)]

/-- With the rest of the arena swapped out, nothing larger than the block is
left. -/
theorem At.allocate_lost (h : At arena T ⟨0, 0⟩ ⟨0, r⟩ b₂ 2 0 s) (hne : alignment ≠ 0)
    (hlarge : r < requiredSize size alignment) :
    s.allocate .none size alignment = .ok (none, s) := by
  refine allocate_refuse hne ?_
  have hcap := freeMemBlocksSize_eq
  have hblock : s.blockAt (1 : Nat) = .ok ⟨0, r⟩ := by
    rw [h.eq]
    exact (blockAt_slots _ _ _ s 2).2.1
  have hblock₀ : s.blockAt (0 : Nat) = .ok ⟨0, 0⟩ := by
    rw [h.eq]
    exact (blockAt_slots _ _ _ s 2).1
  rw [findFreeMemBlockIndex]
  split
  · rfl
  · rw [h.count, findLoop, hblock, ok_bind, if_neg (by simp only; omega), findLoop, hblock₀,
      ok_bind, if_neg (by simp only; omega)]
    rfl

/-- **The loop of the benchmark, for a request of any size** that is smaller
than the arena with header and padding. Every round gets the first block of
the arena and nothing is in use after it. But from the second round on the
rest of the arena is in the free list after every other round only; in between
no larger request can be served. -/
theorem rounds_alternate (arena : Nat) (mem : Memory) {T size alignment : Nat} (hT : T < 2 ^ 32)
    (hne : alignment ≠ 0) (hle : alignment ≤ 2 ^ 63) (hlt : requiredSize size alignment < T)
    (iterations : Nat) :
    ∃ s, rounds size alignment iterations ((construct T mem).init arena)
        = .ok (List.replicate iterations (some (arena + 8)), s) ∧ s.used = 0 ∧
      (iterations % 2 = 1 → s.freeBlocks
        = [⟨requiredSize size alignment, T - requiredSize size alignment⟩,
          ⟨0, requiredSize size alignment⟩]) ∧
      (iterations % 2 = 0 → iterations ≠ 0 →
        s.freeBlocks = [⟨0, 0⟩, ⟨0, requiredSize size alignment⟩] ∧
        ∀ size' alignment', alignment' ≠ 0 →
          requiredSize size alignment < requiredSize size' alignment' →
          s.allocate .none size' alignment' = .ok (none, s)) := by
  have hheader : cAllocationHeaderSize < requiredSize size alignment := by
    obtain ⟨pad, hpad, -, heq⟩ := requiredSize_eq size (Nat.pos_of_ne_zero hne) hle
    omega
  have hpos : 0 < requiredSize size alignment := Nat.zero_lt_of_lt hheader
  have hword : ((construct T mem).init arena).mapped.hasWord arena = true := by
    refine AddressSpace.hasWord_of_range fun a hlo hhi => ?_
    show AddressSpace.withArena (fun _ => false) arena T a = true
    simp only [cAllocationHeaderSize] at hheader
    exact AddressSpace.withArena_inside hlo (by omega)
  have hinit : At arena T ⟨0, T⟩ ⟨0, 0⟩ ⟨0, 0⟩ 1 0 ((construct T mem).init arena) := by
    refine ⟨rfl, rfl, ?_, rfl, rfl, hword⟩
    show (Vector.replicate _ _).set 0 (⟨0, SizeT.uint32 T⟩ : MemBlock) (by decide) = _
    ext i hi
    rw [SizeT.uint32_of_lt hT, Vector.getElem_set, Vector.getElem_replicate, getElem_threeSlots]
    grind
  cases iterations with
  | zero => exact ⟨_, rfl, rfl, (fun h => by cases h), fun _ h => absurd rfl h⟩
  | succ iterations =>
      obtain ⟨s₁, hallocate, h₁, hmem⟩ := hinit.allocate_first hT hne rfl hpos hlt
      obtain ⟨s₂, hfree, h₂⟩ := h₁.free hmem (by omega)
      obtain ⟨s, hrun, hs⟩ := At.rounds hT hne rfl hpos hlt iterations h₂
      refine ⟨s, by rw [rounds_succ hallocate hfree, hrun]; rfl, hs.used, fun hodd => ?_,
        fun heven _ => ?_⟩
      · rw [if_pos (by omega), if_pos (by omega)] at hs
        rw [hs.eq, (freeBlocks_slots _ _ _ s).2]
      · rw [if_neg (by omega), if_neg (by omega)] at hs
        refine ⟨?_, fun _ _ hne' hlarge => hs.allocate_lost hne' hlarge⟩
        rw [hs.eq, (freeBlocks_slots _ _ _ s).2]

/-- `BM_FreeListAlloc`. -/
def bmFreeListAlloc (arena : Nat) (mem : Memory) (iterations : Nat) :
    Except Stuck (List (Option Nat) × FreeListAllocator) :=
  rounds 1 8 iterations ((construct (sMaxChunksNum * sMaxChunkSize) mem).init arena)

/-- After a million iterations 16 bytes of five million are left. -/
theorem rounds_alternate_million : ∃ s, bmFreeListAlloc 65536 (fun _ => 0) 1000000
    = .ok (List.replicate 1000000 (some 65544), s) ∧ s.used = 0 ∧
      s.freeBlocks = [⟨0, 0⟩, ⟨0, 16⟩] := by
  have hr : requiredSize 1 8 = 16 := by decide +kernel
  have hall := @rounds_alternate 65536 (fun _ => 0) (sMaxChunksNum * sMaxChunkSize) 1 8
  rw [hr] at hall
  obtain ⟨s, hrun, hused, -, hlost⟩ := hall (by decide) (by decide) (by decide) (by decide) 1000000
  exact ⟨s, hrun, hused, (hlost (by decide) (by decide)).1⟩

end FreeListBenchmark

/-! ## `BM_PoolAlloc` -/

namespace PoolBenchmark

open PoolAllocator PoolAllocators FrontSession

/-- The loop; `malloc` is what `malloc(1)` would return in each round. -/
def rounds (malloc : Nat → Nat) : Nat → PoolAllocators → Except Stuck (List Nat × PoolAllocators)
  | 0, allocators => .ok ([], allocators)
  | iterations + 1, allocators => do
      let (p, _, allocators) ← allocators.allocate cPoolAllocThreadPolicy 1 (malloc iterations)
      let (_, allocators) ← allocators.free cPoolAllocThreadPolicy p
      let (ps, allocators) ← rounds malloc iterations allocators
      return (p :: ps, allocators)

/-- Every round gets the same chunk of the first pool, and no round calls
`malloc`. -/
theorem rounds_steady {mallocs : List (Nat × List Nat)} (hlen : mallocs.length = chunkSizes.length)
    (htables : ∀ m ∈ mallocs, m.2.length = sMaxChunksNum) (hnonnull : ∀ m ∈ mallocs, m.1 ≠ nullptr)
    (hapart : (arenas sMaxChunksNum (config mallocs chunkSizes)).Pairwise Apart) :
    ∃ w₀ c p, start sMaxChunksNum chunkSizes mallocs = .ok w₀ ∧
      (config mallocs chunkSizes)[0]? = some c ∧ p ∈ chunks c.1 sMaxChunksNum c.2 ∧
      ∀ (malloc : Nat → Nat) (iterations : Nat),
        rounds malloc iterations w₀.alloc = .ok (List.replicate iterations p, w₀.alloc) := by
  obtain ⟨l, hstart, hwf⟩ := wf_start (by decide) hlen htables (by decide) hnonnull hapart
  obtain ⟨⟨arena, table⟩, rest, rfl⟩ : ∃ m rest, mallocs = m :: rest := by
    cases mallocs with
    | nil => cases hlen
    | cons m rest => exact ⟨m, rest, rfl⟩
  have hc : (config ((arena, table) :: rest) chunkSizes)[0]? = some (arena, 64) := rfl
  obtain ⟨a, ha, hpart⟩ := hwf.exists_pool hc
  obtain ⟨p, a', htake, hpart'⟩ := hpart.allocate_some (Nat.succ_pos _)
  obtain ⟨a'', hput, -⟩ := hpart'.free_live (List.mem_cons_self ..)
  obtain rfl := free_allocated (hwf.used_lt ha) htake hput
  have hmem : p ∈ chunks arena sMaxChunksNum 64 := hpart'.live_mem (List.mem_cons_self ..)
  refine ⟨_, (arena, 64), p, hstart, hc, hmem, fun malloc iterations => ?_⟩
  have hne : p ≠ nullptr := by
    have hin := chunk_le hmem
    have harena := hwf.nonnull _ (List.mem_of_getElem? hc)
    simp only [nullptr] at harena ⊢
    omega
  obtain ⟨hk, hak⟩ := List.getElem?_eq_some_iff.mp ha
  have hset : (l.set 0 a')[0]? = some a' := List.getElem?_set_self hk
  have hallocate : ∀ fallback, PoolAllocators.allocate ⟨l⟩ .none 1 fallback
      = .ok (p, .pool 0, ⟨l.set 0 a'⟩) := fun fallback => by
    rw [PoolAllocators.allocate,
      allocateIn_eq .none ha (by rw [hpart.size]; exact (by decide : 1 ≤ 64))
        (fun j hj => absurd hj (Nat.not_lt_zero j)), htake]
    simp [Except.map, ok_bind, hne]
    rfl
  have hfree : PoolAllocators.free ⟨l.set 0 a'⟩ .none p = .ok (.pool 0, ⟨l⟩) := by
    rw [PoolAllocators.free, freeIn_eq hset hput (fun j hj => absurd hj (Nat.not_lt_zero j)),
      List.set_set, ← hak, List.set_getElem_self]
    rfl
  induction iterations with
  | zero => rfl
  | succ iterations ih =>
      rw [rounds, cPoolAllocThreadPolicy, hallocate, ok_bind]
      dsimp only
      rw [hfree, ok_bind]
      dsimp only
      rw [ih]
      rfl

end PoolBenchmark

/-! ## `BM_StackAlloc` and `BM_LinerAlloc` -/

namespace BumpBenchmark

open BumpAllocator

/-- `BM_StackAlloc`. -/
def stackRounds : Nat → StackAllocator → List (Option Nat) × StackAllocator
  | 0, allocator => ([], allocator)
  | iterations + 1, allocator =>
      let (p, allocator) := StackAllocator.allocate allocator 1 8
      let (_, allocator) := StackAllocator.free allocator (p.getD nullptr)
      let (ps, allocator) := stackRounds iterations allocator
      (p :: ps, allocator)

/-- `BM_LinerAlloc`. -/
def linearRounds : Nat → LinearAllocator → List (Option Nat) × LinearAllocator
  | 0, allocator => ([], allocator)
  | iterations + 1, allocator =>
      let (p, allocator) := LinearAllocator.allocate allocator 1 8
      let (ps, allocator) := linearRounds iterations allocator
      (p :: ps, allocator)

def cSize : Nat := sMaxChunksNum * sMaxChunkSize

theorem allocate_one {s : BumpAllocator} (htotal : s.totalSize = cSize)
    (hoff : s.offset ≤ cSize) :
    s.allocate 1 8 = if s.offset + 8 ≤ cSize then
      (some (s.startPtr + s.offset), { s with offset := s.offset + 8, used := s.offset + 8 })
      else (none, s) := by
  have hsize : cSize = 5120000 := by decide
  have hwrap : (s.offset + consumed 1 8) % 2 ^ 64 = s.offset + 8 :=
    Nat.mod_eq_of_lt (by simp only [consumed]; omega)
  rcases allocate_cases_of_pos s 1 (show 0 < 8 by decide) (by decide) with
    ⟨hlt, hrun⟩ | ⟨hle, hrun⟩
  · rw [hwrap, htotal] at hlt
    rw [hrun, if_neg (by omega)]
  · rw [hwrap, htotal] at hle
    rw [hrun, if_pos hle, hwrap]

/-- Every round gets the start of the arena. -/
theorem stackRounds_steady (arena iterations : Nat) :
    stackRounds iterations (StackAllocator.init (construct cSize) arena)
      = (List.replicate iterations (some arena), StackAllocator.init (construct cSize) arena) := by
  induction iterations with
  | zero => rfl
  | succ iterations ih =>
      have hrun := allocate_one (s := StackAllocator.init (construct cSize) arena) rfl
        (Nat.zero_le _)
      have hroom : (StackAllocator.init (construct cSize) arena).offset + 8 ≤ cSize :=
        (by decide : 0 + 8 ≤ cSize)
      rw [if_pos hroom] at hrun
      have hfree : (StackAllocator.free { StackAllocator.init (construct cSize) arena with
          offset := 8, used := 8 } arena).2 = StackAllocator.init (construct cSize) arena := by
        have hoff : SizeT.ofInt ((arena : Int) - arena) = 0 := by
          unfold SizeT.ofInt
          omega
        simp only [StackAllocator.free, StackAllocator.init, BumpAllocator.init, hoff]
        rfl
      rw [stackRounds, StackAllocator.allocate, hrun]
      show (some arena :: (stackRounds iterations (StackAllocator.free { StackAllocator.init
        (construct cSize) arena with offset := 8, used := 8 } arena).2).1, (stackRounds iterations
          (StackAllocator.free { StackAllocator.init (construct cSize) arena with
            offset := 8, used := 8 } arena).2).2) = _
      rw [hfree, ih]
      rfl

/-- `Init` is missing: the pointers are offsets from null, the first of them
null itself, until the arena that was never allocated is used up. -/
theorem linearRounds_uninitialised (iterations : Nat) :
    (linearRounds iterations (construct cSize)).1
      = (List.range iterations).map fun i => if 8 * i + 8 ≤ cSize then some (8 * i) else none := by
  have hsize : cSize = 5120000 := by decide
  suffices hall : ∀ (n k : Nat) (s : LinearAllocator), s.totalSize = cSize → s.startPtr = nullptr →
      s.offset = min (8 * k) cSize → (linearRounds n s).1
        = (List.range' k n).map fun i => if 8 * i + 8 ≤ cSize then some (8 * i) else none by
    rw [hall iterations 0 _ rfl rfl rfl, List.range_eq_range']
  intro n
  induction n with
  | zero => intro k s _ _ _; rfl
  | succ n ih =>
      intro k s htotal hstart hoff
      have hrun := allocate_one htotal (by omega)
      rw [linearRounds, LinearAllocator.allocate, hrun, List.range'_succ, List.map_cons]
      by_cases hfit : 8 * k + 8 ≤ cSize
      · rw [if_pos (by omega), if_pos hfit]
        refine congrArg₂ List.cons ?_ (ih (k + 1) _ htotal hstart (by simp only; omega))
        rw [hstart, hoff, nullptr, Nat.zero_add, Nat.min_eq_left (by omega)]
      · rw [if_neg (by omega), if_neg hfit]
        exact congrArg _ (ih (k + 1) s htotal hstart (by omega))

end BumpBenchmark

end MemAlloc
