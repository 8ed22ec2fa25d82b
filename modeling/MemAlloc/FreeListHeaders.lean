import MemAlloc.FreeListTiling
import MemAlloc.RoundUp

/-!
# What the header of a block promises

`Allocate` computes the padding from the whole size and the reserved size
from its low 32 bits. The sum is a multiple of the alignment all the same
(`dvd_requiredSize`), and the block carved lies in the one that was found.
But it holds the header and the request exactly when the size is below
`2 ^ 32`; a larger request is granted a block of what its low bits need
(`header_fits_iff`).
-/

namespace MemAlloc

open FreeListAllocator

namespace FreeListAllocator

/-- The reserved size is a multiple of the alignment, whatever the cast cut
off. -/
theorem dvd_requiredSize (size : Nat) {k : Nat} (hk : k ≤ 32) :
    2 ^ k ∣ requiredSize size (2 ^ k) := by
  have hpos := Nat.two_pow_pos k
  have hle : 2 ^ k ≤ 2 ^ 32 := Nat.pow_le_pow_right (by decide) hk
  have hhead : cAllocationHeaderSize = 8 := rfl
  have h32 := SizeT.uint32_lt size
  have hmod := Nat.mod_lt (SizeT.add cAllocationHeaderSize size) hpos
  have hpad : padding size (2 ^ k)
      = 2 ^ k - SizeT.add cAllocationHeaderSize size % 2 ^ k :=
    SizeT.sub_of_le (Nat.le_of_lt hmod) (by omega)
  -- the padding is the same computed from the low bits
  have hcast : SizeT.add cAllocationHeaderSize size % 2 ^ k
      = (cAllocationHeaderSize + SizeT.uint32 size) % 2 ^ k := by
    unfold SizeT.add SizeT.uint32
    rw [Nat.mod_mod_of_dvd _ (Nat.pow_dvd_pow 2 (by omega)), Nat.add_mod,
      Nat.add_mod _ (size % 2 ^ 32), Nat.mod_mod_of_dvd size (Nat.pow_dvd_pow 2 hk)]
  have heq : requiredSize size (2 ^ k)
      = 2 ^ k - (cAllocationHeaderSize + SizeT.uint32 size) % 2 ^ k
        + (cAllocationHeaderSize + SizeT.uint32 size) := by
    rw [hcast] at hpad hmod
    rw [requiredSize, SizeT.add_of_lt (a := cAllocationHeaderSize) (by omega),
      SizeT.add_of_lt (by omega), hpad, Nat.add_comm]
  rw [heq]
  exact dvd_sub_mod_add hpos _

end FreeListAllocator

namespace Session

variable {totalSize arena : Nat} {merge : MergePolicy} {w : Session} {call : FreeListCall}

/-- In a tiled arena, the header written for a returned pointer covers itself
and the request and is a multiple of the alignment; the requested bytes lie
in the block, the block in the arena and apart from every live block. -/
def HeaderFits (totalSize : Nat) (w : Session) : FreeListCall → Prop
  | .allocate size alignment => Tiled totalSize w → ∀ p alloc,
      w.alloc.allocate .none size alignment = .ok (some p, alloc) →
        cAllocationHeaderSize + size ≤ header alloc ⟨p, size⟩ ∧
        alignment ∣ header alloc ⟨p, size⟩ ∧
        w.alloc.startPtr + cAllocationHeaderSize ≤ p ∧
        p + size ≤ p - cAllocationHeaderSize + header alloc ⟨p, size⟩ ∧
        p - cAllocationHeaderSize + header alloc ⟨p, size⟩ ≤ w.alloc.startPtr + totalSize ∧
        ∀ l ∈ w.live, Disjoint (liveExtent alloc ⟨p, size⟩).bytes (liveExtent w.alloc l).bytes
  | _ => True

/-- The size fits in 32 bits, or no block is carved. -/
def SizeFits (totalSize : Nat) (w : Session) : FreeListCall → Prop
  | .allocate size alignment => Tiled totalSize w → size < 2 ^ 32 ∨
      ∀ (k : Nat) (b : MemBlock),
        w.alloc.findFreeMemBlockIndex (requiredSize size alignment) = .ok (k : Int) →
        w.alloc.freeBlocks[k]? = some b →
          ¬(SizeT.sub b.blockSize (requiredSize size alignment) > 0 ∨ 0 < k)
  | _ => True

/-- The block of a granted request, read back from the header. -/
theorem liveExtent_granted (s : FreeListAllocator) (t : Vector MemBlock freeMemBlocksSize)
    (n offset size : Nat) {required : Nat} (hreq : required < 2 ^ 64) :
    liveExtent (s.granted t n (s.startPtr + offset) required)
      ⟨s.startPtr + offset + cAllocationHeaderSize, size⟩ = ⟨offset, required⟩ := by
  refine Extent.ext ?_ ?_
  · show s.startPtr + offset + cAllocationHeaderSize - cAllocationHeaderSize - s.startPtr = offset
    omega
  · show Memory.readWord _ (s.startPtr + offset + cAllocationHeaderSize - cAllocationHeaderSize) = _
    rw [Nat.add_sub_cancel]
    exact Memory.readWord_writeWord hreq

/-- The front of a free block is apart from every live block. -/
theorem Tiled.carved_apart (h : Tiled totalSize w) {b : MemBlock} (hb : b ∈ w.alloc.freeBlocks)
    {required : Nat} (hfit : required ≤ b.blockSize) {l : Lease} (hl : l ∈ w.live) :
    Disjoint (Extent.mk b.memBlockOffset required).bytes (liveExtent w.alloc l).bytes := by
  have hwhole := (List.pairwise_append.mp h.tiles.disjoint).2.2 _ (List.mem_map_of_mem hb) _
    (List.mem_map_of_mem hl)
  refine Disjoint.mono_left ?_ hwhole
  intro x hx
  simp only [Extent.mem_bytes, Extent.stop, MemBlock.extent] at hx ⊢
  omega

/-- Alignments above `2 ^ 31` are asked of arenas below 4 GiB only, which
refuse them. -/
def AlignmentFits (totalSize : Nat) : FreeListCall → Prop
  | .allocate _ alignment => totalSize < 2 ^ 32 ∨ alignment ≤ 2 ^ 31
  | _ => True

/-- A request that fits in the arena has an alignment below `2 ^ 32`. -/
theorem exponent_le {size e : Nat} (he : e ≤ 63)
    (hfits : AlignmentFits totalSize (.allocate size (2 ^ e)))
    (hle : requiredSize size (2 ^ e) ≤ totalSize) : e ≤ 31 := by
  by_contra hlarge
  rcases hfits with hsmall | hal
  · have := requiredSize_ge size (show 32 ≤ e by omega) he
    omega
  · have : 2 ^ 32 ≤ 2 ^ e := Nat.pow_le_pow_right (by decide) (by omega)
    omega

/-- A granted request gets the block its low 32 bits need. -/
theorem Tiled.headerFits_granted (h : Tiled totalSize w) {b : MemBlock}
    (hb : b ∈ w.alloc.freeBlocks) {size e : Nat} (he : e ≤ 31)
    (hfit : requiredSize size (2 ^ e) ≤ b.blockSize) {t : Vector MemBlock freeMemBlocksSize}
    {n : Nat}
    (hrun : w.alloc.allocate .none size (2 ^ e)
      = .ok (some (w.alloc.startPtr + b.memBlockOffset + cAllocationHeaderSize),
        w.alloc.granted t n (w.alloc.startPtr + b.memBlockOffset) (requiredSize size (2 ^ e)))) :
    HeaderFits totalSize w (.allocate size (2 ^ e)) ↔ size < 2 ^ 32 := by
  have hpow : 2 ^ e ≤ 2 ^ 31 := Nat.pow_le_pow_right (by decide) he
  obtain ⟨pad, -, hpad, hreq⟩ := requiredSize_eq size (Nat.two_pow_pos e) (by omega)
  have hgt := requiredSize_gt size (show e ≤ 63 by omega)
  have h32 := SizeT.uint32_lt size
  have hhead : cAllocationHeaderSize = 8 := rfl
  have hend := h.tiles.stop_le (List.mem_append_left _ (List.mem_map_of_mem hb))
  simp only [Extent.stop, MemBlock.extent] at hend
  have hextent := liveExtent_granted w.alloc t n b.memBlockOffset size
    (show requiredSize size (2 ^ e) < 2 ^ 64 by omega)
  have hheader := congrArg Extent.len hextent
  simp only [liveExtent] at hheader
  constructor
  · intro hall
    have hcover := (hall h _ _ hrun).1
    rw [hheader] at hcover
    unfold SizeT.uint32 at hreq
    omega
  · intro hsize _ p alloc hp
    rw [SizeT.uint32_of_lt hsize] at hgt
    obtain ⟨hptr, rfl⟩ := Prod.mk.inj (Except.ok.inj (hrun.symm.trans hp))
    obtain rfl := Option.some.inj hptr
    rw [hheader, hextent]
    exact ⟨by omega, dvd_requiredSize size (by omega), by omega, by omega, by omega,
      fun l hl => h.carved_apart hb hfit hl⟩

/-- What is needed of a state: a table, and an arena that is there. -/
structure InArena (totalSize arena : Nat) (s : FreeListAllocator) : Prop where
  table : InTable s
  start : s.startPtr = arena
  mapped : ∀ a, arena ≤ a → a < arena + totalSize → s.mapped a = true

/-- **Step lemma.** What is returned fits the request when its size fits in
32 bits. -/
theorem headerFits_iff (h : InArena totalSize arena w.alloc) (hlegal : Legal w call)
    (hfits : AlignmentFits totalSize call) :
    HeaderFits totalSize w call ↔ SizeFits totalSize w call := by
  cases call with
  | allocate size alignment =>
      obtain ⟨-, e, he, rfl⟩ := hlegal
      by_cases htiled : Tiled totalSize w
      swap
      · exact iff_of_true (fun ht => absurd ht htiled) fun ht => absurd ht htiled
      rcases h.table.allocate_cases size (Nat.two_pow_pos e).ne' with
        ⟨hfind, hrun⟩ | ⟨k, b, hfind, hb, hfit, ⟨hc, hrun⟩ | ⟨hc, t, n, -, -, hword⟩⟩
      · refine iff_of_true (fun _ p alloc hp => ?_) fun _ => Or.inr fun k b hk => ?_
        · cases hrun.symm.trans hp
        · have := Except.ok.inj (hfind.symm.trans hk)
          omega
      · refine iff_of_true (fun _ p alloc hp => ?_) fun _ => Or.inr fun k' b' hk' hb' => ?_
        · cases hrun.symm.trans hp
        · obtain rfl := Int.ofNat.inj (Except.ok.inj (hfind.symm.trans hk'))
          obtain rfl := Option.some.inj (hb.symm.trans hb')
          exact hc
      · -- a block is carved, and its header can be written
        have hmem := List.mem_of_getElem? hb
        have hend := htiled.tiles.stop_le (List.mem_append_left _ (List.mem_map_of_mem hmem))
        simp only [Extent.stop, MemBlock.extent] at hend
        have hhead : cAllocationHeaderSize = 8 := rfl
        have hgt := requiredSize_gt size he
        have hin : w.alloc.mapped.hasWord (w.alloc.startPtr + b.memBlockOffset) = true := by
          rw [h.start]
          exact AddressSpace.hasWord_of_range fun a ha ha' => h.mapped a (by omega) (by omega)
        rcases hword with ⟨hnot, -⟩ | ⟨-, hrun⟩
        · rw [hin] at hnot
          cases hnot
        rw [htiled.headerFits_granted hmem (exponent_le he hfits (by omega)) hfit hrun]
        exact ⟨fun hsize _ => Or.inl hsize, fun hsize =>
          (hsize htiled).resolve_right fun hnone => hnone k b hfind hb hc⟩
  | free ptr => exact Iff.rfl
  | fullMergeMemBlocks => exact Iff.rfl
  | clientWrites mem => exact Iff.rfl

theorem inArena_start (totalSize arena : Nat) (mem : Memory) :
    InArena totalSize arena (start totalSize arena mem).alloc where
  table := inTable_start totalSize arena mem
  start := rfl
  mapped := mapped_start totalSize arena mem

theorem step_inArena {w' : Session} (h : InArena totalSize arena w.alloc)
    (hok : step merge w call = .ok w') : InArena totalSize arena w'.alloc := by
  obtain ⟨htable, hstart, hmapped⟩ := step_inTable h.table hok
  exact ⟨htable, hstart.trans h.start, hmapped ▸ h.mapped⟩

/-- **Headers, exactly.** In a run from `Init()` every block returned in a
tiled arena fits its request if and only if every request that is granted
there asks for less than `2 ^ 32` bytes. -/
theorem header_fits_iff (totalSize : Nat) (merge : MergePolicy) (arena : Nat) (mem : Memory)
    (calls : List FreeListCall)
    (hlegal : Runs.All (step merge) Legal (start totalSize arena mem) calls)
    (hfits : ∀ call ∈ calls, AlignmentFits totalSize call) :
    Runs.All (step merge) (HeaderFits totalSize) (start totalSize arena mem) calls ↔
      Runs.All (step merge) (SizeFits totalSize) (start totalSize arena mem) calls := by
  have hall : Runs.All (step merge) (fun _ => AlignmentFits totalSize)
      (start totalSize arena mem) calls := Runs.all_of_forall fun call hcall _ => hfits call hcall
  have hadm : Runs.All (step merge) (fun w call => Legal w call ∧ AlignmentFits totalSize call)
      (start totalSize arena mem) calls := fun x hx => ⟨hlegal x hx, hall x hx⟩
  exact Runs.all_iff (fun w => InArena totalSize arena w.alloc)
    (fun _ _ hw hc => headerFits_iff hw hc.1 hc.2)
    (fun _ _ _ hw _ hok => step_inArena hw hok) (inArena_start totalSize arena mem) hadm

/-- The rule on two small requests with different alignments. -/
theorem header_fits_iff_small :
    Runs.All (step cMergePolicy) (HeaderFits 256) (start 256 4096 fun _ => 0)
      [.allocate 8 8, .allocate 3 16] := by
  refine (header_fits_iff 256 cMergePolicy 4096 _ _ ?_ ?_).mpr ?_
  · exact all_legal (by decide +kernel)
  · simp [AlignmentFits]
  · refine Runs.all_of_forall ?_
    simp [SizeFits]

/-- A request for 4 GiB from an arena of 64 bytes gets a block of 16. -/
theorem not_headerFits_large_request :
    Runs.All (step cMergePolicy) Legal (start 64 4096 fun _ => 0) [.allocate (2 ^ 32) 8] ∧
      ¬Runs.All (step cMergePolicy) (HeaderFits 64) (start 64 4096 fun _ => 0)
        [.allocate (2 ^ 32) 8] := by
  constructor
  · exact all_legal (by decide +kernel)
  · intro hall
    have hrun : ((start 64 4096 fun _ => 0).alloc.allocate .none (2 ^ 32) 8).map
        (fun r => (r.1, header r.2 ⟨4104, 2 ^ 32⟩)) = .ok (some 4104, 16) := by decide +kernel
    obtain ⟨⟨result, alloc⟩, hok, hres⟩ := map_eq_ok.mp hrun
    obtain ⟨rfl, hheader⟩ := Prod.mk.inj hres
    have hcover := ((Runs.all_cons.mp hall).1 (wf_start (by decide) (by decide) _ _).tiled
      _ _ hok).1
    rw [hheader] at hcover
    exact absurd hcover (by decide)

end Session

end MemAlloc
