import MemAlloc.FreeListRuns

/-!
# The tiling of the arena

Over whole runs of `FreeListAllocator`: free and live blocks tile the
arena and the counter is the sum of the live headers, as long as every
`Allocate` is a `CleanFit` - and exactly as long.

`step_wf` is the step lemma: a legal clean call returns and keeps
`Session.WF`. `cleanFit_of_keeps` is its converse: in a well-formed session
a call after which the blocks still tile the arena was clean. On entry 0
the exact-fit branch leaves the table; on a later entry that is not the
last it keeps the carved block in the list; on the last entry it replaces
the entry before by the slot past the list, which tiles only when the two
are equal.
-/

namespace MemAlloc

open FreeListAllocator

namespace Session

variable {totalSize : Nat} {arena : Nat} {merge : MergePolicy} {w w' : Session}

/-- Free blocks and live blocks tile the arena; the counter is the sum of
the live headers, and with the free blocks it accounts for every byte. -/
structure Tiled (totalSize : Nat) (w : Session) : Prop where
  tiles : Tiles totalSize w.extents
  used : w.alloc.getUsedSize = (w.live.map (header w.alloc)).sum
  total : w.alloc.getUsedSize + (w.alloc.freeBlocks.map MemBlock.blockSize).sum = totalSize

/-- The call returns (so no access of the table was out of bounds), the
arena is tiled after it, and a refused request changed nothing. -/
def Keeps (totalSize : Nat) (merge : MergePolicy) (w : Session) (call : FreeListCall) : Prop :=
  ∃ w', step merge w call = .ok w' ∧ Tiled totalSize w' ∧
    ∀ size alignment alloc, call = .allocate size alignment →
      w.alloc.allocate .none size alignment = .ok (none, alloc) → w' = w

theorem WF.tiled (h : WF totalSize arena w) : Tiled totalSize w :=
  ⟨h.tiles, h.used, h.laid.used_add_free⟩

/-! ## Clean calls keep the invariant -/

/-- The tiles around a free entry: the entry itself in front. -/
theorem WF.tiles_cons (h : WF totalSize arena w) {k : Nat} {b : MemBlock}
    (hb : w.alloc.freeBlocks[k]? = some b) :
    Tiles totalSize (b.extent :: ((w.alloc.freeBlocks.eraseIdx k).map MemBlock.extent ++
      w.live.map (liveExtent w.alloc))) := by
  obtain ⟨hk, rfl⟩ := List.getElem?_eq_some_iff.mp hb
  refine h.tiles.perm ?_
  rw [extents, ← List.cons_append, ← List.map_cons]
  exact ((List.getElem_cons_eraseIdx_perm hk).symm.map _).append_right _

/-- The split branch. -/
theorem WF.tiles_split (h : WF totalSize arena w) {k : Nat} {b : MemBlock}
    (hb : w.alloc.freeBlocks[k]? = some b) {required : Nat} (hpos : 0 < required)
    (hlt : required < b.blockSize) :
    Tiles totalSize ((w.alloc.freeBlocks.set k
        ⟨b.memBlockOffset + required, b.blockSize - required⟩).map MemBlock.extent ++
      ⟨b.memBlockOffset, required⟩ :: w.live.map (liveExtent w.alloc)) := by
  obtain ⟨hk, -⟩ := List.getElem?_eq_some_iff.mp hb
  have hcons := h.tiles_cons hb
  rw [MemBlock.extent, ← Nat.add_sub_cancel' (Nat.le_of_lt hlt)] at hcons
  have hsplit := hcons.split hpos (Nat.sub_pos_of_lt hlt)
  refine hsplit.perm (List.Perm.trans ?_ List.perm_middle.symm)
  refine List.Perm.cons _ ?_
  have hset := (List.set_perm_cons_eraseIdx hk
    (⟨b.memBlockOffset + required, b.blockSize - required⟩ : MemBlock)).map MemBlock.extent
  exact (hset.append_right _).symm

/-- The exact fit that is clean: the entry before the last one keeps its
value, the last one is dropped. -/
theorem WF.tiles_exact (h : WF totalSize arena w) {b : MemBlock} {k : Nat}
    (hb : w.alloc.freeBlocks[k]? = some b) (hlast : k + 1 = w.alloc.freeBlocks.length) :
    Tiles totalSize ((w.alloc.freeBlocks.take k).map MemBlock.extent ++
      ⟨b.memBlockOffset, b.blockSize⟩ :: w.live.map (liveExtent w.alloc)) := by
  have hcons := h.tiles_cons hb
  have herase : w.alloc.freeBlocks.eraseIdx k = w.alloc.freeBlocks.take k := by
    rw [List.eraseIdx_eq_take_drop_succ, hlast, List.drop_length, List.append_nil]
  rw [herase] at hcons
  exact hcons.perm List.perm_middle.symm

/-- What a legal clean `Allocate` does: it is refused, it carves the front of
a larger entry, or it takes the last entry off the list. -/
theorem WF.allocate_clean (h : WF totalSize arena w) (merge : MergePolicy) {size alignment : Nat}
    (hlegal : Legal w (.allocate size alignment)) (hclean : CleanFit w (.allocate size alignment)) :
    step merge w (.allocate size alignment) = .ok w ∨
      ∃ (k : Nat) (b : MemBlock) (t : Vector MemBlock freeMemBlocksSize) (n : Nat),
        w.alloc.freeBlocks[k]? = some b ∧ w.alloc.currSize < freeMemBlocksSize ∧
        cAllocationHeaderSize + SizeT.uint32 size < requiredSize size alignment ∧
        step merge w (.allocate size alignment) = .ok
          ⟨w.alloc.granted t n (w.alloc.startPtr + b.memBlockOffset) (requiredSize size alignment),
            ⟨w.alloc.startPtr + b.memBlockOffset + cAllocationHeaderSize, SizeT.uint32 size⟩ ::
              w.live⟩ ∧
        (requiredSize size alignment < b.blockSize ∧ n = w.alloc.currSize ∧
            t.toList.take n = w.alloc.freeBlocks.set k
              ⟨b.memBlockOffset + requiredSize size alignment,
                b.blockSize - requiredSize size alignment⟩ ∨
          requiredSize size alignment = b.blockSize ∧ 0 < k ∧ k + 1 = w.alloc.currSize ∧ n = k ∧
            t.toList.take n = w.alloc.freeBlocks.take k) := by
  obtain ⟨-, e, he, rfl⟩ := hlegal
  have hne : 2 ^ e ≠ 0 := (Nat.two_pow_pos e).ne'
  have hreq := requiredSize_gt size he
  rcases find_cases h.cap (requiredSize size (2 ^ e)) with hnone | ⟨k, b, hfind, hb, hfit, hcap⟩
  · exact Or.inl (step_refuse (allocate_refuse hne hnone))
  · refine Or.inr ⟨k, b, ?_⟩
    have hmem := List.mem_of_getElem? hb
    have hble := h.laid.block_le hmem
    have hsmall := h.small
    have hword := h.hasWord_block hmem (by omega)
    by_cases hlt : requiredSize size (2 ^ e) < b.blockSize
    · obtain ⟨t, hrun, ht⟩ := allocate_split hne hfind hb hlt (by omega) hword
      exact ⟨t, _, hb, hcap, hreq, Session.step_allocate hrun, Or.inl ⟨hlt, rfl, ht⟩⟩
    · -- exact fit: only the harmless swap is clean
      obtain ⟨hpos, hlast, hstale⟩ := (hclean k b hfind hb).resolve_left hlt
      obtain ⟨j, rfl⟩ : ∃ j, k = j + 1 := ⟨k - 1, by omega⟩
      have heq : requiredSize size (2 ^ e) = b.blockSize := by omega
      obtain ⟨t, x, hx, hrun, ht⟩ := allocate_exact hne hcap hfind hb heq hword
      refine ⟨t, _, hb, hcap, hreq, Session.step_allocate hrun,
        Or.inr ⟨heq, hpos, hlast, by omega, ?_⟩⟩
      rw [hx, Nat.add_sub_cancel] at hstale
      have hsame : w.alloc.freeBlocks.set j x = w.alloc.freeBlocks := by
        obtain ⟨hj, rfl⟩ := List.getElem?_eq_some_iff.mp hstale.symm
        exact List.set_getElem_self hj
      rw [ht, hsame, show w.alloc.currSize - 1 = j + 1 by omega]

theorem WF.step_allocate (h : WF totalSize arena w) (merge : MergePolicy) {size alignment : Nat}
    (hlegal : Legal w (.allocate size alignment)) (hclean : CleanFit w (.allocate size alignment)) :
    ∃ w', step merge w (.allocate size alignment) = .ok w' ∧ WF totalSize arena w' ∧
      (w' = w ∨ w'.alloc.currSize < freeMemBlocksSize) := by
  rcases h.allocate_clean merge hlegal hclean with
    hrun | ⟨k, b, t, n, hb, hcap, hreq, hrun, ⟨hlt, rfl, ht⟩ | ⟨heq, -, hlast, rfl, ht⟩⟩
  · exact ⟨w, hrun, h, Or.inl rfl⟩
  · refine ⟨_, hrun, h.granted (List.mem_of_getElem? hb) hreq (Nat.le_of_lt hlt) h.cap ?_,
      Or.inr hcap⟩
    rw [ht]
    exact h.tiles_split hb (by omega) hlt
  · refine ⟨_, hrun, h.granted (List.mem_of_getElem? hb) hreq (Nat.le_of_eq heq) (by omega) ?_,
      Or.inr (show n < freeMemBlocksSize by omega)⟩
    rw [ht, heq]
    exact h.tiles_exact hb (by rw [length_freeBlocks h.cap, hlast])

/-- Below capacity `Free` pushes the live block and merges. -/
theorem WF.free_pushes (h : WF totalSize arena w) (merge : MergePolicy) {l : Lease}
    (hl : l ∈ w.live) (hcap : w.alloc.currSize < freeMemBlocksSize) :
    ∃ a, w.alloc.free .none merge l.ptr = (a.mergeContiguous merge).map (fun a' => (true, a')) ∧
      WF totalSize arena ⟨a, w.live.eraseP (·.ptr == l.ptr)⟩ ∧
      a.freeBlocks = w.alloc.freeBlocks ++ [w.alloc.blockOf l.ptr] ∧
      a.currSize = w.alloc.currSize + 1 ∧ a.mem = w.alloc.mem ∧ a.startPtr = w.alloc.startPtr := by
  obtain ⟨t, hrun, ht⟩ := free_spec merge l.ptr hcap (h.laid.hasWord hl)
  exact ⟨_, hrun, h.released hl hcap ht, ht, rfl, rfl, rfl⟩

/-- The merge keeps the invariant. -/
theorem WF.mergeContiguous (h : WF totalSize arena w) (merge : MergePolicy)
    (hpos : 0 < w.alloc.currSize) :
    ∃ t n, w.alloc.mergeContiguous merge = .ok (w.alloc.withTable t n) ∧
      WF totalSize arena ⟨w.alloc.withTable t n, w.live⟩ := by
  obtain ⟨t, n, hrun, hn, ht⟩ := mergeContiguous_spec h.cap hpos merge
  exact ⟨t, n, hrun, h.merged hn (ht.imp_right (Or.imp_left fun hm => ⟨_, hm⟩))⟩

/-- `Free` of a live pointer, for which the tiling is enough: it returns, and
changes nothing unless it takes the pointer. -/
theorem Laid.step_free (h : Laid totalSize arena w) (merge : MergePolicy) {ptr : Nat}
    (hlegal : Legal w (.free ptr)) :
    ∃ w', step merge w (.free ptr) = .ok w' ∧ Laid totalSize arena w' ∧
      w'.alloc.mem = w.alloc.mem ∧ (w' = w ∨ w'.live = w.live.eraseP (·.ptr == ptr)) := by
  obtain ⟨l, hl, rfl⟩ := hlegal
  by_cases hfull : w.alloc.currSize = freeMemBlocksSize
  · exact ⟨w, step_free_false (free_full merge l.ptr hfull), h, rfl, Or.inl rfl⟩
  · have hcap := Nat.lt_of_le_of_ne h.cap hfull
    obtain ⟨t, hrun, ht⟩ := free_spec merge l.ptr hcap (h.hasWord hl)
    have hpushed := h.released hl hcap ht
    obtain ⟨t', n, hmerge, hn, ht'⟩ := mergeContiguous_spec hpushed.cap (Nat.succ_pos _) merge
    have hw' := hpushed.merged hn (ht'.imp_right (Or.imp_left fun hm => ⟨_, hm⟩))
    rw [hmerge] at hrun
    exact ⟨_, step_free_true hrun, hw', rfl, Or.inr rfl⟩

theorem WF.step_free (h : WF totalSize arena w) (merge : MergePolicy) {ptr : Nat}
    (hlegal : Legal w (.free ptr)) :
    ∃ w', step merge w (.free ptr) = .ok w' ∧ WF totalSize arena w' := by
  obtain ⟨w', hrun, hw', hmem, hlive⟩ := h.laid.step_free merge hlegal
  refine ⟨w', hrun, hw'.wf ?_⟩
  intro l hl
  have hold : l ∈ w.live := by
    rcases hlive with rfl | hlive
    · exact hl
    · rw [hlive] at hl
      exact List.mem_of_mem_eraseP hl
  rw [header, hmem]
  exact (h.lease l hold).2

theorem WF.step_fullMergeMemBlocks (h : WF totalSize arena w) (merge : MergePolicy) :
    ∃ w', step merge w .fullMergeMemBlocks = .ok w' ∧ WF totalSize arena w' := by
  obtain ⟨t, n, hrun, hn, ht⟩ := fullMergeMemBlocks_spec h.cap
  exact ⟨_, by rw [step, hrun]; rfl, h.merged hn (Or.inr (Or.inr ht))⟩

/-- **Step lemma.** A legal clean call returns and keeps the invariant. -/
theorem step_wf (h : WF totalSize arena w) (merge : MergePolicy) {call : FreeListCall}
    (hlegal : Legal w call) (hclean : CleanFit w call) :
    ∃ w', step merge w call = .ok w' ∧ WF totalSize arena w' := by
  cases call with
  | allocate size alignment =>
      obtain ⟨w', hrun, hw', -⟩ := h.step_allocate merge hlegal hclean
      exact ⟨w', hrun, hw'⟩
  | free ptr => exact h.step_free merge hlegal
  | fullMergeMemBlocks => exact h.step_fullMergeMemBlocks merge
  | clientWrites m => exact ⟨_, rfl, h.clientWrites hlegal⟩

theorem keeps_of_cleanFit (h : WF totalSize arena w) {call : FreeListCall} (hlegal : Legal w call)
    (hclean : CleanFit w call) : Keeps totalSize merge w call := by
  obtain ⟨w', hrun, hw'⟩ := step_wf h merge hlegal hclean
  refine ⟨w', hrun, hw'.tiled, ?_⟩
  rintro size alignment a rfl ha
  -- a refusal is the branch in which the search found nothing
  rcases (InTable.allocate_ok h.cap ha).2 with
    ⟨-, -, rfl⟩ | ⟨k, b, t, n, -, -, -, -, -, -, hsome, -⟩
  · rw [step_refuse ha] at hrun
    exact (Except.ok.inj hrun).symm
  · cases hsome

/-! ## Calls that keep the tiling were clean -/

/-- After an exact fit of entry `j + 1` a tiling is left only if that entry
was the last and the swapped-in slot equals the entry before it. -/
theorem WF.exact_of_tiles (h : WF totalSize arena w) {j : Nat} {b x : MemBlock}
    (hb : w.alloc.freeBlocks[j + 1]? = some b)
    (htiles : Tiles totalSize
      (((w.alloc.freeBlocks.set j x).take (w.alloc.currSize - 1)).map MemBlock.extent ++
        ⟨b.memBlockOffset, b.blockSize⟩ :: w.live.map (liveExtent w.alloc))) :
    j + 1 + 1 = w.alloc.currSize ∧ w.alloc.freeBlocks[j]? = some x := by
  have hlen := length_freeBlocks h.cap
  obtain ⟨hj, -⟩ := List.getElem?_eq_some_iff.mp hb
  have hpos := (h.laid.block_le (List.mem_of_getElem? hb)).1
  have hlast : j + 1 + 1 = w.alloc.currSize := by
    -- otherwise the carved block is still listed as free
    by_contra hne
    have hlisted : b ∈ (w.alloc.freeBlocks.set j x).take (w.alloc.currSize - 1) := by
      refine List.mem_of_getElem? (i := j + 1) ?_
      rw [List.getElem?_take_of_lt (by omega), List.getElem?_set_ne (by omega), hb]
    have hap := htiles.apart (List.mem_map_of_mem hlisted) (List.mem_cons_self ..)
    simp only [Extent.stop, MemBlock.extent] at hap
    omega
  refine ⟨hlast, ?_⟩
  obtain ⟨y, hy⟩ : ∃ y, w.alloc.freeBlocks[j]? = some y :=
    ⟨_, List.getElem?_eq_getElem (by omega)⟩
  have htake : ∀ z, (w.alloc.freeBlocks.set j z).take (w.alloc.currSize - 1)
      = w.alloc.freeBlocks.take j ++ [z] := by
    intro z
    rw [show w.alloc.currSize - 1 = j + 1 by omega, List.take_add_one,
      List.take_set_of_le (Nat.le_refl j), List.getElem?_set_self (by omega)]
    rfl
  -- before the call, the same blocks with `y` in place of `x`
  have hbefore := h.tiles_exact hb (by rw [hlen, hlast])
  obtain ⟨hjlt, rfl⟩ := List.getElem?_eq_some_iff.mp hy
  have hself : w.alloc.freeBlocks.take (j + 1) = w.alloc.freeBlocks.take j ++
      [w.alloc.freeBlocks[j]] := by
    rw [List.take_add_one, List.getElem?_eq_getElem hjlt]
    rfl
  rw [hself] at hbefore
  rw [htake] at htiles
  have hfront : ∀ z : MemBlock, ((w.alloc.freeBlocks.take j ++ [z]).map MemBlock.extent ++
      ⟨b.memBlockOffset, b.blockSize⟩ :: w.live.map (liveExtent w.alloc)).Perm
        (z.extent :: ((w.alloc.freeBlocks.take j).map MemBlock.extent ++
          ⟨b.memBlockOffset, b.blockSize⟩ :: w.live.map (liveExtent w.alloc))) := by
    intro z
    rw [List.map_append, List.map_singleton, List.append_assoc]
    exact List.perm_middle
  have heq := (hbefore.perm (hfront _)).head_unique (htiles.perm (hfront x))
  rw [List.getElem?_eq_getElem hjlt, MemBlock.extent_injective heq]

theorem cleanFit_of_keeps (h : WF totalSize arena w) {call : FreeListCall} (hlegal : Legal w call)
    (hkeeps : Keeps totalSize merge w call) : CleanFit w call := by
  cases call with
  | allocate size alignment =>
      obtain ⟨-, p, hp, rfl⟩ := hlegal
      intro k b hfind hb
      by_cases hlt : requiredSize size (2 ^ p) < b.blockSize
      · exact Or.inl hlt
      have hne : 2 ^ p ≠ 0 := (Nat.two_pow_pos p).ne'
      have hreq := requiredSize_gt size hp
      obtain ⟨w', hrun, htiled, -⟩ := hkeeps
      rcases find_cases h.cap (requiredSize size (2 ^ p)) with hnone | ⟨i, c, hi, hc, hfit, hcap⟩
      · rw [hnone] at hfind
        have := Except.ok.inj hfind
        omega
      obtain rfl : k = i := by
        rw [hi] at hfind
        have := Except.ok.inj hfind
        omega
      obtain rfl := Option.some.inj (hb.symm.trans hc)
      have heq : requiredSize size (2 ^ p) = b.blockSize := by omega
      cases k with
      | zero =>
          rw [step, allocate_exact_zero hne hfind hb heq] at hrun
          cases hrun
      | succ j =>
          obtain ⟨t, x, hx, hok, ht⟩ := allocate_exact hne hcap hfind hb heq
            (h.hasWord_block (List.mem_of_getElem? hb) (by omega))
          rw [Session.step_allocate hok] at hrun
          obtain rfl := Except.ok.inj hrun
          have htiles := htiled.tiles
          rw [h.extents_granted (List.mem_of_getElem? hb) (by omega) hfit, ht, heq] at htiles
          obtain ⟨hlast, hxj⟩ := h.exact_of_tiles hb htiles
          exact Or.inr ⟨Nat.succ_pos j, hlast, by rw [hx, Nat.add_sub_cancel, hxj]⟩
  | free ptr => trivial
  | fullMergeMemBlocks => trivial
  | clientWrites m => trivial

/-! ## Whole runs -/

/-- A run of legal clean calls ends in a well-formed session. -/
theorem exec_wf (hpos : 0 < totalSize) (hsmall : totalSize < 2 ^ 32) {mem : Memory}
    {calls : List FreeListCall}
    (hlegal : Runs.All (step merge) Legal (start totalSize arena mem) calls)
    (hclean : Runs.All (step merge) CleanFit (start totalSize arena mem) calls) :
    ∃ w, Runs.exec (step merge) (start totalSize arena mem) calls = .ok w ∧
      WF totalSize arena w :=
  Runs.exec_inv (WF totalSize arena) (fun w call => Legal w call ∧ CleanFit w call)
    (fun _ _ hw hcall => step_wf hw merge hcall.1 hcall.2) (wf_start hpos hsmall _ _)
    fun x hx => ⟨hlegal x hx, hclean x hx⟩

/-- **The tiling invariant, exactly.** A run from `Init()` tiles the arena
after every call, with no access outside the table, if and only if every
`Allocate` of it is a `CleanFit`. -/
theorem tiling_iff_cleanFit {totalSize : Nat} (hpos : 0 < totalSize) (hsmall : totalSize < 2 ^ 32)
    (merge : MergePolicy) (arena : Nat) (mem : Memory) (calls : List FreeListCall)
    (hlegal : Runs.All (step merge) Legal (start totalSize arena mem) calls) :
    Tiled totalSize (start totalSize arena mem) ∧
      (Runs.All (step merge) (Keeps totalSize merge) (start totalSize arena mem) calls ↔
        Runs.All (step merge) CleanFit (start totalSize arena mem) calls) := by
  refine ⟨(wf_start hpos hsmall arena mem).tiled, ?_⟩
  exact Runs.steps_iff (WF totalSize arena) (fun _ _ hw hl =>
    ⟨cleanFit_of_keeps hw hl, keeps_of_cleanFit hw hl⟩)
    (fun _ _ hw hl hc => step_wf hw merge hl hc) (wf_start hpos hsmall _ _) hlegal

/-- The rule on a run that splits a block and frees it again. -/
theorem tiling_iff_cleanFit_split :
    Runs.All (step cMergePolicy) Legal (start 64 4096 fun _ => 0) [.allocate 8 8, .free 4104] ∧
      Runs.All (step cMergePolicy) (Keeps 64 cMergePolicy) (start 64 4096 fun _ => 0)
        [.allocate 8 8, .free 4104] := by
  have hlegal : Runs.All (step cMergePolicy) Legal (start 64 4096 fun _ => 0)
      [.allocate 8 8, .free 4104] := all_legal (by decide +kernel)
  have hclean : Runs.All (step cMergePolicy) CleanFit (start 64 4096 fun _ => 0)
      [.allocate 8 8, .free 4104] := by decide +kernel
  exact ⟨hlegal, (tiling_iff_cleanFit (by decide) (by decide) _ _ _ _ hlegal).2.mpr hclean⟩

/-- A legal request for all of the arena, the first block: the swap of slot
`-1` leaves the table. -/
theorem not_keeps_whole_arena :
    Runs.All (step cMergePolicy) Legal (start 16 4096 fun _ => 0) [.allocate 0 8] ∧
      ¬Runs.All (step cMergePolicy) (Keeps 16 cMergePolicy) (start 16 4096 fun _ => 0)
        [.allocate 0 8] := by
  have hstuck : (step cMergePolicy (start 16 4096 fun _ => 0) (.allocate 0 8)).map (·.live)
      = .error .outOfBounds := by decide +kernel
  constructor
  · exact all_legal (by decide +kernel)
  · intro hall
    obtain ⟨⟨w, hw, -⟩, -⟩ := Runs.all_cons.mp hall
    rw [hw] at hstuck
    cases hstuck

end Session

end MemAlloc
