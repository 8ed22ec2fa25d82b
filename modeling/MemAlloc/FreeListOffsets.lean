import MemAlloc.FreeListTiling

/-!
# Where blocks start in a clean run

Splits, merges and frees never invent an offset: after a clean call every
block, free or live, starts where one started before, or right behind a block
carved off there (`OffsetsAt.step`, for any predicate on offsets).

The block that reaches the end of the arena is always entry 0 of the list,
and never live: an exact fit of it would not be clean. So what a clean request
carves ends inside the arena (`OffsetsAt.found`).

`m_totalSize` is read by the guard of the search only. The run of an
allocator of any total size is therefore that of one with the low 32 bits
of it, which is what `Reset` puts into the table (`OffsetsIn`).
-/

namespace MemAlloc

open FreeListAllocator Coalesce MemBlock

/-! ## The total size -/

section

variable {ε α β α' β' : Type} {x : Except ε α} {f : α → α'} {g : α → Except ε β}
variable {g' : α' → Except ε β'} {h : β → β'}

/-- A call on mapped results, followed by one that commutes with the map. -/
theorem map_bind_eq (hg : ∀ a, g' (f a) = (g a).map h) : x.map f >>= g' = (x >>= g).map h := by
  cases x with
  | error e => rfl
  | ok a => exact hg a

theorem bind_eq_map {g' : α → Except ε β'} (hg : ∀ a, g' a = (g a).map h) :
    x >>= g' = (x >>= g).map h := by
  cases x with
  | error e => rfl
  | ok a => exact hg a

end

namespace FreeListAllocator

variable {s : FreeListAllocator} {n : Nat}

/-- The same allocator with another `m_totalSize`. -/
def withTotalSize (n : Nat) (s : FreeListAllocator) : FreeListAllocator :=
  { s with totalSize := n }

theorem setBlock_withTotalSize (i : Int) (b : MemBlock) :
    (s.withTotalSize n).setBlock i b = (s.setBlock i b).map (withTotalSize n) := by
  unfold setBlock
  split <;> rfl

theorem swapBlocks_withTotalSize (i j : Int) :
    (s.withTotalSize n).swapBlocks i j = (s.swapBlocks i j).map (withTotalSize n) := by
  refine bind_eq_map fun bi => bind_eq_map fun bj => ?_
  rw [setBlock_withTotalSize]
  exact map_bind_eq fun s' => setBlock_withTotalSize j bi

theorem writeHeader_withTotalSize (a v : Nat) :
    (s.withTotalSize n).writeHeader a v = (s.writeHeader a v).map (withTotalSize n) := by
  have hmapped : (s.withTotalSize n).mapped = s.mapped := rfl
  rw [writeHeader, writeHeader, hmapped]
  split <;> rfl

theorem carve_withTotalSize (i : Int) (b : MemBlock) (required : Nat) :
    (s.withTotalSize n).carve i b required = (s.carve i b required).map (withTotalSize n) := by
  simp only [carve]
  split
  · exact setBlock_withTotalSize _ _
  · rw [swapBlocks_withTotalSize]
    exact map_bind_eq fun s' => rfl

/-- Both branches of the merging loop end the same way. -/
theorem joinBlocks_withTotalSize (i q : Nat) (c : MemBlock) :
    (do
        let s ← (s.withTotalSize n).setBlock i c
        let s ← s.swapBlocks q (SizeT.sub s.currSize 1)
        return { s with currSize := SizeT.sub s.currSize 1 } : Except Stuck FreeListAllocator)
      = (do
        let s ← s.setBlock i c
        let s ← s.swapBlocks q (SizeT.sub s.currSize 1)
        return { s with currSize := SizeT.sub s.currSize 1 } : Except Stuck FreeListAllocator).map
          (withTotalSize n) := by
  rw [setBlock_withTotalSize]
  refine map_bind_eq fun s' => ?_
  rw [swapBlocks_withTotalSize]
  exact map_bind_eq fun s'' => rfl

theorem fastMergeLoop_withTotalSize (q : Nat) : ∀ i : Nat,
    fastMergeLoop (s.withTotalSize n) q i = (fastMergeLoop s q i).map (withTotalSize n)
  | 0 => rfl
  | i + 1 => by
      refine bind_eq_map fun a => bind_eq_map fun b => ?_
      split
      · exact joinBlocks_withTotalSize i q _
      · split
        · exact joinBlocks_withTotalSize i q _
        · exact fastMergeLoop_withTotalSize q i

theorem fullMergeLoop_withTotalSize : ∀ (i : Nat) {s : FreeListAllocator},
    fullMergeLoop (s.withTotalSize n) i = (fullMergeLoop s i).map (withTotalSize n)
  | 0, _ => rfl
  | i + 1, s => by
      rw [fullMergeLoop, fastMergeMemBlocks, fastMergeLoop_withTotalSize]
      exact map_bind_eq fun s' => fullMergeLoop_withTotalSize i

theorem mergeContiguous_withTotalSize (merge : MergePolicy) :
    (s.withTotalSize n).mergeContiguous merge
      = (s.mergeContiguous merge).map (withTotalSize n) := by
  cases merge with
  | enableFastMerge => exact fastMergeLoop_withTotalSize _ _
  | enableFullMerge => exact fullMergeLoop_withTotalSize _
  | enableFullMergeIfNoSpace =>
      have hfull : (s.withTotalSize n).shouldFullMerge = s.shouldFullMerge := rfl
      simp only [mergeContiguous, hfull]
      split
      · exact fullMergeLoop_withTotalSize _
      · rfl

/-- The guard of the search asks for the total size only when there are free
blocks. -/
theorem find_withTotalSize (hused : s.used = s.totalSize → s.currSize = 0)
    (hn : s.used = n → s.currSize = 0) (size : Nat) :
    (s.withTotalSize n).findFreeMemBlockIndex size = s.findFreeMemBlockIndex size := by
  have hloop : ∀ i d best,
      (s.withTotalSize n).findLoop size i d best = s.findLoop size i d best := by
    intro i
    induction i with
    | zero => intro d best; rfl
    | succ i ih =>
        intro d best
        have hat : (s.withTotalSize n).blockAt i = s.blockAt i := rfl
        simp only [findLoop, hat, ih]
  have hguard : ((s.withTotalSize n).currSize = 0 ∨ (s.withTotalSize n).shouldFullMerge ∨
      (s.withTotalSize n).used = (s.withTotalSize n).totalSize) ↔
        (s.currSize = 0 ∨ s.shouldFullMerge ∨ s.used = s.totalSize) := by
    show (s.currSize = 0 ∨ s.shouldFullMerge ∨ s.used = n) ↔ _
    tauto
  rw [findFreeMemBlockIndex, findFreeMemBlockIndex, hloop]
  exact if_congr hguard rfl rfl

theorem allocate_withTotalSize (hused : s.used = s.totalSize → s.currSize = 0)
    (hn : s.used = n → s.currSize = 0) (size alignment : Nat) :
    (s.withTotalSize n).allocate .none size alignment
      = (s.allocate .none size alignment).map (Prod.map id (withTotalSize n)) := by
  simp only [allocate, lock, pure_bind, find_withTotalSize hused hn]
  split
  · rfl
  refine bind_eq_map fun k => ?_
  split
  · rfl
  refine bind_eq_map fun b => ?_
  rw [carve_withTotalSize]
  refine map_bind_eq fun s' => ?_
  exact (congrArg (· >>= _) (writeHeader_withTotalSize (s := { s' with
    used := SizeT.add s'.used (requiredSize size alignment) }) _ _)).trans
      (map_bind_eq fun s'' => rfl)

theorem free_withTotalSize (merge : MergePolicy) (ptr : Nat) :
    (s.withTotalSize n).free .none merge ptr
      = (s.free .none merge ptr).map (Prod.map id (withTotalSize n)) := by
  have hfull : (s.withTotalSize n).shouldFullMerge = s.shouldFullMerge := rfl
  simp only [free, lock, pure_bind, hfull]
  split
  · rfl
  rw [setBlock_withTotalSize]
  refine map_bind_eq fun s' => bind_eq_map fun blockSize => ?_
  refine (congrArg (· >>= _) (setBlock_withTotalSize (s := { s' with
    currSize := SizeT.add s'.currSize 1 }) _ _)).trans (map_bind_eq fun s'' => ?_)
  exact (congrArg (· >>= _) (mergeContiguous_withTotalSize (s := { s'' with
    used := SizeT.sub s''.used blockSize }) merge)).trans (map_bind_eq fun u => rfl)

end FreeListAllocator

/-! ## The list of free blocks -/

/-- The blocks of the list start where `P` holds, and none but entry 0 ends
at `n`. -/
def StartsAt (P : Nat → Prop) (n : Nat) (l : List MemBlock) : Prop :=
  ∀ k b, l[k]? = some b → P b.memBlockOffset ∧ (b.memBlockOffset + b.blockSize = n → k = 0)

namespace StartsAt

variable {P : Nat → Prop} {n : Nat} {l : List MemBlock}

theorem single {b : MemBlock} (hP : P b.memBlockOffset) : StartsAt P n [b] := by
  intro k c hc
  rw [List.getElem?_singleton] at hc
  split at hc
  · rename_i hk
    obtain rfl := Option.some.inj hc
    exact ⟨hP, fun _ => hk⟩
  · cases hc

/-- A join starts with the lower of its parts, and ends with the higher: when
this is the pivot, it did not end at `n`. -/
theorem mergeAt (hrange : ∀ b ∈ l, b.InRange) (h : StartsAt P n l) (q : Nat) :
    StartsAt P n (mergeAt touches join l q) := by
  cases hb : l[q]? with
  | none => rwa [mergeAt_of_length_le (List.getElem?_eq_none_iff.mp hb)]
  | some b =>
      rcases mergeAt_cases join hb with ⟨heq, -⟩ | ⟨i, a, hiq, ha, ht, heq⟩
      · rwa [heq]
      · have hqlen := (List.getElem?_eq_some_iff.mp hb).1
        have hjoin : P (join a b).memBlockOffset ∧
            ((join a b).memBlockOffset + (join a b).blockSize = n → i = 0) := by
          obtain ⟨hPa, hna⟩ := h i a ha
          obtain ⟨hPb, hnb⟩ := h q b hb
          rcases join_cases (hrange a (List.mem_of_getElem? ha))
            (hrange b (List.mem_of_getElem? hb)) ht with ⟨hab, hj⟩ | ⟨hab, hj⟩ <;> rw [hj]
          · exact ⟨hPa, fun hend => by have := hnb (by simp only at hend; omega); omega⟩
          · exact ⟨hPb, fun hend => hna (by simp only at hend; omega)⟩
        rw [heq]
        intro k c hc
        rw [getElem?_swapRemove (by simpa using hqlen), List.length_set] at hc
        split at hc
        · split at hc
          · -- the last entry takes the place of the pivot
            rw [List.getElem?_set_ne (by omega)] at hc
            obtain ⟨hP, hend⟩ := h _ c hc
            exact ⟨hP, fun hn => by have := hend hn; omega⟩
          · by_cases hki : k = i
            · subst hki
              rw [List.getElem?_set_self (by omega)] at hc
              obtain rfl := Option.some.inj hc
              exact hjoin
            · rw [List.getElem?_set_ne (Ne.symm hki)] at hc
              exact h k c hc
        · cases hc

theorem passFrom : ∀ {q : Nat} {l : List MemBlock}, (∀ b ∈ l, b.InRange) → StartsAt P n l →
    StartsAt P n (passFrom touches join l q)
  | 0, _, _, h => h
  | q + 1, l, hrange, h => by
      rw [Coalesce.passFrom]
      exact passFrom (mergeAt_ok MemBlock.laws hrange q) (h.mergeAt hrange q)

theorem append (h : StartsAt P n l) {b : MemBlock} (hP : P b.memBlockOffset)
    (hend : b.memBlockOffset + b.blockSize ≠ n) : StartsAt P n (l ++ [b]) := by
  intro k c hc
  rw [List.getElem?_append] at hc
  split at hc
  · exact h k c hc
  · rw [List.getElem?_singleton] at hc
    split at hc
    · obtain rfl := Option.some.inj hc
      exact ⟨hP, fun hn => absurd hn hend⟩
    · cases hc

/-- The front of an entry is carved off. -/
theorem set (h : StartsAt P n l) {k : Nat} {b : MemBlock} (hb : l[k]? = some b) {required : Nat}
    (hfit : required ≤ b.blockSize) (hP : P (b.memBlockOffset + required)) :
    StartsAt P n (l.set k ⟨b.memBlockOffset + required, b.blockSize - required⟩) := by
  obtain ⟨-, hend⟩ := h k b hb
  intro i c hc
  by_cases hik : i = k
  · subst hik
    rw [List.getElem?_set_self (List.getElem?_eq_some_iff.mp hb).1] at hc
    obtain rfl := Option.some.inj hc
    exact ⟨hP, fun hn => hend (by simp only at hn; omega)⟩
  · rw [List.getElem?_set_ne (Ne.symm hik)] at hc
    exact h i c hc

theorem take (h : StartsAt P n l) (k : Nat) : StartsAt P n (l.take k) := by
  intro i c hc
  rw [List.getElem?_take] at hc
  split at hc
  · exact h i c hc
  · cases hc

end StartsAt

namespace Session

variable {P : Nat → Prop} {n arena : Nat} {merge : MergePolicy} {w w' : Session}
variable {call : FreeListCall}

/-! ## Clean calls -/

/-- In a session that tiles `n` bytes, every block starts where `P` holds,
and none but entry 0 of the list ends at `n`. -/
structure OffsetsAt (P : Nat → Prop) (n arena : Nat) (w : Session) : Prop where
  wf : WF n arena w
  free : StartsAt P n w.alloc.freeBlocks
  live : ∀ l ∈ w.live, P (liveExtent w.alloc l).start ∧ (liveExtent w.alloc l).stop ≠ n

/-- What is left of a block that starts where `P` holds does so too. -/
def CarvesAt (P : Nat → Prop) (n : Nat) : FreeListCall → Prop
  | .allocate size alignment => ∀ o, P o → o + requiredSize size alignment < n →
      P (o + requiredSize size alignment)
  | _ => True

namespace OffsetsAt

/-- The block a clean request finds: what is carved off it ends inside. -/
theorem found (h : OffsetsAt P n arena w) {size alignment k : Nat} {b : MemBlock}
    (hclean : CleanFit w (.allocate size alignment))
    (hfind : w.alloc.findFreeMemBlockIndex (requiredSize size alignment) = .ok (k : Int))
    (hb : w.alloc.freeBlocks[k]? = some b) (hfit : requiredSize size alignment ≤ b.blockSize) :
    P b.memBlockOffset ∧ b.memBlockOffset + requiredSize size alignment < n := by
  obtain ⟨hP, hend⟩ := h.free k b hb
  have hle := (h.wf.laid.block_le (List.mem_of_getElem? hb)).2
  refine ⟨hP, ?_⟩
  rcases hclean k b hfind hb with hlt | ⟨hpos, -, -⟩
  · omega
  · have : b.memBlockOffset + b.blockSize ≠ n := fun heq => by have := hend heq; omega
    omega

/-- The header written into the carved block leaves the others where they
are. -/
theorem granted (h : OffsetsAt P n arena w) {b : MemBlock} (hb : b ∈ w.alloc.freeBlocks)
    {required size m : Nat} {t : Vector MemBlock freeMemBlocksSize}
    (hreq : cAllocationHeaderSize ≤ required) (hfit : required ≤ b.blockSize)
    (hwf : WF n arena ⟨w.alloc.granted t m (w.alloc.startPtr + b.memBlockOffset) required,
      ⟨w.alloc.startPtr + b.memBlockOffset + cAllocationHeaderSize, size⟩ :: w.live⟩)
    (hfree : StartsAt P n (t.toList.take m)) (hP : P b.memBlockOffset)
    (hlt : b.memBlockOffset + required < n) :
    OffsetsAt P n arena ⟨w.alloc.granted t m (w.alloc.startPtr + b.memBlockOffset) required,
      ⟨w.alloc.startPtr + b.memBlockOffset + cAllocationHeaderSize, size⟩ :: w.live⟩ := by
  obtain ⟨-, hnew, hold⟩ := h.wf.live_granted hb hreq hfit t m size
  refine ⟨hwf, hfree, fun l hl => ?_⟩
  rcases List.mem_cons.mp hl with rfl | hl'
  · rw [hnew]
    exact ⟨hP, Nat.ne_of_lt hlt⟩
  · have hsame : liveExtent (w.alloc.granted t m (w.alloc.startPtr + b.memBlockOffset) required) l
        = liveExtent w.alloc l := congrArg (Extent.mk _) (hold l hl')
    rw [hsame]
    exact h.live l hl'

/-- A merge of the list, or none. -/
theorem merged (h : OffsetsAt P n arena w) {t : Vector MemBlock freeMemBlocksSize} {m : Nat}
    (hm : m ≤ w.alloc.currSize)
    (ht : t.toList.take m = w.alloc.freeBlocks ∨
      (∃ q, t.toList.take m = mergeAt touches join w.alloc.freeBlocks q) ∨
      t.toList.take m = pass touches join w.alloc.freeBlocks) :
    OffsetsAt P n arena ⟨w.alloc.withTable t m, w.live⟩ := by
  have hrange : ∀ b ∈ w.alloc.freeBlocks, b.InRange := fun b hb => h.wf.laid.inRange hb
  refine ⟨h.wf.merged hm ht, ?_, h.live⟩
  rw [freeBlocks_withTable]
  rcases ht with ht | ⟨q, ht⟩ | ht
  · rw [ht]
    exact h.free
  · rw [ht]
    exact h.free.mergeAt hrange q
  · rw [ht]
    exact h.free.passFrom hrange

/-- The block that `Free` pushes was live. -/
theorem released (h : OffsetsAt P n arena w) {l : Lease} (hl : l ∈ w.live)
    (hcap : w.alloc.currSize < freeMemBlocksSize) {t : Vector MemBlock freeMemBlocksSize}
    (ht : t.toList.take (w.alloc.currSize + 1) = w.alloc.freeBlocks ++ [w.alloc.blockOf l.ptr]) :
    OffsetsAt P n arena ⟨w.alloc.released t (w.alloc.blockOf l.ptr).blockSize,
      w.live.eraseP (·.ptr == l.ptr)⟩ := by
  obtain ⟨hP, hend⟩ := h.live l hl
  rw [← h.wf.laid.blockOf_extent hl] at hP hend
  refine ⟨h.wf.released hl hcap ht, ?_, fun l' hl' => h.live l' (List.mem_of_mem_eraseP hl')⟩
  rw [freeBlocks_released, ht]
  exact h.free.append hP hend

/-- **Step lemma.** -/
theorem step (h : OffsetsAt P n arena w) (hP : CarvesAt P n call) (hlegal : Legal w call)
    (hclean : CleanFit w call) (hok : step merge w call = .ok w') : OffsetsAt P n arena w' := by
  cases call with
  | allocate size alignment =>
      obtain ⟨u, hu, hwf, -⟩ := h.wf.step_allocate merge hlegal hclean
      obtain rfl := Except.ok.inj (hu.symm.trans hok)
      rcases h.wf.allocate_clean merge hlegal hclean with
        hrun | ⟨k, b, t, m, hb, -, hreq, hrun, hcarved⟩
      · rwa [← Except.ok.inj (hrun.symm.trans hok)]
      obtain rfl := Except.ok.inj (hrun.symm.trans hok)
      have hmem := List.mem_of_getElem? hb
      have hle := (h.wf.laid.block_le hmem).2
      obtain ⟨hstart, hend⟩ := h.free k b hb
      rcases hcarved with ⟨hlt, rfl, ht⟩ | ⟨heq, hpos, -, rfl, ht⟩
      · refine h.granted hmem (by omega) (Nat.le_of_lt hlt) hwf ?_ hstart (by omega)
        rw [ht]
        exact h.free.set hb (Nat.le_of_lt hlt) (hP _ hstart (by omega))
      · -- an entry that does not reach the end
        have hne : b.memBlockOffset + b.blockSize ≠ n := fun heq => by have := hend heq; omega
        refine h.granted hmem (by omega) (Nat.le_of_eq heq) hwf ?_ hstart (by omega)
        rw [ht]
        exact h.free.take _
  | free ptr =>
      obtain ⟨l, hl, rfl⟩ := hlegal
      rcases Nat.eq_or_lt_of_le h.wf.cap with hfull | hcap
      · rw [step_free_false (free_full merge l.ptr hfull)] at hok
        rwa [← Except.ok.inj hok]
      · obtain ⟨t, hrun, ht⟩ := free_spec merge l.ptr hcap (h.wf.laid.hasWord hl)
        have hpushed := h.released hl hcap ht
        obtain ⟨t', m, hmerge, hm, ht'⟩ :=
          mergeContiguous_spec hpushed.wf.cap (Nat.succ_pos _) merge
        rw [hmerge] at hrun
        rw [step_free_true hrun] at hok
        rw [← Except.ok.inj hok]
        exact hpushed.merged hm (ht'.imp_right (Or.imp_left fun hq => ⟨_, hq⟩))
  | fullMergeMemBlocks =>
      obtain ⟨t, m, hrun, hm, ht⟩ := fullMergeMemBlocks_spec h.wf.cap
      simp only [Session.step, hrun, ok_bind] at hok
      rw [← Except.ok.inj hok]
      exact h.merged hm (Or.inr (Or.inr ht))
  | clientWrites mem =>
      obtain rfl := Except.ok.inj hok
      refine ⟨h.wf.clientWrites hlegal, h.free, fun l hl => ?_⟩
      have hsame : liveExtent { w.alloc with mem } l = liveExtent w.alloc l :=
        congrArg (Extent.mk _) (h.wf.header_clientWrites hlegal hl)
      rw [hsame]
      exact h.live l hl

end OffsetsAt

/-! ## Any total size -/

/-- The same session, its allocator with another `m_totalSize`. -/
def withTotalSize (n : Nat) (w : Session) : Session := ⟨w.alloc.withTotalSize n, w.live⟩

theorem step_withTotalSize (hused : w.alloc.used = w.alloc.totalSize → w.alloc.currSize = 0)
    (hn : w.alloc.used = n → w.alloc.currSize = 0) (merge : MergePolicy) (call : FreeListCall) :
    step merge (w.withTotalSize n) call = (step merge w call).map (withTotalSize n) := by
  cases call with
  | allocate size alignment =>
      exact (congrArg (· >>= _) (allocate_withTotalSize hused hn size alignment)).trans
        (map_bind_eq fun r => rfl)
  | free ptr =>
      exact (congrArg (· >>= _) (free_withTotalSize merge ptr)).trans (map_bind_eq fun r => rfl)
  | fullMergeMemBlocks =>
      exact (congrArg (· >>= _) (fullMergeLoop_withTotalSize _)).trans (map_bind_eq fun r => rfl)
  | clientWrites mem => rfl

theorem cleanFit_withTotalSize (hused : w.alloc.used = w.alloc.totalSize → w.alloc.currSize = 0)
    (hn : w.alloc.used = n → w.alloc.currSize = 0) (hclean : CleanFit w call) :
    CleanFit (w.withTotalSize n) call := by
  cases call with
  | allocate size alignment =>
      intro k b hfind hb
      exact hclean k b ((find_withTotalSize hused hn _).symm.trans hfind) hb
  | free ptr => trivial
  | fullMergeMemBlocks => trivial
  | clientWrites mem => trivial

/-- What the table of an arena of any size covers, the low 32 bits of it, is
tiled as in `OffsetsAt`. -/
structure OffsetsIn (P : Nat → Prop) (n arena : Nat) (w : Session) : Prop where
  low : n ≤ w.alloc.totalSize
  offsets : OffsetsAt P n arena (w.withTotalSize n)

namespace OffsetsIn

/-- Either total size is in use only when no block is free. -/
theorem full (h : OffsetsIn P n arena w) :
    (w.alloc.used = w.alloc.totalSize → w.alloc.currSize = 0) ∧
      (w.alloc.used = n → w.alloc.currSize = 0) := by
  have hn : w.alloc.used = n → w.alloc.currSize = 0 := fun hused => by
    have hnil : w.alloc.freeBlocks = [] := h.offsets.wf.freeBlocks_eq_nil hused
    have hlen : w.alloc.freeBlocks.length = w.alloc.currSize := length_freeBlocks h.offsets.wf.cap
    rw [← hlen, hnil]
    rfl
  refine ⟨fun hused => hn ?_, hn⟩
  have hle := h.low
  have hsum : w.alloc.used + _ = n := h.offsets.wf.laid.used_add_free
  omega

/-- `OffsetsAt.found`. -/
theorem found (h : OffsetsIn P n arena w) {size alignment k : Nat} {b : MemBlock}
    (hclean : CleanFit w (.allocate size alignment))
    (hfind : w.alloc.findFreeMemBlockIndex (requiredSize size alignment) = .ok (k : Int))
    (hb : w.alloc.freeBlocks[k]? = some b) (hfit : requiredSize size alignment ≤ b.blockSize) :
    P b.memBlockOffset ∧ b.memBlockOffset + requiredSize size alignment < n := by
  obtain ⟨hused, hn⟩ := h.full
  exact h.offsets.found (cleanFit_withTotalSize hused hn hclean)
    ((find_withTotalSize hused hn _).trans hfind) hb hfit

/-- **Step lemma.** -/
theorem step (h : OffsetsIn P n arena w) (hP : CarvesAt P n call) (hlegal : Legal w call)
    (hclean : CleanFit w call) (hok : step merge w call = .ok w') : OffsetsIn P n arena w' := by
  obtain ⟨hused, hn⟩ := h.full
  have hlow : Session.step merge (w.withTotalSize n) call = .ok (w'.withTotalSize n) := by
    rw [step_withTotalSize hused hn, hok]
    rfl
  -- the total size itself stays what it is
  have htotal : w' = w'.withTotalSize w.alloc.totalSize := by
    have hself := step_withTotalSize hused hused merge call
    rw [hok] at hself
    exact Except.ok.inj (hok.symm.trans hself)
  refine ⟨?_, h.offsets.step hP ?_ (cleanFit_withTotalSize hused hn hclean) hlow⟩
  · rw [htotal]
    exact h.low
  · cases call <;> exact hlegal

end OffsetsIn

theorem offsetsIn_start (hP : P 0) {totalSize : Nat} (hn : SizeT.uint32 totalSize = n)
    (hpos : 0 < n) (arena : Nat) (mem : Memory) :
    OffsetsIn P n arena (start totalSize arena mem) := by
  have hle : n ≤ totalSize := by
    rw [← hn]
    exact SizeT.uint32_le totalSize
  have hsmall : n < 2 ^ 32 := by
    rw [← hn]
    exact SizeT.uint32_lt totalSize
  have hblocks : (start totalSize arena mem).alloc.freeBlocks = [⟨0, n⟩] := by
    rw [freeBlocks_start, hn]
  refine ⟨hle, ⟨rfl, rfl, hsmall, show 1 ≤ freeMemBlocksSize by decide, ?_, rfl,
    fun a hlo hhi => mapped_start totalSize arena mem a hlo (by omega), fun l hl => by cases hl⟩,
    ?_, fun l hl => by cases hl⟩
  · show Tiles n ((start totalSize arena mem).alloc.freeBlocks.map MemBlock.extent ++ [])
    rw [hblocks]
    exact Tiles.single hpos
  · show StartsAt P n (start totalSize arena mem).alloc.freeBlocks
    rw [hblocks]
    exact StartsAt.single hP

/-- With a multiple of `2 ^ 32` as total size the table covers nothing. -/
structure Idle (w : Session) : Prop where
  table : InTable w.alloc
  blocks : w.alloc.freeBlocks = [⟨0, 0⟩]
  live : w.live = []

namespace Idle

theorem not_fit (h : Idle w) {size alignment k : Nat} {b : MemBlock}
    (hlegal : Legal w (.allocate size alignment)) (hb : w.alloc.freeBlocks[k]? = some b) :
    ¬requiredSize size alignment ≤ b.blockSize := by
  obtain ⟨-, e, he, rfl⟩ := hlegal
  have hreq := requiredSize_gt size he
  have hmem := List.mem_of_getElem? hb
  rw [h.blocks, List.mem_singleton] at hmem
  rw [hmem]
  exact Nat.not_le_of_lt (Nat.zero_lt_of_lt hreq)

/-- **Step lemma.** -/
theorem step (h : Idle w) (hlegal : Legal w call) (hok : step merge w call = .ok w') :
    Idle w' := by
  have htable := (step_inTable h.table hok).1
  cases call with
  | allocate size alignment =>
      obtain ⟨⟨r, a⟩, hrun, hok⟩ := bind_eq_ok.mp hok
      obtain rfl := Except.ok.inj hok
      rcases (h.table.allocate_ok hrun).2 with ⟨-, rfl, rfl⟩ | ⟨k, b, t, m, -, hb, hfit, -⟩
      · exact ⟨htable, h.blocks, h.live⟩
      · exact absurd hfit (h.not_fit hlegal hb)
  | free ptr =>
      obtain ⟨l, hl, -⟩ := hlegal
      rw [h.live] at hl
      cases hl
  | fullMergeMemBlocks =>
      obtain ⟨t, m, hrun, -, ht⟩ := fullMergeMemBlocks_spec h.table
      simp only [Session.step, hrun, ok_bind] at hok
      obtain rfl := Except.ok.inj hok
      refine ⟨htable, ?_, h.live⟩
      rw [freeBlocks_withTable, ht, h.blocks]
      rfl
  | clientWrites mem =>
      obtain rfl := Except.ok.inj hok
      exact ⟨htable, h.blocks, h.live⟩

end Idle

theorem idle_start {totalSize : Nat} (hn : SizeT.uint32 totalSize = 0) (arena : Nat)
    (mem : Memory) : Idle (start totalSize arena mem) :=
  ⟨inTable_start totalSize arena mem, by rw [freeBlocks_start, hn], rfl⟩

end Session

end MemAlloc
