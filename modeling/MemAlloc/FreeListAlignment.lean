import MemAlloc.FreeListOffsets

/-!
# Alignment of `FreeListAllocator`

The client's pointer lies a header behind the start of the block, and the
padding is computed from the size: a returned pointer is aligned when the
offset of the block found, plus the header, is a multiple of the alignment.

Which offsets there are depends on the requests of the run. Requests that an
arena has room for one after the other have to suit each other: each alignment
divides the header size and what the others require. For runs whose exact fits
are clean this is exact, both ways (`freeList_aligned_iff`). An exact fit that
is not clean brings back slots past the list, and blocks that are handed out
twice may have any header written into them, so that no request is too large
to be granted; when all requests of the set suit each other, all slots of the
table, those past the list too, stay at multiples of every alignment even then
(`Grid`).
-/

namespace MemAlloc

open FreeListAllocator

namespace FreeListAllocator

/-! ## The slots of the table -/

/-- Every slot of the table is at a multiple of `a`. -/
structure Grid (a arena : Nat) (s : FreeListAllocator) : Prop where
  start : s.startPtr = arena
  slots : ∀ b ∈ s.freeMemBlocks.toList, a ∣ b.memBlockOffset

variable {a arena : Nat} {s s' : FreeListAllocator} {i j : Int} {b : MemBlock}

namespace Grid

variable (h : Grid a arena s)
include h

theorem blockAt (hok : s.blockAt i = .ok b) : a ∣ b.memBlockOffset := by
  unfold FreeListAllocator.blockAt at hok
  split at hok
  · rename_i hi
    obtain rfl := Except.ok.inj hok
    exact h.slots _ (List.getElem_mem (n := i.toNat) (by simpa using hi.2))
  · cases hok

theorem setBlock (hb : a ∣ b.memBlockOffset) (hok : s.setBlock i b = .ok s') :
    Grid a arena s' := by
  unfold FreeListAllocator.setBlock at hok
  split at hok
  · obtain rfl := Except.ok.inj hok
    refine ⟨h.start, ?_⟩
    intro c hc
    rw [Vector.toList_set] at hc
    rcases List.mem_or_eq_of_mem_set hc with hold | rfl
    · exact h.slots c hold
    · exact hb
  · cases hok

theorem swapBlocks (hok : s.swapBlocks i j = .ok s') : Grid a arena s' := by
  simp only [FreeListAllocator.swapBlocks, bind_eq_ok] at hok
  obtain ⟨bi, hbi, bj, hbj, s₁, h₁, h₂⟩ := hok
  exact (h.setBlock (h.blockAt hbj) h₁).setBlock (h.blockAt hbi) h₂

end Grid

/-- Either branch of the loop writes an offset that is in the table. -/
theorem Grid.fastMergeLoop : ∀ {n q : Nat} {s s' : FreeListAllocator}, Grid a arena s →
    fastMergeLoop s q n = .ok s' → Grid a arena s'
  | 0, _, _, _, h, hok => by
      obtain rfl := Except.ok.inj hok
      exact h
  | n + 1, q, s, s', h, hok => by
      simp only [FreeListAllocator.fastMergeLoop, bind_eq_ok] at hok
      obtain ⟨block, hblock, pivot, hpivot, hok⟩ := hok
      split at hok
      · simp only [bind_eq_ok] at hok
        obtain ⟨s₁, h₁, s₂, h₂, hok⟩ := hok
        obtain rfl := Except.ok.inj hok
        have hdvd := h.blockAt hblock
        obtain ⟨hstart, hslots⟩ := (h.setBlock (by exact hdvd) h₁).swapBlocks h₂
        exact ⟨hstart, hslots⟩
      · split at hok
        · simp only [bind_eq_ok] at hok
          obtain ⟨s₁, h₁, s₂, h₂, hok⟩ := hok
          obtain rfl := Except.ok.inj hok
          have hdvd := h.blockAt hpivot
          obtain ⟨hstart, hslots⟩ := (h.setBlock (by exact hdvd) h₁).swapBlocks h₂
          exact ⟨hstart, hslots⟩
        · exact Grid.fastMergeLoop h hok

theorem Grid.fullMergeLoop : ∀ {n : Nat} {s s' : FreeListAllocator}, Grid a arena s →
    fullMergeLoop s n = .ok s' → Grid a arena s'
  | 0, _, _, h, hok => by
      obtain rfl := Except.ok.inj hok
      exact h
  | n + 1, s, s', h, hok => by
      simp only [FreeListAllocator.fullMergeLoop, bind_eq_ok] at hok
      obtain ⟨s₁, h₁, hok⟩ := hok
      exact Grid.fullMergeLoop (h.fastMergeLoop h₁) hok

namespace Grid

variable (h : Grid a arena s)
include h

theorem mergeContiguous {merge : MergePolicy} (hok : s.mergeContiguous merge = .ok s') :
    Grid a arena s' := by
  cases merge with
  | enableFastMerge => exact h.fastMergeLoop hok
  | enableFullMerge => exact h.fullMergeLoop hok
  | enableFullMergeIfNoSpace =>
      simp only [FreeListAllocator.mergeContiguous] at hok
      split at hok
      · exact h.fullMergeLoop hok
      · obtain rfl := Except.ok.inj hok
        exact h

/-- A block carved off the front moves the offset on by the required size. -/
theorem carve {required : Nat} (hb : a ∣ b.memBlockOffset) (ha : a ∣ 2 ^ 32) (hreq : a ∣ required)
    (hok : s.carve i b required = .ok s') : Grid a arena s' := by
  simp only [FreeListAllocator.carve] at hok
  split at hok
  · refine h.setBlock ?_ hok
    unfold SizeT.add SizeT.uint32
    have ha64 : a ∣ 2 ^ 64 := Nat.dvd_trans ha (by decide)
    exact (Nat.dvd_mod_iff ha64).mpr (Nat.dvd_add hb ((Nat.dvd_mod_iff ha).mpr hreq))
  · simp only [bind_eq_ok] at hok
    obtain ⟨s₁, h₁, hok⟩ := hok
    obtain rfl := Except.ok.inj hok
    obtain ⟨hstart, hslots⟩ := h.swapBlocks h₁
    exact ⟨hstart, hslots⟩

theorem free {merge : MergePolicy} {o : Nat} {ok : Bool} (ha : a ∣ 2 ^ 32) (ho : a ∣ o)
    (hok : s.free .none merge (arena + o + cAllocationHeaderSize) = .ok (ok, s')) :
    Grid a arena s' := by
  have hoffset : a ∣ SizeT.uint32OfInt
      ((allocationHeader (arena + o + cAllocationHeaderSize) : Int) - s.startPtr) := by
    rw [allocationHeader_add, h.start]
    have hdiff : (((arena + o : Nat) : Int) - arena) = (o : Int) := by omega
    unfold SizeT.uint32OfInt
    rw [hdiff]
    have : ((o : Int) % 2 ^ 32).toNat = o % 2 ^ 32 := by omega
    rw [this]
    exact (Nat.dvd_mod_iff ha).mpr ho
  simp only [FreeListAllocator.free, lock, pure_bind] at hok
  split at hok
  · obtain ⟨-, rfl⟩ := Prod.mk.inj (Except.ok.inj hok)
    exact h
  · simp only [bind_eq_ok] at hok
    obtain ⟨s₁, h₁, blockSize, -, s₂, h₂, s₃, h₃, hok⟩ := hok
    obtain ⟨-, rfl⟩ := Prod.mk.inj (Except.ok.inj hok)
    obtain ⟨hstart₁, hslots₁⟩ := h.setBlock hoffset h₁
    have hpushed : Grid a arena { s₁ with currSize := SizeT.add s₁.currSize 1 } :=
      ⟨hstart₁, hslots₁⟩
    obtain ⟨hstart₂, hslots₂⟩ := hpushed.setBlock hoffset h₂
    have hmerged : Grid a arena s₃ := Grid.mergeContiguous (by exact ⟨hstart₂, hslots₂⟩) h₃
    exact hmerged

end Grid

end FreeListAllocator

namespace Session

variable {a arena : Nat} {merge : MergePolicy} {requests : Set Request} {w w' : Session}
variable {call : FreeListCall}

/-- Requests clients may make of an arena that is a multiple of every
alignment used. -/
def Admissible (arena : Nat) (requests : Set Request) : Prop :=
  ∀ r ∈ requests, r.size < 2 ^ 64 ∧ (∃ k ≤ 63, r.alignment = 2 ^ k) ∧ r.alignment ∣ arena

/-- The calls: requests of the set, and all else clients may do. -/
def RequestCall (requests : Set Request) (w : Session) : FreeListCall → Prop
  | .allocate size alignment => ⟨size, alignment⟩ ∈ requests
  | call => Legal w call

/-- A non-null result is a multiple of the alignment. -/
def Aligned (w : Session) : FreeListCall → Prop
  | .allocate size alignment => ∀ p alloc,
      w.alloc.allocate .none size alignment = .ok (some p, alloc) → alignment ∣ p
  | _ => True

/-- The pointer lies a header behind the start of the block carved. -/
theorem aligned_of_offset {size alignment : Nat} (h : InTable w.alloc)
    (hoffset : ∀ (k : Nat) (b : MemBlock),
      w.alloc.findFreeMemBlockIndex (requiredSize size alignment) = .ok (k : Int) →
      w.alloc.freeBlocks[k]? = some b → requiredSize size alignment ≤ b.blockSize →
        alignment ∣ w.alloc.startPtr + b.memBlockOffset + cAllocationHeaderSize) :
    Aligned w (.allocate size alignment) := by
  intro p alloc hrun
  rcases (h.allocate_ok hrun).2 with ⟨-, hnone, -⟩ | ⟨k, b, -, -, hfind, hb, hfit, -, -, -, hp, -⟩
  · cases hnone
  · obtain rfl := Option.some.inj hp
    exact hoffset k b hfind hb hfit

theorem required_of_admissible (hadm : Admissible arena requests) {r : Request}
    (hr : r ∈ requests) :
    r.alignment ≠ 0 ∧ cAllocationHeaderSize < requiredSize r.size r.alignment := by
  obtain ⟨-, ⟨k, hk, hpow⟩, -⟩ := hadm r hr
  rw [hpow]
  have hreq := requiredSize_gt r.size hk
  exact ⟨(Nat.two_pow_pos k).ne', by omega⟩

theorem legal_of_request (hadm : Admissible arena requests) (hcall : RequestCall requests w call) :
    Legal w call := by
  cases call with
  | allocate size alignment =>
      obtain ⟨hsize, hpow, -⟩ := hadm _ hcall
      exact ⟨hsize, hpow⟩
  | free ptr => exact hcall
  | fullMergeMemBlocks => trivial
  | clientWrites mem => exact hcall

/-! ## Requests that suit each other -/

/-- Each alignment of the set divides the header size and what each request
of it requires. -/
def Commensurate (requests : Set Request) : Prop :=
  ∀ r ∈ requests, r.alignment ∣ cAllocationHeaderSize ∧
    ∀ r' ∈ requests, r.alignment ∣ requiredSize r'.size r'.alignment

/-- The same, asked only of the requests that some arena has room for, and of
the requests it has room for in front of them. -/
def CommensurateInArena (requests : Set Request) : Prop :=
  ∀ r ∈ requests, requiredSize r.size r.alignment + 1 < 2 ^ 32 →
    r.alignment ∣ cAllocationHeaderSize ∧
      ∀ r' ∈ requests,
        requiredSize r'.size r'.alignment + requiredSize r.size r.alignment + 1 < 2 ^ 32 →
          r.alignment ∣ requiredSize r'.size r'.alignment

/-- For requests below half of the address range there is no difference. -/
theorem CommensurateInArena.commensurate (h : CommensurateInArena requests)
    (hsize : ∀ r ∈ requests, requiredSize r.size r.alignment < 2 ^ 31) :
    Commensurate requests := by
  intro r hr
  have hr31 := hsize r hr
  obtain ⟨hhead, hreq⟩ := h r hr (by omega)
  refine ⟨hhead, fun r' hr' => hreq r' hr' ?_⟩
  have hr31' := hsize r' hr'
  omega

/-! ## All runs of a set of requests -/

/-- Every slot of the table and every live block is at a multiple of `a`. -/
structure OnGrid (a arena : Nat) (w : Session) : Prop where
  table : InTable w.alloc
  grid : Grid a arena w.alloc
  live : ∀ l ∈ w.live, ∃ o, l.ptr = arena + o + cAllocationHeaderSize ∧ a ∣ o

theorem onGrid_start (a totalSize arena : Nat) (mem : Memory) :
    OnGrid a arena (start totalSize arena mem) where
  table := inTable_start totalSize arena mem
  grid := by
    refine ⟨rfl, ?_⟩
    intro b hb
    have hpos : 0 < freeMemBlocksSize := by decide
    have hset : (start totalSize arena mem).alloc.freeMemBlocks.toList
        = (construct totalSize mem).freeMemBlocks.toList.set 0 ⟨0, SizeT.uint32 totalSize⟩ :=
      Vector.toList_set hpos
    rw [hset] at hb
    rcases List.mem_or_eq_of_mem_set hb with hold | rfl
    · rw [construct, Vector.toList_replicate] at hold
      rw [List.eq_of_mem_replicate hold]
      exact Nat.dvd_zero a
    · exact Nat.dvd_zero a
  live l hl := by cases hl

theorem OnGrid.step (h : OnGrid a arena w) (ha : a ∣ 2 ^ 32)
    (hreq : ∀ r ∈ requests, a ∣ requiredSize r.size r.alignment)
    (hcall : RequestCall requests w call) (hok : step merge w call = .ok w') :
    OnGrid a arena w' := by
  have htable := (step_inTable h.table hok).1
  cases call with
  | allocate size alignment =>
      obtain ⟨⟨r, a⟩, hrun, hok⟩ := bind_eq_ok.mp hok
      obtain rfl := Except.ok.inj hok
      rcases (h.table.allocate_ok hrun).2 with
        ⟨-, rfl, rfl⟩ | ⟨k, b, t, n, -, hb, -, -, -, hcarve, rfl, rfl⟩
      · exact ⟨htable, h.grid, h.live⟩
      · have hoffset := h.grid.slots b (List.mem_of_getElem? (getElem?_freeBlocks hb).2)
        obtain ⟨hstart, hslots⟩ := h.grid.carve hoffset ha (hreq _ hcall) hcarve
        refine ⟨htable, ⟨hstart, hslots⟩, ?_⟩
        intro l hl
        rcases List.mem_cons.mp hl with rfl | hl'
        · exact ⟨b.memBlockOffset, by rw [h.grid.start], hoffset⟩
        · exact h.live l hl'
  | free ptr =>
      obtain ⟨l, hl, rfl⟩ := hcall
      obtain ⟨o, hptr, ho⟩ := h.live l hl
      simp only [Session.step, bind_eq_ok] at hok
      obtain ⟨⟨ok, alloc⟩, hfree, hok⟩ := hok
      obtain rfl := Except.ok.inj hok
      rw [hptr] at hfree
      refine ⟨htable, h.grid.free ha ho hfree, ?_⟩
      intro l' hl'
      split at hl'
      · exact h.live l' (List.mem_of_mem_eraseP hl')
      · exact h.live l' hl'
  | fullMergeMemBlocks =>
      simp only [Session.step, bind_eq_ok] at hok
      obtain ⟨alloc, hmerge, hok⟩ := hok
      obtain rfl := Except.ok.inj hok
      exact ⟨htable, h.grid.fullMergeLoop hmerge, h.live⟩
  | clientWrites mem =>
      obtain rfl := Except.ok.inj hok
      exact ⟨htable, ⟨h.grid.start, h.grid.slots⟩, h.live⟩

variable {mem : Memory} {calls : List FreeListCall} {totalSize : Nat}

/-- **Run lemma.** The grid of a common divisor is kept. -/
theorem onGrid_run (ha : a ∣ 2 ^ 32)
    (hreq : ∀ r ∈ requests, a ∣ requiredSize r.size r.alignment)
    (hcalls : Runs.All (step merge) (RequestCall requests) (start totalSize arena mem) calls) :
    Runs.All (step merge) (fun w _ => OnGrid a arena w) (start totalSize arena mem) calls :=
  (Runs.all_iff (OnGrid a arena) (fun _ _ hw _ => iff_of_true hw trivial)
    (fun _ _ _ hw hc hok => hw.step ha hreq hc hok) (onGrid_start a totalSize arena mem)
    hcalls).mpr (Runs.all_of_forall (R := fun _ _ => True) fun _ _ _ => trivial)

theorem aligned_of_commensurate (hadm : Admissible arena requests) (hcomm : Commensurate requests)
    (hcalls : Runs.All (step merge) (RequestCall requests) (start totalSize arena mem) calls) :
    Runs.All (step merge) Aligned (start totalSize arena mem) calls := by
  rintro ⟨w, call⟩ hmem
  cases call with
  | allocate size alignment =>
      obtain ⟨hhead, hreq⟩ := hcomm _ (hcalls _ hmem)
      have ha : alignment ∣ 2 ^ 32 := Nat.dvd_trans hhead (by decide)
      have hgrid := onGrid_run ha hreq hcalls _ hmem
      refine aligned_of_offset hgrid.table ?_
      intro k b _ hb _
      have hoffset := hgrid.grid.slots b (List.mem_of_getElem? (getElem?_freeBlocks hb).2)
      rw [hgrid.grid.start]
      exact Nat.dvd_add (Nat.dvd_add (hadm _ (hcalls _ hmem)).2.2 hoffset) hhead
  | free ptr => trivial
  | fullMergeMemBlocks => trivial
  | clientWrites mem => trivial

/-! ## Clean runs of a set of requests -/

/-- A request of the set that would fit behind `o` is aligned there. -/
def SuitsAt (requests : Set Request) (n o : Nat) : Prop :=
  ∀ r ∈ requests, o + requiredSize r.size r.alignment < n → r.alignment ∣ o

theorem carvesAt_suitsAt (hcomm : CommensurateInArena requests) {n : Nat} (hsmall : n < 2 ^ 32)
    (hcall : RequestCall requests w call) : CarvesAt (SuitsAt requests n) n call := by
  cases call with
  | allocate size alignment =>
      intro o ho _ r hr hlt
      have hreq := (hcomm r hr (by omega)).2 _ hcall (by simp only; omega)
      exact Nat.dvd_add (ho r hr (by omega)) hreq
  | free ptr => trivial
  | fullMergeMemBlocks => trivial
  | clientWrites mem => trivial

/-- The block found is at an offset that suits the request. -/
theorem OffsetsIn.aligned {n : Nat} (h : OffsetsIn (SuitsAt requests n) n arena w)
    (hadm : Admissible arena requests) (hcomm : CommensurateInArena requests)
    (hcall : RequestCall requests w call) (hclean : CleanFit w call) : Aligned w call := by
  cases call with
  | allocate size alignment =>
      refine aligned_of_offset h.offsets.wf.cap ?_
      intro k b hfind hb hfit
      obtain ⟨hsuits, hlt⟩ := h.found hclean hfind hb hfit
      have hsmall := h.offsets.wf.small
      have hhead := (hcomm _ hcall (by simp only; omega)).1
      have hbase : w.alloc.startPtr = arena := h.offsets.wf.base
      rw [hbase]
      exact Nat.dvd_add (Nat.dvd_add (hadm _ hcall).2.2 (hsuits _ hcall hlt)) hhead
  | free ptr => trivial
  | fullMergeMemBlocks => trivial
  | clientWrites mem => trivial

theorem Idle.aligned (h : Idle w) (hlegal : Legal w call) : Aligned w call := by
  cases call with
  | allocate size alignment =>
      refine aligned_of_offset h.table ?_
      intro k b _ hb hfit
      exact absurd hfit (h.not_fit hlegal hb)
  | free ptr => trivial
  | fullMergeMemBlocks => trivial
  | clientWrites mem => trivial

/-- The calls of a run without an unclean exact fit. -/
def CleanRequestCall (requests : Set Request) (w : Session) (call : FreeListCall) : Prop :=
  RequestCall requests w call ∧ CleanFit w call

/-- **Run lemma.** Whatever the total size, the blocks stay where they suit
the requests. -/
theorem aligned_of_commensurateInArena (hadm : Admissible arena requests)
    (hcomm : CommensurateInArena requests)
    (hcalls : Runs.All (step merge) (CleanRequestCall requests) (start totalSize arena mem) calls) :
    Runs.All (step merge) Aligned (start totalSize arena mem) calls := by
  have htrue : Runs.All (step merge) (fun _ _ => True) (start totalSize arena mem) calls :=
    Runs.all_of_forall fun _ _ _ => trivial
  rcases Nat.eq_zero_or_pos (SizeT.uint32 totalSize) with hzero | hpos
  · refine (Runs.all_iff Idle ?_ ?_ (idle_start hzero arena mem) hcalls).mpr htrue
    · intro w call hidle hcall
      exact iff_of_true (hidle.aligned (legal_of_request hadm hcall.1)) trivial
    · intro w call w' hidle hcall hok
      exact hidle.step (legal_of_request hadm hcall.1) hok
  · have hstart : OffsetsIn (SuitsAt requests (SizeT.uint32 totalSize)) (SizeT.uint32 totalSize)
        arena (start totalSize arena mem) :=
      offsetsIn_start (fun r _ _ => Nat.dvd_zero _) rfl hpos arena mem
    refine (Runs.all_iff _ ?_ ?_ hstart hcalls).mpr htrue
    · intro w call hoffsets hcall
      exact iff_of_true (hoffsets.aligned hadm hcomm hcall.1 hcall.2) trivial
    · intro w call w' hoffsets hcall hok
      exact hoffsets.step (carvesAt_suitsAt hcomm (SizeT.uint32_lt totalSize) hcall.1)
        (legal_of_request hadm hcall.1) hcall.2 hok

/-! ## Runs that need it -/

/-- One free block that is larger than the request. -/
theorem cleanFit_only {size alignment off n : Nat} (hblocks : w.alloc.freeBlocks = [⟨off, n⟩])
    (hlt : requiredSize size alignment < n) : CleanFit w (.allocate size alignment) := by
  intro k b _ hb
  have hmem := List.mem_of_getElem? hb
  rw [hblocks, List.mem_singleton] at hmem
  rw [hmem]
  exact Or.inl hlt

/-- A request of an arena that is larger: it is clean, and what it leaves. -/
theorem allocate_start {r : Request} (hadm : Admissible arena requests) (hr : r ∈ requests)
    (hlt : requiredSize r.size r.alignment < totalSize) (hsmall : totalSize < 2 ^ 32)
    (mem : Memory) :
    CleanRequestCall requests (start totalSize arena mem) (.allocate r.size r.alignment) ∧
    ∃ t, (start totalSize arena mem).alloc.allocate .none r.size r.alignment =
        .ok (some (arena + 0 + cAllocationHeaderSize),
          (start totalSize arena mem).alloc.granted t 1 (arena + 0)
            (requiredSize r.size r.alignment)) ∧
      t.toList.take 1 = [⟨0 + requiredSize r.size r.alignment,
        totalSize - requiredSize r.size r.alignment⟩] := by
  obtain ⟨hne, hreq⟩ := required_of_admissible hadm hr
  have hblocks := freeBlocks_start totalSize arena mem
  rw [SizeT.uint32_of_lt hsmall] at hblocks
  refine ⟨⟨hr, cleanFit_only hblocks hlt⟩, ?_⟩
  exact allocate_only hne hblocks (inTable_start totalSize arena mem)
    (show (0 : Nat) ≠ totalSize by omega) (by omega) hlt (by omega)
    (hasWord_start (Nat.le_refl arena) (show arena + 0 + _ ≤ _ by omega))

/-- The first request of its set, and the second after any other. -/
theorem commensurateInArena_of_aligned (hadm : Admissible arena requests)
    (hall : ∀ totalSize mem calls,
      Runs.All (step merge) (CleanRequestCall requests) (start totalSize arena mem) calls →
      Runs.All (step merge) Aligned (start totalSize arena mem) calls) :
    CommensurateInArena requests := by
  intro r hr hfits
  obtain ⟨-, -, hbase⟩ := hadm r hr
  obtain ⟨hne, hreq⟩ := required_of_admissible hadm hr
  have hhead : r.alignment ∣ cAllocationHeaderSize := by
    obtain ⟨hcall, t, hrun, -⟩ := allocate_start hadm hr (Nat.lt_succ_self _) hfits fun _ => 0
    have hone := hall _ _ [.allocate r.size r.alignment]
      (Runs.all_cons.mpr ⟨hcall, fun _ _ => Runs.all_nil _ _⟩)
    exact (Nat.dvd_add_right hbase).mp ((Runs.all_cons.mp hone).1 _ _ hrun)
  refine ⟨hhead, ?_⟩
  intro r' hr' hboth
  generalize htotal : requiredSize r'.size r'.alignment + requiredSize r.size r.alignment + 1
    = total at hboth
  obtain ⟨hcall, t, hrun, ht⟩ := allocate_start hadm hr' (show _ < total by omega) hboth fun _ => 0
  have hrest : ((start total arena fun _ => 0).alloc.granted t 1 (arena + 0)
      (requiredSize r'.size r'.alignment)).freeBlocks = _ := ht
  have hused : SizeT.add 0 (requiredSize r'.size r'.alignment)
      = requiredSize r'.size r'.alignment := by
    rw [SizeT.add_of_lt (by omega), Nat.zero_add]
  have htwo := hall total (fun _ => 0)
    [.allocate r'.size r'.alignment, .allocate r.size r.alignment]
    (Runs.all_cons.mpr ⟨hcall, fun w hw => by
      rw [step_allocate hrun] at hw
      obtain rfl := Except.ok.inj hw
      exact Runs.all_cons.mpr ⟨⟨hr, cleanFit_only hrest (by omega)⟩, fun _ _ => Runs.all_nil _ _⟩⟩)
  have hsecond := (Runs.all_cons.mp ((Runs.all_cons.mp htwo).2 _ (step_allocate hrun))).1
  obtain ⟨t', hrun', -⟩ := allocate_only hne hrest (show 1 ≤ freeMemBlocksSize by decide)
    (show SizeT.add 0 (requiredSize r'.size r'.alignment) ≠ total by omega)
    (Nat.zero_lt_of_lt hreq) (by omega) (by omega)
    (hasWord_start (Nat.le_add_right ..) (show arena + (0 + _) + _ ≤ _ by omega))
  have hdvd := hsecond _ _ hrun'
  rw [Nat.add_assoc, Nat.zero_add] at hdvd
  exact (Nat.dvd_add_left hhead).mp ((Nat.dvd_add_right hbase).mp hdvd)

/-- **Alignment, exactly.** All runs from `Init()` with requests of a set, on
an arena of any total size and with no unclean exact fit, return aligned
pointers only, if and only if each alignment divides the header size and what
is required by each request that fits in an arena with it. Runs with unclean
exact fits do so too if each alignment of the set divides the header size and
what each request of the set requires - and only then, when the requests
require less than `2 ^ 31` bytes each. -/
theorem freeList_aligned_iff (merge : MergePolicy) {arena : Nat} {requests : Set Request}
    (hadm : Admissible arena requests) :
    ((∀ totalSize mem calls,
      Runs.All (step merge) (CleanRequestCall requests) (start totalSize arena mem) calls →
      Runs.All (step merge) Aligned (start totalSize arena mem) calls) ↔
        CommensurateInArena requests) ∧
    (Commensurate requests → ∀ totalSize mem calls,
      Runs.All (step merge) (RequestCall requests) (start totalSize arena mem) calls →
      Runs.All (step merge) Aligned (start totalSize arena mem) calls) ∧
    ((∀ r ∈ requests, requiredSize r.size r.alignment < 2 ^ 31) →
      ((∀ totalSize mem calls,
        Runs.All (step merge) (RequestCall requests) (start totalSize arena mem) calls →
        Runs.All (step merge) Aligned (start totalSize arena mem) calls) ↔
          Commensurate requests)) := by
  refine ⟨⟨commensurateInArena_of_aligned hadm, fun hcomm _ _ _ hcalls =>
      aligned_of_commensurateInArena hadm hcomm hcalls⟩,
    fun hcomm _ _ _ hcalls => aligned_of_commensurate hadm hcomm hcalls,
    fun hsize => ⟨fun hall => ?_, fun hcomm _ _ _ hcalls =>
      aligned_of_commensurate hadm hcomm hcalls⟩⟩
  have hclean : CommensurateInArena requests := commensurateInArena_of_aligned hadm
    fun totalSize mem calls hcalls => hall totalSize mem calls (hcalls.imp fun _ _ hc => hc.1)
  exact hclean.commensurate hsize

/-- The rule on requests with the default alignment, one with a smaller and
one that no arena has room for. -/
theorem freeList_aligned_iff_default :
    Runs.All (step cMergePolicy) (CleanRequestCall {⟨3, 8⟩, ⟨4, 4⟩, ⟨8, 2 ^ 40⟩})
        (start 256 (2 ^ 40) fun _ => 0)
        [.allocate 3 8, .allocate 4 4, .allocate 8 (2 ^ 40), .allocate 3 8] ∧
      Runs.All (step cMergePolicy) Aligned (start 256 (2 ^ 40) fun _ => 0)
        [.allocate 3 8, .allocate 4 4, .allocate 8 (2 ^ 40), .allocate 3 8] := by
  have hadm : Admissible (2 ^ 40) {⟨3, 8⟩, ⟨4, 4⟩, ⟨8, 2 ^ 40⟩} := by
    simp only [Admissible, Set.mem_insert_iff, Set.mem_singleton_iff, forall_eq_or_imp, forall_eq]
    exact ⟨⟨by decide, ⟨3, by decide, rfl⟩, by decide⟩, ⟨by decide, ⟨2, by decide, rfl⟩, by decide⟩,
      ⟨by decide, ⟨40, by decide, rfl⟩, by decide⟩⟩
  have hcalls : Runs.All (step cMergePolicy) (RequestCall {⟨3, 8⟩, ⟨4, 4⟩, ⟨8, 2 ^ 40⟩})
      (start 256 (2 ^ 40) fun _ => 0)
      [.allocate 3 8, .allocate 4 4, .allocate 8 (2 ^ 40), .allocate 3 8] :=
    Runs.all_of_forall (by simp [RequestCall])
  have hclean : Runs.All (step cMergePolicy) CleanFit (start 256 (2 ^ 40) fun _ => 0)
      [.allocate 3 8, .allocate 4 4, .allocate 8 (2 ^ 40), .allocate 3 8] := by decide +kernel
  have hclean' := fun x hx => And.intro (hcalls x hx) (hclean x hx)
  refine ⟨hclean', (freeList_aligned_iff cMergePolicy hadm).1.mpr ?_ 256 _ _ hclean'⟩
  simp only [CommensurateInArena, Set.mem_insert_iff, Set.mem_singleton_iff, forall_eq_or_imp,
    forall_eq]
  decide +kernel

/-- The first `Allocate` with alignment 16 returns the start of the arena
plus 8. -/
theorem not_aligned_first_block :
    (Admissible 4096 {⟨8, 16⟩} ∧
      Runs.All (step cMergePolicy) (RequestCall {⟨8, 16⟩}) (start 64 4096 fun _ => 0)
        [.allocate 8 16]) ∧
    ¬Runs.All (step cMergePolicy) Aligned (start 64 4096 fun _ => 0) [.allocate 8 16] := by
  refine ⟨⟨?_, Runs.all_of_forall (by simp [RequestCall])⟩, ?_⟩
  · simp only [Admissible, Set.mem_singleton_iff, forall_eq]
    exact ⟨by decide, ⟨4, by decide, rfl⟩, by decide⟩
  · intro hall
    have hrun : ((start 64 4096 fun _ => 0).alloc.allocate .none 8 16).map Prod.fst
        = .ok (some 4104) := by decide +kernel
    obtain ⟨⟨result, alloc⟩, hok, rfl⟩ := map_eq_ok.mp hrun
    exact absurd ((Runs.all_cons.mp hall).1 _ _ hok) (by decide)

end Session

end MemAlloc
