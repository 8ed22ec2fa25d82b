import MemAlloc.FreeListTiling

/-!
# Allocate everything, then free everything

A client allocates a list of requests whose sizes leave room to spare, then
frees every pointer once, in any order. In the first phase the free list is
one block, the rest of the arena (`Unbroken`), so no request fits exactly
and none fails. In the second phase the live pointers dwindle to none; then
the free blocks alone tile the arena, the counter is 0, and one full merge
leaves a single block (`WF.isFullyMerged`).

Writes of the clients may come between any two calls.
-/

namespace MemAlloc

open FreeListAllocator

namespace Request

def Valid (r : Request) : Prop := r.size < 2 ^ 32 ∧ ∃ k ≤ 63, r.alignment = 2 ^ k

theorem Valid.alignment_ne {r : Request} (h : r.Valid) : r.alignment ≠ 0 := by
  obtain ⟨-, k, -, hal⟩ := h
  exact hal ▸ (Nat.two_pow_pos k).ne'

abbrev required (r : Request) : Nat := requiredSize r.size r.alignment

def call (r : Request) : FreeListCall := .allocate r.size r.alignment

end Request

def FreeListCall.isWrite : FreeListCall → Bool
  | .clientWrites _ => true
  | _ => false

namespace Session

variable {totalSize arena off : Nat} {merge : MergePolicy} {w : Session} {r : Request}

/-- `Allocate` returns a pointer, `Free` returns `true`. -/
def Succeeds (merge : MergePolicy) (w : Session) : FreeListCall → Prop
  | .allocate size alignment =>
      ∃ ptr alloc, w.alloc.allocate .none size alignment = .ok (some ptr, alloc)
  | .free ptr => ∃ alloc, w.alloc.free .none merge ptr = .ok (true, alloc)
  | _ => True

instance : DecidablePred (Succeeds merge w)
  | .allocate size alignment =>
      decidable_of_iff ((w.alloc.allocate .none size alignment).map (·.1.isSome) = .ok true) (by
        rw [Succeeds]
        cases w.alloc.allocate .none size alignment with
        | ok x => obtain ⟨_ | ptr, a⟩ := x <;> simp [Except.map]
        | error e => simp [Except.map])
  | .free ptr =>
      decidable_of_iff ((w.alloc.free .none merge ptr).map (·.1) = .ok true) (by
        rw [Succeeds]
        cases w.alloc.free .none merge ptr with
        | ok x => obtain ⟨_ | _, a⟩ := x <;> simp [Except.map]
        | error e => simp [Except.map])
  | .fullMergeMemBlocks => isTrue trivial
  | .clientWrites _ => isTrue trivial

/-- Clients write inside their own bytes. -/
def LegalWrite (w : Session) (call : FreeListCall) : Prop := call.isWrite = true → Legal w call

/-- The live pointers are those of the requests, latest first: the reserved
blocks have the required sizes, lie in the arena and do not overlap. -/
structure Placed (totalSize arena : Nat) (requests : List Request) (w : Session) : Prop where
  sizes : w.live.map Lease.size = (requests.map Request.size).reverse
  headers : w.live.map (header w.alloc) = (requests.map Request.required).reverse
  disjoint : (w.live.map (liveExtent w.alloc)).Pairwise fun e f => Disjoint e.bytes f.bytes
  inside : ∀ l ∈ w.live, arena + cAllocationHeaderSize ≤ l.ptr ∧
    cAllocationHeaderSize + l.size ≤ header w.alloc l ∧
    l.ptr - cAllocationHeaderSize + header w.alloc l ≤ arena + totalSize

/-! ## The first phase -/

/-- The free list is one block, the rest of the arena from `off` on. -/
def Unbroken (totalSize off : Nat) (w : Session) : Prop :=
  w.alloc.freeBlocks = [⟨off, totalSize - off⟩]

/-- A request smaller than the one free block is carved off its front. -/
theorem WF.allocate_unbroken (h : WF totalSize arena w) (merge : MergePolicy)
    (hfree : Unbroken totalSize off w)
    (hr : r.Valid) (hroom : off + r.required < totalSize) :
    ∃ ptr w', w.alloc.allocate .none r.size r.alignment = .ok (some ptr, w'.alloc) ∧
      step merge w r.call = .ok w' ∧ WF totalSize arena w' ∧
      Unbroken totalSize (off + r.required) w' ∧
      ptr = arena + off + cAllocationHeaderSize ∧ w'.live = ⟨ptr, r.size⟩ :: w.live ∧
      w'.live.map (header w'.alloc) = r.required :: w.live.map (header w.alloc) := by
  have hne := hr.alignment_ne
  obtain ⟨hsize, k, hk, hal⟩ := hr
  rw [Unbroken] at hfree
  have hsmall := h.small
  have hused : w.alloc.used + (totalSize - off) = totalSize := by
    simpa [hfree] using h.laid.used_add_free
  have hreq : cAllocationHeaderSize + SizeT.uint32 r.size < r.required := by
    have := requiredSize_gt r.size hk
    rwa [← hal] at this
  have hhead : cAllocationHeaderSize ≤ r.required :=
    Nat.le_of_lt (Nat.lt_of_le_of_lt (Nat.le_add_right _ _) hreq)
  have hb : w.alloc.freeBlocks[0]? = some ⟨off, totalSize - off⟩ := by rw [hfree]; rfl
  have hmem := List.mem_of_getElem? hb
  have hlt : r.required < totalSize - off := by omega
  obtain ⟨t, hrun, ht⟩ := allocate_only hne hfree h.cap (by have := h.total; omega)
    (show 0 < r.required by omega) hlt (by omega)
    (h.hasWord_block hmem (Nat.le_trans hhead (Nat.le_of_lt hlt)))
  have hgr := h.live_granted hmem hhead (Nat.le_of_lt hlt) t w.alloc.currSize r.size
  refine ⟨_, ⟨w.alloc.granted t w.alloc.currSize (w.alloc.startPtr + off) r.required,
    ⟨w.alloc.startPtr + off + cAllocationHeaderSize, r.size⟩ :: w.live⟩, hrun, ?_, ?_, ?_,
    by rw [h.base], rfl, ?_⟩
  · rw [Request.call, Session.step_allocate hrun, SizeT.uint32_of_lt hsize]
  · have := h.granted hmem hreq (Nat.le_of_lt hlt) h.cap (t := t) ?_
    · rwa [SizeT.uint32_of_lt hsize] at this
    · have hsplit := h.tiles_split hb (Nat.zero_lt_of_lt hreq) hlt
      rw [hfree, List.set_cons_zero] at hsplit
      rwa [ht]
  · rw [Unbroken, freeBlocks_granted, ht, Nat.sub_add_eq]
  · exact congrArg₂ List.cons hgr.1 (List.map_congr_left hgr.2.2)

/-- **The first phase.** Requests that leave room to spare all succeed. -/
theorem allocate_phase : ∀ {allocs : List FreeListCall} {requests : List Request} {off : Nat}
    {w : Session}, WF totalSize arena w → Unbroken totalSize off w →
    allocs.filter (!·.isWrite) = requests.map Request.call → (∀ r ∈ requests, r.Valid) →
    off + (requests.map Request.required).sum < totalSize →
    Runs.All (step merge) LegalWrite w allocs →
    Runs.All (step merge) (Succeeds merge) w allocs ∧
      ∃ w', Runs.exec (step merge) w allocs = .ok w' ∧ WF totalSize arena w' ∧
        w'.live.map Lease.size = (requests.map Request.size).reverse ++ w.live.map Lease.size ∧
        w'.live.map (header w'.alloc)
          = (requests.map Request.required).reverse ++ w.live.map (header w.alloc)
  | [], requests, off, w, h, _, hcalls, _, _, _ => by
      obtain rfl : requests = [] := by simpa using hcalls.symm
      exact ⟨Runs.all_nil _ w, w, rfl, h, rfl, rfl⟩
  | call :: allocs, requests, off, w, h, hfree, hcalls, hvalid, hroom, hwrites => by
      obtain ⟨hwrite, hrest⟩ := Runs.all_cons.mp hwrites
      cases hcall : call.isWrite with
      | true =>
          obtain ⟨m, rfl⟩ : ∃ m, call = .clientWrites m := by
            cases call <;> first | exact ⟨_, rfl⟩ | cases hcall
          have hlegal : Legal w (.clientWrites m) := hwrite rfl
          have hok : step merge w (.clientWrites m) = .ok ⟨{ w.alloc with mem := m }, w.live⟩ := rfl
          obtain ⟨hall, w', hrun, hw', hsizes, hheads⟩ := allocate_phase (h.clientWrites hlegal)
            hfree (by simpa [hcall] using hcalls) hvalid hroom (hrest _ hok)
          refine ⟨Runs.all_cons.mpr ⟨trivial, fun s hs => ?_⟩, w', ?_, hw', hsizes, ?_⟩
          · obtain rfl := Except.ok.inj (hok.symm.trans hs)
            exact hall
          · rw [Runs.exec_cons_ok hok]
            exact hrun
          · rw [hheads, List.map_congr_left fun l hl => h.header_clientWrites hlegal hl]
      | false =>
          rw [List.filter_cons_of_pos (by simp [hcall])] at hcalls
          cases requests with
          | nil => cases hcalls
          | cons r requests =>
              obtain ⟨rfl, hcalls'⟩ := List.cons.inj hcalls
              rw [List.map_cons, List.sum_cons] at hroom
              obtain ⟨ptr, w₁, hrun₁, hok, hw₁, hfree₁, -, hlive₁, hheads₁⟩ :=
                h.allocate_unbroken merge hfree (hvalid r (List.mem_cons_self ..))
                  (by omega)
              obtain ⟨hall, w', hrun, hw', hsizes, hheads⟩ := allocate_phase hw₁ hfree₁ hcalls'
                (fun x hx => hvalid x (List.mem_cons_of_mem _ hx)) (by omega) (hrest _ hok)
              refine ⟨Runs.all_cons.mpr ⟨⟨ptr, _, hrun₁⟩, fun s hs => ?_⟩, w', ?_, hw', ?_, ?_⟩
              · obtain rfl := Except.ok.inj (hok.symm.trans hs)
                exact hall
              · rw [Runs.exec_cons_ok hok]
                exact hrun
              · rw [hsizes, hlive₁]
                simp
              · rw [hheads, hheads₁]
                simp

/-! ## The second phase -/

/-- A `Free` that returns `true` ends the life of its pointer. -/
theorem live_of_succeeds {w' : Session} {ptr : Nat} (hok : Succeeds merge w (.free ptr))
    (hstep : step merge w (.free ptr) = .ok w') : w'.live = w.live.eraseP (·.ptr == ptr) := by
  obtain ⟨alloc, hrun⟩ := hok
  rw [step_free_true hrun] at hstep
  rw [← Except.ok.inj hstep]

theorem WF.free_succeeds (h : WF totalSize arena w) {ptr : Nat} (hlive : ptr ∈ w.live.map Lease.ptr)
    (hok : Succeeds merge w (.free ptr)) :
    ∃ w', step merge w (.free ptr) = .ok w' ∧ WF totalSize arena w' ∧
      w'.live.map Lease.ptr = (w.live.map Lease.ptr).erase ptr := by
  obtain ⟨w', hstep, hw'⟩ := h.step_free merge (List.mem_map.mp hlive)
  refine ⟨w', hstep, hw', ?_⟩
  rw [live_of_succeeds hok hstep, List.erase_eq_eraseP', List.eraseP_map]
  rfl

/-- **The second phase.** Freeing every live pointer once leaves none. -/
theorem free_phase : ∀ {frees : List FreeListCall} {order : List Nat} {w : Session},
    WF totalSize arena w → order.Perm (w.live.map Lease.ptr) →
    frees.filter (!·.isWrite) = order.map FreeListCall.free →
    Runs.All (step merge) LegalWrite w frees → Runs.All (step merge) (Succeeds merge) w frees →
    ∃ w', Runs.exec (step merge) w frees = .ok w' ∧ WF totalSize arena w' ∧ w'.live = []
  | [], order, w, h, hperm, hcalls, _, _ => by
      obtain rfl : order = [] := by simpa using hcalls.symm
      exact ⟨w, rfl, h, by simpa using hperm.symm⟩
  | call :: frees, order, w, h, hperm, hcalls, hwrites, hall => by
      obtain ⟨hwrite, hrestw⟩ := Runs.all_cons.mp hwrites
      obtain ⟨hsucc, hrest⟩ := Runs.all_cons.mp hall
      cases hcall : call.isWrite with
      | true =>
          obtain ⟨m, rfl⟩ : ∃ m, call = .clientWrites m := by
            cases call <;> first | exact ⟨_, rfl⟩ | cases hcall
          have hok : step merge w (.clientWrites m) = .ok ⟨{ w.alloc with mem := m }, w.live⟩ := rfl
          rw [Runs.exec_cons_ok hok]
          exact free_phase (h.clientWrites (hwrite rfl)) hperm (by simpa [hcall] using hcalls)
            (hrestw _ hok) (hrest _ hok)
      | false =>
          rw [List.filter_cons_of_pos (by simp [hcall])] at hcalls
          cases order with
          | nil => cases hcalls
          | cons ptr order =>
              obtain ⟨rfl, hcalls'⟩ := List.cons.inj hcalls
              obtain ⟨w₁, hok, hw₁, hlive₁⟩ :=
                h.free_succeeds (hperm.mem_iff.mp (List.mem_cons_self ..)) hsucc
              rw [Runs.exec_cons_ok hok]
              refine free_phase hw₁ ?_ hcalls' (hrestw _ hok) (hrest _ hok)
              rw [hlive₁]
              simpa using hperm.erase ptr

/-- With nothing live the counter is 0, and a full merge leaves one block,
the arena. -/
theorem WF.isFullyMerged (h : WF totalSize arena w) (hpos : 0 < totalSize) (hlive : w.live = []) :
    w.alloc.getUsedSize = 0 ∧
      ∃ a, w.alloc.fullMergeMemBlocks = .ok a ∧ a.isFullyMerged = true := by
  refine ⟨by rw [AllocatorInterface.getUsedSize, h.used, hlive]; rfl, ?_⟩
  obtain ⟨t, n, hrun, hn, ht⟩ := fullMergeMemBlocks_spec h.cap
  refine ⟨_, hrun, ?_⟩
  have hm := h.merged hn (Or.inr (Or.inr ht))
  have htiles : Tiles totalSize ((w.alloc.withTable t n).freeBlocks.map MemBlock.extent) := by
    have := hm.tiles
    rwa [extents, hlive, List.map_nil, List.append_nil] at this
  -- a separated tiling is the arena as one block
  have hone := htiles.eq_single (h.laid.separated ht) hpos
  have htotal : (w.alloc.withTable t n).totalSize = totalSize := hm.total
  rw [isFullyMerged_iff hm.cap, htotal]
  exact List.map_injective_iff.mpr MemBlock.extent_injective hone

/-- **The two-phase law.** Requests whose required sizes add up to less than
the arena all succeed, in disjoint blocks inside it; and if every returned
pointer is then freed once, in any order, with success, the counter is back
at 0 and one more full merge gives back the arena as one block. -/
theorem two_phase {totalSize : Nat} (hsmall : totalSize < 2 ^ 32) (merge : MergePolicy)
    (arena : Nat) (mem : Memory)
    {requests : List Request} (hvalid : ∀ r ∈ requests, r.Valid)
    (hroom : (requests.map Request.required).sum < totalSize) {allocs : List FreeListCall}
    (hallocs : allocs.filter (!·.isWrite) = requests.map Request.call)
    (hwrites : Runs.All (step merge) LegalWrite (start totalSize arena mem) allocs) :
    Runs.All (step merge) (Succeeds merge) (start totalSize arena mem) allocs ∧
      ∃ w, Runs.exec (step merge) (start totalSize arena mem) allocs = .ok w ∧
        Placed totalSize arena requests w ∧
        ∀ (order : List Nat) (frees : List FreeListCall), order.Perm (w.live.map Lease.ptr) →
          frees.filter (!·.isWrite) = order.map FreeListCall.free →
          Runs.All (step merge) LegalWrite w frees →
          Runs.All (step merge) (Succeeds merge) w frees →
          ∃ w', Runs.exec (step merge) w frees = .ok w' ∧ w'.alloc.getUsedSize = 0 ∧
            ∃ a, w'.alloc.fullMergeMemBlocks = .ok a ∧ a.isFullyMerged = true := by
  have hpos : 0 < totalSize := by omega
  have hunbroken : Unbroken totalSize 0 (start totalSize arena mem) := by
    rw [Unbroken, freeBlocks_start, SizeT.uint32_of_lt hsmall, Nat.sub_zero]
  obtain ⟨hall, w, hrun, hw, hsizes, hheads⟩ := allocate_phase (wf_start hpos hsmall _ _) hunbroken
    hallocs hvalid (by rwa [Nat.zero_add]) hwrites
  refine ⟨hall, w, hrun, ⟨by rw [hsizes]; exact List.append_nil _, ?_, ?_, ?_⟩, ?_⟩
  · rw [hheads]
    exact List.append_nil _
  · exact (List.pairwise_append.mp hw.tiles.disjoint).2.1
  · intro l hl
    have hle := hw.laid.header_le hl
    have hlease := hw.lease l hl
    omega
  · intro order frees hperm hfrees hwritesf hsucc
    obtain ⟨w', hrun', hw', hlive⟩ := free_phase hw hperm hfrees hwritesf hsucc
    exact ⟨w', hrun', hw'.isFullyMerged hpos hlive⟩

/-- Two requests, freed first to last. -/
theorem two_phase_pair : ∃ w',
    Runs.exec (step cMergePolicy) (start 256 4096 fun _ => 0)
        ([.allocate 8 8, .allocate 3 16] ++ [.free 4104, .free 4128]) = .ok w' ∧
      w'.alloc.getUsedSize = 0 ∧
      ∃ a, w'.alloc.fullMergeMemBlocks = .ok a ∧ a.isFullyMerged = true := by
  have hnowrite : ∀ calls : List FreeListCall, calls.all (!·.isWrite) = true →
      ∀ w, Runs.All (step cMergePolicy) LegalWrite w calls := fun calls hcalls w =>
    Runs.all_of_forall fun call hmem w hwrite => by
      have := List.all_eq_true.mp hcalls call hmem
      simp [hwrite] at this
  have hvalid : ∀ r ∈ [(⟨8, 8⟩ : Request), ⟨3, 16⟩], r.Valid := by
    rintro r (_ | ⟨_, _ | ⟨_, ⟨⟩⟩⟩)
    · exact ⟨by decide, 3, by decide, rfl⟩
    · exact ⟨by decide, 4, by decide, rfl⟩
  have hallocs : [.allocate 8 8, .allocate 3 16].filter (!·.isWrite)
      = [(⟨8, 8⟩ : Request), ⟨3, 16⟩].map Request.call := rfl
  obtain ⟨-, w, hrun, -, hfrees⟩ := two_phase (show 256 < 2 ^ 32 by decide) cMergePolicy 4096
    (fun _ => 0) hvalid (by decide +kernel) hallocs (hnowrite _ rfl _)
  have hptrs : (Runs.exec (step cMergePolicy) (start 256 4096 fun _ => 0)
      [.allocate 8 8, .allocate 3 16]).map (·.live.map Lease.ptr) = .ok [4128, 4104] := by
    decide +kernel
  have hsucc : Runs.All (step cMergePolicy) (Succeeds cMergePolicy) (start 256 4096 fun _ => 0)
      ([.allocate 8 8, .allocate 3 16] ++ [.free 4104, .free 4128]) := by
    decide +kernel
  rw [hrun] at hptrs
  rw [Runs.exec_append hrun]
  refine hfrees [4104, 4128] _ ?_ rfl (hnowrite _ rfl _) ((Runs.all_append hrun).mp hsucc).2
  rw [show w.live.map Lease.ptr = [4128, 4104] from Except.ok.inj hptrs]
  exact List.Perm.swap _ _ _

end Session

end MemAlloc
