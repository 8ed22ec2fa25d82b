import MemAlloc.FreeListPhases

/-!
# What clients store stays

`Allocate` writes one word, the header, at the front of a free block;
`Free` and the merges write to the table only. So the bytes of a live
pointer are what its client left there, whatever the other calls of the run.
-/

namespace MemAlloc

open FreeListAllocator

namespace Session

variable {totalSize arena : Nat} {merge : MergePolicy} {w w' : Session} {l : Lease}

/-- The call neither frees the pointer nor changes its bytes. -/
def LeavesAlone (l : Lease) (w : Session) : FreeListCall → Prop
  | .free ptr => ptr ≠ l.ptr
  | .clientWrites mem => ∀ a, l.ptr ≤ a → a < l.ptr + l.size → mem a = w.alloc.mem a
  | _ => True

/-- What the client of a pointer relies on: it is live, its bytes and its
header are as in the given state. -/
structure Holds (w₀ w : Session) (l : Lease) : Prop where
  live : l ∈ w.live
  bytes : ∀ a, l.ptr ≤ a → a < l.ptr + l.size → w.alloc.mem a = w₀.alloc.mem a
  header : header w.alloc l = header w₀.alloc l

theorem Holds.refl (hl : l ∈ w.live) : Holds w w l := ⟨hl, fun _ _ _ => rfl, rfl⟩

theorem Holds.trans {w₀ : Session} (h : Holds w₀ w l) (h' : Holds w w' l) : Holds w₀ w' l where
  live := h'.live
  bytes a hlo hhi := (h'.bytes a hlo hhi).trans (h.bytes a hlo hhi)
  header := h'.header.trans h.header

/-- A call that leaves memory as it is. -/
theorem Holds.of_mem (hl : l ∈ w'.live) (hmem : w'.alloc.mem = w.alloc.mem) : Holds w w' l where
  live := hl
  bytes a _ _ := by rw [hmem]
  header := by rw [Session.header, hmem, Session.header]

/-- The header of a new block lies in a free block, away from the old ones. -/
theorem WF.holds_granted (h : WF totalSize arena w) (hl : l ∈ w.live) {b : MemBlock}
    (hb : b ∈ w.alloc.freeBlocks) {required : Nat} (hreq : cAllocationHeaderSize ≤ required)
    (hfit : required ≤ b.blockSize) (t : Vector MemBlock freeMemBlocksSize) (n size : Nat) :
    Holds w ⟨w.alloc.granted t n (w.alloc.startPtr + b.memBlockOffset) required,
      ⟨w.alloc.startPtr + b.memBlockOffset + cAllocationHeaderSize, size⟩ :: w.live⟩ l where
  live := List.mem_cons_of_mem _ hl
  bytes a hlo hhi := by
    have hap := h.laid.free_apart hb hl
    have hlease := h.lease l hl
    have hbase := h.base
    have hhead : cAllocationHeaderSize = 8 := rfl
    exact Memory.writeWord_outside (by omega)
  header := (h.live_granted hb hreq hfit t n size).2.2 l hl

/-- **Step lemma.** -/
theorem WF.step_holds (h : WF totalSize arena w) (hl : l ∈ w.live) {call : FreeListCall}
    (hlegal : Legal w call) (halone : LeavesAlone l w call) (hok : step merge w call = .ok w') :
    Holds w w' l := by
  cases call with
  | allocate size alignment =>
      obtain ⟨-, e, he, rfl⟩ := hlegal
      have hreq := requiredSize_gt size he
      obtain ⟨⟨r, a⟩, hrun, hok⟩ := bind_eq_ok.mp hok
      obtain rfl := Except.ok.inj hok
      rcases (InTable.allocate_ok h.cap hrun).2 with
        ⟨-, rfl, rfl⟩ | ⟨k, b, t, n, -, hb, hfit, -, -, -, rfl, rfl⟩
      · exact .refl hl
      · exact h.holds_granted hl (List.mem_of_getElem? hb) (by omega) hfit t n _
  | free ptr =>
      obtain ⟨⟨r, a⟩, hrun, hok⟩ := bind_eq_ok.mp hok
      obtain rfl := Except.ok.inj hok
      rcases InTable.free_ok h.cap hrun with ⟨-, rfl, rfl⟩ | ⟨-, rfl, t, n, -, rfl⟩
      · exact .refl hl
      · have hkept : l ∈ w.live.eraseP (·.ptr == ptr) :=
          (List.mem_eraseP_of_neg (by simpa using Ne.symm halone)).mpr hl
        exact .of_mem hkept rfl
  | fullMergeMemBlocks =>
      obtain ⟨t, n, hrun, -⟩ := fullMergeMemBlocks_spec h.cap
      simp only [step, hrun, ok_bind] at hok
      obtain rfl := Except.ok.inj hok
      exact .of_mem hl rfl
  | clientWrites m =>
      obtain rfl := Except.ok.inj hok
      exact ⟨hl, halone, h.header_clientWrites hlegal hl⟩

/-- **Contents.** In a run of legal clean calls, a pointer that is live at
some point stays live, with the same bytes and the same header, as long as
no call frees it or writes into its bytes. -/
theorem contents_kept (hpos : 0 < totalSize) (hsmall : totalSize < 2 ^ 32) (arena : Nat)
    (mem : Memory) {before later : List FreeListCall}
    (hlegal : Runs.All (step merge) Legal (start totalSize arena mem) (before ++ later))
    (hclean : Runs.All (step merge) CleanFit (start totalSize arena mem) (before ++ later))
    (hrun : Runs.exec (step merge) (start totalSize arena mem) before = .ok w) (hl : l ∈ w.live)
    (halone : Runs.All (step merge) (LeavesAlone l) w later) :
    ∃ w', Runs.exec (step merge) (start totalSize arena mem) (before ++ later) = .ok w' ∧
      l ∈ w'.live ∧ header w'.alloc l = header w.alloc l ∧
      ∀ a, l.ptr ≤ a → a < l.ptr + l.size → w'.alloc.mem a = w.alloc.mem a := by
  obtain ⟨hlegal₁, hlegal₂⟩ := (Runs.all_append hrun).mp hlegal
  obtain ⟨hclean₁, hclean₂⟩ := (Runs.all_append hrun).mp hclean
  obtain ⟨w₁, hrun₁, hw⟩ := exec_wf hpos hsmall hlegal₁ hclean₁
  obtain rfl := Except.ok.inj (hrun.symm.trans hrun₁)
  obtain ⟨w', hrun', hw', hholds⟩ := Runs.exec_inv
    (fun w' => WF totalSize arena w' ∧ Holds w w' l)
    (fun w' call => Legal w' call ∧ CleanFit w' call ∧ LeavesAlone l w' call)
    (fun w' call hinv hcall => by
      obtain ⟨w'', hok, hw''⟩ := step_wf hinv.1 merge hcall.1 hcall.2.1
      exact ⟨w'', hok, hw'', hinv.2.trans (hinv.1.step_holds hinv.2.live hcall.1 hcall.2.2 hok)⟩)
    ⟨hw, .refl hl⟩ fun x hx => ⟨hlegal₂ x hx, hclean₂ x hx, halone x hx⟩
  exact ⟨w', (Runs.exec_append hrun).trans hrun', hholds.live, hholds.header, hholds.bytes⟩

/-- The block behind the pointer is freed and allocated again. -/
theorem contents_kept_neighbour : ∃ w w',
    Runs.exec (step cMergePolicy) (start 256 4096 fun _ => 0) [.allocate 8 8, .allocate 8 8]
        = .ok w ∧
      Runs.exec (step cMergePolicy) (start 256 4096 fun _ => 0)
          ([.allocate 8 8, .allocate 8 8] ++ [.free 4128, .allocate 100 16]) = .ok w' ∧
      ∀ a, 4104 ≤ a → a < 4104 + 8 → w'.alloc.mem a = w.alloc.mem a := by
  have hlive : (Runs.exec (step cMergePolicy) (start 256 4096 fun _ => 0)
      [.allocate 8 8, .allocate 8 8]).map Session.live = .ok [⟨4128, 8⟩, ⟨4104, 8⟩] := by
    decide +kernel
  obtain ⟨w, hrun, hw⟩ := map_eq_ok.mp hlive
  have halone : ∀ call ∈ [FreeListCall.free 4128, .allocate 100 16], ∀ w,
      LeavesAlone ⟨4104, 8⟩ w call := by simp [LeavesAlone]
  obtain ⟨w', hrun', -, -, hbytes⟩ := contents_kept (l := ⟨4104, 8⟩) (by decide) (by decide) 4096
    (fun _ => 0) (all_legal (by decide +kernel)) (by decide +kernel) hrun (by rw [hw]; simp)
    (Runs.all_of_forall halone)
  exact ⟨w, w', hrun, hrun', hbytes⟩

end Session

end MemAlloc
