import MemAlloc.Pool
import MemAlloc.Runs

/-!
# Runs of `PoolAllocator`

A pool with the chunks its clients hold, under `Allocate`, `Free` of a held
chunk and `Reset`, which ends the life of every chunk. The partition holds
after every call, whatever the order of the calls (`partition_run`).
-/

namespace MemAlloc

open PoolAllocator

/-- A pool with the live chunks of its clients, latest first. -/
structure PoolSession where
  alloc : PoolAllocator
  live : List Nat
deriving DecidableEq

inductive PoolCall where
  | allocate (size : Nat)
  | free (ptr : Nat)
  | reset
deriving DecidableEq, Repr

namespace PoolSession

/-- `Init()` on a constructed pool; nothing is live. -/
def start (chunksNum chunkSize arena : Nat) (table : List Nat) : Except Stuck PoolSession := do
  let alloc ← (construct chunksNum chunkSize).init .none arena table
  return ⟨alloc, []⟩

/-- One call of a client, with the bookkeeping of the live chunks. -/
def step (w : PoolSession) : PoolCall → Except Stuck PoolSession
  | .allocate _ => do
      let (result, alloc) ← w.alloc.allocate .none
      return ⟨alloc, result.toList ++ w.live⟩
  | .free ptr => do
      let (ok, alloc) ← w.alloc.free .none ptr
      return ⟨alloc, if ok then w.live.erase ptr else w.live⟩
  | .reset => do
      let alloc ← w.alloc.reset .none
      return ⟨alloc, []⟩

theorem step_allocate {w : PoolSession} {result : Option Nat} {alloc : PoolAllocator}
    (h : w.alloc.allocate .none = .ok (result, alloc)) (size : Nat) :
    step w (.allocate size) = .ok ⟨alloc, result.toList ++ w.live⟩ := by
  rw [step, h]
  rfl

theorem step_free {w : PoolSession} {ptr : Nat} {ok : Bool} {alloc : PoolAllocator}
    (h : w.alloc.free .none ptr = .ok (ok, alloc)) :
    step w (.free ptr) = .ok ⟨alloc, if ok then w.live.erase ptr else w.live⟩ := by
  rw [step, h]
  rfl

theorem step_reset {w : PoolSession} {alloc : PoolAllocator} (h : w.alloc.reset .none = .ok alloc) :
    step w .reset = .ok ⟨alloc, []⟩ := by
  rw [step, h]
  rfl

/-- What a call that returns did. -/
theorem step_cases {w w' : PoolSession} {call : PoolCall} (h : step w call = .ok w') :
    (∃ size result alloc, call = .allocate size ∧
        w.alloc.allocate .none = .ok (result, alloc) ∧ w' = ⟨alloc, result.toList ++ w.live⟩) ∨
      (∃ ptr ok alloc, call = .free ptr ∧ w.alloc.free .none ptr = .ok (ok, alloc) ∧
        w' = ⟨alloc, if ok then w.live.erase ptr else w.live⟩) ∨
      ∃ alloc, call = .reset ∧ w.alloc.reset .none = .ok alloc ∧ w' = ⟨alloc, []⟩ := by
  cases call with
  | allocate size =>
      obtain ⟨⟨result, alloc⟩, hrun, hok⟩ := bind_eq_ok.mp h
      exact Or.inl ⟨size, result, alloc, rfl, hrun, (Except.ok.inj hok).symm⟩
  | free ptr =>
      obtain ⟨⟨ok, alloc⟩, hrun, hok⟩ := bind_eq_ok.mp h
      exact Or.inr (Or.inl ⟨ptr, ok, alloc, rfl, hrun, (Except.ok.inj hok).symm⟩)
  | reset =>
      obtain ⟨alloc, hrun, hok⟩ := bind_eq_ok.mp h
      exact Or.inr (Or.inr ⟨alloc, rfl, hrun, (Except.ok.inj hok).symm⟩)

/-- The calls clients may make. -/
def Legal (w : PoolSession) : PoolCall → Prop
  | .allocate size => size ≤ w.alloc.getChunkSize
  | .free ptr => ptr ∈ w.live
  | .reset => True

instance (w : PoolSession) : DecidablePred (Legal w)
  | .allocate size => inferInstanceAs (Decidable (size ≤ _))
  | .free ptr => inferInstanceAs (Decidable (ptr ∈ w.live))
  | .reset => isTrue trivial

/-- How the calls answer: `Allocate` returns `nullptr`, changing nothing,
when all chunks are live and a chunk otherwise, `Free` returns `true`. -/
def Answers (chunksNum : Nat) (w : PoolSession) : PoolCall → Prop
  | .allocate _ =>
      if w.live.length = chunksNum then w.alloc.allocate .none = .ok (none, w.alloc)
      else ∃ p alloc, w.alloc.allocate .none = .ok (some p, alloc)
  | .free ptr => ∃ alloc, w.alloc.free .none ptr = .ok (true, alloc)
  | .reset => True

variable {arena chunksNum chunkSize : Nat} {w : PoolSession} {call : PoolCall}

/-- The invariant of a run on the arena. -/
def WF (arena chunksNum chunkSize : Nat) (w : PoolSession) : Prop :=
  Partition arena chunksNum chunkSize w.live w.alloc

theorem answers_of_wf (h : WF arena chunksNum chunkSize w) (hlegal : Legal w call) :
    Answers chunksNum w call := by
  cases call with
  | allocate size =>
      rw [Answers]
      split
      · rename_i hfull
        exact h.allocate_full hfull
      · rename_i hroom
        obtain ⟨p, alloc, hrun, -⟩ := h.allocate_some (by have := h.length_add; omega)
        exact ⟨p, alloc, hrun⟩
  | free ptr =>
      obtain ⟨alloc, hrun, -⟩ := h.free_live hlegal
      exact ⟨alloc, hrun⟩
  | reset => trivial

/-- **Step lemma.** A legal call returns and keeps the partition. -/
theorem step_wf (h : WF arena chunksNum chunkSize w) (hlegal : Legal w call) :
    ∃ w', step w call = .ok w' ∧ WF arena chunksNum chunkSize w' := by
  cases call with
  | allocate size =>
      by_cases hfull : w.live.length = chunksNum
      · exact ⟨w, step_allocate (h.allocate_full hfull) size, h⟩
      · obtain ⟨p, alloc, hrun, h'⟩ := h.allocate_some (by have := h.length_add; omega)
        exact ⟨⟨alloc, p :: w.live⟩, step_allocate hrun size, h'⟩
  | free ptr =>
      obtain ⟨alloc, hrun, h'⟩ := h.free_live hlegal
      exact ⟨⟨alloc, w.live.erase ptr⟩, step_free hrun, h'⟩
  | reset =>
      obtain ⟨alloc, hrun, h'⟩ := h.reset
      exact ⟨⟨alloc, []⟩, step_reset hrun, h'⟩

/-- **The partition over whole runs.** After any run of legal calls from
`Init()` the index is in range, the free and the live chunks are exactly the
chunks of the arena, each once, and the counter agrees with both; along the
run every `Free` succeeded and `Allocate` failed only with all chunks live. -/
theorem partition_run (hpos : 0 < chunkSize) (harena : chunksNum * chunkSize < 2 ^ 64)
    (htable : chunksNum * 8 < 2 ^ 64) (arena : Nat) {table : List Nat}
    (hlen : table.length = chunksNum) :
    ∃ w₀, start chunksNum chunkSize arena table = .ok w₀ ∧ ∀ calls : List PoolCall,
      Runs.All step Legal w₀ calls → Runs.All step (Answers chunksNum) w₀ calls ∧
        ∃ w, Runs.exec step w₀ calls = .ok w ∧
          (-1 ≤ w.alloc.currFreeChunksIdx ∧ w.alloc.currFreeChunksIdx < chunksNum) ∧
          (w.alloc.freeList ++ w.live).Perm (chunks arena chunksNum chunkSize) ∧
          (w.alloc.freeList ++ w.live).Nodup ∧
          w.alloc.getUsedSize = chunkSize * w.live.length ∧
          (w.alloc.getUsedSize : Int)
            = chunkSize * (chunksNum - 1 - w.alloc.currFreeChunksIdx) := by
  obtain ⟨s, hinit, hs⟩ := init_spec hpos harena htable arena hlen
  have hstart : WF arena chunksNum chunkSize ⟨s, []⟩ := hs
  refine ⟨⟨s, []⟩, by rw [start, hinit]; rfl, fun calls hlegal => ⟨?_, ?_⟩⟩
  · have hinv := Runs.steps_inv (WF arena chunksNum chunkSize) 
      (fun _ _ hw hl => step_wf hw hl) hstart hlegal
    exact fun x hx => answers_of_wf (hinv x hx) (hlegal x hx)
  · obtain ⟨w, hrun, hw⟩ := Runs.exec_inv (WF arena chunksNum chunkSize) Legal
      (fun _ _ hw hl => step_wf hw hl) hstart hlegal
    exact ⟨w, hrun, ⟨hw.idxGe, hw.idxLt⟩, hw.perm, hw.nodup, hw.used, hw.used_idx⟩

/-- Three chunks of 16 bytes, freed out of order, and a reset. -/
theorem partition_run_three : ∃ w₀, start 3 16 4096 [7, 8, 9] = .ok w₀ ∧
    ∃ w, Runs.exec step w₀ [.allocate 16, .allocate 3, .free 4128, .allocate 1, .reset, .allocate 1]
        = .ok w ∧
      (w.alloc.freeList ++ w.live).Perm (chunks 4096 3 16) := by
  obtain ⟨w₀, hstart, hrun⟩ := partition_run (show 0 < 16 by decide)
    (show 3 * 16 < 2 ^ 64 by decide) (by decide) 4096 (show [7, 8, 9].length = 3 from rfl)
  have hlegal : (start 3 16 4096 [7, 8, 9]).map (fun w₀ => decide (Runs.All step Legal w₀
      [.allocate 16, .allocate 3, .free 4128, .allocate 1, .reset, .allocate 1])) = .ok true := by
    decide +kernel
  rw [hstart] at hlegal
  obtain ⟨-, w, hw, -, hperm, -⟩ := hrun _ (of_decide_eq_true (Except.ok.inj hlegal))
  exact ⟨w₀, hstart, w, hw, hperm⟩

end PoolSession

end MemAlloc
