import MemAlloc.Extent
import MemAlloc.PoolFrontEnd
import MemAlloc.PoolRuns

/-!
# Foreign pointers

The range test of `Free` is the only thing that tells a pool's chunks from
those of others. It lets one foreign pointer through, the end of the arena:
every other is refused, changing nothing, and that one is not
(`free_foreign_iff`).

A list of pools with disjoint arenas, as `PoolAllocators` keeps it, so
returns a chunk to the pool it came from exactly when no pool before that one
ends where the chunk begins (`foreign_rejected_iff`).
-/

namespace MemAlloc

open PoolAllocator PoolAllocators

namespace PoolAllocator

variable {s : PoolAllocator} {ptr : Nat}

/-- The pointer is outside `[m_start_ptr, m_start_ptr + m_totalSize)`. -/
def Foreign (s : PoolAllocator) (ptr : Nat) : Prop :=
  ptr < s.startPtr ∨ s.startPtr + s.totalSize ≤ ptr

instance : Decidable (Foreign s ptr) := inferInstanceAs (Decidable (_ ∨ _))

/-- The end of the arena passes the range test. -/
theorem free_end (s s' : PoolAllocator) :
    s.free .none (s.startPtr + s.totalSize) ≠ .ok (false, s') := by
  have hrange : ¬(s.startPtr + s.totalSize < s.startPtr ∨
      s.startPtr + s.totalSize > s.startPtr + s.totalSize) := by omega
  intro hrun
  simp only [free, lock, pure_bind, if_neg hrange, bind_eq_ok] at hrun
  obtain ⟨s₁, -, hok⟩ := hrun
  cases hok

/-- A foreign pointer is refused, with nothing changed, if and only if it is
not the end of the arena. -/
theorem free_foreign_iff (h : Foreign s ptr) :
    s.free .none ptr = .ok (false, s) ↔ ptr ≠ s.startPtr + s.totalSize := by
  constructor
  · rintro hrun rfl
    exact free_end s s hrun
  · intro hne
    refine free_refused ?_
    rcases h with hlow | hhigh
    · exact Or.inl hlow
    · exact Or.inr (by omega)

end PoolAllocator

/-- A pointer that ends up at pool `k` was refused by the pools before. -/
theorem PoolAllocators.freeIn_some {p : Nat} : ∀ {l l' : List PoolAllocator} {k : Nat},
    freeIn .none p l = .ok (some k, l') →
      ∀ j < k, ∀ a, l[j]? = some a → ∃ a', a.free .none p = .ok (false, a')
  | [], _, _, h => by cases h
  | b :: l, l', k, h => by
      simp only [freeIn, bind_eq_ok] at h
      obtain ⟨⟨found, b'⟩, hfree, h⟩ := h
      cases found with
      | true =>
          cases h
          intro j hj
          exact absurd hj (Nat.not_lt_zero j)
      | false =>
          simp only [Bool.false_eq_true, if_false, bind_eq_ok] at h
          obtain ⟨⟨i, rest⟩, hrest, h⟩ := h
          obtain ⟨hk, -⟩ := Prod.mk.inj (Except.ok.inj h)
          obtain ⟨i', rfl, rfl⟩ := Option.map_eq_some_iff.mp hk
          intro j hj a ha
          cases j with
          | zero =>
              obtain rfl := Option.some.inj ha
              exact ⟨b', hfree⟩
          | succ j => exact freeIn_some hrest j (Nat.lt_of_succ_lt_succ hj) a ha

namespace PoolSession

variable {arena chunksNum chunkSize : Nat} {w : PoolSession} {call : PoolCall}

/-- The calls of clients, and `Free` of pointers from elsewhere. -/
def AnyFree (w : PoolSession) : PoolCall → Prop
  | .free ptr => ptr ∈ w.live ∨ Foreign w.alloc ptr
  | call => Legal w call

instance (w : PoolSession) : DecidablePred (AnyFree w)
  | .allocate size => inferInstanceAs (Decidable (size ≤ _))
  | .free ptr => inferInstanceAs (Decidable (ptr ∈ w.live ∨ _))
  | .reset => isTrue trivial

/-- `Free` of a foreign pointer returns `false` and changes nothing. -/
def Rejects (w : PoolSession) : PoolCall → Prop
  | .free ptr => Foreign w.alloc ptr → w.alloc.free .none ptr = .ok (false, w.alloc)
  | _ => True

/-- The pointer freed is not the end of the arena. -/
def NotEnd (w : PoolSession) : PoolCall → Prop
  | .free ptr => ptr ≠ w.alloc.startPtr + w.alloc.totalSize
  | _ => True

instance (w : PoolSession) : DecidablePred (NotEnd w)
  | .free ptr => inferInstanceAs (Decidable (ptr ≠ _))
  | .allocate _ => isTrue trivial
  | .reset => isTrue trivial

/-- In any state. -/
theorem rejects_iff (w : PoolSession) (call : PoolCall) : Rejects w call ↔ NotEnd w call := by
  cases call with
  | free ptr =>
      by_cases hforeign : Foreign w.alloc ptr
      · exact ⟨fun hr => (free_foreign_iff hforeign).mp (hr hforeign),
          fun hne _ => (free_foreign_iff hforeign).mpr hne⟩
      · refine iff_of_true (fun hf => absurd hf hforeign) ?_
        rintro rfl
        exact hforeign (Or.inr (Nat.le_refl _))
  | allocate size => exact Iff.rfl
  | reset => exact Iff.rfl

/-- **Step lemma.** A call that frees no arena's end keeps the partition. -/
theorem WF.step_anyFree (h : WF arena chunksNum chunkSize w) (hcall : AnyFree w call)
    (hend : NotEnd w call) : ∃ w', step w call = .ok w' ∧ WF arena chunksNum chunkSize w' := by
  cases call with
  | free ptr =>
      rcases hcall with hlive | hforeign
      · exact step_wf h hlive
      · exact ⟨w, step_free ((free_foreign_iff hforeign).mpr hend), h⟩
  | allocate size => exact step_wf h hcall
  | reset => exact step_wf h hcall

end PoolSession

open PoolSession

/-- A pool in a state that calls bring about after its `Init()`. -/
structure ReachedPool where
  arena : Nat
  chunksNum : Nat
  chunkSize : Nat
  session : PoolSession
  pos : 0 < chunkSize
  arenaLt : chunksNum * chunkSize < 2 ^ 64
  tableLt : chunksNum * 8 < 2 ^ 64
  reached : ∃ table calls w₀, table.length = chunksNum ∧
    start chunksNum chunkSize arena table = .ok w₀ ∧ Runs.All step AnyFree w₀ calls ∧
    Runs.All step NotEnd w₀ calls ∧ Runs.exec step w₀ calls = .ok session

namespace ReachedPool

variable (P : ReachedPool)

def region : Extent := ⟨P.arena, P.chunksNum * P.chunkSize⟩

theorem wf : WF P.arena P.chunksNum P.chunkSize P.session := by
  obtain ⟨table, calls, w₀, hlen, hstart, hcalls, hend, hrun⟩ := P.reached
  obtain ⟨s, hinit, hs⟩ := init_spec P.pos P.arenaLt P.tableLt P.arena hlen
  rw [start, hinit] at hstart
  obtain rfl := Except.ok.inj hstart
  obtain ⟨w, hrun', hw⟩ := Runs.exec_inv (WF P.arena P.chunksNum P.chunkSize)
    (fun w call => AnyFree w call ∧ NotEnd w call) (fun _ _ hw hc => hw.step_anyFree hc.1 hc.2)
    (show WF P.arena P.chunksNum P.chunkSize ⟨s, []⟩ from hs) fun x hx => ⟨hcalls x hx, hend x hx⟩
  obtain rfl := Except.ok.inj (hrun'.symm.trans hrun)
  exact hw

/-- A live chunk of one pool is foreign to a pool with a disjoint arena. -/
theorem foreign_of_disjoint {P Q : ReachedPool} (h : Disjoint P.region.bytes Q.region.bytes)
    {p : Nat} (hp : p ∈ P.session.live) : Foreign Q.session.alloc p := by
  have hchunk := chunk_le (P.wf.live_mem hp)
  have hpos := P.pos
  have hmem : p ∈ P.region.bytes := by
    simp only [region, Extent.mem_bytes, Extent.stop]
    omega
  have hnot := Finset.disjoint_left.mp h hmem
  simp only [region, Extent.mem_bytes, Extent.stop] at hnot
  rw [Foreign, Q.wf.start, Q.wf.total]
  omega

theorem end_eq : P.session.alloc.startPtr + P.session.alloc.totalSize
    = P.arena + P.chunksNum * P.chunkSize := congrArg₂ _ P.wf.start P.wf.total

theorem free_foreign_iff {ptr : Nat} (h : Foreign P.session.alloc ptr) :
    P.session.alloc.free .none ptr = .ok (false, P.session.alloc) ↔
      ptr ≠ P.arena + P.chunksNum * P.chunkSize := by
  rw [← P.end_eq]
  exact PoolAllocator.free_foreign_iff h

section List

variable {pools : List ReachedPool} {j k p : Nat} {P Q : ReachedPool}
variable (hdisjoint : pools.Pairwise fun P Q => Disjoint P.region.bytes Q.region.bytes)
include hdisjoint

/-- Every other pool of the list finds the chunk foreign. -/
theorem foreign_other (hk : pools[k]? = some P) (hp : p ∈ P.session.live)
    (hj : pools[j]? = some Q) (hne : j ≠ k) : Foreign Q.session.alloc p := by
  obtain ⟨hjlt, rfl⟩ := List.getElem?_eq_some_iff.mp hj
  obtain ⟨hklt, rfl⟩ := List.getElem?_eq_some_iff.mp hk
  refine foreign_of_disjoint ?_ hp
  have hpair := List.pairwise_iff_getElem.mp hdisjoint
  rcases Nat.lt_or_gt_of_ne hne with hlt | hgt
  · exact (hpair j k hjlt hklt hlt).symm
  · exact hpair k j hklt hjlt hgt

/-- A chunk goes back to its own pool unless a pool before ends there. -/
theorem freeIn_own_iff (hk : pools[k]? = some P) (hp : p ∈ P.session.live) :
    (∃ l, freeIn .none p (pools.map fun Q => Q.session.alloc) = .ok (some k, l)) ↔
      ∀ j < k, ∀ Q, pools[j]? = some Q → p ≠ Q.arena + Q.chunksNum * Q.chunkSize := by
  have hallocs : ∀ {j : Nat} {Q : ReachedPool}, pools[j]? = some Q →
      (pools.map fun Q => Q.session.alloc)[j]? = some Q.session.alloc := by
    intro j Q hj
    rw [List.getElem?_map, hj]
    rfl
  constructor
  · rintro ⟨l, hrun⟩ j hj Q hQ rfl
    obtain ⟨a, ha⟩ := freeIn_some hrun j hj _ (hallocs hQ)
    rw [← Q.end_eq] at ha
    exact free_end _ _ ha
  · intro hnone
    obtain ⟨a, htake, -⟩ := P.wf.free_live hp
    refine ⟨_, freeIn_eq (hallocs hk) htake ?_⟩
    intro j hj b hb
    rw [List.getElem?_map] at hb
    obtain ⟨Q, hQ, rfl⟩ := Option.map_eq_some_iff.mp hb
    have hforeign := foreign_other hdisjoint hk hp hQ (Nat.ne_of_lt hj)
    exact (Q.free_foreign_iff hforeign).mpr (hnone j hj Q hQ)

end List

end ReachedPool

/-- **Rejection, exactly.** In a run from `Init()` with `Free` of live and of
foreign pointers, every foreign one is refused, changing nothing, if and only
if none of them is the end of the arena. In any state reached a pool refuses
exactly the foreign pointers other than that. Of pools with disjoint arenas
one that did not allocate a live chunk refuses it unless it ends there, and
the chunk goes back to its own pool if and only if no pool before ends
there. -/
theorem foreign_rejected_iff {chunksNum chunkSize : Nat} (hpos : 0 < chunkSize)
    (harena : chunksNum * chunkSize < 2 ^ 64) (htable : chunksNum * 8 < 2 ^ 64) (arena : Nat)
    {table : List Nat} (hlen : table.length = chunksNum) :
    (∃ w₀, start chunksNum chunkSize arena table = .ok w₀ ∧ ∀ calls,
      Runs.All step AnyFree w₀ calls →
      (Runs.All step Rejects w₀ calls ↔ Runs.All step NotEnd w₀ calls)) ∧
    (∀ (P : ReachedPool) (ptr : Nat), Foreign P.session.alloc ptr →
      (P.session.alloc.free .none ptr = .ok (false, P.session.alloc) ↔
        ptr ≠ P.arena + P.chunksNum * P.chunkSize)) ∧
    ∀ pools : List ReachedPool,
      (pools.Pairwise fun P Q => Disjoint P.region.bytes Q.region.bytes) →
      ∀ (k : Nat) (P : ReachedPool), pools[k]? = some P → ∀ p ∈ P.session.live,
        (∃ a, P.session.alloc.free .none p = .ok (true, a)) ∧
        (∀ (j : Nat) (Q : ReachedPool), pools[j]? = some Q → j ≠ k →
          (Q.session.alloc.free .none p = .ok (false, Q.session.alloc) ↔
            p ≠ Q.arena + Q.chunksNum * Q.chunkSize)) ∧
        ((∃ l, freeIn .none p (pools.map fun Q => Q.session.alloc) = .ok (some k, l)) ↔
          ∀ j < k, ∀ Q, pools[j]? = some Q → p ≠ Q.arena + Q.chunksNum * Q.chunkSize) := by
  refine ⟨?_, fun P ptr h => P.free_foreign_iff h, ?_⟩
  · obtain ⟨s, hinit, -⟩ := init_spec hpos harena htable arena hlen
    refine ⟨⟨s, []⟩, by rw [start, hinit]; rfl, ?_⟩
    intro calls hcalls
    exact Runs.all_iff (fun _ => True) (fun w call _ _ => rejects_iff w call)
      (fun _ _ _ _ _ _ => trivial) trivial hcalls
  · intro pools hdisjoint k P hk p hp
    obtain ⟨a, htake, -⟩ := P.wf.free_live hp
    refine ⟨⟨a, htake⟩, fun j Q hj hne => ?_, ReachedPool.freeIn_own_iff hdisjoint hk hp⟩
    exact Q.free_foreign_iff (ReachedPool.foreign_other hdisjoint hk hp hj hne)

/-- A pool of one chunk of 16 bytes, which is live. -/
theorem exists_onePool (arena : Nat) :
    ∃ P : ReachedPool, P.arena = arena ∧ P.chunksNum = 1 ∧ P.chunkSize = 16 ∧
      arena ∈ P.session.live := by
  obtain ⟨s, hinit, hs⟩ := init_spec (show 0 < 16 by decide) (show 1 * 16 < 2 ^ 64 by decide)
    (by decide) arena (show [0].length = 1 from rfl)
  have hstart : start 1 16 arena [0] = .ok ⟨s, []⟩ := by
    rw [start, hinit]
    rfl
  obtain ⟨p, s', hrun, hs'⟩ := hs.allocate_some (by decide)
  have hstep : step ⟨s, []⟩ (.allocate 16) = .ok ⟨s', [p]⟩ := by
    rw [step, hrun]
    rfl
  have hsize : 16 ≤ s.getChunkSize := Nat.le_of_eq hs.size.symm
  obtain ⟨i, hi, hp⟩ := mem_chunks.mp (hs'.live_mem (List.mem_singleton_self p))
  refine ⟨⟨arena, 1, 16, ⟨s', [p]⟩, by decide, by decide, by decide, [0], [.allocate 16], _, rfl,
    hstart, ?_, ?_, ?_⟩, rfl, rfl, rfl, ?_⟩
  · exact Runs.all_cons.mpr ⟨hsize, fun _ _ => Runs.all_nil _ _⟩
  · exact Runs.all_cons.mpr ⟨trivial, fun _ _ => Runs.all_nil _ _⟩
  · rw [Runs.exec_cons_ok hstep]
    rfl
  · obtain rfl : i = 0 := by omega
    rw [Nat.zero_mul, Nat.add_zero] at hp
    exact List.mem_singleton.mpr hp.symm

/-- The rule on two pools with room between their arenas. -/
theorem foreign_rejected_iff_apart : ∃ P Q : ReachedPool,
    P.arena = 4096 ∧ Q.arena = 8192 ∧ 8192 ∈ Q.session.live ∧
      ∃ l, freeIn .none 8192 ([P, Q].map fun R => R.session.alloc) = .ok (some 1, l) := by
  obtain ⟨P, hP, hPnum, hPsize, -⟩ := exists_onePool 4096
  obtain ⟨Q, hQ, hQnum, hQsize, hlive⟩ := exists_onePool 8192
  have hdisjoint : [P, Q].Pairwise fun P Q => Disjoint P.region.bytes Q.region.bytes := by
    simp only [List.pairwise_cons, List.mem_singleton, forall_eq, List.not_mem_nil, false_imp_iff,
      implies_true, List.Pairwise.nil, and_true, ReachedPool.region, hP, hPnum, hPsize, hQ, hQnum,
      hQsize]
    decide
  refine ⟨P, Q, hP, hQ, hlive, ?_⟩
  have hrule := foreign_rejected_iff (show 0 < 16 by decide) (show 1 * 16 < 2 ^ 64 by decide)
    (by decide) 4096 (show [0].length = 1 from rfl)
  refine (hrule.2.2 [P, Q] hdisjoint 1 Q rfl 8192 hlive).2.2.mpr ?_
  intro j hj R hR
  obtain rfl : j = 0 := by omega
  obtain rfl := Option.some.inj hR
  rw [hP, hPnum, hPsize]
  decide

/-- A pool of one live chunk takes the end of its arena for its own; and of
two pools whose arenas meet, the first takes the live chunk of the second. -/
theorem not_rejects_end :
    (∃ w₀, start 1 16 4096 [0] = .ok w₀ ∧ Runs.All step AnyFree w₀ [.allocate 16, .free 4112] ∧
      ¬Runs.All step Rejects w₀ [.allocate 16, .free 4112]) ∧
    ∃ P Q : ReachedPool, Disjoint P.region.bytes Q.region.bytes ∧ 4112 ∈ Q.session.live ∧
      ¬∃ l, freeIn .none 4112 ([P, Q].map fun R => R.session.alloc) = .ok (some 1, l) := by
  constructor
  · obtain ⟨s, hinit, -⟩ := init_spec (show 0 < 16 by decide) (show 1 * 16 < 2 ^ 64 by decide)
      (by decide) 4096 (show [0].length = 1 from rfl)
    have hstart : start 1 16 4096 [0] = .ok ⟨s, []⟩ := by
      rw [start, hinit]
      rfl
    have hrun : (start 1 16 4096 [0]).map (fun w₀ =>
        decide (Runs.All step AnyFree w₀ [.allocate 16, .free 4112] ∧
          ¬Runs.All step NotEnd w₀ [.allocate 16, .free 4112])) = .ok true := by decide +kernel
    rw [hstart] at hrun
    obtain ⟨hcalls, hend⟩ := of_decide_eq_true (Except.ok.inj hrun)
    refine ⟨_, hstart, hcalls, fun hall => hend ?_⟩
    exact Runs.All.imp (fun w call => (rejects_iff w call).mp) hall
  · obtain ⟨P, hP, hPnum, hPsize, -⟩ := exists_onePool 4096
    obtain ⟨Q, hQ, hQnum, hQsize, hlive⟩ := exists_onePool 4112
    refine ⟨P, Q, ?_, hlive, ?_⟩
    · rw [ReachedPool.region, ReachedPool.region, hP, hPnum, hPsize, hQ, hQnum, hQsize]
      decide
    · rintro ⟨l, hrun⟩
      obtain ⟨a, ha⟩ := freeIn_some hrun 0 (by decide) P.session.alloc rfl
      have hend : P.session.alloc.startPtr + P.session.alloc.totalSize = 4112 := by
        rw [P.end_eq, hP, hPnum, hPsize]
      rw [← hend] at ha
      exact free_end _ _ ha

end MemAlloc
