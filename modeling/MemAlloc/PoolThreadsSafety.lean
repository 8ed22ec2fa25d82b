import Mathlib.Data.List.Nodup
import Mathlib.Data.List.Perm.Basic
import MemAlloc.PoolThreads

/-!
# Concurrent pool safety

Between its accesses the owner of the lock leaves the pool half updated.
`Position.logical` is the pool as it stood before, or will stand after, the
half update; `Inv` says that *that* pool is partitioned into its free chunks
and the chunks the threads hold, and that only the thread past the exchange
is inside the critical section.

`step_inv` keeps it, whichever thread moves: `step_outside` before the lock
is taken, `step_inside` in the critical section, one case per access.
-/

namespace MemAlloc

open PoolAllocator

namespace Position

/-- Past the loop of `lock()`. -/
def inside : Position → Bool
  | idle | load _ | exchange _ => false
  | _ => true

/-- The pool with the half update of the owner undone or completed. -/
def logical (pool : PoolAllocator) : Position → PoolAllocator
  | readChunk i => { pool with currFreeChunksIdx := i }
  | readUsed _ | writeUsed _ _ => { pool with used := SizeT.add pool.used pool.chunkSize }
  | freeReadIdx _ | freeWriteIdx _ _ => { pool with used := pool.used + pool.chunkSize }
  | freeReadSlot _ | freeWriteChunk _ _ =>
      { pool with
        used := pool.used + pool.chunkSize
        currFreeChunksIdx := pool.currFreeChunksIdx - 1 }
  | _ => pool

/-- What the owner has read is still so. -/
def Fresh (pool : PoolAllocator) : Position → Prop
  | readIdx => 0 ≤ pool.currFreeChunksIdx
  | writeIdx i => i = pool.currFreeChunksIdx ∧ 0 ≤ i
  | readChunk i => pool.currFreeChunksIdx = i - 1 ∧ 0 ≤ i
  | writeUsed _ used | freeWriteUsed _ used => used = pool.used
  | freeWriteIdx _ i | freeWriteChunk _ i => i = pool.currFreeChunksIdx
  | undefined => False
  | _ => True

end Position

/-! ## What the accesses do to the partition -/

namespace PoolAllocator.Partition

variable {arena chunksNum chunkSize ptr : Nat} {live : List Nat} {s : PoolAllocator}

/-- `Allocate` has decreased the index and reads the slot. -/
theorem readChunk {i : Int} (h : Partition arena chunksNum chunkSize live
    { s with currFreeChunksIdx := i }) (hi : s.currFreeChunksIdx = i - 1) (hge : 0 ≤ i) :
    ∃ chunk, s.chunkAt i = .ok chunk ∧ Partition arena chunksNum chunkSize (chunk :: live)
      { s with used := SizeT.add s.used s.chunkSize } := by
  have hlen := h.length_freeList
  have hadd := h.length_add
  obtain ⟨j, rfl⟩ := Int.eq_ofNat_of_zero_le hge
  have hin : j < s.freeChunks.length := by
    have hlt := h.idxLt
    have htable := h.table
    simp only at hlt htable
    omega
  obtain ⟨p, s', hrun, h'⟩ := h.allocate_some (by simp only at hlen; omega)
  have hpop := allocate_pop (s := { s with currFreeChunksIdx := (j : Int) }) rfl hin
  obtain ⟨hp, rfl⟩ := Prod.mk.inj (Except.ok.inj (hrun.symm.trans hpop))
  obtain rfl := Option.some.inj hp
  refine ⟨_, chunkAt_ok hin, ?_⟩
  rw [← hi] at h'
  exact h'

/-- The counter covers a chunk that is held. -/
theorem sub_used (h : Partition arena chunksNum chunkSize live s) (hne : live ≠ []) :
    SizeT.sub s.used s.chunkSize + s.chunkSize = s.used := by
  have hle := h.used_le
  have hlt := h.arenaLt
  have hlen := Nat.mul_le_mul_left chunkSize (List.length_pos_iff.mpr hne)
  rw [h.used, h.size, SizeT.sub_of_le (by omega) (by omega)]
  omega

/-- `Free` has subtracted from the counter and increased the index, and
writes the slot. -/
theorem writeChunk {i : Int} (h : Partition arena chunksNum chunkSize live
    { s with used := s.used + s.chunkSize, currFreeChunksIdx := s.currFreeChunksIdx - 1 })
    (hi : i = s.currFreeChunksIdx) (hp : ptr ∈ live) :
    ∃ s', s.setChunk i ptr = .ok s' ∧ s'.held = s.held ∧
      Partition arena chunksNum chunkSize (live.erase ptr) s' := by
  obtain ⟨s', hrun, h'⟩ := h.free_live hp
  have hchunk := chunk_le (h.live_mem hp)
  have hstart : s.startPtr = arena := h.start
  have htotal : s.totalSize = chunksNum * chunkSize := h.total
  have hrange : ¬(ptr < s.startPtr ∨ ptr > s.startPtr + s.totalSize) := by omega
  have hused : SizeT.sub (s.used + s.chunkSize) s.chunkSize = s.used := by
    have := h.sub_used (List.ne_nil_of_mem hp)
    simp only at this
    omega
  have hge := h.idxGe
  simp only at hge
  obtain ⟨j, hj⟩ : ∃ j : Nat, s.currFreeChunksIdx = j := ⟨s.currFreeChunksIdx.toNat, by omega⟩
  have hin : j < s.freeChunks.length := by
    have hlen := h.length_freeList
    have hadd := h.length_add
    have hpos := List.length_pos_of_mem hp
    have htable := h.table
    simp only at hlen htable
    omega
  have hpush := free_push (s := { s with
    used := s.used + s.chunkSize
    currFreeChunksIdx := s.currFreeChunksIdx - 1 }) hrange (by simp only; omega) hin
  obtain ⟨-, rfl⟩ := Prod.mk.inj (Except.ok.inj (hrun.symm.trans hpush))
  have hset := setChunk_ok hin ptr
  subst hi
  rw [← hj] at hset
  refine ⟨_, hset, rfl, ?_⟩
  simp only [hused] at h'
  rw [← hj] at h'
  exact h'

end PoolAllocator.Partition

/-! ## The invariant -/

namespace PoolThreads

open PoolThread

/-- The lock is held by one thread or by none; only its owner is inside the
critical section; the chunks the threads hold and the free ones, once the
owner's half update is undone or completed, are the chunks of the arena. -/
structure Inv (arena chunksNum chunkSize : Nat) (pool : PoolAllocator) (threads : List PoolThread) :
    Prop where
  count : threads.countP (·.past) = if pool.held then 1 else 0
  inside : ∀ t ∈ threads, t.pos.inside = true → t.past = true
  owner : ∀ t ∈ threads, t.past = true →
    Partition arena chunksNum chunkSize (threads.flatMap holds) (t.pos.logical pool) ∧
      t.pos.Fresh pool
  free : pool.held = false → Partition arena chunksNum chunkSize (threads.flatMap holds) pool

variable {arena chunksNum chunkSize : Nat} {pool pool' : PoolAllocator}
  {threads rest : List PoolThread} {t t' : PoolThread}

/-- Neither past the exchange nor inside. -/
def Outside (t : PoolThread) : Prop := t.past = false ∧ t.pos.inside = false

theorem logical_of_outside {pos : Position} (h : pos.inside = false) :
    pos.logical pool = pool ∧ pos.Fresh pool := by
  cases pos <;> first | exact ⟨rfl, trivial⟩ | cases h

namespace Inv

/-- The order of the threads does not matter. -/
theorem perm {threads' : List PoolThread} (h : Inv arena chunksNum chunkSize pool threads)
    (hp : threads.Perm threads') : Inv arena chunksNum chunkSize pool threads' where
  count := by rw [← h.count, hp.countP_eq]
  inside := fun t ht => h.inside t (hp.mem_iff.mpr ht)
  owner := fun t ht hpast =>
    (h.owner t (hp.mem_iff.mpr ht) hpast).imp_left fun hpart =>
      hpart.perm_live (hp.flatMap_right holds)
  free := fun hfree => (h.free hfree).perm_live (hp.flatMap_right holds)

section

variable (h : Inv arena chunksNum chunkSize pool (t :: rest))
include h

/-- While a thread is past the exchange, the flag is set and the others are
outside. -/
theorem others_outside (hpast : t.past = true) :
    pool.held = true ∧ ∀ m ∈ rest, Outside m := by
  have hcount := h.count
  rw [List.countP_cons_of_pos hpast] at hcount
  have hheld : pool.held = true := by
    cases hb : pool.held with
    | true => rfl
    | false => simp [hb] at hcount
  have hzero : rest.countP (·.past) = 0 := by
    rw [hheld, if_pos rfl] at hcount
    exact Nat.succ.inj hcount
  have hrest : ∀ m ∈ rest, m.past = false := by simpa using List.countP_eq_zero.mp hzero
  refine ⟨hheld, fun m hm => ⟨hrest m hm, Bool.eq_false_iff.mpr fun hin => ?_⟩⟩
  have := h.inside m (List.mem_cons_of_mem _ hm) hin
  rw [hrest m hm] at this
  cases this

/-- While the flag is clear, all are outside. -/
theorem all_outside (hfree : pool.held = false) : ∀ m ∈ t :: rest, Outside m := by
  have hcount := h.count
  rw [hfree] at hcount
  have hnone : ∀ m ∈ t :: rest, m.past = false := by simpa using List.countP_eq_zero.mp hcount
  refine fun m hm => ⟨hnone m hm, Bool.eq_false_iff.mpr fun hin => ?_⟩
  have := h.inside m hm hin
  rw [hnone m hm] at this
  cases this

/-- A thread that moves outside the critical section, holding what it held. -/
theorem wait (hpast : t'.past = t.past) (hin : t.pos.inside = false) (hin' : t'.pos.inside = false)
    (hholds : t'.holds.Perm t.holds) : Inv arena chunksNum chunkSize pool (t' :: rest) := by
  have hp : ((t :: rest).flatMap holds).Perm ((t' :: rest).flatMap holds) := by
    rw [List.flatMap_cons, List.flatMap_cons]
    exact hholds.symm.append_right _
  refine ⟨?_, ?_, ?_, fun hfree => (h.free hfree).perm_live hp⟩
  · rw [← h.count, List.countP_cons, List.countP_cons, hpast]
  · intro m hm hmin
    rcases List.mem_cons.mp hm with rfl | hm
    · rw [hin'] at hmin
      cases hmin
    · exact h.inside m (List.mem_cons_of_mem _ hm) hmin
  · intro m hm hmpast
    rcases List.mem_cons.mp hm with rfl | hm
    · have hpart := (h.owner t (List.mem_cons_self ..) (hpast.symm.trans hmpast)).1
      rw [(logical_of_outside hin).1] at hpart
      rw [(logical_of_outside hin').1]
      exact ⟨hpart.perm_live hp, (logical_of_outside hin').2⟩
    · exact (h.owner m (List.mem_cons_of_mem _ hm) hmpast).imp_left fun hpart =>
        hpart.perm_live hp

end

/-- The state with one owner. -/
theorem of_owner (hrest : ∀ m ∈ rest, Outside m) (hheld : pool.held = true) (hpast : t.past = true)
    (hpart : Partition arena chunksNum chunkSize (t.holds ++ rest.flatMap holds)
      (t.pos.logical pool))
    (hfresh : t.pos.Fresh pool) : Inv arena chunksNum chunkSize pool (t :: rest) where
  count := by
    have hzero : rest.countP (·.past) = 0 := by
      simpa [List.countP_eq_zero] using fun m hm => (hrest m hm).1
    rw [List.countP_cons_of_pos hpast, hzero, hheld]
    rfl
  inside := by
    intro m hm hin
    rcases List.mem_cons.mp hm with rfl | hm
    · exact hpast
    · rw [(hrest m hm).2] at hin
      cases hin
  owner := by
    intro m hm hmpast
    rcases List.mem_cons.mp hm with rfl | hm
    · exact ⟨hpart, hfresh⟩
    · rw [(hrest m hm).1] at hmpast
      cases hmpast
  free := by
    intro hfree
    rw [hheld] at hfree
    cases hfree

/-- The state with a free lock. -/
theorem of_free (hall : ∀ m ∈ threads, Outside m) (hheld : pool.held = false)
    (hpart : Partition arena chunksNum chunkSize (threads.flatMap holds) pool) :
    Inv arena chunksNum chunkSize pool threads where
  count := by
    rw [hheld]
    simpa [List.countP_eq_zero] using fun m hm => (hall m hm).1
  inside := by
    intro m hm hin
    rw [(hall m hm).2] at hin
    cases hin
  owner := by
    intro m hm hmpast
    rw [(hall m hm).1] at hmpast
    cases hmpast
  free := fun _ => hpart

end Inv

/-! ## One step -/

section

variable (h : Inv arena chunksNum chunkSize pool (t :: rest)) {call : ThreadCall}
include h

/-- A call begins, or tries to take the lock. -/
theorem step_outside (hin : t.pos.inside = false)
    (hstep : t.threadStep pool call = .ok (pool', t')) :
    Inv arena chunksNum chunkSize pool' (t' :: rest) := by
  unfold threadStep at hstep
  cases hpos : t.pos with
  | idle =>
      rw [hpos] at hin
      cases call with
      | allocate size =>
          simp only [hpos] at hstep
          split at hstep
          · obtain ⟨rfl, rfl⟩ := Prod.mk.inj (Except.ok.inj hstep)
            exact h.wait rfl (by rw [hpos]; rfl) rfl (by rw [holds, holds, hpos]; rfl)
          · cases hstep
      | free ptr =>
          simp only [hpos] at hstep
          split at hstep
          · rename_i hptr
            obtain ⟨rfl, rfl⟩ := Prod.mk.inj (Except.ok.inj hstep)
            refine h.wait rfl (by rw [hpos]; rfl) rfl ?_
            rw [holds, holds, hpos]
            exact (List.perm_cons_erase hptr).symm
          · cases hstep
  | load call' =>
      simp only [hpos] at hstep
      obtain ⟨rfl, rfl⟩ := Prod.mk.inj (Except.ok.inj hstep)
      have hsame : (if pool.spinlock.mFlag then Position.load call' else .exchange call').inside
          = false ∧ (if pool.spinlock.mFlag then Position.load call' else .exchange call').chunk
          = (Position.load call').chunk := by
        split
        · exact ⟨rfl, rfl⟩
        · cases call' <;> exact ⟨rfl, rfl⟩
      refine h.wait rfl (by rw [hpos]; rfl) hsame.1 ?_
      rw [holds, holds, hpos, hsame.2]
  | exchange call' =>
      simp only [hpos] at hstep
      obtain ⟨rfl, rfl⟩ := Prod.mk.inj (Except.ok.inj hstep)
      cases hflag : pool.spinlock.mFlag with
      | true =>
          -- somebody else was faster
          rw [locked_of_held hflag]
          refine h.wait rfl (by rw [hpos]; rfl) rfl ?_
          rw [holds, holds, hpos]
          cases call' <;> rfl
      | false =>
          refine Inv.of_owner (fun m hm => h.all_outside hflag m (List.mem_cons_of_mem _ hm)) rfl
            rfl ?_ ?_
          · have hpart := (h.free hflag).withSpinlock ⟨true⟩
            rw [List.flatMap_cons, holds, hpos] at hpart
            cases call' <;> exact hpart
          · cases call' <;> trivial
  | _ => rw [hpos] at hin; cases hin

/-- The owner of the lock goes on. -/
theorem step_inside (hin : t.pos.inside = true)
    (hstep : t.threadStep pool call = .ok (pool', t')) :
    Inv arena chunksNum chunkSize pool' (t' :: rest) := by
  have hpast := h.inside t (List.mem_cons_self ..) hin
  obtain ⟨hheld, hrest⟩ := h.others_outside hpast
  obtain ⟨hpart, hfresh⟩ := h.owner t (List.mem_cons_self ..) hpast
  rw [List.flatMap_cons, holds] at hpart
  unfold threadStep at hstep
  cases hpos : t.pos with
  | idle => rw [hpos] at hin; cases hin
  | load call' => rw [hpos] at hin; cases hin
  | exchange call' => rw [hpos] at hin; cases hin
  | checkFull =>
      rw [hpos] at hpart
      simp only [hpos] at hstep
      obtain ⟨rfl, rfl⟩ := Prod.mk.inj (Except.ok.inj hstep)
      by_cases hfull : pool.currFreeChunksIdx < 0
      · rw [if_pos hfull]
        exact Inv.of_owner hrest hheld hpast hpart trivial
      · rw [if_neg hfull]
        exact Inv.of_owner hrest hheld hpast hpart (Int.not_lt.mp hfull)
  | readIdx =>
      rw [hpos] at hpart hfresh
      simp only [hpos] at hstep
      obtain ⟨rfl, rfl⟩ := Prod.mk.inj (Except.ok.inj hstep)
      exact Inv.of_owner hrest hheld hpast hpart ⟨rfl, hfresh⟩
  | writeIdx i =>
      rw [hpos] at hpart hfresh
      simp only [hpos] at hstep
      obtain ⟨rfl, rfl⟩ := Prod.mk.inj (Except.ok.inj hstep)
      obtain ⟨rfl, hge⟩ := hfresh
      exact Inv.of_owner hrest hheld hpast hpart ⟨rfl, hge⟩
  | readChunk i =>
      rw [hpos] at hpart hfresh
      simp only [hpos] at hstep
      obtain ⟨chunk, hchunk, hpart'⟩ := hpart.readChunk hfresh.1 hfresh.2
      rw [hchunk] at hstep
      obtain ⟨rfl, rfl⟩ := Prod.mk.inj (Except.ok.inj hstep)
      exact Inv.of_owner hrest hheld hpast hpart' trivial
  | readUsed chunk =>
      rw [hpos] at hpart
      simp only [hpos] at hstep
      obtain ⟨rfl, rfl⟩ := Prod.mk.inj (Except.ok.inj hstep)
      exact Inv.of_owner hrest hheld hpast hpart rfl
  | writeUsed chunk used =>
      rw [hpos] at hpart hfresh
      simp only [hpos] at hstep
      obtain ⟨rfl, rfl⟩ := Prod.mk.inj (Except.ok.inj hstep)
      obtain rfl : used = pool.used := hfresh
      exact Inv.of_owner hrest hheld hpast hpart trivial
  | unlockAllocate chunk =>
      rw [hpos] at hpart
      simp only [hpos] at hstep
      obtain ⟨rfl, rfl⟩ := Prod.mk.inj (Except.ok.inj hstep)
      refine Inv.of_free ?_ rfl (hpart.withSpinlock pool.spinlock.unlock)
      exact List.forall_mem_cons.mpr ⟨⟨rfl, rfl⟩, hrest⟩
  | testRange ptr =>
      rw [hpos] at hpart
      simp only [hpos] at hstep
      split at hstep
      · obtain ⟨rfl, rfl⟩ := Prod.mk.inj (Except.ok.inj hstep)
        exact Inv.of_owner hrest hheld hpast hpart trivial
      · obtain ⟨rfl, rfl⟩ := Prod.mk.inj (Except.ok.inj hstep)
        exact Inv.of_owner hrest hheld hpast hpart trivial
  | freeReadUsed ptr =>
      rw [hpos] at hpart
      simp only [hpos] at hstep
      obtain ⟨rfl, rfl⟩ := Prod.mk.inj (Except.ok.inj hstep)
      exact Inv.of_owner hrest hheld hpast hpart rfl
  | freeWriteUsed ptr used =>
      rw [hpos] at hpart hfresh
      simp only [hpos] at hstep
      obtain ⟨rfl, rfl⟩ := Prod.mk.inj (Except.ok.inj hstep)
      obtain rfl : used = pool.used := hfresh
      refine Inv.of_owner hrest hheld hpast ?_ trivial
      have hused := hpart.sub_used (List.cons_ne_nil ptr _)
      show Partition arena chunksNum chunkSize _
        { pool with used := SizeT.sub pool.used pool.chunkSize + pool.chunkSize }
      rw [show SizeT.sub pool.used pool.chunkSize + pool.chunkSize = pool.used from hused]
      exact hpart
  | freeReadIdx ptr =>
      rw [hpos] at hpart
      simp only [hpos] at hstep
      obtain ⟨rfl, rfl⟩ := Prod.mk.inj (Except.ok.inj hstep)
      exact Inv.of_owner hrest hheld hpast hpart rfl
  | freeWriteIdx ptr i =>
      rw [hpos] at hpart hfresh
      simp only [hpos] at hstep
      obtain ⟨rfl, rfl⟩ := Prod.mk.inj (Except.ok.inj hstep)
      obtain rfl : i = pool.currFreeChunksIdx := hfresh
      refine Inv.of_owner hrest hheld hpast ?_ trivial
      show Partition arena chunksNum chunkSize _ { pool with
        used := pool.used + pool.chunkSize
        currFreeChunksIdx := pool.currFreeChunksIdx + 1 - 1 }
      rw [Int.add_sub_cancel]
      exact hpart
  | freeReadSlot ptr =>
      rw [hpos] at hpart
      simp only [hpos] at hstep
      obtain ⟨rfl, rfl⟩ := Prod.mk.inj (Except.ok.inj hstep)
      exact Inv.of_owner hrest hheld hpast hpart rfl
  | freeWriteChunk ptr i =>
      rw [hpos] at hpart hfresh
      simp only [hpos] at hstep
      obtain ⟨pool'', hset, hheld', hpart'⟩ := hpart.writeChunk hfresh
        (List.mem_cons_self (a := ptr))
      rw [hset] at hstep
      obtain ⟨rfl, rfl⟩ := Prod.mk.inj (Except.ok.inj hstep)
      have herase : ([ptr] ++ t.held ++ rest.flatMap holds).erase ptr
          = t.held ++ rest.flatMap holds := List.erase_cons_head ..
      refine Inv.of_owner hrest (hheld'.trans hheld) hpast ?_ trivial
      exact herase ▸ hpart'
  | unlockFree =>
      rw [hpos] at hpart
      simp only [hpos] at hstep
      obtain ⟨rfl, rfl⟩ := Prod.mk.inj (Except.ok.inj hstep)
      refine Inv.of_free ?_ rfl (hpart.withSpinlock pool.spinlock.unlock)
      exact List.forall_mem_cons.mpr ⟨⟨rfl, rfl⟩, hrest⟩
  | undefined =>
      rw [hpos] at hfresh
      exact hfresh.elim

end

/-- What a step does: one thread moves, the others stay as they are. -/
theorem step_cases {s s' : PoolThreads} {choice : Nat × ThreadCall}
    (hstep : step s choice = .ok s') :
    ∃ t t' rest, s.threads.Perm (t :: rest) ∧ s'.threads.Perm (t' :: rest) ∧
      t.threadStep s.pool choice.2 = .ok (s'.pool, t') := by
  unfold step at hstep
  split at hstep
  · rename_i t ht
    split at hstep
    · rename_i pool' t' hrun
      obtain rfl := Except.ok.inj hstep
      obtain ⟨hi, rfl⟩ := List.getElem?_eq_some_iff.mp ht
      exact ⟨_, t', _, (List.getElem_cons_eraseIdx_perm hi).symm,
        List.set_perm_cons_eraseIdx hi t', hrun⟩
    · cases hstep
  · cases hstep

/-- **Step lemma.** Whichever thread takes the next step. -/
theorem step_inv {s s' : PoolThreads} {choice : Nat × ThreadCall}
    (h : Inv arena chunksNum chunkSize s.pool s.threads) (hstep : step s choice = .ok s') :
    Inv arena chunksNum chunkSize s'.pool s'.threads := by
  obtain ⟨t, t', rest, hbefore, hafter, hrun⟩ := step_cases hstep
  have hhead := h.perm hbefore
  refine Inv.perm ?_ hafter.symm
  cases hin : t.pos.inside with
  | false => exact step_outside hhead hin hrun
  | true => exact step_inside hhead hin hrun

theorem inv_start (hpart : Partition arena chunksNum chunkSize [] pool)
    (hfree : pool.held = false) (n : Nat) :
    Inv arena chunksNum chunkSize (start pool n).pool (start pool n).threads := by
  refine Inv.of_free (fun m hm => ?_) hfree ?_
  · obtain rfl := List.eq_of_mem_replicate hm
    exact ⟨rfl, rfl⟩
  · have hnone : (List.replicate n ({} : PoolThread)).flatMap holds = [] := by
      simp [holds, Position.chunk]
    show Partition arena chunksNum chunkSize
      ((List.replicate n ({} : PoolThread)).flatMap holds) pool
    rw [hnone]
    exact hpart

/-- The invariant holds in every state a schedule leads to. -/
theorem inv_run {n : Nat} (hpart : Partition arena chunksNum chunkSize [] pool)
    (hfree : pool.held = false) {schedule : List (Nat × ThreadCall)} {s : PoolThreads}
    (hrun : Runs.exec step (start pool n) schedule = .ok s) :
    Inv arena chunksNum chunkSize s.pool s.threads := by
  exact Runs.exec_keeps (fun s => Inv arena chunksNum chunkSize s.pool s.threads)
    (fun _ _ _ h hstep => step_inv h hstep) (inv_start hpart hfree n) hrun

/-! ## What the invariant says -/

section

variable (h : Inv arena chunksNum chunkSize pool threads)
include h

/-- At most one thread is past the exchange. -/
theorem Inv.mutex {i j : Nat} {t u : PoolThread} (ht : threads[i]? = some t)
    (hu : threads[j]? = some u) (htp : t.past = true) (hup : u.past = true) : i = j := by
  by_contra hne
  obtain ⟨hi, rfl⟩ := List.getElem?_eq_some_iff.mp ht
  have hrest := (h.perm (List.getElem_cons_eraseIdx_perm hi).symm).others_outside htp
  have hmem : u ∈ threads.eraseIdx i := List.mem_eraseIdx_iff_getElem?.mpr ⟨j, Ne.symm hne, hu⟩
  rw [(hrest.2 u hmem).1] at hup
  cases hup

/-- The held chunks are the live ones of a partition: of the pool while the
flag is clear, of the owner's logical pool while it is set. -/
theorem Inv.exists_partition :
    ∃ pool', Partition arena chunksNum chunkSize (threads.flatMap holds) pool' := by
  cases hheld : pool.held with
  | false => exact ⟨pool, h.free hheld⟩
  | true =>
      have hcount := h.count
      rw [hheld] at hcount
      obtain ⟨t, ht, hpast⟩ := List.countP_pos_iff.mp (show 0 < threads.countP (·.past) by
        rw [hcount]; exact Nat.one_pos)
      exact ⟨_, (h.owner t ht hpast).1⟩

/-- All held chunks are different. -/
theorem Inv.held_nodup : (threads.flatMap holds).Nodup := by
  obtain ⟨pool', hpart⟩ := h.exists_partition
  exact (List.nodup_append.mp hpart.nodup).2.1

/-- No chunk is held by two threads. -/
theorem Inv.held_apart {i j c : Nat} {t u : PoolThread} (ht : threads[i]? = some t)
    (hu : threads[j]? = some u) (htc : c ∈ t.holds) (huc : c ∈ u.holds) : i = j := by
  by_contra hne
  obtain ⟨hi, rfl⟩ := List.getElem?_eq_some_iff.mp ht
  have hnodup := (h.perm (List.getElem_cons_eraseIdx_perm hi).symm).held_nodup
  rw [List.flatMap_cons] at hnodup
  have hmem : u ∈ threads.eraseIdx i := List.mem_eraseIdx_iff_getElem?.mpr ⟨j, Ne.symm hne, hu⟩
  exact (List.nodup_append.mp hnodup).2.2 c htc c (List.mem_flatMap.mpr ⟨u, hmem, huc⟩) rfl

/-- No access was outside the table. -/
theorem Inv.no_undefined (ht : t ∈ threads) : t.pos ≠ .undefined := by
  intro hpos
  have hpast := h.inside t ht (by rw [hpos]; rfl)
  have hfresh := (h.owner t ht hpast).2
  rw [hpos] at hfresh
  exact hfresh

end

/-- **Concurrent pool safety.** In every state that any interleaving of any
number of threads leads to, at most one thread is past the exchange, no
chunk is held twice, no access was out of bounds, and while the flag is
clear the free and the held chunks are exactly the chunks of the arena, each
once, and the counter agrees. -/
theorem concurrent_safety (hpos : 0 < chunkSize) (harena : chunksNum * chunkSize < 2 ^ 64)
    (htable : chunksNum * 8 < 2 ^ 64) (arena : Nat) {table : List Nat}
    (hlen : table.length = chunksNum) (n : Nat) :
    ∃ pool, (construct chunksNum chunkSize).init .enableSpinLock arena table = .ok pool ∧
      ∀ (schedule : List (Nat × ThreadCall)) (s : PoolThreads),
        Runs.exec step (start pool n) schedule = .ok s →
        (∀ (i j : Nat) (t u : PoolThread), s.threads[i]? = some t → s.threads[j]? = some u →
          t.past = true → u.past = true → i = j) ∧
        s.held.Nodup ∧
        (∀ (i j : Nat) (t u : PoolThread) (c : Nat),
          s.threads[i]? = some t → s.threads[j]? = some u →
          c ∈ t.holds → c ∈ u.holds → i = j) ∧
        (∀ t ∈ s.threads, t.pos ≠ .undefined) ∧
        (s.pool.spinlock.mFlag = false →
          (s.pool.freeList ++ s.held).Perm (chunks arena chunksNum chunkSize) ∧
          (s.pool.freeList ++ s.held).Nodup ∧
          s.pool.used = chunkSize * s.held.length) := by
  obtain ⟨pool, hinit, hpart, hfree⟩ := init_enableSpinLock_spec hpos harena htable arena hlen
  refine ⟨pool, hinit, fun schedule s hrun => ?_⟩
  have h := inv_run hpart hfree hrun
  exact ⟨fun i j t u ht hu => h.mutex ht hu, h.held_nodup,
    fun i j t u c ht hu => h.held_apart ht hu, fun t ht => h.no_undefined ht,
    fun hflag => ⟨(h.free hflag).perm, (h.free hflag).nodup, (h.free hflag).used⟩⟩

/-- Two threads on two chunks: each takes one, one gives it back. -/
theorem concurrent_safety_two_threads :
    ∃ pool s, (construct 2 16).init .enableSpinLock 4096 [0, 0] = .ok pool ∧
      Runs.exec step (start pool 2) (List.replicate 10 (0, .allocate 16) ++
        List.replicate 10 (1, .allocate 16) ++ List.replicate 11 (0, .free 4112)) = .ok s ∧
      s.held = [4096] ∧ (s.pool.freeList ++ s.held).Perm (chunks 4096 2 16) := by
  obtain ⟨pool, hinit, hsafe⟩ := concurrent_safety (show 0 < 16 by decide)
    (show 2 * 16 < 2 ^ 64 by decide) (by decide) 4096 (show [0, 0].length = 2 from rfl) 2
  have hsome : ((construct 2 16).init .enableSpinLock 4096 [0, 0]).map (fun pool =>
      (Runs.exec step (start pool 2) (List.replicate 10 (0, .allocate 16) ++
        List.replicate 10 (1, .allocate 16) ++ List.replicate 11 (0, .free 4112))).map
        fun s => (s.held, s.pool.spinlock.mFlag)) = .ok (.ok ([4096], false)) := by
    decide +kernel
  rw [hinit] at hsome
  have hsome' := Except.ok.inj hsome
  dsimp only at hsome'
  cases hrun : Runs.exec step (start pool 2) (List.replicate 10 (0, .allocate 16) ++
      List.replicate 10 (1, .allocate 16) ++ List.replicate 11 (0, .free 4112)) with
  | error e => rw [hrun] at hsome'; cases hsome'
  | ok s =>
      rw [hrun] at hsome'
      obtain ⟨hheld, hflag⟩ := Prod.mk.inj (Except.ok.inj hsome')
      exact ⟨pool, s, hinit, hrun, hheld, ((hsafe _ s hrun).2.2.2.2 hflag).1⟩

end PoolThreads

end MemAlloc
