import MemAlloc.LockBalance
import MemAlloc.PoolGeometry

/-!
# A copied pool

The copy constructor of `PoolAllocator` copies the pointers to the arena and
to the table, so that an initialised pool and its copy have a table in common
while each has an index of its own. `CopiedPool` is the two objects, with the
chunks each has handed out since the copy; that the tables are one is a field
of it.

As long as only one of the objects at a time has chunks out, and takes them
back in the reverse order, the table stays what it was at the copy and each
index says how far its object has come down (`Apart`). Every other legal call
goes wrong at once: an `Allocate` returns a chunk the other object has out,
or a `Free` changes the other's table (`copies_apart_iff`).
-/

namespace MemAlloc

open PoolAllocator

inductive Owner where
  | original
  | copy
deriving DecidableEq, Repr

namespace Owner

def other : Owner → Owner
  | .original => .copy
  | .copy => .original

theorem other_ne (o : Owner) : o.other ≠ o := by cases o <;> decide

theorem eq_or_other (o o' : Owner) : o' = o ∨ o' = o.other := by
  cases o <;> cases o' <;> decide

end Owner

/-- A pool, its copy, and the chunks each of them has handed out since the
copy, latest first. The two tables are one. -/
structure CopiedPool where
  pool : Owner → PoolAllocator
  live : Owner → List Nat
  shared : (pool .copy).freeChunks = (pool .original).freeChunks

namespace CopiedPool

/-- Right after the copy constructor. -/
def start (s : PoolAllocator) : CopiedPool where
  pool
    | .original => s
    | .copy => s.copy
  live _ := []
  shared := rfl

/-- One of the objects, with its chunks. -/
def session (w : CopiedPool) (o : Owner) : PoolSession := ⟨w.pool o, w.live o⟩

/-- What one object wrote to the table is in the table of the other. -/
def update (w : CopiedPool) (o : Owner) (t : PoolSession) : CopiedPool where
  pool o' := if o' = o then t.alloc else { w.pool o' with freeChunks := t.alloc.freeChunks }
  live o' := if o' = o then t.live else w.live o'
  shared := by cases o <;> rfl

/-- A call on one of the two objects. -/
def step (w : CopiedPool) (i : Owner × PoolCall) : Except Stuck CopiedPool :=
  (PoolSession.step (w.session i.1) i.2).map (w.update i.1)

/-- `Allocate` of at most a chunk, and `Free` of a chunk the same object has
handed out. -/
def Legal (w : CopiedPool) (i : Owner × PoolCall) : Prop :=
  i.2 ≠ .reset ∧ PoolSession.Legal (w.session i.1) i.2

instance (w : CopiedPool) : DecidablePred (Legal w) := fun _ => inferInstanceAs (Decidable (_ ∧ _))

/-- The call returns, no chunk is then out twice, and the table of the other
object is what it was. -/
def Keeps (w : CopiedPool) (i : Owner × PoolCall) : Prop :=
  ∃ w', step w i = .ok w' ∧ (∀ o, ∀ p ∈ w'.live o, p ∉ w'.live o.other) ∧
    (w'.pool i.1.other).freeChunks = (w.pool i.1.other).freeChunks

/-- `Allocate` while the other object has no chunk out; `Free` of the latest
chunk, or of one the range test refuses. -/
def Exclusive (w : CopiedPool) : Owner × PoolCall → Prop
  | (o, .allocate _) => w.live o.other = []
  | (o, .free ptr) => (w.live o).head? = some ptr ∨
      (ptr < (w.pool o).startPtr ∨ ptr > (w.pool o).startPtr + (w.pool o).totalSize)
  | (_, .reset) => True

instance (w : CopiedPool) : DecidablePred (Exclusive w)
  | (_, .allocate _) => inferInstanceAs (Decidable (_ = _))
  | (_, .free _) => inferInstanceAs (Decidable (_ ∨ _))
  | (_, .reset) => isTrue trivial

variable {w w' : CopiedPool} {o : Owner} {t : PoolSession} {i : Owner × PoolCall}

@[simp] theorem update_pool_self : (w.update o t).pool o = t.alloc := if_pos rfl

@[simp] theorem update_live_self : (w.update o t).live o = t.live := if_pos rfl

@[simp] theorem update_pool_other : (w.update o t).pool o.other
    = { w.pool o.other with freeChunks := t.alloc.freeChunks } := if_neg o.other_ne

@[simp] theorem update_live_other : (w.update o t).live o.other = w.live o.other :=
  if_neg o.other_ne

/-- The table is what it was at the copy; each object has out what it took
from the `k` free chunks of that moment, from the last one down, and only one
of the two has any. -/
structure Apart (table : List Nat) (k : Nat) (w : CopiedPool) : Prop where
  frozen : ∀ o, (w.pool o).freeChunks = table
  le : k ≤ table.length
  taken : ∀ o, ∃ n ≤ k, (w.pool o).currFreeChunksIdx + 1 = (n : Nat) ∧
    w.live o = (table.take k).drop n
  one : ∀ o, w.live o = [] ∨ w.live o.other = []

variable {table : List Nat} {k n : Nat}

/-- Nothing is out twice. -/
theorem Apart.disjoint (h : Apart table k w) : ∀ o, ∀ p ∈ w.live o, p ∉ w.live o.other := by
  intro o p hp hp'
  rcases h.one o with hnil | hnil
  · rw [hnil] at hp
    exact List.not_mem_nil hp
  · rw [hnil] at hp'
    exact List.not_mem_nil hp'

/-- What one object may do while the other has nothing out. -/
theorem Apart.update (h : Apart table k w) (hother : w.live o.other = [])
    (htable : t.alloc.freeChunks = table) (hn : n ≤ k)
    (hidx : t.alloc.currFreeChunksIdx + 1 = (n : Nat)) (hlive : t.live = (table.take k).drop n) :
    Apart table k (w.update o t) where
  frozen o' := by
    rcases o.eq_or_other o' with rfl | rfl
    · rw [update_pool_self, htable]
    · rw [update_pool_other, htable]
  le := h.le
  taken o' := by
    rcases o.eq_or_other o' with rfl | rfl
    · refine ⟨n, hn, ?_, ?_⟩
      · rw [update_pool_self, hidx]
      · rw [update_live_self, hlive]
    · rw [update_pool_other, update_live_other]
      exact h.taken o.other
  one o' := by
    rcases o.eq_or_other o' with rfl | rfl
    · rw [update_live_other]
      exact Or.inr hother
    · rw [update_live_other]
      exact Or.inl hother

/-- An object with nothing out has all `k` chunks free. -/
theorem Apart.eq_of_nil (h : Apart table k w) (hn : n ≤ k)
    (hlive : w.live o = (table.take k).drop n) (hnil : w.live o = []) : n = k := by
  have hlen := congrArg List.length hlive
  have hle := h.le
  rw [hnil, List.length_nil, List.length_drop, List.length_take] at hlen
  omega

/-- An object with a chunk out has a slot for it below `k`. -/
theorem Apart.lt_of_ne_nil (h : Apart table k w) (hlive : w.live o = (table.take k).drop n)
    (hne : w.live o ≠ []) : n < k := by
  have hlen := congrArg List.length hlive
  have hpos := List.length_pos_iff.mpr hne
  have hle := h.le
  rw [List.length_drop, List.length_take] at hlen
  omega

theorem step_eq {call : PoolCall} (hstep : PoolSession.step (w.session o) call = .ok t) :
    step w (o, call) = .ok (w.update o t) := by
  rw [step, hstep]
  rfl

/-- What is out, one slot further down. -/
theorem Apart.drop_eq (h : Apart table k w) (hn : n < k) (hin : n < table.length) :
    (table.take k).drop n = table[n] :: (table.take k).drop (n + 1) := by
  have hle := h.le
  rw [List.drop_eq_getElem_cons (by rw [List.length_take]; omega), List.getElem_take]

/-- **`Allocate`** with nothing out on the other side. -/
theorem Apart.allocate (h : Apart table k w) (size : Nat) (hother : w.live o.other = []) :
    ∃ w', step w (o, .allocate size) = .ok w' ∧ Apart table k w' := by
  obtain ⟨n, hn, hidx, hlive⟩ := h.taken o
  have htable := h.frozen o
  cases n with
  | zero =>
      have hrun := allocate_empty (s := w.pool o) (by omega)
      have hstep := step_eq (PoolSession.step_allocate (w := w.session o) hrun size)
      exact ⟨_, hstep, h.update hother htable hn hidx hlive⟩
  | succ n =>
      have hle := h.le
      have hin : n < table.length := by omega
      have hlt : n < (w.pool o).freeChunks.length := by rwa [htable]
      have hrun := allocate_pop (s := w.pool o) (i := n) (by omega) hlt
      have hstep := step_eq (PoolSession.step_allocate (w := w.session o) hrun size)
      refine ⟨_, hstep, h.update (n := n) hother htable (by omega) ?_ ?_⟩
      · show ((n : Int) - 1) + 1 = n
        omega
      · show (w.pool o).freeChunks[n] :: w.live o = _
        rw [hlive, h.drop_eq (by omega) hin]
        simp only [htable]

/-- `Allocate` with a chunk out on the other side returns the first of these. -/
theorem Apart.allocate_twice (h : Apart table k w) (size : Nat) (hother : w.live o.other ≠ []) :
    ∃ p t, PoolSession.step (w.session o) (.allocate size) = .ok t ∧ p ∈ t.live ∧
      p ∈ w.live o.other := by
  obtain ⟨n, hn, hidx, hlive⟩ := h.taken o
  obtain ⟨m, hm, -, hlive'⟩ := h.taken o.other
  have htable := h.frozen o
  have hle := h.le
  have hnk := h.eq_of_nil hn hlive ((h.one o).resolve_right hother)
  have hmk := h.lt_of_ne_nil hlive' hother
  obtain ⟨j, rfl⟩ : ∃ j, n = j + 1 := ⟨n - 1, by omega⟩
  have hlt : j < (w.pool o).freeChunks.length := by
    rw [htable]
    omega
  have hrun := allocate_pop (s := w.pool o) (i := j) (by omega) hlt
  have hstep := PoolSession.step_allocate (w := w.session o) hrun size
  refine ⟨_, _, hstep, List.mem_cons_self .., ?_⟩
  rw [hlive', List.mem_drop_iff_getElem]
  refine ⟨j - m, by rw [List.length_take]; omega, ?_⟩
  simp only [List.getElem_take, htable, Nat.add_sub_cancel' (show m ≤ j by omega)]

/-- **`Free`** of a chunk that the range test refuses. -/
theorem Apart.free_refused (h : Apart table k w) {ptr : Nat} (hptr : ptr ∈ w.live o)
    (hrange : ptr < (w.pool o).startPtr ∨ ptr > (w.pool o).startPtr + (w.pool o).totalSize) :
    ∃ w', step w (o, .free ptr) = .ok w' ∧ Apart table k w' := by
  obtain ⟨n, hn, hidx, hlive⟩ := h.taken o
  have hother := (h.one o).resolve_left (List.ne_nil_of_mem hptr)
  have hrun := PoolAllocator.free_refused hrange
  have hstep := step_eq (PoolSession.step_free (w := w.session o) hrun)
  exact ⟨_, hstep, h.update hother (h.frozen o) hn hidx hlive⟩

/-- `Free` of any other chunk writes it over the latest one. -/
theorem Apart.free_push (h : Apart table k w) {ptr : Nat} (hptr : ptr ∈ w.live o)
    (hrange : ¬(ptr < (w.pool o).startPtr ∨ ptr > (w.pool o).startPtr + (w.pool o).totalSize)) :
    ∃ t n, ∃ hin : n < table.length, n < k ∧
      PoolSession.step (w.session o) (.free ptr) = .ok t ∧
      t.alloc.freeChunks = table.set n ptr ∧ t.alloc.currFreeChunksIdx + 1 = (n + 1 : Nat) ∧
      t.live = (w.live o).erase ptr ∧ w.live o = table[n] :: (table.take k).drop (n + 1) := by
  obtain ⟨n, hn, hidx, hlive⟩ := h.taken o
  have htable := h.frozen o
  have hle := h.le
  have hnk := h.lt_of_ne_nil hlive (List.ne_nil_of_mem hptr)
  have hin : n < table.length := by omega
  have hlt : n < (w.pool o).freeChunks.length := by rwa [htable]
  have hrun := PoolAllocator.free_push hrange hidx hlt
  refine ⟨_, n, hin, hnk, PoolSession.step_free (w := w.session o) hrun, ?_, rfl, rfl, ?_⟩
  · rw [← htable]
  · rw [hlive, h.drop_eq hnk hin]

/-- **`Free`** of the latest chunk. -/
theorem Apart.free_latest (h : Apart table k w) {ptr : Nat} (hhead : (w.live o).head? = some ptr)
    (hrange : ¬(ptr < (w.pool o).startPtr ∨ ptr > (w.pool o).startPtr + (w.pool o).totalSize)) :
    ∃ w', step w (o, .free ptr) = .ok w' ∧ Apart table k w' := by
  have hptr : ptr ∈ w.live o := List.mem_of_mem_head? hhead
  have hother := (h.one o).resolve_left (List.ne_nil_of_mem hptr)
  obtain ⟨t, n, hin, hnk, hstep, htable, hidx, hlive, hlast⟩ := h.free_push hptr hrange
  have heq : table[n] = ptr := by
    rw [hlast] at hhead
    exact Option.some.inj hhead
  refine ⟨_, step_eq hstep, h.update hother ?_ hnk hidx ?_⟩
  · rw [htable, ← heq, List.set_getElem_self]
  · rw [hlive, hlast, heq, List.erase_cons_head]

/-- **Step lemma.** A call that meets the condition returns and keeps the
objects apart. -/
theorem Apart.step (h : Apart table k w) (hlegal : Legal w i) (hexcl : Exclusive w i) :
    ∃ w', CopiedPool.step w i = .ok w' ∧ Apart table k w' := by
  obtain ⟨o, call⟩ := i
  cases call with
  | allocate size => exact h.allocate size hexcl
  | free ptr =>
      by_cases hrange : ptr < (w.pool o).startPtr ∨
          ptr > (w.pool o).startPtr + (w.pool o).totalSize
      · exact h.free_refused hlegal.2 hrange
      · exact h.free_latest (hexcl.resolve_right hrange) hrange
  | reset => exact absurd rfl hlegal.1

/-- Any other legal call goes wrong. -/
theorem Apart.exclusive (h : Apart table k w) (hlegal : Legal w i) (hkeeps : Keeps w i) :
    Exclusive w i := by
  obtain ⟨o, call⟩ := i
  obtain ⟨w', hok, hdisjoint, hsame⟩ := hkeeps
  cases call with
  | allocate size =>
      by_contra hother
      obtain ⟨p, t, hstep, hp, hp'⟩ := h.allocate_twice size hother
      obtain rfl := Except.ok.inj ((step_eq hstep).symm.trans hok)
      refine hdisjoint o p ?_ ?_
      · rwa [update_live_self]
      · rwa [update_live_other]
  | free ptr =>
      refine or_iff_not_imp_right.mpr fun hrange => ?_
      obtain ⟨t, n, hin, -, hstep, htable, -, -, hlast⟩ := h.free_push hlegal.2 hrange
      obtain rfl := Except.ok.inj ((step_eq hstep).symm.trans hok)
      have hset : table.set n ptr = table := by
        rw [← htable, ← h.frozen o.other, ← hsame, update_pool_other]
      have heq : table[n] = ptr := by
        rw [← List.getElem_set_self (a := ptr) (by rwa [List.length_set])]
        simp only [hset]
      rw [hlast, heq, List.head?_cons]
  | reset => trivial

/-- **Step lemma.** A legal call keeps the two objects from each other's
chunks and table if and only if it meets the condition. -/
theorem Apart.keeps_iff (h : Apart table k w) (hlegal : Legal w i) :
    Keeps w i ↔ Exclusive w i := by
  refine ⟨h.exclusive hlegal, fun hexcl => ?_⟩
  obtain ⟨w', hok, hw'⟩ := h.step hlegal hexcl
  exact ⟨w', hok, hw'.disjoint, by rw [hw'.frozen, h.frozen]⟩

/-- Along every run. -/
theorem Apart.run_iff (h : Apart table k w) {calls : List (Owner × PoolCall)}
    (hlegal : Runs.All CopiedPool.step Legal w calls) :
    Runs.All CopiedPool.step Keeps w calls ↔ Runs.All CopiedPool.step Exclusive w calls :=
  Runs.steps_iff (Apart table k) (fun _ _ hw hl => hw.keeps_iff hl)
    (fun _ _ hw hl hexcl => hw.step hl hexcl) h hlegal

/-! ## From `Init` on -/

variable {chunksNum chunkSize arena : Nat} {s : PoolAllocator}

theorem apart_start (h : InTable chunksNum s) :
    Apart s.freeChunks (s.currFreeChunksIdx + 1).toNat (start s) where
  frozen o := by cases o <;> rfl
  le := by
    have hlt := h.idxLt
    rw [h.table]
    omega
  taken o := by
    have hidx : ((start s).pool o).currFreeChunksIdx = s.currFreeChunksIdx := by cases o <;> rfl
    have hge := h.idxGe
    refine ⟨_, Nat.le_refl _, ?_, ?_⟩
    · rw [hidx, Int.toNat_of_nonneg (by omega)]
    · rw [List.drop_eq_nil_of_le (List.length_take_le _ _)]
      rfl
  one _ := Or.inl rfl

/-- A table as large as `Init` asked for: it has a slot for each chunk, or
`Init` does not return. -/
theorem inTable_start {table : List Nat} (hbytes : table.length * 8 = tableBytes chunksNum)
    {w₀ : PoolSession} (hinit : PoolSession.start chunksNum chunkSize arena table = .ok w₀) :
    InTable chunksNum w₀.alloc := by
  obtain ⟨s, hs, hw₀⟩ := bind_eq_ok.mp hinit
  have hlt := (init_returns_iff hbytes).mp ⟨s, hs⟩
  rw [tableBytes, SizeT.mul_of_lt hlt] at hbytes
  obtain ⟨s', hs', h⟩ := reset_none_inTable (s := { construct chunksNum chunkSize with
    startPtr := arena
    freeChunks := table }) rfl hlt (Nat.eq_of_mul_eq_mul_right (by decide) hbytes)
  obtain rfl := Except.ok.inj (hs.symm.trans hs')
  obtain rfl := Except.ok.inj hw₀
  exact h

/-- Any call that returns, whatever its arguments. -/
theorem inTable_step {u u' : PoolSession} {call : PoolCall} (h : InTable chunksNum u.alloc)
    (hok : PoolSession.step u call = .ok u') : InTable chunksNum u'.alloc := by
  rcases PoolSession.step_cases hok with ⟨size, result, s, rfl, hrun, rfl⟩ |
    ⟨ptr, ok, s, rfl, hrun, rfl⟩ | ⟨s, rfl, hrun, rfl⟩
  · obtain ⟨result', s', hrun', hs', -⟩ := h.allocate_none
    obtain ⟨-, rfl⟩ := Prod.mk.inj (Except.ok.inj (hrun.symm.trans hrun'))
    exact hs'
  · rcases h.free_none ptr with ⟨-, hstuck⟩ | ⟨ok', s', hrun', hs', -⟩
    · cases hrun.symm.trans hstuck
    · obtain ⟨-, rfl⟩ := Prod.mk.inj (Except.ok.inj (hrun.symm.trans hrun'))
      exact hs'
  · obtain ⟨s', hrun', hs'⟩ := reset_none_inTable h.num h.tableLt h.table
    obtain rfl := Except.ok.inj (hrun.symm.trans hrun')
    exact hs'

/-- **Copies, exactly.** A pool is initialised, called in any way that
returns, and copied. In a run of `Allocate` and `Free` calls on the two
objects no chunk is ever out twice and no call changes the other object's
table if and only if each `Allocate` is made while the other object has no
chunk out and each `Free` is of the object's latest chunk, or of one its range
test refuses. -/
theorem copies_apart_iff {chunksNum chunkSize arena : Nat} {table : List Nat}
    (hbytes : table.length * 8 = tableBytes chunksNum) {w₀ u : PoolSession}
    (hinit : PoolSession.start chunksNum chunkSize arena table = .ok w₀) {before : List PoolCall}
    (hrun : Runs.exec PoolSession.step w₀ before = .ok u) (calls : List (Owner × PoolCall))
    (hlegal : Runs.All step Legal (start u.alloc) calls) :
    Runs.All step Keeps (start u.alloc) calls ↔ Runs.All step Exclusive (start u.alloc) calls := by
  have h : InTable chunksNum u.alloc := Runs.exec_keeps (fun u => InTable chunksNum u.alloc)
    (fun _ _ _ hu hok => inTable_step hu hok) (inTable_start hbytes hinit) hrun
  exact (apart_start h).run_iff hlegal

/-- The rule on a pool of three chunks, one of them out: the original takes a
chunk and gives it back, then the copy takes both that are free. -/
theorem copies_apart_iff_in_turn : ∃ w₀ u, PoolSession.start 3 16 4096 [7, 8, 9] = .ok w₀ ∧
    Runs.exec PoolSession.step w₀ [.allocate 16] = .ok u ∧
    Runs.All step Keeps (start u.alloc) [(.original, .allocate 16), (.original, .free 4112),
      (.copy, .allocate 3), (.copy, .allocate 16)] := by
  have hcheck : (do
      let w₀ ← PoolSession.start 3 16 4096 [7, 8, 9]
      (Runs.exec PoolSession.step w₀ [.allocate 16]).map fun u : PoolSession => decide (
        Runs.All step Legal (start u.alloc) [(.original, .allocate 16), (.original, .free 4112),
          (.copy, .allocate 3), (.copy, .allocate 16)] ∧
        Runs.All step Exclusive (start u.alloc) [(.original, .allocate 16), (.original, .free 4112),
          (.copy, .allocate 3), (.copy, .allocate 16)])) = .ok true := by
    decide +kernel
  obtain ⟨w₀, hinit, hrest⟩ := bind_eq_ok.mp hcheck
  obtain ⟨u, hrun, hall⟩ := map_eq_ok.mp hrest
  obtain ⟨hlegal, hexcl⟩ := of_decide_eq_true hall
  exact ⟨w₀, u, hinit, hrun,
    (copies_apart_iff (by decide +kernel) hinit hrun _ hlegal).mpr hexcl⟩

/-- A pool of two chunks, just initialised, and its copy: one `Allocate` on
each returns the same chunk. -/
theorem not_keeps_both_allocate : ∃ u, PoolSession.start 2 16 4096 [7, 8] = .ok u ∧
    Runs.All step Legal (start u.alloc) [(.original, .allocate 16), (.copy, .allocate 16)] ∧
    (∃ w, Runs.exec step (start u.alloc) [(.original, .allocate 16), (.copy, .allocate 16)]
        = .ok w ∧ w.live .original = [4112] ∧ w.live .copy = [4112]) ∧
    ¬Runs.All step Keeps (start u.alloc) [(.original, .allocate 16), (.copy, .allocate 16)] := by
  have hcheck : (PoolSession.start 2 16 4096 [7, 8]).map (fun u => decide (
      Runs.All step Legal (start u.alloc) [(.original, .allocate 16), (.copy, .allocate 16)] ∧
      ¬Runs.All step Exclusive (start u.alloc) [(.original, .allocate 16), (.copy, .allocate 16)] ∧
      (Runs.exec step (start u.alloc) [(.original, .allocate 16), (.copy, .allocate 16)]).map
        (fun w => (w.live .original, w.live .copy)) = .ok ([4112], [4112]))) = .ok true := by
    decide +kernel
  obtain ⟨u, hinit, hall⟩ := map_eq_ok.mp hcheck
  obtain ⟨hlegal, hwrong, hlives⟩ := of_decide_eq_true hall
  obtain ⟨w, hw, hlive⟩ := map_eq_ok.mp hlives
  obtain ⟨horiginal, hcopy⟩ := Prod.mk.inj hlive
  have h := inTable_start (by decide +kernel) hinit
  exact ⟨u, hinit, hlegal, ⟨w, hw, horiginal, hcopy⟩,
    fun hkeeps => hwrong (((apart_start h).run_iff hlegal).mp hkeeps)⟩

end CopiedPool

end MemAlloc
