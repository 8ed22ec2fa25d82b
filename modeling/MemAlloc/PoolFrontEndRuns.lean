import Mathlib.Algebra.Order.BigOperators.Group.List
import MemAlloc.Extent
import MemAlloc.PoolFrontEnd
import MemAlloc.Runs

/-!
# Runs of `PoolAllocators`

A session keeps, for every live allocation, its size and who served it.
`malloc` is an input: a call names the pointer `malloc` would return, and
`Legal` says what is assumed of it - it is not null and its region is apart,
by at least one byte, from the arenas and from the live regions of the
system.

The gap matters: a pool takes the pointer one past its arena for its own.

`WF` is stated for any list of pools (`cfg` lists arena and chunk size of
each); `frontEnd_run` is the result for the shipped nine.
-/

namespace MemAlloc

open PoolAllocator PoolAllocators

/-- A live allocation. -/
structure Grant where
  ptr : Nat
  size : Nat
  server : Server
deriving DecidableEq, Repr

/-- At least one byte lies between the two. -/
def Apart (e f : Extent) : Prop := e.stop < f.start ∨ f.stop < e.start

instance : DecidableRel Apart := fun e f => inferInstanceAs (Decidable (e.stop < f.start ∨ _))

theorem Apart.disjoint {e f : Extent} (h : Apart e f) : Disjoint e.bytes f.bytes := by
  rw [Finset.disjoint_left]
  intro x hx hx'
  rw [Extent.mem_bytes] at hx hx'
  rcases h with h | h <;> omega

namespace Grant

/-- The bytes the client may use. -/
def region (l : Grant) : Extent := ⟨l.ptr, l.size⟩

instance : Std.Symm fun l l' : Grant => Disjoint l.region.bytes l'.region.bytes where
  symm _ _ hd := hd.symm

end Grant

structure FrontSession where
  alloc : PoolAllocators
  live : List Grant

inductive FrontCall where
  | allocate (size fallback : Nat)
  | free (p : Nat)

namespace FrontSession

/-- The constructed pools after their `Init`; nothing is live. -/
def start (chunksNum : Nat) (sizes : List Nat) (mallocs : List (Nat × List Nat)) :
    Except Stuck FrontSession := do
  let allocators ← initLoop .none (construct chunksNum sizes).allocators mallocs
  return ⟨⟨allocators⟩, []⟩

/-- One call of a client. -/
def step (w : FrontSession) : FrontCall → Except Stuck FrontSession
  | .allocate size fallback => do
      let (p, server, alloc) ← w.alloc.allocate .none size fallback
      return ⟨alloc, ⟨p, size, server⟩ :: w.live⟩
  | .free p => do
      let (_, alloc) ← w.alloc.free .none p
      return ⟨alloc, w.live.eraseP (·.ptr == p)⟩

/-- The regions `malloc` has handed out: the arenas and the live blocks of
the system. -/
def heap (arenas : List Extent) (w : FrontSession) : List Extent :=
  arenas ++ (w.live.filter (·.server == .system)).map Grant.region

/-- Any size from 1 on, with what is assumed of `malloc`; `Free` of a live
pointer. -/
def Legal (arenas : List Extent) (w : FrontSession) : FrontCall → Prop
  | .allocate size fallback => (0 < size ∧ size < 2 ^ 32) ∧
      fallback ≠ nullptr ∧ ∀ e ∈ heap arenas w, Apart ⟨fallback, size⟩ e
  | .free p => ∃ l ∈ w.live, l.ptr = p

instance (arenas : List Extent) (w : FrontSession) : DecidablePred (Legal arenas w)
  | .allocate _ _ => inferInstanceAs (Decidable ((_ ∧ _) ∧ _ ∧ ∀ e ∈ _, _))
  | .free _ => inferInstanceAs (Decidable (∃ l ∈ _, _))

/-- `Free` of a live pointer is handled by whoever served it. -/
def Routed (w : FrontSession) : FrontCall → Prop
  | .allocate _ _ => True
  | .free p => ∀ l ∈ w.live, l.ptr = p → ∃ alloc, w.alloc.free .none p = .ok (l.server, alloc)

/-- The live chunks of a pool. -/
def liveIn (w : FrontSession) (i : Nat) : List Nat :=
  (w.live.filter (·.server == .pool i)).map Grant.ptr

/-! ## The configuration -/

/-- Pool `i` is the first whose chunks hold `size` bytes. -/
def FirstFit (cfg : List (Nat × Nat)) (size i : Nat) : Prop :=
  ∃ c, cfg[i]? = some c ∧ size ≤ c.2 ∧ ∀ j < i, ∀ c', cfg[j]? = some c' → c'.2 < size

theorem firstFit_cases (size : Nat) : ∀ cfg : List (Nat × Nat),
    (∀ c ∈ cfg, c.2 < size) ∨ ∃ i, FirstFit cfg size i
  | [] => Or.inl fun _ hc => by cases hc
  | c :: cfg => by
      by_cases hle : size ≤ c.2
      · exact Or.inr ⟨0, c, rfl, hle, fun j hj => absurd hj (Nat.not_lt_zero j)⟩
      rcases firstFit_cases size cfg with hnone | ⟨i, d, hd, hfit, hbefore⟩
      · refine Or.inl ?_
        intro d hd
        rcases List.mem_cons.mp hd with rfl | hd'
        · exact Nat.lt_of_not_le hle
        · exact hnone d hd'
      · refine Or.inr ⟨i + 1, d, hd, hfit, fun j hj c' hc' => ?_⟩
        cases j with
        | zero =>
            obtain rfl := Option.some.inj hc'
            exact Nat.lt_of_not_le hle
        | succ j => exact hbefore j (Nat.lt_of_succ_lt_succ hj) c' hc'

/-- The arenas of the pools. -/
def arenas (chunksNum : Nat) (cfg : List (Nat × Nat)) : List Extent :=
  cfg.map fun c => ⟨c.1, chunksNum * c.2⟩

/-- What a live allocation counts for: the chunk size of its pool. -/
def charge (cfg : List (Nat × Nat)) (l : Grant) : Nat :=
  match l.server with
  | .pool i => (cfg[i]?.map Prod.snd).getD 0
  | .system => 0

/-- The invariant of a run on the pools of `cfg`. -/
structure WF (chunksNum : Nat) (cfg : List (Nat × Nat)) (w : FrontSession) : Prop where
  length : w.alloc.allocators.length = cfg.length
  part : ∀ {i : Nat} {c : Nat × Nat} {a : PoolAllocator}, cfg[i]? = some c →
    w.alloc.allocators[i]? = some a → Partition c.1 chunksNum c.2 (w.liveIn i) a
  nonnull : ∀ c ∈ cfg, c.1 ≠ nullptr
  pos : ∀ l ∈ w.live, 0 < l.size
  served : ∀ l ∈ w.live, ∀ i, l.server = .pool i → FirstFit cfg l.size i
  apart : (heap (arenas chunksNum cfg) w).Pairwise Apart
  disjoint : w.live.Pairwise fun l l' => Disjoint l.region.bytes l'.region.bytes
  used : (w.alloc.allocators.map fun a => a.used).sum = (w.live.map (charge cfg)).sum

variable {chunksNum : Nat} {cfg : List (Nat × Nat)} {w : FrontSession}

/-- Replacing one summand. -/
theorem sum_set : ∀ {l : List Nat} {k a : Nat}, l[k]? = some a → ∀ b,
    (l.set k b).sum + a = l.sum + b
  | x :: l, 0, a, h, b => by
      obtain rfl := Option.some.inj h
      simp only [List.set_cons_zero, List.sum_cons]
      omega
  | x :: l, k + 1, a, h, b => by
      have ih := sum_set (l := l) h b
      simp only [List.set_cons_succ, List.sum_cons]
      omega

namespace WF

variable (h : WF chunksNum cfg w)
include h

/-- A pool and its entry of the configuration. -/
theorem exists_pool {i : Nat} {c : Nat × Nat} (hc : cfg[i]? = some c) :
    ∃ a, w.alloc.allocators[i]? = some a ∧ Partition c.1 chunksNum c.2 (w.liveIn i) a := by
  obtain ⟨hi, -⟩ := List.getElem?_eq_some_iff.mp hc
  have ha := List.getElem?_eq_getElem (h.length ▸ hi)
  exact ⟨_, ha, h.part hc ha⟩

theorem exists_cfg {i : Nat} {a : PoolAllocator} (ha : w.alloc.allocators[i]? = some a) :
    ∃ c, cfg[i]? = some c ∧ Partition c.1 chunksNum c.2 (w.liveIn i) a := by
  obtain ⟨hi, -⟩ := List.getElem?_eq_some_iff.mp ha
  have hc := List.getElem?_eq_getElem (h.length ▸ hi)
  exact ⟨_, hc, h.part hc ha⟩

/-- An allocation of a pool is one of its chunks. -/
theorem mem_chunks {l : Grant} (hl : l ∈ w.live) {i : Nat} (hi : l.server = .pool i) :
    ∃ c, cfg[i]? = some c ∧ l.size ≤ c.2 ∧ l.ptr ∈ w.liveIn i ∧
      l.ptr ∈ chunks c.1 chunksNum c.2 := by
  obtain ⟨c, hc, hle, -⟩ := h.served l hl i hi
  obtain ⟨a, -, hp⟩ := h.exists_pool hc
  have hmem : l.ptr ∈ w.liveIn i :=
    List.mem_map_of_mem (List.mem_filter.mpr ⟨hl, by simp [hi]⟩)
  exact ⟨c, hc, hle, hmem, hp.live_mem hmem⟩

/-- The arenas of different pools are apart. -/
theorem arenas_apart {i j : Nat} {c d : Nat × Nat} (hc : cfg[i]? = some c) (hd : cfg[j]? = some d)
    (hne : i ≠ j) : Apart ⟨c.1, chunksNum * c.2⟩ ⟨d.1, chunksNum * d.2⟩ := by
  have hp := List.pairwise_map.mp (List.pairwise_append.mp h.apart).1
  obtain ⟨hi, rfl⟩ := List.getElem?_eq_some_iff.mp hc
  obtain ⟨hj, rfl⟩ := List.getElem?_eq_some_iff.mp hd
  rcases Nat.lt_or_gt_of_ne hne with hij | hji
  · exact List.pairwise_iff_getElem.mp hp i j hi hj hij
  · exact Or.symm (List.pairwise_iff_getElem.mp hp j i hj hi hji)

/-- A block of the system is apart from every arena. -/
theorem system_apart {l : Grant} (hl : l ∈ w.live) (hs : l.server = .system) {i : Nat}
    {c : Nat × Nat} (hc : cfg[i]? = some c) : Apart ⟨c.1, chunksNum * c.2⟩ l.region :=
  (List.pairwise_append.mp h.apart).2.2 _
    (List.mem_map_of_mem (f := fun c : Nat × Nat => (⟨c.1, chunksNum * c.2⟩ : Extent))
      (List.mem_of_getElem? hc)) _
    (List.mem_map_of_mem (List.mem_filter.mpr ⟨hl, by simp [hs]⟩))

/-- What lies in an arena is disjoint from what the other pools and the
system have handed out. -/
theorem disjoint_of_other {l : Grant} (hl : l ∈ w.live) {i : Nat} {c : Nat × Nat}
    (hc : cfg[i]? = some c) (hne : l.server ≠ .pool i) {e : Extent} (hlo : c.1 ≤ e.start)
    (hhi : e.stop ≤ c.1 + chunksNum * c.2) : Disjoint e.bytes l.region.bytes := by
  rw [Finset.disjoint_left]
  intro x hx hx'
  rw [Extent.mem_bytes] at hx hx'
  simp only [Grant.region, Extent.stop] at hx hx' hhi
  cases hs : l.server with
  | system =>
      have hap := h.system_apart hl hs hc
      simp only [Apart, Grant.region, Extent.stop] at hap
      omega
  | pool j =>
      obtain ⟨d, hd, hle, -, hmem⟩ := h.mem_chunks hl hs
      have hin := chunk_le hmem
      have hap := h.arenas_apart hc hd (fun heq => hne (by rw [hs, heq]))
      simp only [Apart, Extent.stop] at hap
      omega

/-! ## `Allocate` -/

theorem granted_system {size fallback : Nat}
    (hlegal : Legal (arenas chunksNum cfg) w (.allocate size fallback)) :
    WF chunksNum cfg ⟨w.alloc, ⟨fallback, size, .system⟩ :: w.live⟩ := by
  obtain ⟨⟨hpos, -⟩, -, hap⟩ := hlegal
  refine ⟨h.length, ?_, h.nonnull, ?_, ?_, ?_, ?_, ?_⟩
  · intro i c a hc ha
    exact h.part hc ha
  · intro l hl
    rcases List.mem_cons.mp hl with rfl | hl'
    · exact hpos
    · exact h.pos l hl'
  · intro l hl i hi
    rcases List.mem_cons.mp hl with rfl | hl'
    · cases hi
    · exact h.served l hl' i hi
  · have hnew : (⟨fallback, size⟩ :: heap (arenas chunksNum cfg) w).Pairwise Apart :=
      List.pairwise_cons.mpr ⟨hap, h.apart⟩
    exact (List.perm_middle.pairwise_iff fun {_ _} => Or.symm).mpr hnew
  · refine List.pairwise_cons.mpr ⟨fun l hl => ?_, h.disjoint⟩
    cases hs : l.server with
    | system =>
        refine (hap _ (List.mem_append_right _ ?_)).disjoint
        exact List.mem_map_of_mem (List.mem_filter.mpr ⟨hl, by simp [hs]⟩)
    | pool i =>
        obtain ⟨c, hc, hle, -, hmem⟩ := h.mem_chunks hl hs
        have hin := chunk_le hmem
        have hap' := hap ⟨c.1, chunksNum * c.2⟩ (List.mem_append_left _
          (List.mem_map_of_mem (f := fun c : Nat × Nat => (⟨c.1, chunksNum * c.2⟩ : Extent))
            (List.mem_of_getElem? hc)))
        rw [Finset.disjoint_left]
        intro x hx hx'
        rw [Extent.mem_bytes] at hx hx'
        simp only [Grant.region, Apart, Extent.stop] at hx hx' hap'
        omega
  · rw [List.map_cons, List.sum_cons]
    simpa [charge] using h.used

theorem granted_pool {k size p : Nat} {c : Nat × Nat} {a a' : PoolAllocator} (hc : cfg[k]? = some c)
    (ha : w.alloc.allocators[k]? = some a) (hfit : FirstFit cfg size k) (hpos : 0 < size)
    (hpart : Partition c.1 chunksNum c.2 (p :: w.liveIn k) a') :
    WF chunksNum cfg ⟨⟨w.alloc.allocators.set k a'⟩, ⟨p, size, .pool k⟩ :: w.live⟩ := by
  obtain ⟨hk, -⟩ := List.getElem?_eq_some_iff.mp ha
  have hp := h.part hc ha
  have hle : size ≤ c.2 := by
    obtain ⟨c', hc', hle, -⟩ := hfit
    obtain rfl := Option.some.inj (hc.symm.trans hc')
    exact hle
  have hchunk : p ∈ chunks c.1 chunksNum c.2 := hpart.live_mem (List.mem_cons_self ..)
  refine ⟨(List.length_set).trans h.length, ?_, h.nonnull, ?_, ?_, h.apart, ?_, ?_⟩
  · intro i d b hd hb
    by_cases hik : k = i
    · subst hik
      obtain rfl := Option.some.inj (hc.symm.trans hd)
      rw [List.getElem?_set_self hk] at hb
      obtain rfl := Option.some.inj hb
      simpa [liveIn] using hpart
    · rw [List.getElem?_set_ne hik] at hb
      simpa [liveIn, hik] using h.part hd hb
  · intro l hl
    rcases List.mem_cons.mp hl with rfl | hl'
    · exact hpos
    · exact h.pos l hl'
  · intro l hl i hi
    rcases List.mem_cons.mp hl with rfl | hl'
    · obtain rfl := Server.pool.inj hi
      exact hfit
    · exact h.served l hl' i hi
  · refine List.pairwise_cons.mpr ⟨fun l hl => ?_, h.disjoint⟩
    have hin := chunk_le hchunk
    by_cases hs : l.server = .pool k
    · -- two chunks of one pool
      obtain ⟨c', hc', hle', hmem, hchunk'⟩ := h.mem_chunks hl hs
      obtain rfl := Option.some.inj (hc.symm.trans hc')
      have hnew : p ≠ l.ptr := fun heq =>
        (List.nodup_cons.mp (List.nodup_append.mp hpart.nodup).2.1).1 (heq ▸ hmem)
      have hap := chunks_apart hchunk hchunk' hnew
      rw [Finset.disjoint_left]
      intro x hx hx'
      rw [Extent.mem_bytes] at hx hx'
      simp only [Grant.region, Extent.stop] at hx hx'
      omega
    · exact h.disjoint_of_other hl hc hs hin.1 (by simp only [Grant.region, Extent.stop]; omega)
  · rw [List.map_cons, List.sum_cons, List.map_set]
    have hsum := sum_set (l := w.alloc.allocators.map fun a => a.used) (k := k) (a := a.used)
      (by rw [List.getElem?_map, ha]; rfl) a'.used
    have hused : charge cfg ⟨p, size, .pool k⟩ = c.2 := by simp [charge, hc]
    have hnew := hpart.used
    rw [List.length_cons, Nat.mul_succ, ← hp.used] at hnew
    have hold := h.used
    omega

/-- `Allocate` keeps the invariant. -/
theorem step_allocate {size fallback : Nat}
    (hlegal : Legal (arenas chunksNum cfg) w (.allocate size fallback)) :
    ∃ w', step w (.allocate size fallback) = .ok w' ∧ WF chunksNum cfg w' := by
  have hsystem : ∀ i, allocateIn .none size w.alloc.allocators
        = .ok (nullptr, i, w.alloc.allocators) →
      ∃ w', step w (.allocate size fallback) = .ok w' ∧ WF chunksNum cfg w' := fun i hrun =>
    ⟨_, by rw [step, PoolAllocators.allocate, hrun]; rfl, h.granted_system hlegal⟩
  rcases firstFit_cases size cfg with hnone | ⟨k, hfit⟩
  · refine hsystem _ (allocateIn_none .none ?_)
    intro a ha
    obtain ⟨i, hi⟩ := List.mem_iff_getElem?.mp ha
    obtain ⟨c, hc, hp⟩ := h.exists_cfg hi
    rw [hp.size]
    exact hnone c (List.mem_of_getElem? hc)
  · obtain ⟨c, hc, hle, hbefore⟩ := hfit
    obtain ⟨a, ha, hp⟩ := h.exists_pool hc
    have hfit : size ≤ a.chunkSize := by rwa [hp.size]
    have hloop := allocateIn_eq .none ha hfit fun j hj b hb => by
      obtain ⟨d, hd, hpd⟩ := h.exists_cfg hb
      rw [hpd.size]
      exact hbefore j hj d hd
    by_cases hfull : (w.liveIn k).length = chunksNum
    · -- the pool is full: the system serves the request
      rw [hp.allocate_full hfull] at hloop
      refine hsystem k (hloop.trans ?_)
      obtain ⟨hk, rfl⟩ := List.getElem?_eq_some_iff.mp ha
      simp [Except.map, nullptr]
    · obtain ⟨p, a', hrun, hpart⟩ := hp.allocate_some (by have := hp.length_add; omega)
      rw [hrun] at hloop
      have hnonnull : p ≠ nullptr := by
        have hne := h.nonnull c (List.mem_of_getElem? hc)
        have hin := chunk_le (hpart.live_mem (List.mem_cons_self ..))
        simp only [nullptr] at hne ⊢
        omega
      refine ⟨_, ?_, h.granted_pool hc ha ⟨c, hc, hle, hbefore⟩ hlegal.1.1 hpart⟩
      rw [step, PoolAllocators.allocate, hloop]
      simp [Except.map, hnonnull]
      rfl

/-! ## `Free` -/

/-- A live pointer belongs to one allocation, and its `Free` removes it. -/
theorem perm_erase {l : Grant} (hl : l ∈ w.live) :
    w.live.Perm (l :: w.live.eraseP (·.ptr == l.ptr)) := by
  obtain ⟨l', l₁, l₂, -, hp, heq, her⟩ := List.exists_of_eraseP hl (p := (·.ptr == l.ptr)) (by simp)
  have hl' : l' ∈ w.live := by simp [heq]
  have hsame : l' = l := by
    by_contra hne
    have hd := h.disjoint.forall hl' hl hne
    have hptr : l'.ptr = l.ptr := by simpa using hp
    refine Finset.disjoint_left.mp hd (Extent.start_mem (h.pos l' hl')) ?_
    rw [Extent.mem_bytes]
    have := h.pos l hl
    simp only [Grant.region, Extent.stop]
    omega
  rw [her, heq, hsame]
  exact List.perm_middle

/-- Removing an allocation, seen by pool `i`. -/
theorem liveIn_erase {l : Grant} (hl : l ∈ w.live) (alloc : PoolAllocators) (i : Nat) :
    (w.liveIn i).Perm (if l.server = .pool i then
        l.ptr :: liveIn ⟨alloc, w.live.eraseP (·.ptr == l.ptr)⟩ i
      else liveIn ⟨alloc, w.live.eraseP (·.ptr == l.ptr)⟩ i) := by
  have hp := ((h.perm_erase hl).filter (·.server == .pool i)).map Grant.ptr
  split
  · rename_i hs
    rwa [List.filter_cons_of_pos (by simp [hs]), List.map_cons] at hp
  · rename_i hs
    rwa [List.filter_cons_of_neg (by simp [hs])] at hp

/-- The invariant after a `Free`, given what happened to the pools. -/
theorem erased {l : Grant} (hl : l ∈ w.live) {allocators : List PoolAllocator}
    (hlen : allocators.length = cfg.length)
    (hpart : ∀ {i : Nat} {c : Nat × Nat} {a : PoolAllocator}, cfg[i]? = some c →
      allocators[i]? = some a →
      Partition c.1 chunksNum c.2 (liveIn ⟨⟨allocators⟩, w.live.eraseP (·.ptr == l.ptr)⟩ i) a)
    (hused : (allocators.map fun a => a.used).sum + charge cfg l
      = (w.alloc.allocators.map fun a => a.used).sum) :
    WF chunksNum cfg ⟨⟨allocators⟩, w.live.eraseP (·.ptr == l.ptr)⟩ where
  length := hlen
  part := hpart
  nonnull := h.nonnull
  pos l' hl' := h.pos l' (List.mem_of_mem_eraseP hl')
  served l' hl' := h.served l' (List.mem_of_mem_eraseP hl')
  apart := h.apart.sublist ((List.eraseP_sublist.filter _).map _ |>.append_left _)
  disjoint := h.disjoint.sublist List.eraseP_sublist
  used := by
    have hsum := ((h.perm_erase hl).map (charge cfg)).sum_eq
    rw [List.map_cons, List.sum_cons, ← h.used] at hsum
    show (allocators.map fun a => a.used).sum
      = ((w.live.eraseP (·.ptr == l.ptr)).map (charge cfg)).sum
    omega

/-- `Free` of a live pointer is routed to whoever served it. -/
theorem free_routed {l : Grant} (hl : l ∈ w.live) :
    ∃ alloc, w.alloc.free .none l.ptr = .ok (l.server, alloc) ∧
      WF chunksNum cfg ⟨alloc, w.live.eraseP (·.ptr == l.ptr)⟩ := by
  cases hs : l.server with
  | system =>
      -- apart from every arena: all pools refuse
      have hrefuse : ∀ a ∈ w.alloc.allocators, a.free .none l.ptr = .ok (false, a) := by
        intro a ha
        obtain ⟨i, hi⟩ := List.mem_iff_getElem?.mp ha
        obtain ⟨c, hc, hp⟩ := h.exists_cfg hi
        have hap := h.system_apart hl hs hc
        simp only [Apart, Grant.region, Extent.stop] at hap
        exact hp.free_foreign (by omega)
      refine ⟨⟨w.alloc.allocators⟩, by rw [PoolAllocators.free, freeIn_none hrefuse]; rfl,
        h.erased hl h.length (fun {i c a} hc ha => ?_) (by simp [charge, hs])⟩
      have hperm := h.liveIn_erase hl ⟨w.alloc.allocators⟩ i
      rw [if_neg (by simp [hs])] at hperm
      exact (h.part hc ha).perm_live hperm
  | pool k =>
      obtain ⟨c, hc, -, hmem, hchunk⟩ := h.mem_chunks hl hs
      obtain ⟨a, ha, hp⟩ := h.exists_pool hc
      obtain ⟨a', hrun, hp'⟩ := hp.free_live hmem
      obtain ⟨hk, -⟩ := List.getElem?_eq_some_iff.mp ha
      have hin := chunk_le hchunk
      -- the pools before it have arenas apart from its own
      have hloop := freeIn_eq ha hrun fun j hj b hb => by
        obtain ⟨d, hd, hpd⟩ := h.exists_cfg hb
        have hap := h.arenas_apart hd hc (Nat.ne_of_lt hj)
        have hsize := hp.sizePos
        simp only [Apart, Extent.stop] at hap
        exact hpd.free_foreign (by omega)
      have hperm : ((w.liveIn k).erase l.ptr).Perm
          (liveIn ⟨⟨w.alloc.allocators.set k a'⟩, w.live.eraseP (·.ptr == l.ptr)⟩ k) := by
        have hp := (h.liveIn_erase hl ⟨w.alloc.allocators.set k a'⟩ k).erase l.ptr
        rwa [if_pos hs, List.erase_cons_head] at hp
      refine ⟨⟨w.alloc.allocators.set k a'⟩, by rw [PoolAllocators.free, hloop]; rfl,
        h.erased hl (by rw [List.length_set]; exact h.length) (fun {i d b} hd hb => ?_) ?_⟩
      · by_cases hik : k = i
        · subst hik
          obtain rfl := Option.some.inj (hc.symm.trans hd)
          rw [List.getElem?_set_self hk] at hb
          obtain rfl := Option.some.inj hb
          exact hp'.perm_live hperm
        · rw [List.getElem?_set_ne hik] at hb
          have hother := h.liveIn_erase hl ⟨w.alloc.allocators.set k a'⟩ i
          rw [if_neg (by simp [hs, hik])] at hother
          exact (h.part hd hb).perm_live hother
      · have hsum := sum_set (l := w.alloc.allocators.map fun a => a.used) (k := k) (a := a.used)
          (by rw [List.getElem?_map, ha]; rfl) a'.used
        have hcharge : charge cfg l = c.2 := by simp [charge, hs, hc]
        have hlen := List.length_erase_of_mem hmem
        have hpos := List.length_pos_of_mem hmem
        obtain ⟨m, hm⟩ : ∃ m, (w.liveIn k).length = m + 1 := ⟨(w.liveIn k).length - 1, by omega⟩
        have hold := hp.used
        have hnew := hp'.used
        rw [hm, Nat.mul_succ] at hold
        rw [hlen, hm, Nat.add_sub_cancel] at hnew
        rw [List.map_set]
        omega

end WF

/-! ## The start of a run -/

/-- Arena and chunk size of every pool. -/
def config (mallocs : List (Nat × List Nat)) (sizes : List Nat) : List (Nat × Nat) :=
  (mallocs.map Prod.fst).zip sizes

/-- Every pool after the `Init` calls. -/
theorem initLoop_eq : ∀ {sizes : List Nat} {mallocs : List (Nat × List Nat)},
    mallocs.length = sizes.length → (∀ m ∈ mallocs, m.2.length = chunksNum) →
    initLoop .none (sizes.map (PoolAllocator.construct chunksNum)) mallocs
      = .ok ((config mallocs sizes).map fun c => initialised chunksNum c.2 c.1)
  | [], [], _, _ => rfl
  | size :: sizes, (arena, table) :: mallocs, hlen, htables => by
      rw [List.map_cons, initLoop, init_eq arena (htables (arena, table) (List.mem_cons_self ..)),
        ok_bind, initLoop_eq (Nat.succ.inj hlen) fun m hm => htables m (List.mem_cons_of_mem _ hm)]
      rfl

theorem initLoop_spec (htable : chunksNum * 8 < 2 ^ 64) {sizes : List Nat}
    {mallocs : List (Nat × List Nat)} (hlen : mallocs.length = sizes.length)
    (htables : ∀ m ∈ mallocs, m.2.length = chunksNum)
    (hsizes : ∀ size ∈ sizes, 0 < size ∧ chunksNum * size < 2 ^ 64) :
    ∃ l, initLoop .none (sizes.map (PoolAllocator.construct chunksNum)) mallocs = .ok l ∧
      l.length = sizes.length ∧
      ∀ {i : Nat} {c : Nat × Nat} {a : PoolAllocator}, (config mallocs sizes)[i]? = some c →
        l[i]? = some a → Partition c.1 chunksNum c.2 [] a := by
  refine ⟨_, initLoop_eq hlen htables, by simp [config, hlen], fun {i c a} hc ha => ?_⟩
  rw [List.getElem?_map, hc] at ha
  obtain rfl := Option.some.inj ha
  obtain ⟨hpos, harena⟩ := hsizes c.2 (List.of_mem_zip (List.mem_of_getElem? hc)).2
  exact partition_initialised hpos harena htable c.1

theorem wf_start (htable : chunksNum * 8 < 2 ^ 64) {sizes : List Nat}
    {mallocs : List (Nat × List Nat)} (hlen : mallocs.length = sizes.length)
    (htables : ∀ m ∈ mallocs, m.2.length = chunksNum)
    (hsizes : ∀ size ∈ sizes, 0 < size ∧ chunksNum * size < 2 ^ 64)
    (hnonnull : ∀ m ∈ mallocs, m.1 ≠ nullptr)
    (hapart : (arenas chunksNum (config mallocs sizes)).Pairwise Apart) :
    ∃ l, start chunksNum sizes mallocs = .ok ⟨⟨l⟩, []⟩ ∧
      WF chunksNum (config mallocs sizes) ⟨⟨l⟩, []⟩ := by
  obtain ⟨l, hloop, hl, hpart⟩ := initLoop_spec htable hlen htables hsizes
  have hcfg : l.length = (config mallocs sizes).length := by simp [config, hl, hlen]
  refine ⟨l, by rw [start, PoolAllocators.construct, hloop]; rfl, hcfg, hpart, ?_, ?_, ?_,
    by simpa [heap] using hapart, List.Pairwise.nil, ?_⟩
  · intro c hc
    obtain ⟨m, hm, heq⟩ := List.mem_map.mp (List.of_mem_zip hc).1
    rw [← heq]
    exact hnonnull m hm
  · intro l hl
    cases hl
  · intro l hl
    cases hl
  · refine List.sum_eq_zero ?_
    intro n hn
    obtain ⟨a, ha, rfl⟩ := List.mem_map.mp hn
    obtain ⟨i, hi⟩ := List.mem_iff_getElem?.mp ha
    obtain ⟨hlt, -⟩ := List.getElem?_eq_some_iff.mp hi
    exact (hpart (List.getElem?_eq_getElem (hcfg ▸ hlt)) hi).used

/-! ## Whole runs -/

/-- The smallest chunk size that holds `size` bytes. -/
def sizeClass (sizes : List Nat) (size : Nat) : Nat := ((sizes.filter (size ≤ ·)).min?).getD 0

theorem FirstFit.sizeClass {size i : Nat} {c : Nat × Nat}
    (h : FirstFit cfg size i) (hc : cfg[i]? = some c)
    (hsorted : (cfg.map Prod.snd).Pairwise (· ≤ ·)) :
    sizeClass (cfg.map Prod.snd) size = c.2 := by
  obtain ⟨c', hc', hle, hbefore⟩ := h
  obtain rfl := Option.some.inj (hc.symm.trans hc')
  have hmin : ((cfg.map Prod.snd).filter (size ≤ ·)).min? = some c.2 := by
    refine List.min?_eq_some_iff.mpr ⟨?_, fun b hb => ?_⟩
    · exact List.mem_filter.mpr
        ⟨List.mem_map_of_mem (List.mem_of_getElem? hc), by simpa using hle⟩
    · obtain ⟨hb, hsize⟩ := List.mem_filter.mp hb
      obtain ⟨j, hj⟩ := List.mem_iff_getElem?.mp hb
      rw [List.getElem?_map] at hj
      obtain ⟨d, hd, rfl⟩ := Option.map_eq_some_iff.mp hj
      rcases Nat.lt_trichotomy i j with hij | rfl | hji
      · obtain ⟨hi, hci⟩ := List.getElem?_eq_some_iff.mp hc
        obtain ⟨hj', hdj⟩ := List.getElem?_eq_some_iff.mp hd
        have := List.pairwise_iff_getElem.mp hsorted i j (by simpa using hi)
          (by simpa using hj') hij
        simpa [hci, hdj] using this
      · rw [Option.some.inj (hc.symm.trans hd)]
      · have := hbefore j hji d hd
        simp only [decide_eq_true_eq] at hsize
        omega
  rw [FrontSession.sizeClass, hmin]
  rfl

/-- The counters, by the live allocations of the pools. -/
theorem WF.sum_used (h : WF chunksNum cfg w) (hsorted : (cfg.map Prod.snd).Pairwise (· ≤ ·)) :
    (w.alloc.allocators.map fun a => a.used).sum
      = ((w.live.filter (·.server != .system)).map
          fun l => sizeClass (cfg.map Prod.snd) l.size).sum := by
  have hclass : ∀ l : List Grant, (∀ g ∈ l, ∀ i, g.server = .pool i → FirstFit cfg g.size i) →
      (l.map (charge cfg)).sum = ((l.filter (·.server != .system)).map
        fun g => sizeClass (cfg.map Prod.snd) g.size).sum := by
    intro l
    induction l with
    | nil => intro _; rfl
    | cons g l ih =>
        intro hl
        rw [List.map_cons, List.sum_cons, ih fun g' hg' => hl g' (List.mem_cons_of_mem _ hg')]
        cases hs : g.server with
        | system =>
            rw [List.filter_cons_of_neg (by simp [hs])]
            simp [charge, hs]
        | pool i =>
            have hfit := hl g (List.mem_cons_self ..) i hs
            obtain ⟨c, hc, -⟩ := id hfit
            rw [List.filter_cons_of_pos (by simp [hs]), List.map_cons, List.sum_cons,
              hfit.sizeClass hc hsorted]
            simp [charge, hs, hc]
  rw [h.used]
  exact hclass w.live h.served

/-- The counters stay below the sizes of the arenas. -/
theorem WF.sum_used_le (h : WF chunksNum cfg w) :
    (w.alloc.allocators.map fun a => a.used).sum
      ≤ (cfg.map fun c => chunksNum * c.2).sum := by
  refine List.Forall₂.sum_le_sum (List.forall₂_iff_get.mpr ⟨?_, fun i hi hi' => ?_⟩)
  · simp [h.length]
  · simp only [List.length_map] at hi hi'
    have hp := h.part (List.getElem?_eq_getElem hi') (List.getElem?_eq_getElem hi)
    simpa [hp.used] using hp.used_le

/-- **Step lemma.** A legal call returns and keeps the invariant. -/
theorem step_wf (h : WF chunksNum cfg w) {call : FrontCall}
    (hlegal : Legal (arenas chunksNum cfg) w call) :
    ∃ w', step w call = .ok w' ∧ WF chunksNum cfg w' := by
  cases call with
  | allocate size fallback => exact h.step_allocate hlegal
  | free p =>
      obtain ⟨l, hl, rfl⟩ := hlegal
      obtain ⟨alloc, hrun, h'⟩ := h.free_routed hl
      exact ⟨_, by rw [step, hrun]; rfl, h'⟩

theorem routed_of_wf (h : WF chunksNum cfg w) (call : FrontCall) : Routed w call := by
  cases call with
  | allocate size fallback => trivial
  | free p =>
      rintro l hl rfl
      obtain ⟨alloc, hrun, -⟩ := h.free_routed hl
      exact ⟨alloc, hrun⟩

/-- **The front end over whole runs.** After any run of legal calls on the
nine pools the live allocations are disjoint, the counter is the sum of the
size classes of those that pools serve, and with nothing live it is 0 and
every free table lists all the chunks of its pool; along the run every
`Free` went to whoever had served the pointer. -/
theorem frontEnd_run {mallocs : List (Nat × List Nat)}
    (hlen : mallocs.length = chunkSizes.length)
    (htables : ∀ m ∈ mallocs, m.2.length = sMaxChunksNum) (hnonnull : ∀ m ∈ mallocs, m.1 ≠ nullptr)
    (hapart : (arenas sMaxChunksNum (config mallocs chunkSizes)).Pairwise Apart) :
    ∃ w₀, start sMaxChunksNum chunkSizes mallocs = .ok w₀ ∧ ∀ calls : List FrontCall,
      Runs.All step (Legal (arenas sMaxChunksNum (config mallocs chunkSizes))) w₀ calls →
      Runs.All step Routed w₀ calls ∧
        ∃ w, Runs.exec step w₀ calls = .ok w ∧
          (w.live.Pairwise fun l l' => Disjoint l.region.bytes l'.region.bytes) ∧
          w.alloc.getUsedSize = ((w.live.filter (·.server != .system)).map
            fun l => sizeClass chunkSizes l.size).sum ∧
          (w.live = [] → w.alloc.getUsedSize = 0 ∧
            w.alloc.allocators.length = chunkSizes.length ∧
            ∀ (i : Nat) (c : Nat × Nat) (a : PoolAllocator),
              (config mallocs chunkSizes)[i]? = some c → w.alloc.allocators[i]? = some a →
              a.freeChunks.Perm (chunks c.1 sMaxChunksNum c.2)) := by
  have hsizes : (config mallocs chunkSizes).map Prod.snd = chunkSizes := by
    rw [config, List.map_snd_zip]
    rw [List.length_map, hlen]
  obtain ⟨l, hstart, hwf⟩ := wf_start (by decide) hlen htables (by decide) hnonnull hapart
  refine ⟨_, hstart, fun calls hlegal => ⟨?_, ?_⟩⟩
  · have hinv := Runs.steps_inv (WF sMaxChunksNum (config mallocs chunkSizes))
      (fun _ _ hw hl => step_wf hw hl) hwf hlegal
    exact fun x hx => routed_of_wf (hinv x hx) x.2
  · obtain ⟨w, hrun, hw⟩ := Runs.exec_inv (WF sMaxChunksNum (config mallocs chunkSizes))
      (Legal (arenas sMaxChunksNum (config mallocs chunkSizes)))
      (fun _ _ hw hl => step_wf hw hl) hwf hlegal
    have hle := hw.sum_used_le
    have hsum := hw.sum_used (by rw [hsizes]; decide)
    rw [hsizes] at hsum
    have hused : w.alloc.getUsedSize = ((w.live.filter (·.server != .system)).map
        fun l => sizeClass chunkSizes l.size).sum := by
      rw [getUsedSize_eq (Nat.lt_of_le_of_lt hle ?_), hsum]
      have hbytes : ((config mallocs chunkSizes).map fun c => sMaxChunksNum * c.2)
          = ((config mallocs chunkSizes).map Prod.snd).map (sMaxChunksNum * ·) := by
        rw [List.map_map]
        rfl
      rw [hbytes, hsizes]
      decide
    refine ⟨w, hrun, hw.disjoint, hused, fun hnil => ⟨?_, ?_, fun i c a hc ha => ?_⟩⟩
    · rw [hused, hnil]
      rfl
    · rw [hw.length, ← congrArg List.length hsizes, List.length_map]
    · have hp := hw.part hc ha
      have hempty : w.liveIn i = [] := by simp [liveIn, hnil]
      rw [hempty] at hp
      have hperm := hp.perm
      have hadd := hp.length_add
      rw [List.append_nil] at hperm
      rw [List.length_nil, Nat.add_zero, ← hp.table, freeList, List.length_take] at hadd
      rwa [freeList, List.take_of_length_le (by omega)] at hperm

/-! ## A run on nine arenas far from each other -/

def spacedMallocs : List (Nat × List Nat) :=
  (List.range 9).map fun i => (10000000 * (i + 1), List.replicate sMaxChunksNum 0)

theorem length_spacedMallocs : spacedMallocs.length = chunkSizes.length := by decide

theorem spacedMallocs_table : ∀ m ∈ spacedMallocs, m.2.length = sMaxChunksNum := by
  intro m hm
  obtain ⟨i, -, rfl⟩ := List.mem_map.mp hm
  exact List.length_replicate

theorem spacedMallocs_nonnull : ∀ m ∈ spacedMallocs, m.1 ≠ nullptr := by
  intro m hm
  obtain ⟨i, -, rfl⟩ := List.mem_map.mp hm
  simp [nullptr]

theorem spacedMallocs_apart :
    (arenas sMaxChunksNum (config spacedMallocs chunkSizes)).Pairwise Apart := by decide +kernel

/-- The pools on these arenas after `Init`. -/
def spacedPools : FrontSession :=
  ⟨⟨(config spacedMallocs chunkSizes).map fun c => initialised sMaxChunksNum c.2 c.1⟩, []⟩

theorem start_spacedMallocs :
    start sMaxChunksNum chunkSizes spacedMallocs = .ok spacedPools := by
  rw [start, PoolAllocators.construct, initLoop_eq length_spacedMallocs spacedMallocs_table]
  rfl

/-- Requests of several sizes, one of them too large for the pools. -/
def severalSizes : List FrontCall :=
  [.allocate 100 4096, .allocate 6000 8192, .allocate 60 4096, .free 20127872, .allocate 3000 4096]

theorem frontEnd_run_several : ∃ w₀ w w', start sMaxChunksNum chunkSizes spacedMallocs = .ok w₀ ∧
    Runs.exec step w₀ severalSizes = .ok w ∧
    w.live = [⟨73068928, 3000, .pool 6⟩, ⟨10063936, 60, .pool 0⟩, ⟨8192, 6000, .system⟩] ∧
    (w.live.Pairwise fun l l' => Disjoint l.region.bytes l'.region.bytes) ∧
    w.alloc.getUsedSize = 3136 ∧
    Runs.exec step w [.free 8192, .free 73068928, .free 10063936] = .ok w' ∧
    w'.live = [] ∧ w'.alloc.getUsedSize = 0 := by
  obtain ⟨w₀, hstart, hall⟩ := frontEnd_run length_spacedMallocs spacedMallocs_table
    spacedMallocs_nonnull spacedMallocs_apart
  obtain rfl := Except.ok.inj (start_spacedMallocs.symm.trans hstart)
  obtain ⟨-, w, hrun, hdisjoint, hused, -⟩ := hall severalSizes (by decide +kernel)
  obtain ⟨-, w', hrun', -, -, hempty⟩ := hall
    (severalSizes ++ [.free 8192, .free 73068928, .free 10063936]) (by decide +kernel)
  have hlive : (Runs.exec step spacedPools severalSizes).map FrontSession.live
      = .ok [⟨73068928, 3000, .pool 6⟩, ⟨10063936, 60, .pool 0⟩, ⟨8192, 6000, .system⟩] := by
    decide +kernel
  have hnil : (Runs.exec step spacedPools (severalSizes ++
      [.free 8192, .free 73068928, .free 10063936])).map FrontSession.live = .ok [] := by
    decide +kernel
  rw [hrun] at hlive
  rw [hrun'] at hnil
  have hlive := Except.ok.inj hlive
  have hnil := Except.ok.inj hnil
  rw [Runs.exec_append hrun] at hrun'
  refine ⟨_, w, w', start_spacedMallocs, hrun, hlive, hdisjoint, ?_, hrun', hnil, (hempty hnil).1⟩
  rw [hused, hlive]
  decide

end FrontSession

end MemAlloc
