import MemAlloc.Clients
import MemAlloc.PoolFrontEndRuns
import MemAlloc.PoolFrontEndThreads
import MemAlloc.TestLoops

/-!
# `RunMultiThreadTest`

Two threads share `PoolAllocators`; each allocates 500 blocks of random
sizes and frees them in random order. As configured the test returns at
once; it is written for `ENABLE_SPIN_LOCK`.

Under that policy it never ends once two of the thousand requests are larger
than the chunks of the first pool: their pointers are not the first pool's,
whatever the other thread does meanwhile, so two `Free` calls would have to
pass it, and the first leaves its lock taken.
-/

namespace MemAlloc

/-- The pointer that `Allocate` returned. -/
def PoolsAnswer.pointer : PoolsAnswer → Nat
  | .allocated p _ => p
  | .freed _ => nullptr

namespace MultiThreadTest

open PoolAccesses PoolFrontEndThreads PoolAllocators

/-! ## The test -/

/-- The second loop of a thread, for the values of `i` below the first
argument; `k` counts the `rand()` calls of the thread. -/
def freeLoop (rand : Nat → Nat) : Nat → Nat → List Nat → Client PoolsCall PoolsAnswer
  | 0, _, _ => .done
  | i + 1, k, memPointers =>
      let idx := if i ≠ 0 then rand k % i else 0
      match memPointers[idx]? with
      | some p => .invoke (.free p) fun _ =>
          freeLoop rand i (if i ≠ 0 then k + 1 else k) (memPointers.eraseIdx idx)
      | none => .undefined

/-- The first loop, for the remaining rounds. -/
def allocateLoop (rand malloc : Nat → Nat) : Nat → Nat → List Nat → Client PoolsCall PoolsAnswer
  | 0, k, memPointers => freeLoop rand memPointers.length k memPointers
  | n + 1, k, memPointers => .invoke (.allocate (randomSize rand k) (malloc k)) fun a =>
      allocateLoop rand malloc n (k + 1) (memPointers ++ [a.pointer])

/-- `threadFunc` with `n` requests, on what `rand()` returns in this thread;
`malloc k` is what `malloc` would return to request `k`. -/
def threadFunc (n : Nat) (rand malloc : Nat → Nat) : Client PoolsCall PoolsAnswer :=
  allocateLoop rand malloc n 0 []

/-- Why a schedule shows no result. -/
inductive NoResult where
  | stuck (e : Stuck)
  | immobile (e : Immobile)
  | running
deriving DecidableEq, Repr

/-- The two threads and the pools, before the first call. -/
def startThreads (n : Nat) (rand malloc : Nat → Nat → Nat) (allocators : List PoolAllocator) :
    Clients PoolsCall Nat (List PoolAllocator) Stuck PoolsAnswer :=
  .start (share allocators) [threadFunc n (rand 0) (malloc 0), threadFunc n (rand 1) (malloc 1)]

/-- Whether the counters are 0 in the end, if the schedule gets both threads
to where they are joined. -/
def joinThreads (n : Nat) (rand malloc : Nat → Nat → Nat) (allocators : List PoolAllocator)
    (schedule : List Nat) : Except NoResult Bool := do
  let S ← (Runs.exec (Clients.step (code allocators.length))
    (startThreads n rand malloc allocators) schedule).mapError .immobile
  if S.clients.all Client.finished then
    return !decide (PoolAllocators.getUsedSize ⟨S.object.shared.data⟩ > 0)
  else .error .running

/-- `RunMultiThreadTest`: nothing without spin locks, else whether the test
passes under the schedule. -/
def runMultiThreadTest (thread : ThreadPolicy) (mallocs : List (Nat × List Nat))
    (malloc rand : Nat → Nat → Nat) (schedule : List Nat) : Except NoResult (Option Bool) :=
  match thread with
  | .none => return none
  | .enableSpinLock => do
      let allocators ← (initLoop .enableSpinLock
        (PoolAllocators.construct sMaxChunksNum chunkSizes).allocators mallocs).mapError .stuck
      let passed ← joinThreads (sMaxChunksNum / 2) rand malloc allocators schedule
      return some passed

/-! ## The arenas of the pools -/

/-- The pool works on its arena: every chunk it could give away is in it, up
to the end that `Free` accepts. -/
structure Confined (chunksNum : Nat) (c : Nat × Nat) (s : PoolAllocator) : Prop where
  start : s.startPtr = c.1
  total : s.totalSize = chunksNum * c.2
  size : s.chunkSize = c.2
  chunks : ∀ q ∈ s.freeChunks, c.1 ≤ q ∧ q ≤ c.1 + chunksNum * c.2

/-- All pools do. -/
def AllConfined (chunksNum : Nat) (cfg : List (Nat × Nat)) (pools : List PoolAllocator) : Prop :=
  pools.length = cfg.length ∧
    ∀ (i : Nat) (c : Nat × Nat) (s : PoolAllocator), cfg[i]? = some c → pools[i]? = some s →
      Confined chunksNum c s

variable {chunksNum : Nat} {cfg : List (Nat × Nat)} {c : Nat × Nat} {i p : Nat} {α : Type}

section Ensures

variable (hc : cfg[i]? = some c)
include hc

theorem ensures_read {f : PoolAllocator → Except Stuck α} {mid : α → Prop}
    (h : ∀ s a, Confined chunksNum c s → f s = .ok a → mid a) :
    (read i f).Ensures (AllConfined chunksNum cfg) mid := by
  refine Prog.ensures_get fun pools a hpools hrun => ?_
  cases hs : pools[i]? with
  | none => simp [hs] at hrun
  | some s =>
      simp only [hs] at hrun
      exact h s a (hpools.2 i c s hc hs) hrun

theorem ensures_write {f : PoolAllocator → Except Stuck PoolAllocator}
    (h : ∀ s s', Confined chunksNum c s → f s = .ok s' → Confined chunksNum c s') :
    (write i f).Ensures (AllConfined chunksNum cfg) fun _ => True := by
  refine Prog.ensures_modify fun pools pools' hpools hrun => ?_
  cases hs : pools[i]? with
  | none => simp [hs] at hrun
  | some s =>
      simp only [hs] at hrun
      obtain ⟨s', hs', rfl⟩ := map_eq_ok.mp hrun
      refine ⟨(List.length_set ..).trans hpools.1, fun k c' t hc' ht => ?_⟩
      by_cases hk : i = k
      · subst hk
        obtain rfl := Option.some.inj (hc.symm.trans hc')
        rw [List.getElem?_set_self (List.getElem?_eq_some_iff.mp hs).1] at ht
        obtain rfl := Option.some.inj ht
        exact h s s' (hpools.2 i c s hc hs) hs'
      · rw [List.getElem?_set_ne hk] at ht
        exact hpools.2 k c' t hc' ht

theorem ensures_any {f : PoolAllocator → Except Stuck α} :
    (read i f).Ensures (AllConfined chunksNum cfg) fun _ => True :=
  ensures_read hc fun _ _ _ _ => trivial

theorem ensures_setIdx (idx : Int) :
    (write i fun s => .ok { s with currFreeChunksIdx := idx }).Ensures
      (AllConfined chunksNum cfg) fun _ => True :=
  ensures_write hc fun s s' hs hs' => by
    obtain rfl := Except.ok.inj hs'
    exact ⟨hs.start, hs.total, hs.size, hs.chunks⟩

theorem ensures_setUsed (used : Nat) :
    (write i fun s => .ok { s with used }).Ensures (AllConfined chunksNum cfg) fun _ => True :=
  ensures_write hc fun s s' hs hs' => by
    obtain rfl := Except.ok.inj hs'
    exact ⟨hs.start, hs.total, hs.size, hs.chunks⟩

/-- A pointer of the arena goes into the table. -/
theorem ensures_setChunk (idx : Int) (hp : c.1 ≤ p ∧ p ≤ c.1 + chunksNum * c.2) :
    (write i fun s => s.setChunk idx p).Ensures (AllConfined chunksNum cfg) fun _ => True := by
  refine ensures_write hc fun s s' hs hs' => ?_
  unfold PoolAllocator.setChunk at hs'
  split at hs'
  · obtain rfl := Except.ok.inj hs'
    refine ⟨hs.start, hs.total, hs.size, fun q hq => ?_⟩
    rcases List.mem_or_eq_of_mem_set hq with hq | rfl
    · exact hs.chunks q hq
    · exact hp
  · cases hs'

/-- A pool gives away pointers of its arena only. -/
theorem ensures_allocate : (allocate i).Ensures (AllConfined chunksNum cfg)
    fun r => ∀ q, r = some q → c.1 ≤ q ∧ q ≤ c.1 + chunksNum * c.2 := by
  refine (Prog.ensures_acquire i).bind fun _ _ => (ensures_any hc).bind fun idx _ => ?_
  split
  · exact nofun
  refine (ensures_any hc).bind fun idx _ => (ensures_setIdx hc _).bind fun _ _ => ?_
  have hchunk : (read i fun s => s.chunkAt idx).Ensures (AllConfined chunksNum cfg)
      fun q => c.1 ≤ q ∧ q ≤ c.1 + chunksNum * c.2 := ensures_read hc fun s q hs hq => by
    unfold PoolAllocator.chunkAt at hq
    split at hq
    · obtain rfl := Except.ok.inj hq
      exact hs.chunks _ (List.getElem_mem _)
    · cases hq
  refine hchunk.bind fun q hq => (ensures_any hc).bind fun used _ =>
    (ensures_any hc).bind fun size _ => (ensures_setUsed hc _).bind fun _ _ =>
      (Prog.ensures_release i).bind fun _ _ => ?_
  rintro q' ⟨⟩
  exact hq

/-- A pool takes back the pointers of its arena. -/
theorem ensures_free (p : Nat) : (free i p).Ensures (AllConfined chunksNum cfg)
    fun found => found = true ↔ c.1 ≤ p ∧ p ≤ c.1 + chunksNum * c.2 := by
  have hstart : (read i fun s => .ok s.startPtr).Ensures (AllConfined chunksNum cfg) (· = c.1) :=
    ensures_read hc fun s q hs hq => (Except.ok.inj hq).symm.trans hs.start
  have htotal : (read i fun s => .ok s.totalSize).Ensures (AllConfined chunksNum cfg)
      (· = chunksNum * c.2) :=
    ensures_read hc fun s q hs hq => (Except.ok.inj hq).symm.trans hs.total
  refine (Prog.ensures_acquire i).bind fun _ _ => hstart.bind fun start hs => ?_
  split
  · exact iff_of_false nofun (by omega)
  refine hstart.bind fun start' hs' => htotal.bind fun total ht => ?_
  split
  · exact iff_of_false nofun (by omega)
  have hp : c.1 ≤ p ∧ p ≤ c.1 + chunksNum * c.2 := by omega
  exact (ensures_any hc).bind fun used _ => (ensures_any hc).bind fun size _ =>
    (ensures_setUsed hc _).bind fun _ _ => (ensures_any hc).bind fun idx _ =>
      (ensures_setIdx hc _).bind fun _ _ => (ensures_any hc).bind fun idx _ =>
        (ensures_setChunk hc idx hp).bind fun _ _ => (Prog.ensures_release i).bind fun _ _ =>
          iff_of_true rfl hp

end Ensures

/-! ## The pointers the first pool refuses -/

/-- Not in the arena of the first pool. -/
def Outside (chunksNum : Nat) (c : Nat × Nat) (p : Nat) : Prop :=
  p < c.1 ∨ c.1 + chunksNum * c.2 < p

instance (chunksNum : Nat) (c : Nat × Nat) (p : Nat) : Decidable (Outside chunksNum c p) :=
  inferInstanceAs (Decidable (_ ∨ _))

/-- What a call does about such pointers: a request too large for the first
pool gets one, if `malloc` would return one, and `Free` of one passes the
first pool. -/
def Post (chunksNum : Nat) (c : Nat × Nat) : PoolsCall → PoolsAnswer → Prop
  | .allocate size fallback, a =>
      c.2 < size → Outside chunksNum c fallback → Outside chunksNum c a.pointer
  | .free p, a => Outside chunksNum c p → PassedFirst (.free p) a

/-- The arenas of later pools are apart from that of the first. -/
def LaterApart (chunksNum : Nat) (cfg : List (Nat × Nat)) (c : Nat × Nat) : Prop :=
  ∀ (i : Nat) (d : Nat × Nat), 0 < i → cfg[i]? = some d →
    ∀ q, d.1 ≤ q → q ≤ d.1 + chunksNum * d.2 → Outside chunksNum c q

theorem ensures_allocateIn (hlater : LaterApart chunksNum cfg c) (size : Nat) :
    ∀ {i n : Nat}, 0 < i → i + n = cfg.length →
      (allocateIn size i n).Ensures (AllConfined chunksNum cfg)
        fun r => r.1 = nullptr ∨ Outside chunksNum c r.1
  | _, 0, _, _ => Or.inl rfl
  | i, n + 1, hi, hn => by
      obtain ⟨d, hd⟩ : ∃ d, cfg[i]? = some d := ⟨_, List.getElem?_eq_getElem (by omega)⟩
      refine (ensures_any hd).bind fun chunkSize _ => ?_
      split
      · refine (ensures_allocate hd).bind fun r hr => ?_
        cases r with
        | none => exact Or.inl rfl
        | some q =>
            obtain ⟨hle, hge⟩ := hr q rfl
            exact Or.inr (hlater i d hi hd q hle hge)
      · exact ensures_allocateIn hlater size (Nat.succ_pos i) (by omega)

theorem ensures_freeIn (p : Nat) : ∀ {i n : Nat}, 0 < i → i + n = cfg.length →
    (freeIn p i n).Ensures (AllConfined chunksNum cfg) (· ≠ some 0)
  | _, 0, _, _ => nofun
  | i, n + 1, hi, hn => by
      obtain ⟨d, hd⟩ : ∃ d, cfg[i]? = some d := ⟨_, List.getElem?_eq_getElem (by omega)⟩
      refine (ensures_free hd p).bind fun found _ => ?_
      split
      · exact fun h => by
          obtain rfl := Option.some.inj h
          exact absurd hi (Nat.lt_irrefl 0)
      · exact ensures_freeIn p (Nat.succ_pos i) (by omega)

/-- **The front end.** -/
theorem ensures_code (hfirst : cfg[0]? = some c) (hlater : LaterApart chunksNum cfg c)
    (call : PoolsCall) :
    (code cfg.length call).Ensures (AllConfined chunksNum cfg) (Post chunksNum c call) := by
  obtain ⟨n, hn⟩ : ∃ n, cfg.length = n + 1 :=
    ⟨cfg.length - 1, by have := (List.getElem?_eq_some_iff.mp hfirst).1; omega⟩
  rw [hn]
  cases call with
  | allocate size fallback =>
      have hsize : (read 0 fun s => .ok s.getChunkSize).Ensures (AllConfined chunksNum cfg)
          (· = c.2) :=
        ensures_read hfirst fun s q hs hq => (Except.ok.inj hq).symm.trans hs.size
      have hloop : (allocateIn size 0 (n + 1)).Ensures (AllConfined chunksNum cfg)
          fun r => c.2 < size → r.1 = nullptr ∨ Outside chunksNum c r.1 := by
        refine hsize.bind fun chunkSize hchunk => ?_
        split
        · rename_i hle
          refine (ensures_allocate hfirst).bind fun r _ hlt => ?_
          omega
        · exact (ensures_allocateIn hlater size Nat.one_pos (by omega)).mono fun r hr _ => hr
      refine hloop.bind fun r hr => ?_
      dsimp only
      split
      · exact fun _ hfallback => hfallback
      · rename_i hne
        exact fun hlt _ => (hr hlt).resolve_left hne
  | free p =>
      have hloop : (freeIn p 0 (n + 1)).Ensures (AllConfined chunksNum cfg)
          fun found => Outside chunksNum c p → found ≠ some 0 := by
        refine (ensures_free hfirst p).bind fun found hfound => ?_
        split
        · rename_i htrue
          obtain ⟨hle, hge⟩ := hfound.mp htrue
          rintro (hlt | hgt) <;> omega
        · exact (ensures_freeIn p Nat.one_pos (by omega)).mono fun r hr _ => hr
      refine hloop.bind fun found hfound hout heq => hfound hout ?_
      cases found with
      | none => cases heq
      | some k => cases heq; rfl

/-! ## The log of a thread -/

/-- The `Free` calls that pass the first pool. -/
def passed (e : PoolsCall × PoolsAnswer) : Bool := decide (PassedFirst e.1 e.2)

variable {rand malloc : Nat → Nat}

/-- Each pointer outside the arena of the first pool is freed past it. -/
theorem countP_freeLoop : ∀ {i k : Nat} {memPointers : List Nat}
    {es : List (PoolsCall × PoolsAnswer)}, memPointers.length = i →
    Client.Told .done es (freeLoop rand i k memPointers) →
    (∀ e ∈ es, Post chunksNum c e.1 e.2) →
    memPointers.countP (Outside chunksNum c ·) ≤ es.countP passed
  | 0, k, memPointers, es, hlen, _, _ => by
      obtain rfl := List.eq_nil_of_length_eq_zero hlen
      exact Nat.zero_le _
  | i + 1, k, memPointers, es, hlen, htold, hpost => by
      have hidx : (if i ≠ 0 then rand k % i else 0) < memPointers.length := by
        split
        · have := Nat.mod_lt (rand k) (show 0 < i by omega)
          omega
        · omega
      rw [freeLoop] at htold
      generalize (if i ≠ 0 then rand k % i else 0) = idx at hidx htold
      rw [List.getElem?_eq_getElem hidx] at htold
      cases es with
      | nil => cases htold
      | cons e es =>
          obtain ⟨hcall, htold⟩ := Client.told_cons.mp htold
          have hlen' : (memPointers.eraseIdx idx).length = i := by
            rw [List.length_eraseIdx_of_lt hidx, hlen]
            rfl
          have ih := countP_freeLoop hlen' htold fun e he => hpost e (List.mem_cons_of_mem _ he)
          have he := hpost e (List.mem_cons_self ..)
          rw [hcall] at he
          rw [← (List.getElem_cons_eraseIdx_perm hidx).countP_eq, List.countP_cons,
            List.countP_cons]
          refine Nat.add_le_add ih ?_
          split
          · rename_i hout
            have hpassed : passed e = true :=
              decide_eq_true (hcall ▸ he (of_decide_eq_true hout))
            rw [if_pos hpassed]
          · exact Nat.zero_le _

/-- So is the pointer of each request too large for the first pool. -/
theorem countP_allocateLoop (hmalloc : ∀ k, Outside chunksNum c (malloc k)) : ∀ {n k : Nat}
    {memPointers : List Nat} {es : List (PoolsCall × PoolsAnswer)},
    Client.Told .done es (allocateLoop rand malloc n k memPointers) →
    (∀ e ∈ es, Post chunksNum c e.1 e.2) →
    memPointers.countP (Outside chunksNum c ·) +
      (List.range' k n).countP (c.2 < randomSize rand ·) ≤ es.countP passed
  | 0, k, memPointers, es, htold, hpost => countP_freeLoop rfl htold hpost
  | n + 1, k, memPointers, es, htold, hpost => by
      cases es with
      | nil => cases htold
      | cons e es =>
          obtain ⟨hcall, htold⟩ := Client.told_cons.mp htold
          have ih := countP_allocateLoop hmalloc htold fun e he =>
            hpost e (List.mem_cons_of_mem _ he)
          have he := hpost e (List.mem_cons_self ..)
          rw [hcall] at he
          have hone : (if c.2 < randomSize rand k then 1 else 0) ≤
              if Outside chunksNum c e.2.pointer then 1 else 0 := by
            split
            · rename_i hlarge
              rw [if_pos (he hlarge (hmalloc k))]
            · exact Nat.zero_le _
          rw [List.countP_append, List.countP_singleton] at ih
          rw [List.range'_succ, List.countP_cons, List.countP_cons]
          simp only [decide_eq_true_eq] at ih ⊢
          omega

/-! ## Both threads -/

/-- The two threads' own calls are part of the log. -/
theorem countP_entriesOf (log : List (Nat × PoolsCall × PoolsAnswer)) :
    (Clients.entriesOf 0 log).countP passed + (Clients.entriesOf 1 log).countP passed ≤
      log.countP (passed ·.2) := by
  induction log with
  | nil => exact Nat.le_refl _
  | cons e log ih =>
      rw [Clients.entriesOf_cons, Clients.entriesOf_cons, List.countP_cons]
      by_cases h₀ : e.1 = 0
      · rw [if_pos h₀, if_neg (by omega), List.countP_cons]
        omega
      by_cases h₁ : e.1 = 1
      · rw [if_neg h₀, if_pos h₁, List.countP_cons]
        omega
      · rw [if_neg h₀, if_neg h₁]
        omega

/-- If what follows an entry of a kind is of other kinds, there is one. -/
theorem countP_le_one {β : Type} {kind : β → Bool} : ∀ {l : List β},
    (∀ before e after, l = before ++ e :: after → kind e = true → ∀ e' ∈ after, kind e' = false) →
    l.countP kind ≤ 1
  | [], _ => Nat.zero_le _
  | e :: l, h => by
      rw [List.countP_cons]
      split
      · rename_i he
        have hnone : l.countP kind = 0 := List.countP_eq_zero.mpr fun e' he' => by
          rw [h [] e l rfl he e' he']
          decide
        omega
      · exact countP_le_one fun before e' after heq =>
          h (e :: before) e' after (by rw [heq]; rfl)

theorem Confined.of_partition {s : PoolAllocator}
    (h : PoolAllocator.Partition c.1 chunksNum c.2 [] s) : Confined chunksNum c s.locked := by
  refine ⟨h.start, h.total, h.size, fun q hq => ?_⟩
  have hfree : s.freeList = s.freeChunks := by
    have hlen := h.length_add
    have hidx := h.length_freeList
    have htable := h.table
    rw [List.length_nil, Nat.add_zero] at hlen
    exact List.take_of_length_le (by omega)
  have hin := PoolAllocator.chunk_le (h.perm.mem_iff.mp (by
    rw [List.append_nil, hfree]
    exact hq))
  omega

theorem laterApart (hapart : (FrontSession.arenas chunksNum (c :: cfg)).Pairwise Apart) :
    LaterApart chunksNum (c :: cfg) c := by
  intro i d hi hd q hle hge
  obtain ⟨i, rfl⟩ : ∃ k, i = k + 1 := ⟨i - 1, by omega⟩
  have hmem : (⟨d.1, chunksNum * d.2⟩ : Extent) ∈ FrontSession.arenas chunksNum cfg :=
    List.mem_map_of_mem (List.mem_of_getElem? hd)
  rcases List.rel_of_pairwise_cons hapart hmem with h | h
  · exact Or.inr (Nat.lt_of_lt_of_le h hle)
  · exact Or.inl (Nat.lt_of_le_of_lt hge h)

/-- The pools after `Init` under the spin locks, which are free again. -/
theorem initLoop_locks (htable : chunksNum * 8 < 2 ^ 64) :
    ∀ {sizes : List Nat} {mallocs : List (Nat × List Nat)}, mallocs.length = sizes.length →
      (∀ m ∈ mallocs, m.2.length = chunksNum) →
      (∀ size ∈ sizes, 0 < size ∧ chunksNum * size < 2 ^ 64) →
      ∃ l, initLoop .enableSpinLock (sizes.map (PoolAllocator.construct chunksNum)) mallocs
          = .ok l ∧
        List.Forall₂ (fun (c : Nat × Nat) a => PoolAllocator.Partition c.1 chunksNum c.2 [] a ∧
          a.held = false) (FrontSession.config mallocs sizes) l
  | [], [], _, _, _ => ⟨[], rfl, .nil⟩
  | size :: sizes, (arena, table) :: mallocs, hlen, htables, hsizes => by
      obtain ⟨hpos, harena⟩ := hsizes size (List.mem_cons_self ..)
      obtain ⟨a, hinit, ha⟩ := PoolAllocator.init_enableSpinLock_spec hpos harena htable arena
        (htables (arena, table) (List.mem_cons_self ..))
      obtain ⟨l, hloop, hl⟩ := initLoop_locks htable (Nat.succ.inj hlen)
        (fun m hm => htables m (List.mem_cons_of_mem _ hm))
        fun c hc => hsizes c (List.mem_cons_of_mem _ hc)
      refine ⟨a :: l, ?_, .cons ha hl⟩
      rw [List.map_cons, initLoop, hinit, ok_bind, hloop]
      rfl

/-- The pools of the test, behind the first. -/
def later (mallocs : List (Nat × List Nat)) : List (Nat × Nat) :=
  FrontSession.config mallocs chunkSizes.tail

/-- The test starts with the first pool free, and all of them on their
arenas with nothing in use. -/
theorem init_pools {arena : Nat} {table : List Nat} {rest : List (Nat × List Nat)}
    (hlen : rest.length + 1 = chunkSizes.length)
    (htables : ∀ m ∈ (arena, table) :: rest, m.2.length = sMaxChunksNum) :
    ∃ first l, initLoop .enableSpinLock (chunkSizes.map (PoolAllocator.construct sMaxChunksNum))
        ((arena, table) :: rest) = .ok (first :: l) ∧
      PoolAllocator.Partition arena sMaxChunksNum 64 [] first ∧ first.held = false ∧
      l.length = (later rest).length ∧ (∀ s ∈ first :: l, s.used = 0) ∧
      AllConfined sMaxChunksNum ((arena, 64) :: later rest) (share (first :: l)).data := by
  obtain ⟨l, hloop, hl⟩ := initLoop_locks (show sMaxChunksNum * 8 < 2 ^ 64 by decide)
    (show ((arena, table) :: rest).length = chunkSizes.length from hlen) htables (by decide)
  have hcfg : FrontSession.config ((arena, table) :: rest) chunkSizes = (arena, 64) :: later rest :=
    rfl
  rw [hcfg] at hl
  have hget : ∀ (i : Nat) (c : Nat × Nat) (a : PoolAllocator),
      ((arena, 64) :: later rest)[i]? = some c → l[i]? = some a →
      PoolAllocator.Partition c.1 sMaxChunksNum c.2 [] a := by
    intro i c a hc ha
    obtain ⟨hi, rfl⟩ := List.getElem?_eq_some_iff.mp hc
    obtain ⟨hi', rfl⟩ := List.getElem?_eq_some_iff.mp ha
    exact (hl.get hi hi').1
  have hused : ∀ s ∈ l, s.used = 0 := by
    intro s hs
    obtain ⟨i, hi⟩ := List.mem_iff_getElem?.mp hs
    have hlt := (List.getElem?_eq_some_iff.mp hi).1
    exact (hget i _ s (List.getElem?_eq_getElem (hl.length_eq ▸ hlt)) hi).used
  have hdata : AllConfined sMaxChunksNum ((arena, 64) :: later rest) (share l).data := by
    refine ⟨(List.length_map ..).trans hl.length_eq.symm, fun i c s hc hs => ?_⟩
    obtain ⟨a, ha, rfl⟩ : ∃ a, l[i]? = some a ∧ a.locked = s := by simpa [share] using hs
    exact .of_partition (hget i c a hc ha)
  cases hl with
  | @cons _ first _ l hfirst hrest =>
      exact ⟨first, l, hloop, hfirst.1, hfirst.2, hrest.length_eq.symm, hused, hdata⟩

/-- How many of a thread's requests are larger than the chunks of the first
pool. -/
def largeRequests (n chunkSize : Nat) (rand : Nat → Nat) : Nat :=
  (List.range n).countP (chunkSize < randomSize rand ·)

theorem largeRequests_le {n : Nat} (hmalloc : ∀ k, Outside chunksNum c (malloc k))
    {es : List (PoolsCall × PoolsAnswer)} (htold : Client.Told .done es (threadFunc n rand malloc))
    (hpost : ∀ e ∈ es, Post chunksNum c e.1 e.2) : largeRequests n c.2 rand ≤ es.countP passed := by
  have hcount := countP_allocateLoop hmalloc htold hpost
  rwa [List.countP_nil, Nat.zero_add, ← List.range_eq_range'] at hcount

/-- If both threads come to the end, at most one request was large. -/
theorem large_le_one {l : List PoolAllocator} {first : PoolAllocator} (hl : l[0]? = some first)
    (hlen : l.length = cfg.length) (hfirst : cfg[0]? = some c)
    (hlater : LaterApart chunksNum cfg c) (hdata : AllConfined chunksNum cfg (share l).data)
    {n : Nat} {malloc rand : Nat → Nat → Nat} (hmalloc : ∀ j k, Outside chunksNum c (malloc j k))
    {schedule : List Nat} {result : Bool}
    (hrun : joinThreads n rand malloc l schedule = .ok result) :
    largeRequests n c.2 (rand 0) + largeRequests n c.2 (rand 1) ≤ 1 := by
  obtain ⟨S, hS, hjoined⟩ : ∃ S, Runs.exec (Clients.step (code l.length))
      (startThreads n rand malloc l) schedule = .ok S ∧ S.clients.all Client.finished = true := by
    rw [joinThreads] at hrun
    cases hS : Runs.exec (Clients.step (code l.length)) (startThreads n rand malloc l) schedule with
    | error e => simp [Except.mapError, hS] at hrun
    | ok S =>
        simp only [Except.mapError, ok_bind, hS] at hrun
        split at hrun
        · exact ⟨S, rfl, ‹_›⟩
        · cases hrun
  obtain ⟨hfollows, hclients, choices, hchoices⟩ := Clients.exec_follows hS
  have hpost := Threads.exec_ensures (fun call => hlen ▸ ensures_code hfirst hlater call) hdata
    hchoices
  have hthread : ∀ j, j < 2 → Client.Told .done (Clients.entriesOf j S.object.log)
      (threadFunc n (rand j) (malloc j)) := by
    intro j hj
    have hc : S.clients[j]? = some .done := by
      have hlt : j < S.clients.length := by rw [hclients]; exact hj
      rw [List.getElem?_eq_getElem hlt, Client.eq_done_of_finished
        (List.all_eq_true.mp hjoined _ (List.getElem_mem hlt))]
    refine hfollows.told j _ _ ?_ hc
    rcases j with _ | _ | j
    · rfl
    · rfl
    · omega
  have hentries : ∀ j, ∀ e ∈ Clients.entriesOf j S.object.log, Post chunksNum c e.1 e.2 := by
    intro j e he
    obtain ⟨e', he', rfl⟩ := List.mem_map.mp he
    exact hpost e' (List.mem_of_mem_filter he')
  have h₀ := largeRequests_le (hmalloc 0) (hthread 0 (by decide)) (hentries 0)
  have h₁ := largeRequests_le (hmalloc 1) (hthread 1 (by decide)) (hentries 1)
  have hlog := countP_entriesOf S.object.log
  -- after the first `Free` past the first pool there is no other
  have hone : S.object.log.countP (passed ·.2) ≤ 1 :=
    countP_le_one fun before e after heq hpassed e' he' => by
      obtain ⟨size, fallback, hcall, -⟩ :=
        after_passedFirst hl hchoices heq (of_decide_eq_true hpassed) e' he'
      rw [passed, hcall]
      exact decide_eq_false id
  omega

/-- **The test never ends** under `ENABLE_SPIN_LOCK` if two of its requests
are larger than the chunks of the first pool: no schedule of the two threads
gets both to the end, whichever pointers they free next. -/
theorem multiThreadTest_hangs {arena : Nat} {table : List Nat} {rest : List (Nat × List Nat)}
    (hlen : rest.length + 1 = chunkSizes.length)
    (htables : ∀ m ∈ (arena, table) :: rest, m.2.length = sMaxChunksNum)
    (hapart : (FrontSession.arenas sMaxChunksNum
      (FrontSession.config ((arena, table) :: rest) chunkSizes)).Pairwise Apart)
    {malloc rand : Nat → Nat → Nat}
    (hmalloc : ∀ j k, Outside sMaxChunksNum (arena, 64) (malloc j k))
    (hlarge : 1 < largeRequests (sMaxChunksNum / 2) 64 (rand 0) +
      largeRequests (sMaxChunksNum / 2) 64 (rand 1)) :
    ¬∃ schedule result, runMultiThreadTest .enableSpinLock ((arena, table) :: rest) malloc rand
      schedule = .ok result := by
  rintro ⟨schedule, result, hrun⟩
  obtain ⟨first, l, hloop, -, -, hlenl, -, hdata⟩ := init_pools hlen htables
  have hcfg : FrontSession.config ((arena, table) :: rest) chunkSizes = (arena, 64) :: later rest :=
    rfl
  rw [runMultiThreadTest, PoolAllocators.construct, hloop] at hrun
  obtain ⟨b, hjoin, -⟩ := bind_eq_ok.mp (show joinThreads _ rand malloc _ schedule >>= _ = _
    from hrun)
  have hle := large_le_one (List.getElem?_cons_zero ..) (congrArg Nat.succ hlenl) rfl
    (laterApart (hcfg ▸ hapart)) hdata hmalloc hjoin
  exact absurd hlarge (Nat.not_lt_of_le hle)

/-- Nine arenas far from each other, and 5000 bytes in every request. -/
theorem multiThreadTest_hangs_spaced :
    largeRequests (sMaxChunksNum / 2) 64 (fun _ => 4999) = 500 ∧
      ¬∃ schedule result, runMultiThreadTest .enableSpinLock FrontSession.spacedMallocs
        (fun _ _ => nullptr) (fun _ _ => 4999) schedule = .ok result := by
  have hcons : FrontSession.spacedMallocs =
      (10000000, List.replicate sMaxChunksNum 0) :: FrontSession.spacedMallocs.tail := rfl
  have hlarge : largeRequests (sMaxChunksNum / 2) 64 (fun _ => 4999) = 500 := by
    have hsize : ∀ k, randomSize (fun _ => 4999) k = 5000 := fun _ =>
      show 4999 % sMaxChunkSize + 1 = 5000 by decide
    simp [largeRequests, hsize, sMaxChunksNum]
  refine ⟨hlarge, ?_⟩
  rw [hcons]
  exact multiThreadTest_hangs (by decide) FrontSession.spacedMallocs_table
    FrontSession.spacedMallocs_apart (fun _ _ => Or.inl (by decide)) (by rw [hlarge]; decide)

/-- One small block each is fine: thread 1 waits for the lock and gets it. -/
example : (joinThreads 1 (fun _ _ => 0) (fun _ _ => nullptr)
    [{ PoolAllocator.construct 2 64 with
        startPtr := 4096, freeChunks := [4096, 4160], currFreeChunksIdx := 1 }]
    (List.replicate 6 0 ++ List.replicate 5 1 ++ List.replicate 20 0 ++
      List.replicate 24 1)).toOption = some true := by decide +kernel

end MultiThreadTest

end MemAlloc
