import MemAlloc.Agreement
import MemAlloc.MultiThreadTest
import MemAlloc.PoolLifo

/-!
# `RunMultiThreadTest` with small requests

If every request fits the chunks of the first pool, then the two threads use
nothing else, and no call leaves its lock behind: some schedule gets both to
the end, and under every schedule that does, the test passes.

On the data that can come about, the front end agrees with the code of one
pool (`agrees_code`), whose runs are sequential by `linearizable`. What the
threads hold is what the log says is live.
-/

namespace MemAlloc

namespace MultiThreadTest

open PoolAccesses PoolFrontEndThreads PoolAllocators PoolAllocator

variable {chunksNum : Nat} {cfg : List (Nat × Nat)} {c : Nat × Nat}

/-! ## The front end on the first pool -/

/-- The calls as the first pool serves them. -/
def firstCode : PoolsCall → Code PoolsAnswer
  | .allocate _ fallback => .read fun _ => (PoolAccesses.allocate 0).answering fun r =>
      if r.getD nullptr = nullptr then .allocated fallback .system
      else .allocated (r.getD nullptr) (.pool 0)
  | .free p => (PoolAccesses.free 0 p).answering fun _ => .freed (.pool 0)

theorem guarded_firstCode (call : PoolsCall) : (firstCode call).Guarded 0 PoolLifo.nothing := by
  cases call with
  | allocate size fallback =>
      exact ⟨fun _ _ _ => rfl, fun _ => PoolLifo.guarded_allocate.answering _⟩
  | free p => exact (PoolLifo.guarded_free p).answering _

/-- The calls it does serve. -/
def OfFirst (chunksNum : Nat) (c : Nat × Nat) : PoolsCall → Prop
  | .allocate size _ => size ≤ c.2
  | .free p => c.1 ≤ p ∧ p ≤ c.1 + chunksNum * c.2

theorem agrees_code (hfirst : cfg[0]? = some c) {n : Nat} (hn : 0 < n) {call : PoolsCall}
    (hcall : OfFirst chunksNum c call) :
    (code n call).Agrees (AllConfined chunksNum cfg) (firstCode call) := by
  obtain ⟨n, rfl⟩ : ∃ k, n = k + 1 := ⟨n - 1, by omega⟩
  cases call with
  | allocate size fallback =>
      refine ⟨_, rfl, fun pools hpools => ?_⟩
      have hlt : 0 < pools.length := by
        rw [hpools.1]
        exact (List.getElem?_eq_some_iff.mp hfirst).1
      have hpool : pools[0]? = some pools[0] := List.getElem?_eq_getElem hlt
      have hsize : size ≤ pools[0].getChunkSize := by
        rw [getChunkSize, (hpools.2 0 c _ hfirst hpool).size]
        exact hcall
      show Prog.Agrees _ (Prog.bind (Prog.bind _ _) _) _
      simp only [hpool]
      show Prog.Agrees _ ((if size ≤ pools[0].getChunkSize then _ else _) >>= _) _
      rw [if_pos hsize, Prog.bind_assoc]
      refine (ensures_allocate hfirst).agrees_bind fun r _ => ?_
      simp only [Prog.pure_eq, Prog.ret_bind]
      split <;> rfl
  | free p =>
      show Prog.Agrees _ ((PoolAccesses.free 0 p >>= _) >>= _) (PoolAccesses.free 0 p >>= _)
      rw [Prog.bind_assoc]
      refine (ensures_free hfirst p).agrees_bind fun found hfound => ?_
      obtain rfl : found = true := hfound.mpr hcall
      rfl

/-! ## One call after the other -/

variable {l : List PoolAllocator} {arena chunkSize : Nat} {live : List Nat} {y : PoolAllocator}
  {log : List (Nat × PoolsCall × PoolsAnswer)}

/-- The pools with the first one replaced, its lock free and these chunks
live. -/
structure Serving (l : List PoolAllocator) (arena chunksNum chunkSize : Nat) (live : List Nat)
    (t : Shared Nat (List PoolAllocator)) (y : PoolAllocator) : Prop where
  shared : t = share (l.set 0 y)
  part : Partition arena chunksNum chunkSize live y
  unheld : y.held = false

theorem Serving.allocate {t : Shared Nat (List PoolAllocator)}
    (h : Serving l arena chunksNum chunkSize live t y) (hl : 0 < l.length)
    (hnonnull : arena ≠ nullptr) (hroom : live.length < chunksNum) (size fallback : Nat) : ∃ p u y',
      (firstCode (.allocate size fallback)).run .spinsForever t = .ok (.allocated p (.pool 0), u) ∧
        Serving l arena chunksNum chunkSize (p :: live) u y' := by
  obtain ⟨p, y', hrun, hpart⟩ := (h.part.withSpinlock ⟨true⟩).allocate_some hroom
  have hget : (l.set 0 y)[0]? = some y := List.getElem?_set_self hl
  have hcall : y.allocate .enableSpinLock = .ok (some p, y'.unlock .enableSpinLock) := by
    rw [allocate_enableSpinLock h.unheld]
    exact congrArg (Except.map _) hrun
  refine ⟨p, _, y'.unlock .enableSpinLock, ?_, rfl, hpart.withSpinlock _, rfl⟩
  have hne : p ≠ nullptr := by
    have hin := chunk_le (hpart.live_mem (List.mem_cons_self ..))
    simp only [nullptr] at hnonnull ⊢
    omega
  rw [h.shared, firstCode, Prog.run, Prog.run_answering, allocate_share hget, hcall]
  simp only [Except.map, Option.getD_some, if_neg hne, List.set_set]

theorem Serving.free {t : Shared Nat (List PoolAllocator)}
    (h : Serving l arena chunksNum chunkSize live t y) (hl : 0 < l.length) {p : Nat}
    (hp : p ∈ live) : ∃ u y',
      (firstCode (.free p)).run .spinsForever t = .ok (.freed (.pool 0), u) ∧
        Serving l arena chunksNum chunkSize (live.erase p) u y' := by
  obtain ⟨y', hrun, hpart⟩ := (h.part.withSpinlock ⟨true⟩).free_live hp
  have hget : (l.set 0 y)[0]? = some y := List.getElem?_set_self hl
  have hcall : y.free .enableSpinLock p = .ok (true, y'.unlock .enableSpinLock) := by
    rw [free_enableSpinLock h.unheld]
    exact congrArg (Except.map _) hrun
  refine ⟨_, y'.unlock .enableSpinLock, ?_, rfl, hpart.withSpinlock _, rfl⟩
  rw [h.shared, firstCode, Prog.run_answering, free_share hget, hcall]
  simp only [Except.map, List.set_set]

/-- After the calls of the log these chunks are live. -/
def Settled (l : List PoolAllocator) (arena chunksNum chunkSize : Nat)
    (log : List (Nat × PoolsCall × PoolsAnswer)) (live : List Nat) : Prop :=
  ∀ t, Threads.Replay firstCode .spinsForever (share l) log t →
    ∃ y, Serving l arena chunksNum chunkSize live t y

theorem settled_nil {first : PoolAllocator} (hget : l[0]? = some first)
    (hpart : Partition arena chunksNum chunkSize [] first) (hunheld : first.held = false) :
    Settled l arena chunksNum chunkSize [] [] := by
  intro t hreplay
  obtain rfl := hreplay.nil_eq
  obtain ⟨hlt, rfl⟩ := List.getElem?_eq_some_iff.mp hget
  exact ⟨_, by rw [List.set_getElem_self], hpart, hunheld⟩

theorem Settled.allocate (h : Settled l arena chunksNum chunkSize log live) (hl : 0 < l.length)
    (hnonnull : arena ≠ nullptr) (hroom : live.length < chunksNum) (j size fallback : Nat)
    (a : PoolsAnswer) :
    Settled l arena chunksNum chunkSize (log ++ [(j, .allocate size fallback, a)])
      (a.pointer :: live) := by
  intro u hreplay
  obtain ⟨t, hlog, hrun⟩ := hreplay.snoc_inv
  obtain ⟨y, hy⟩ := h t hlog
  obtain ⟨p, u', y', hcall, hy'⟩ := hy.allocate hl hnonnull hroom size fallback
  obtain ⟨rfl, rfl⟩ := Prod.mk.inj (Except.ok.inj (hcall.symm.trans hrun))
  exact ⟨y', hy'⟩

theorem Settled.free (h : Settled l arena chunksNum chunkSize log live) (hl : 0 < l.length)
    {p : Nat} (hp : p ∈ live) (j : Nat) (a : PoolsAnswer) :
    Settled l arena chunksNum chunkSize (log ++ [(j, .free p, a)]) (live.erase p) := by
  intro u hreplay
  obtain ⟨t, hlog, hrun⟩ := hreplay.snoc_inv
  obtain ⟨y, hy⟩ := h t hlog
  obtain ⟨u', y', hcall, hy'⟩ := hy.free hl hp
  obtain ⟨rfl, rfl⟩ := Prod.mk.inj (Except.ok.inj (hcall.symm.trans hrun))
  exact ⟨y', hy'⟩

/-! ## What a thread holds -/

variable {rand malloc : Nat → Nat} {n : Nat} {ptrs : List Nat}
  {client : Client PoolsCall PoolsAnswer}

/-- In its loops, with these pointers in `memPointers`. -/
def Phase (n : Nat) (rand malloc : Nat → Nat) (ptrs : List Nat)
    (client : Client PoolsCall PoolsAnswer) : Prop :=
  (∃ m, ptrs.length + m = n ∧ client = allocateLoop rand malloc m ptrs.length ptrs) ∨
    ptrs.length ≤ n ∧ ∃ k, client = freeLoop rand ptrs.length k ptrs

theorem Phase.length_le (h : Phase n rand malloc ptrs client) : ptrs.length ≤ n := by
  rcases h with ⟨m, hm, -⟩ | ⟨hle, -⟩
  · omega
  · exact hle

/-- What it does next. -/
theorem Phase.cases (h : Phase n rand malloc ptrs client) :
    client = .done ∧ ptrs = [] ∨
      (∃ next,
        client = .invoke (.allocate (randomSize rand ptrs.length) (malloc ptrs.length)) next ∧
        ptrs.length < n ∧ ∀ a : PoolsAnswer, Phase n rand malloc (ptrs ++ [a.pointer]) (next a)) ∨
      ∃ p rest next, client = .invoke (.free p) next ∧ ptrs.Perm (p :: rest) ∧
        ∀ a, Phase n rand malloc rest (next a) := by
  have hfree : ∀ k, ptrs.length ≤ n → client = freeLoop rand ptrs.length k ptrs →
      client = .done ∧ ptrs = [] ∨ ∃ p rest next, client = .invoke (.free p) next ∧
        ptrs.Perm (p :: rest) ∧ ∀ a, Phase n rand malloc rest (next a) := by
    intro k hle hclient
    cases hlen : ptrs.length with
    | zero =>
        rw [hlen] at hclient
        exact Or.inl ⟨hclient, List.eq_nil_of_length_eq_zero hlen⟩
    | succ i =>
        have hidx : (if i ≠ 0 then rand k % i else 0) < ptrs.length := by
          split
          · have := Nat.mod_lt (rand k) (show 0 < i by omega)
            omega
          · omega
        rw [hlen, freeLoop] at hclient
        generalize (if i ≠ 0 then rand k % i else 0) = idx at hidx hclient
        rw [List.getElem?_eq_getElem hidx] at hclient
        refine Or.inr ⟨_, ptrs.eraseIdx idx, _, hclient,
          (List.getElem_cons_eraseIdx_perm hidx).symm, fun a => ?_⟩
        have hlen' : (ptrs.eraseIdx idx).length = i := by
          rw [List.length_eraseIdx_of_lt hidx, hlen]
          rfl
        exact Or.inr ⟨by omega, _, by rw [hlen']⟩
  rcases h with ⟨m, hm, hclient⟩ | ⟨hle, k, hclient⟩
  · cases m with
    | zero => exact (hfree _ (by omega) hclient).imp_right Or.inr
    | succ m =>
        refine Or.inr (Or.inl ⟨_, hclient, by omega, fun a => Or.inl ⟨m, ?_, ?_⟩⟩)
        · rw [List.length_append, List.length_singleton]
          omega
        · rw [List.length_append, List.length_singleton]
  · exact (hfree k hle hclient).imp_right Or.inr

/-! ## Both threads -/

section Threads

variable {rand malloc : Nat → Nat → Nat} {first : PoolAllocator}
  {S S' : Clients PoolsCall Nat (List PoolAllocator) Stuck PoolsAnswer} {j : Nat}

/-- What the two threads hold between them. -/
def together (ptrs : Nat → List Nat) : List Nat := ptrs 0 ++ ptrs 1

/-- One of them holds one pointer more. -/
theorem perm_together (ptrs : Nat → List Nat) {xs : List Nat} {p : Nat} (hj : j < 2)
    (h : xs.Perm (p :: ptrs j)) :
    (together (Function.update ptrs j xs)).Perm (p :: together ptrs) := by
  rcases j with _ | _ | j
  · rw [together, Function.update_self, Function.update_of_ne (by decide)]
    exact h.append_right _
  · rw [together, Function.update_self, Function.update_of_ne (by decide)]
    exact (h.append_left _).trans List.perm_middle
  · omega

/-- The invariant: the threads cannot be told apart from threads on the first
pool alone, and what they hold is what is live. -/
structure Sound (l : List PoolAllocator) (cfg : List (Nat × Nat)) (chunksNum : Nat) (c : Nat × Nat)
    (n : Nat) (rand malloc : Nat → Nat → Nat)
    (S : Clients PoolsCall Nat (List PoolAllocator) Stuck PoolsAnswer) : Prop where
  follows : Clients.Follows [threadFunc n (rand 0) (malloc 0), threadFunc n (rand 1) (malloc 1)] S
  length : S.clients.length = 2
  sim : ∃ T choices,
    Runs.exec (Threads.step firstCode) (Threads.start (share l) 2) choices = .ok T ∧
      Threads.Agree (AllConfined chunksNum cfg) S.object T
  holds : ∃ ptrs live, (∀ (j : Nat) client, S.clients[j]? = some client →
      Phase n (rand j) (malloc j) (ptrs j) client) ∧
    live.Perm (together ptrs) ∧ Settled l c.1 chunksNum c.2 S.object.log live

variable (hl : 0 < l.length) (hnonnull : c.1 ≠ nullptr)
  (hsmall : ∀ j < 2, ∀ k < n, randomSize (rand j) k ≤ c.2) (hroom : 2 * n ≤ chunksNum)
include hl hnonnull hsmall hroom

/-- The next call of a thread is one for the first pool, it returns when
made alone, and what it does to the pointers is what it does to the pool. -/
theorem next_call {ptrs : Nat → List Nat} {call : PoolsCall}
    {next : PoolsAnswer → Client PoolsCall PoolsAnswer} {t : Shared Nat (List PoolAllocator)}
    (hclients : S.clients.length = 2) (hphase : ∀ (j : Nat) client, S.clients[j]? = some client →
      Phase n (rand j) (malloc j) (ptrs j) client)
    (hperm : live.Perm (together ptrs)) (hsettled : Settled l c.1 chunksNum c.2 S.object.log live)
    (hserving : Serving l c.1 chunksNum c.2 live t y)
    (hclient : S.clients[j]? = some (.invoke call next)) :
    OfFirst chunksNum c call ∧ (∃ a u, (firstCode call).run .spinsForever t = .ok (a, u)) ∧
      ∀ a, ∃ xs live', Phase n (rand j) (malloc j) xs (next a) ∧
        live'.Perm (together (Function.update ptrs j xs)) ∧
        Settled l c.1 chunksNum c.2 (S.object.log ++ [(j, call, a)]) live' := by
  have hj : j < 2 := hclients ▸ (List.getElem?_eq_some_iff.mp hclient).1
  rcases (hphase j _ hclient).cases with
    ⟨hdone, -⟩ | ⟨next', heq, hlt, hnext⟩ | ⟨p, rest, next', heq, hrest, hnext⟩
  · cases hdone
  · cases heq
    have hlength : live.length < chunksNum := by
      have hle : ∀ k < 2, (ptrs k).length ≤ n := fun k hk =>
        (hphase k _ (List.getElem?_eq_getElem (by omega))).length_le
      have h₀ := hle 0 (by decide)
      have h₁ := hle 1 (by decide)
      rw [hperm.length_eq, together, List.length_append]
      rcases j with _ | _ | j
      · have hlt : (ptrs 0).length < n := hlt
        omega
      · have hlt : (ptrs 1).length < n := hlt
        omega
      · omega
    obtain ⟨p, u, y', hrun, -⟩ := hserving.allocate hl hnonnull hlength
      (randomSize (rand j) (ptrs j).length) (malloc j (ptrs j).length)
    refine ⟨hsmall j hj _ hlt, ⟨_, u, hrun⟩, fun a => ⟨_, a.pointer :: live, hnext a, ?_,
      hsettled.allocate hl hnonnull hlength _ _ _ a⟩⟩
    exact (hperm.cons _).trans
      (perm_together ptrs hj (List.perm_append_singleton a.pointer (ptrs j))).symm
  · cases heq
    have hptrs : (together ptrs).Perm (p :: together (Function.update ptrs j rest)) := by
      have hback : Function.update (Function.update ptrs j rest) j (ptrs j) = ptrs := by
        rw [Function.update_idem, Function.update_eq_self]
      have hmore := perm_together (Function.update ptrs j rest) hj
        (show (ptrs j).Perm (p :: _) by rwa [Function.update_self])
      rwa [hback] at hmore
    have hp : p ∈ live := hperm.mem_iff.mpr (hptrs.mem_iff.mpr (List.mem_cons_self ..))
    obtain ⟨u, y', hrun, -⟩ := hserving.free hl hp
    have hchunk := chunk_le (hserving.part.live_mem hp)
    refine ⟨⟨hchunk.1, by omega⟩, ⟨_, u, hrun⟩, fun a =>
      ⟨rest, live.erase p, hnext a, ?_, hsettled.free hl hp j a⟩⟩
    have herase := (hperm.trans hptrs).erase p
    rwa [List.erase_cons_head] at herase

variable (hfirst : cfg[0]? = some c)
include hfirst

/-- **Step lemma.** -/
theorem Sound.step (h : Sound l cfg chunksNum c n rand malloc S)
    (hstep : Clients.step (code l.length) S j = .ok S') :
    Sound l cfg chunksNum c n rand malloc S' := by
  obtain ⟨call, next, object, hclient, hobject, rfl⟩ := Clients.step_cases hstep
  obtain ⟨T, choices, hT, hagree⟩ := h.sim
  obtain ⟨ptrs, live, hphase, hperm, hsettled⟩ := h.holds
  obtain ⟨t, hreplay, -⟩ :=
    Threads.linearizable guarded_firstCode .spinsForever (share l) 2 hT
  obtain ⟨y, hy⟩ := hsettled t (hagree.log ▸ hreplay)
  obtain ⟨hof, -, hnew⟩ :=
    next_call hl hnonnull hsmall hroom h.length hphase hperm hsettled hy hclient
  obtain ⟨T', hT', hagree'⟩ := hagree.step (fun _ => agrees_code hfirst hl hof) hobject
  refine ⟨h.follows.step hstep, (Clients.length_tell ..).trans h.length,
    ⟨T', choices ++ [(j, call)], ?_, by rwa [Clients.tell_object]⟩, ?_⟩
  · rw [Runs.exec_append hT, Runs.exec_cons_ok hT']
    rfl
  rw [Clients.tell_object]
  rcases h.follows.tell_cases hclient hobject with ⟨hlog, hclients⟩ | ⟨a, hlog, hclients⟩
  · exact ⟨ptrs, live, by rwa [hclients], hperm, by rwa [hlog]⟩
  · obtain ⟨xs, live', hxs, hperm', hsettled'⟩ := hnew a
    refine ⟨Function.update ptrs j xs, live', fun k client hk => ?_, hperm', by rwa [hlog]⟩
    rw [hclients] at hk
    by_cases hkj : j = k
    · subst hkj
      rw [List.getElem?_set_self (List.getElem?_eq_some_iff.mp hclient).1] at hk
      obtain rfl := Option.some.inj hk
      rwa [Function.update_self]
    · rw [List.getElem?_set_ne hkj] at hk
      rw [Function.update_of_ne (Ne.symm hkj)]
      exact hphase k client hk

omit hnonnull hsmall hroom hl hfirst

/-- Between two calls the first pool is as the calls of the log leave it. -/
theorem Sound.quiet (h : Sound l cfg chunksNum c n rand malloc S) (hquiet : S.object.Quiet) :
    ∃ ptrs live y, (∀ (j : Nat) client, S.clients[j]? = some client →
        Phase n (rand j) (malloc j) (ptrs j) client) ∧ live.Perm (together ptrs) ∧
      Settled l c.1 chunksNum c.2 S.object.log live ∧
      Serving l c.1 chunksNum c.2 live S.object.shared y := by
  obtain ⟨T, choices, hT, hagree⟩ := h.sim
  obtain ⟨ptrs, live, hphase, hperm, hsettled⟩ := h.holds
  have hquietT : T.Quiet := by
    intro th hth
    obtain ⟨k, hk⟩ := List.mem_iff_getElem?.mp hth
    have hlt := (List.getElem?_eq_some_iff.mp hk).1
    have hk' : S.object.threads[k]? = some _ := List.getElem?_eq_getElem (hagree.length ▸ hlt)
    have hth' := hagree.threads k _ th hk' hk
    rw [hquiet _ (List.mem_of_getElem? hk')] at hth'
    cases th with
    | idle => rfl
    | busy => cases hth'
  obtain ⟨t, hreplay, hshared⟩ :=
    Threads.linearizable guarded_firstCode .spinsForever (share l) 2 hT
  obtain ⟨y, hy⟩ := hsettled t (hagree.log ▸ hreplay)
  rw [← hshared hquietT, hagree.shared] at hy
  exact ⟨ptrs, live, y, hphase, hperm, hsettled, hy⟩

/-- With both threads at their ends nothing is in use. -/
theorem Sound.usedSize (h : Sound l cfg chunksNum c n rand malloc S) (hused : ∀ s ∈ l, s.used = 0)
    (hjoined : S.clients.all Client.finished = true) :
    PoolAllocators.getUsedSize ⟨S.object.shared.data⟩ = 0 := by
  have hdone : ∀ j < 2, S.clients[j]? = some .done := by
    intro j hj
    have hlt : j < S.clients.length := by rw [h.length]; exact hj
    rw [List.getElem?_eq_getElem hlt, Client.eq_done_of_finished
      (List.all_eq_true.mp hjoined _ (List.getElem_mem hlt))]
  have hquiet : S.object.Quiet := by
    intro th hth
    obtain ⟨k, hk⟩ := List.mem_iff_getElem?.mp hth
    cases th with
    | idle => rfl
    | busy call tested p =>
        obtain ⟨next, hclient⟩ := h.follows.calls k call tested p hk
        have hlt : k < 2 := h.length ▸ (List.getElem?_eq_some_iff.mp hclient).1
        cases (hdone k hlt).symm.trans hclient
  obtain ⟨ptrs, live, y, hphase, hperm, -, hy⟩ := h.quiet hquiet
  have hempty : ∀ j < 2, ptrs j = [] := by
    intro j hj
    rcases (hphase j _ (hdone j hj)).cases with ⟨-, hnil⟩ | ⟨next, heq, -⟩ | ⟨p, rest, next, heq, -⟩
    · exact hnil
    · cases heq
    · cases heq
  rw [together, hempty 0 (by decide), hempty 1 (by decide)] at hperm
  obtain rfl := hperm.eq_nil
  have hsum : ((share (l.set 0 y)).data.map fun a => a.used).sum = 0 := by
    refine List.sum_eq_zero fun u hu => ?_
    obtain ⟨a, ha, rfl⟩ := List.mem_map.mp hu
    obtain ⟨s, hs, rfl⟩ := List.mem_map.mp ha
    rcases List.mem_or_eq_of_mem_set hs with hs | rfl
    · exact hused s hs
    · exact hy.part.used
  rw [hy.shared]
  exact (getUsedSize_eq (by rw [hsum]; decide)).trans hsum

include hl hnonnull hsmall hroom hfirst

/-- Scheduled alone, a thread comes to its end. -/
theorem Sound.finish (j : Nat) (client : Client PoolsCall PoolsAnswer) :
    ∀ {S : Clients PoolsCall Nat (List PoolAllocator) Stuck PoolsAnswer},
      Sound l cfg chunksNum c n rand malloc S → S.object.Quiet → S.clients[j]? = some client →
      ∃ schedule S', Runs.exec (Clients.step (code l.length)) S schedule = .ok S' ∧
        Sound l cfg chunksNum c n rand malloc S' ∧ S'.object.Quiet ∧
        S'.clients = S.clients.set j .done := by
  induction client with
  | done =>
      intro S h hquiet hclient
      obtain ⟨hlt, hget⟩ := List.getElem?_eq_some_iff.mp hclient
      exact ⟨[], S, rfl, h, hquiet, by rw [← hget, List.set_getElem_self]⟩
  | undefined =>
      intro S h hquiet hclient
      obtain ⟨ptrs, -, -, hphase, -⟩ := h.quiet hquiet
      rcases (hphase j _ hclient).cases with ⟨heq, -⟩ | ⟨next, heq, -⟩ | ⟨p, rest, next, heq, -⟩ <;>
        cases heq
  | invoke call next ih =>
      intro S h hquiet hclient
      obtain ⟨ptrs, live, y, hphase, hperm, hsettled, hy⟩ := h.quiet hquiet
      obtain ⟨hof, ⟨a, u, hrun⟩, -⟩ :=
        next_call hl hnonnull hsmall hroom h.length hphase hperm hsettled hy hclient
      obtain ⟨T, choices, -, hagree⟩ := h.sim
      rw [← (agrees_code hfirst hl hof).run hagree.data] at hrun
      have hidle : S.object.threads[j]? = some .idle := by
        have hlt : j < S.object.threads.length :=
          h.follows.length ▸ (List.getElem?_eq_some_iff.mp hclient).1
        rw [List.getElem?_eq_getElem hlt, hquiet _ (List.getElem_mem hlt)]
      obtain ⟨k, hk⟩ := Clients.alone_call hclient hidle hrun
      have hsound := Runs.exec_keeps (Sound l cfg chunksNum c n rand malloc)
        (fun _ _ _ h hstep => h.step hl hnonnull hsmall hroom hfirst hstep) h hk
      obtain ⟨hlt, -⟩ := List.getElem?_eq_some_iff.mp hclient
      obtain ⟨schedule, S', hschedule, h', hquiet', hclients⟩ :=
        ih a hsound hquiet (List.getElem?_set_self hlt)
      refine ⟨List.replicate k j ++ schedule, S', ?_, h', hquiet', ?_⟩
      · rw [Runs.exec_append hk, hschedule]
      · rw [hclients, List.set_set]

omit hnonnull hsmall hroom hl hfirst

/-- Before the first call. -/
theorem sound_start {first : PoolAllocator} (hget : l[0]? = some first)
    (hpart : Partition c.1 chunksNum c.2 [] first) (hunheld : first.held = false)
    (hdata : AllConfined chunksNum cfg (share l).data) :
    Sound l cfg chunksNum c n rand malloc (startThreads n rand malloc l) := by
  refine ⟨Clients.follows_start _ _, rfl, ⟨_, [], rfl, Threads.agree_start hdata 2⟩,
    fun _ => [], [], fun j client hclient => Or.inl ⟨n, ?_, ?_⟩, .refl _,
    settled_nil hget hpart hunheld⟩
  · rw [List.length_nil, Nat.zero_add]
  · rcases j with _ | _ | j
    · exact (Option.some.inj hclient).symm
    · exact (Option.some.inj hclient).symm
    · cases hclient

end Threads

/-- **The test passes** under `ENABLE_SPIN_LOCK` if no request is larger than
the chunks of the first pool: a schedule gets both threads to the end, and
under none that does is anything left in use. -/
theorem multiThreadTest_passes {arena : Nat} {table : List Nat} {rest : List (Nat × List Nat)}
    (hlen : rest.length + 1 = chunkSizes.length)
    (htables : ∀ m ∈ (arena, table) :: rest, m.2.length = sMaxChunksNum)
    (hnonnull : arena ≠ nullptr) (malloc : Nat → Nat → Nat) {rand : Nat → Nat → Nat}
    (hsmall : largeRequests (sMaxChunksNum / 2) 64 (rand 0) +
      largeRequests (sMaxChunksNum / 2) 64 (rand 1) = 0) :
    (∃ schedule, runMultiThreadTest .enableSpinLock ((arena, table) :: rest) malloc rand schedule
        = .ok (some true)) ∧
      ∀ schedule, runMultiThreadTest .enableSpinLock ((arena, table) :: rest) malloc rand schedule
        ≠ .ok (some false) := by
  obtain ⟨first, l, hloop, hpart, hunheld, hlenl, hused, hdata⟩ := init_pools hlen htables
  have hfit : ∀ j < 2, ∀ k < sMaxChunksNum / 2, randomSize (rand j) k ≤ 64 := by
    intro j hj k hk
    have hnone : largeRequests (sMaxChunksNum / 2) 64 (rand j) = 0 := by
      rcases j with _ | _ | j
      · exact (Nat.add_eq_zero_iff.mp hsmall).1
      · exact (Nat.add_eq_zero_iff.mp hsmall).2
      · omega
    simpa using List.countP_eq_zero.mp hnone k (List.mem_range.mpr hk)
  have hpos : 0 < (first :: l).length := Nat.succ_pos _
  have hstart : Sound (first :: l) ((arena, 64) :: later rest) sMaxChunksNum (arena, 64)
      (sMaxChunksNum / 2) rand malloc (startThreads (sMaxChunksNum / 2) rand malloc (first :: l)) :=
    sound_start rfl hpart hunheld hdata
  have hrun : ∀ schedule, runMultiThreadTest .enableSpinLock ((arena, table) :: rest) malloc rand
      schedule = (joinThreads (sMaxChunksNum / 2) rand malloc (first :: l) schedule).map some := by
    intro schedule
    rw [runMultiThreadTest, PoolAllocators.construct, hloop]
    show joinThreads _ rand malloc _ schedule >>= _ = _
    cases joinThreads (sMaxChunksNum / 2) rand malloc (first :: l) schedule <;> rfl
  have hjoin : ∀ {schedule S}, Runs.exec (Clients.step (code (first :: l).length))
      (startThreads (sMaxChunksNum / 2) rand malloc (first :: l)) schedule = .ok S →
      joinThreads (sMaxChunksNum / 2) rand malloc (first :: l) schedule =
        if S.clients.all Client.finished then .ok true else .error .running := by
    intro schedule S hS
    have hsound := Runs.exec_keeps (Sound (first :: l) ((arena, 64) :: later rest) sMaxChunksNum
      (arena, 64) (sMaxChunksNum / 2) rand malloc)
      (fun _ _ _ h hstep => h.step hpos hnonnull hfit (by decide) rfl hstep) hstart hS
    rw [joinThreads, hS]
    simp only [Except.mapError, ok_bind]
    split
    · rename_i hjoined
      rw [hsound.usedSize hused hjoined]
      rfl
    · rfl
  constructor
  · obtain ⟨schedule₀, S₀, hS₀, h₀, hquiet₀, hclients₀⟩ :=
      Sound.finish hpos hnonnull hfit (by decide) rfl 0 _ hstart
        (fun th hth => List.eq_of_mem_replicate hth) rfl
    obtain ⟨schedule₁, S₁, hS₁, -, -, hclients₁⟩ :=
      Sound.finish hpos hnonnull hfit (by decide) rfl 1
        (threadFunc (sMaxChunksNum / 2) (rand 1) (malloc 1)) h₀ hquiet₀ (by rw [hclients₀]; rfl)
    refine ⟨schedule₀ ++ schedule₁, ?_⟩
    rw [hrun, hjoin ((Runs.exec_append hS₀).trans hS₁), hclients₁, hclients₀]
    rfl
  · intro schedule hfalse
    rw [hrun] at hfalse
    cases hS : Runs.exec (Clients.step (code (first :: l).length))
        (startThreads (sMaxChunksNum / 2) rand malloc (first :: l)) schedule with
    | error e =>
        rw [joinThreads, hS] at hfalse
        cases hfalse
    | ok S =>
        rw [hjoin hS] at hfalse
        split at hfalse
        · cases hfalse
        · cases hfalse

/-- Requests of 60 bytes. -/
theorem multiThreadTest_passes_spaced :
    (∃ schedule, runMultiThreadTest .enableSpinLock FrontSession.spacedMallocs
        (fun _ _ => nullptr) (fun _ _ => 59) schedule = .ok (some true)) ∧
      ∀ schedule, runMultiThreadTest .enableSpinLock FrontSession.spacedMallocs
        (fun _ _ => nullptr) (fun _ _ => 59) schedule ≠ .ok (some false) := by
  have hcons : FrontSession.spacedMallocs =
      (10000000, List.replicate sMaxChunksNum 0) :: FrontSession.spacedMallocs.tail := rfl
  have hsmall : largeRequests (sMaxChunksNum / 2) 64 (fun _ => 59) = 0 := by
    have hsize : ∀ k, randomSize (fun _ => 59) k = 60 := fun _ =>
      show 59 % sMaxChunkSize + 1 = 60 by decide
    simp [largeRequests, hsize]
  rw [hcons]
  exact multiThreadTest_passes (by decide) FrontSession.spacedMallocs_table (by decide) _
    (by rw [hsmall])

end MultiThreadTest

end MemAlloc
