import MemAlloc.Interleaving

/-!
# Clients

A library for threads that run a program of calls. `Client` is such a
program: the calls it makes one after the other, each depending on the
answers so far. `Clients.step` lets one thread begin its next call, or make
one access of the call it is in.

Every run of clients is a run of `Threads`, and the log of each thread is a
run of its client (`exec_follows`). What the answers are good for, whatever
the other threads do, is shown with `Prog.Ensures`: an invariant of the
data that every write keeps, and a postcondition for each call.
-/

namespace MemAlloc

/-- The calls a thread still makes. -/
inductive Client (κ α : Type) where
  | done
  | undefined
  | invoke (call : κ) (next : α → Client κ α)

namespace Client

variable {κ α : Type} {call : κ} {next : α → Client κ α} {a : α}

def finished : Client κ α → Bool
  | done => true
  | _ => false

theorem eq_done_of_finished {c : Client κ α} (h : c.finished = true) : c = done := by
  cases c with
  | done => rfl
  | _ => cases h

/-- Told these answers to these calls, the client still does what the first
argument says. -/
def Told (rest : Client κ α) : List (κ × α) → Client κ α → Prop
  | [], c => c = rest
  | (call', a) :: es, invoke call next => call' = call ∧ Told rest es (next a)
  | _ :: _, _ => False

theorem told_cons {rest : Client κ α} {e : κ × α} {es : List (κ × α)} :
    Told rest (e :: es) (invoke call next) ↔ e.1 = call ∧ Told rest es (next e.2) := Iff.rfl

theorem Told.snoc : ∀ {es : List (κ × α)} {c : Client κ α}, Told (invoke call next) es c →
    Told (next a) (es ++ [(call, a)]) c
  | [], _, h => by
      obtain rfl := h
      exact ⟨rfl, rfl⟩
  | _ :: _, invoke _ _, h => ⟨h.1, Told.snoc h.2⟩

end Client

/-- The shared object with the threads, and what each thread still does. -/
structure Clients (κ ι σ ε α : Type) where
  object : Threads κ ι σ ε α
  clients : List (Client κ α)

namespace Clients

variable {κ ι σ ε α : Type}

/-- All threads before their first call. -/
def start (s : Shared ι σ) (clients : List (Client κ α)) : Clients κ ι σ ε α :=
  ⟨Threads.start s clients.length, clients⟩

/-- Thread `j` has moved; after the last access of its call the client goes
on, with nothing but the `return` in between. -/
def tell (S : Clients κ ι σ ε α) (j : Nat) (next : α → Client κ α) (object : Threads κ ι σ ε α) :
    Clients κ ι σ ε α :=
  match object.log.drop S.object.log.length with
  | [] => { S with object }
  | (_, _, a) :: _ => ⟨object, S.clients.set j (next a)⟩

/-- One step of thread `j`. -/
def step [DecidableEq ι] (prog : κ → Prog ι σ ε α) (S : Clients κ ι σ ε α) (j : Nat) :
    Except Immobile (Clients κ ι σ ε α) :=
  match S.clients[j]? with
  | none | some .done => .error .noThread
  | some .undefined => .error .undefined
  | some (.invoke call next) =>
      match Threads.step prog S.object (j, call) with
      | .ok object => .ok (S.tell j next object)
      | .error e => .error e

/-- The calls of one thread in a log. -/
def entriesOf (j : Nat) (log : List (Nat × κ × α)) : List (κ × α) :=
  (log.filter (·.1 = j)).map Prod.snd

theorem entriesOf_cons (j : Nat) (e : Nat × κ × α) (log : List (Nat × κ × α)) :
    entriesOf j (e :: log) = if e.1 = j then e.2 :: entriesOf j log else entriesOf j log := by
  rw [entriesOf, List.filter_cons]
  split <;> simp_all [entriesOf]

theorem entriesOf_snoc (j : Nat) (log : List (Nat × κ × α)) (e : Nat × κ × α) :
    entriesOf j (log ++ [e]) = entriesOf j log ++ if e.1 = j then [e.2] else [] := by
  rw [entriesOf, entriesOf, List.filter_append, List.map_append]
  split <;> simp [*]

/-- The invariant: each client has been told the answers in the log, and a
thread in a call is in the one its client makes. -/
structure Follows (clients : List (Client κ α)) (S : Clients κ ι σ ε α) : Prop where
  length : S.object.threads.length = S.clients.length
  told : ∀ (j : Nat) (c₀ c : Client κ α), clients[j]? = some c₀ → S.clients[j]? = some c →
    c.Told (entriesOf j S.object.log) c₀
  calls : ∀ (j : Nat) (call : κ) (tested : Bool) (p : Prog ι σ ε α),
    S.object.threads[j]? = some (.busy call tested p) →
      ∃ next, S.clients[j]? = some (.invoke call next)

variable {prog : κ → Prog ι σ ε α} {S S' : Clients κ ι σ ε α} {clients : List (Client κ α)}
  {j : Nat} {call : κ} {next : α → Client κ α}

theorem follows_start (s : Shared ι σ) (clients : List (Client κ α)) :
    Follows clients (start s clients : Clients κ ι σ ε α) where
  length := List.length_replicate
  told j c₀ c h₀ h := Option.some.inj (h₀.symm.trans h)
  calls j call tested p hbusy := by
    obtain ⟨hlt, heq⟩ := List.getElem?_eq_some_iff.mp hbusy
    simp [start, Threads.start] at heq

theorem tell_ret (S : Clients κ ι σ ε α) (j : Nat) (next : α → Client κ α) (u : Shared ι σ)
    (call : κ) (tested : Bool) (a : α) :
    S.tell j next ({ S.object with shared := u }.settle j call tested (.ret a)) =
      ⟨{ S.object with
          shared := u
          threads := S.object.threads.set j .idle
          log := S.object.log ++ [(j, call, a)] }, S.clients.set j (next a)⟩ := by
  simp [tell, Threads.settle]

theorem tell_busy (S : Clients κ ι σ ε α) (j : Nat) (next : α → Client κ α) (u : Shared ι σ)
    (call : κ) (tested : Bool) {p : Prog ι σ ε α} (hne : ∀ a, p ≠ .ret a) :
    S.tell j next ({ S.object with shared := u }.settle j call tested p) =
      ⟨{ S.object with
          shared := u
          threads := S.object.threads.set j (.busy call tested p) }, S.clients⟩ := by
  rcases Threads.settle_cases { S.object with shared := u } j call tested p with
    ⟨a, rfl, -⟩ | ⟨-, heq⟩
  · exact absurd rfl (hne a)
  · simp [tell, heq]

/-- A thread at its client's next call goes on, or the call is done. -/
theorem Follows.settle (h : Follows clients S) (hclient : S.clients[j]? = some (.invoke call next))
    (u : Shared ι σ) (tested : Bool) (p : Prog ι σ ε α) :
    Follows clients (S.tell j next ({ S.object with shared := u }.settle j call tested p)) := by
  obtain ⟨hj, hget⟩ := List.getElem?_eq_some_iff.mp hclient
  rcases Threads.settle_cases { S.object with shared := u } j call tested p with
    ⟨a, rfl, -⟩ | ⟨hne, -⟩
  · rw [tell_ret]
    refine ⟨?_, fun k c₀ c h₀ hc => ?_, fun k call' tested' p' hbusy => ?_⟩
    · rw [List.length_set, List.length_set, h.length]
    · rw [entriesOf_snoc]
      by_cases hk : j = k
      · subst hk
        obtain rfl : next a = c := by simpa [hj] using hc
        rw [if_pos rfl]
        exact (h.told j c₀ _ h₀ hclient).snoc
      · rw [if_neg hk, List.append_nil]
        exact h.told k c₀ c h₀ (by rwa [List.getElem?_set_ne hk] at hc)
    · by_cases hk : j = k
      · subst hk
        obtain ⟨hlt, hidle⟩ := List.getElem?_eq_some_iff.mp hbusy
        simp at hidle
      · rw [List.getElem?_set_ne hk] at hbusy ⊢
        exact h.calls k call' tested' p' hbusy
  · rw [tell_busy S j next u call tested hne]
    refine ⟨(List.length_set ..).trans h.length, h.told, fun k call' tested' p' hbusy => ?_⟩
    by_cases hk : j = k
    · subst hk
      obtain ⟨hlt, heq'⟩ := List.getElem?_eq_some_iff.mp hbusy
      simp only [List.getElem_set_self] at heq'
      cases heq'
      exact ⟨next, hclient⟩
    · rw [List.getElem?_set_ne hk] at hbusy
      exact h.calls k call' tested' p' hbusy

@[simp] theorem tell_object (S : Clients κ ι σ ε α) (j : Nat) (next : α → Client κ α)
    (object : Threads κ ι σ ε α) : (S.tell j next object).object = object := by
  unfold tell
  split <;> rfl

theorem length_tell (S : Clients κ ι σ ε α) (j : Nat) (next : α → Client κ α)
    (object : Threads κ ι σ ε α) : (S.tell j next object).clients.length = S.clients.length := by
  unfold tell
  split
  · rfl
  · exact List.length_set ..

variable [DecidableEq ι]

/-- A thread moves in the call its client makes. -/
theorem step_cases (h : step prog S j = .ok S') :
    ∃ call next object, S.clients[j]? = some (.invoke call next) ∧
      Threads.step prog S.object (j, call) = .ok object ∧ S' = S.tell j next object := by
  unfold step at h
  split at h
  · cases h
  · cases h
  · cases h
  · rename_i call next hclient
    split at h
    · rename_i object hstep
      exact ⟨call, next, object, hclient, hstep, (Except.ok.inj h).symm⟩
    · cases h

/-- **Step lemma.** -/
theorem Follows.step (h : Follows clients S) (hstep : Clients.step prog S j = .ok S') :
    Follows clients S' := by
  obtain ⟨call, next, object, hclient, hobject, rfl⟩ := step_cases hstep
  rcases Threads.step_cases hobject with
    ⟨-, rfl⟩ | ⟨call', tested, p, u, tested', p', hbusy, -, rfl⟩
  · exact h.settle hclient S.object.shared false (prog call)
  · obtain ⟨next', hclient'⟩ := h.calls j call' tested p hbusy
    cases hclient.symm.trans hclient'
    exact h.settle hclient u tested' p'

/-- **A run of clients** is a run of the threads in which every thread
follows its client. -/
theorem exec_follows {s : Shared ι σ} {schedule : List Nat}
    (hrun : Runs.exec (step prog) (start s clients) schedule = .ok S) :
    Follows clients S ∧ S.clients.length = clients.length ∧
      ∃ choices, Runs.exec (Threads.step prog) (Threads.start s clients.length) choices
        = .ok S.object := by
  refine Runs.exec_keeps (fun S => Follows clients S ∧ S.clients.length = clients.length ∧
    ∃ choices, Runs.exec (Threads.step prog) (Threads.start s clients.length) choices
      = .ok S.object) ?_ ⟨follows_start s clients, rfl, [], rfl⟩ hrun
  rintro S j S' ⟨h, hlen, choices, hchoices⟩ hstep
  refine ⟨h.step hstep, ?_⟩
  obtain ⟨call, next, object, -, hobject, rfl⟩ := step_cases hstep
  refine ⟨(length_tell S j next object).trans hlen, choices ++ [(j, call)], ?_⟩
  rw [Runs.exec_append hchoices, Runs.exec_cons_ok hobject, tell_object]
  rfl

/-- The call goes on, or is done and the client has its answer. -/
theorem Follows.tell_cases (h : Follows clients S)
    (hclient : S.clients[j]? = some (.invoke call next)) {object : Threads κ ι σ ε α}
    (hobject : Threads.step prog S.object (j, call) = .ok object) :
    object.log = S.object.log ∧ (S.tell j next object).clients = S.clients ∨
      ∃ a, object.log = S.object.log ++ [(j, call, a)] ∧
        (S.tell j next object).clients = S.clients.set j (next a) := by
  have hsettle : ∀ (u : Shared ι σ) (tested : Bool) (p : Prog ι σ ε α),
      object = { S.object with shared := u }.settle j call tested p →
      object.log = S.object.log ∧ (S.tell j next object).clients = S.clients ∨
        ∃ a, object.log = S.object.log ++ [(j, call, a)] ∧
          (S.tell j next object).clients = S.clients.set j (next a) := by
    rintro u tested p rfl
    rcases Threads.settle_cases { S.object with shared := u } j call tested p with
      ⟨a, rfl, heq⟩ | ⟨hne, heq⟩
    · exact Or.inr ⟨a, by rw [heq], by rw [tell_ret]⟩
    · exact Or.inl ⟨by rw [heq], by rw [tell_busy S j next u call tested hne]⟩
  rcases Threads.step_cases hobject with
    ⟨-, heq⟩ | ⟨call', tested, p, u, tested', p', hbusy, -, heq⟩
  · exact hsettle S.object.shared false (prog call) heq
  · obtain ⟨next', hclient'⟩ := h.calls j call' tested p hbusy
    cases hclient.symm.trans hclient'
    exact hsettle u tested' p' heq

/-! ## One client alone -/

/-- A thread in the middle of its call makes one access. -/
theorem step_busy (hclient : S.clients[j]? = some (.invoke call next))
    (hj : j < S.object.threads.length) {u u' : Shared ι σ} {tested tested' : Bool}
    {p p' : Prog ι σ ε α} (haccess : p.access u tested = some (u', tested', p')) :
    step prog (S.tell j next ({ S.object with shared := u }.settle j call tested p)) j =
      .ok (S.tell j next ({ S.object with shared := u' }.settle j call tested' p')) := by
  have hne : ∀ a, p ≠ .ret a := by
    rintro a rfl
    cases haccess
  rw [tell_busy S j next u call tested hne]
  have hbusy : (S.object.threads.set j (.busy call tested p))[j]? = some (.busy call tested p) :=
    List.getElem?_set_self hj
  have hstep : Threads.step prog { S.object with
      shared := u
      threads := S.object.threads.set j (.busy call tested p) } (j, call) = .ok _ :=
    Threads.step_busy hbusy haccess call
  simp only [step, hclient, hstep]
  -- the thread's entry is overwritten
  rcases Threads.settle_cases { S.object with shared := u' } j call tested' p' with
    ⟨a, rfl, -⟩ | ⟨hne', heq⟩
  · simp [tell, Threads.settle]
  · rw [tell_busy S j next u' call tested' hne']
    rcases Threads.settle_cases { S.object with
      shared := u'
      threads := S.object.threads.set j (.busy call tested p) } j call tested' p' with
        ⟨a, rfl, -⟩ | ⟨-, heq'⟩
    · exact absurd rfl (hne' a)
    · simp [tell, heq']

/-- A thread scheduled alone ends its call as the program does. -/
theorem exec_settle {spins : ε} {a : α} {u' : Shared ι σ} (prog : κ → Prog ι σ ε α)
    (hclient : S.clients[j]? = some (.invoke call next)) (hj : j < S.object.threads.length)
    (p : Prog ι σ ε α) : ∀ {u : Shared ι σ}, p.run spins u = .ok (a, u') →
      ∃ k, Runs.exec (step prog)
          (S.tell j next ({ S.object with shared := u }.settle j call false p))
          (List.replicate k j) =
        .ok (S.tell j next ({ S.object with shared := u' }.settle j call false (.ret a))) := by
  have hmore : ∀ {u v : Shared ι σ} {tested tested' : Bool} {p q : Prog ι σ ε α} {T},
      p.access u tested = some (v, tested', q) →
      (∃ k, Runs.exec (step prog)
        (S.tell j next ({ S.object with shared := v }.settle j call tested' q))
        (List.replicate k j) = .ok T) →
      ∃ k, Runs.exec (step prog)
        (S.tell j next ({ S.object with shared := u }.settle j call tested p))
        (List.replicate k j) = .ok T := by
    rintro u v tested tested' p q T haccess ⟨k, hk⟩
    exact ⟨k + 1, by rw [List.replicate_succ, Runs.exec_cons_ok (step_busy hclient hj haccess), hk]⟩
  induction p with
  | ret b =>
      intro u hrun
      obtain ⟨rfl, rfl⟩ := Prod.mk.inj (Except.ok.inj hrun)
      exact ⟨0, rfl⟩
  | fail e =>
      intro u hrun
      cases hrun
  | read r ih =>
      intro u hrun
      exact hmore rfl (ih u.data hrun)
  | write f p ih =>
      intro u hrun
      cases hf : f u.data with
      | error e => simp [Prog.run, hf] at hrun
      | ok d =>
          simp only [Prog.run, hf] at hrun
          exact hmore (by rw [Prog.access, hf]) (ih hrun)
  | lock i p ih =>
      intro u hrun
      cases hflag : u.flag i with
      | true => simp [Prog.run, hflag] at hrun
      | false =>
          simp only [Prog.run, hflag, Bool.false_eq_true, if_false] at hrun
          have hload : (Prog.lock i p).access u false = some (u, true, .lock i p) := by
            rw [Prog.access, if_neg (by decide), hflag]
            rfl
          have hexchange : (Prog.lock i p).access u true
              = some (u.setFlag i true, false, p) := by
            rw [Prog.access, if_pos rfl, hflag]
            rfl
          exact hmore hload (hmore hexchange (ih hrun))
  | unlock i p ih =>
      intro u hrun
      exact hmore rfl (ih hrun)

/-- A call made while the others wait. -/
theorem alone_call {spins : ε} {a : α} {u : Shared ι σ}
    (hclient : S.clients[j]? = some (.invoke call next))
    (hidle : S.object.threads[j]? = some .idle)
    (hrun : (prog call).run spins S.object.shared = .ok (a, u)) :
    ∃ k, Runs.exec (step prog) S (List.replicate k j) =
      .ok ⟨⟨u, S.object.threads, S.object.log ++ [(j, call, a)]⟩, S.clients.set j (next a)⟩ := by
  obtain ⟨hj, hget⟩ := List.getElem?_eq_some_iff.mp hidle
  obtain ⟨k, hk⟩ := exec_settle prog hclient hj (prog call) hrun
  refine ⟨k + 1, ?_⟩
  have hfirst : step prog S j = .ok (S.tell j next (S.object.settle j call false (prog call))) := by
    simp only [step, hclient, Threads.step_idle hidle call]
  rw [List.replicate_succ, Runs.exec_cons_ok hfirst, hk, tell_ret, ← hget, List.set_getElem_self]

end Clients

/-! ## What answers are good for -/

namespace Prog

variable {ι σ ε α β : Type}

/-- As long as the data satisfy the invariant, each write keeps it and the
answer satisfies the postcondition. -/
def Ensures (inv : σ → Prop) (post : α → Prop) : Prog ι σ ε α → Prop
  | ret a => post a
  | fail _ => True
  | read k => ∀ d, inv d → (k d).Ensures inv post
  | write f p => (∀ d d', inv d → f d = .ok d' → inv d') ∧ p.Ensures inv post
  | lock _ p | unlock _ p => p.Ensures inv post

variable {inv : σ → Prop} {mid : α → Prop} {post : β → Prop} {p : Prog ι σ ε α}
  {k : α → Prog ι σ ε β}

theorem Ensures.bind (hp : p.Ensures inv mid) (hk : ∀ a, mid a → (k a).Ensures inv post) :
    (p >>= k).Ensures inv post := by
  induction p with
  | ret a => exact hk a hp
  | fail e => trivial
  | read r ih => exact fun d hd => ih d (hp d hd)
  | write f p ih => exact ⟨hp.1, ih hp.2⟩
  | lock i p ih => exact ih hp
  | unlock i p ih => exact ih hp

theorem Ensures.mono {post' : α → Prop} (hp : p.Ensures inv mid) (h : ∀ a, mid a → post' a) :
    p.Ensures inv post' := by
  induction p with
  | ret a => exact h a hp
  | fail e => trivial
  | read r ih => exact fun d hd => ih d (hp d hd)
  | write f p ih => exact ⟨hp.1, ih hp.2⟩
  | lock i p ih => exact ih hp
  | unlock i p ih => exact ih hp

theorem ensures_get {f : σ → Except ε α} (h : ∀ d a, inv d → f d = .ok a → mid a) :
    (get f : Prog ι σ ε α).Ensures inv mid := by
  intro d hd
  dsimp only
  split
  · exact h d _ hd ‹_›
  · trivial

theorem ensures_modify {f : σ → Except ε σ} (h : ∀ d d', inv d → f d = .ok d' → inv d') :
    (modify f : Prog ι σ ε Unit).Ensures inv fun _ => True := ⟨h, trivial⟩

theorem ensures_acquire (i : ι) : (acquire i : Prog ι σ ε Unit).Ensures inv fun _ => True := trivial

theorem ensures_release (i : ι) : (release i : Prog ι σ ε Unit).Ensures inv fun _ => True := trivial

end Prog

namespace Threads

variable {κ ι σ ε α : Type} {prog : κ → Prog ι σ ε α} {inv : σ → Prop} {post : κ → α → Prop}
  {S S' : Threads κ ι σ ε α}

/-- The invariant of the data, and for each call what it ensures. -/
structure Guaranteed (inv : σ → Prop) (post : κ → α → Prop) (S : Threads κ ι σ ε α) : Prop where
  data : inv S.shared.data
  busy : ∀ (j : Nat) (call : κ) (tested : Bool) (p : Prog ι σ ε α),
    S.threads[j]? = some (.busy call tested p) → p.Ensures inv (post call)
  log : ∀ e ∈ S.log, post e.2.1 e.2.2

theorem Guaranteed.settle (h : Guaranteed inv post S) {u : Shared ι σ} (hu : inv u.data) (j : Nat)
    {call : κ} (tested : Bool) {p : Prog ι σ ε α} (hp : p.Ensures inv (post call)) :
    Guaranteed inv post ({ S with shared := u }.settle j call tested p) := by
  have hothers : ∀ {th : Thread κ ι σ ε α} {k : Nat} {call' tested' p'}, j ≠ k →
      (S.threads.set j th)[k]? = some (.busy call' tested' p') →
      p'.Ensures inv (post call') := fun hne hbusy => by
    rw [List.getElem?_set_ne hne] at hbusy
    exact h.busy _ _ _ _ hbusy
  rcases settle_cases { S with shared := u } j call tested p with ⟨a, rfl, heq⟩ | ⟨-, heq⟩
  · rw [heq]
    refine ⟨hu, fun k call' tested' p' hbusy => ?_, fun e he => ?_⟩
    · by_cases hk : j = k
      · subst hk
        obtain ⟨hlt, hidle⟩ := List.getElem?_eq_some_iff.mp hbusy
        simp at hidle
      · exact hothers hk hbusy
    · rcases List.mem_append.mp he with he | he
      · exact h.log e he
      · obtain rfl := List.mem_singleton.mp he
        exact hp
  · rw [heq]
    refine ⟨hu, fun k call' tested' p' hbusy => ?_, h.log⟩
    by_cases hk : j = k
    · subst hk
      obtain ⟨hlt, heq'⟩ := List.getElem?_eq_some_iff.mp hbusy
      simp only [List.getElem_set_self] at heq'
      cases heq'
      exact hp
    · exact hothers hk hbusy

variable [DecidableEq ι]

/-- Whichever thread moves, the guarantees stay. -/
theorem Guaranteed.step (hprog : ∀ call, (prog call).Ensures inv (post call))
    (h : Guaranteed inv post S) {choice : Nat × κ} (hstep : Threads.step prog S choice = .ok S') :
    Guaranteed inv post S' := by
  rcases step_cases hstep with ⟨-, rfl⟩ | ⟨call, tested, p, u, tested', p', hbusy, haccess, rfl⟩
  · exact h.settle (u := S.shared) h.data choice.1 false (hprog choice.2)
  have hp := h.busy _ _ _ _ hbusy
  cases p with
  | ret a => cases haccess
  | fail e => cases haccess
  | read k =>
      cases haccess
      exact h.settle h.data choice.1 _ (hp _ h.data)
  | write f p =>
      cases hf : f S.shared.data with
      | error e => simp [Prog.access, hf] at haccess
      | ok d =>
          simp only [Prog.access, hf] at haccess
          cases haccess
          exact h.settle (hp.1 _ _ h.data hf) choice.1 _ hp.2
  | lock i p =>
      cases tested with
      | false =>
          simp only [Prog.access, Bool.false_eq_true, if_false] at haccess
          cases haccess
          exact h.settle h.data choice.1 _ hp
      | true =>
          simp only [Prog.access, if_true] at haccess
          cases haccess
          refine h.settle (u := S.shared.setFlag i true) h.data choice.1 _ ?_
          split
          · exact hp
          · exact hp
  | unlock i p =>
      cases haccess
      exact h.settle (u := S.shared.setFlag i false) h.data choice.1 _ hp

/-- **Whatever the others do**, each answer in the log satisfies the
postcondition of its call. -/
theorem exec_ensures (hprog : ∀ call, (prog call).Ensures inv (post call)) {s : Shared ι σ}
    (hs : inv s.data) {n : Nat} {choices : List (Nat × κ)}
    (hrun : Runs.exec (Threads.step prog) (start s n) choices = .ok S) :
    ∀ e ∈ S.log, post e.2.1 e.2.2 := by
  have hstart : Guaranteed inv post (start s n : Threads κ ι σ ε α) := by
    refine ⟨hs, fun j call tested p hbusy => ?_, nofun⟩
    obtain ⟨hlt, heq⟩ := List.getElem?_eq_some_iff.mp hbusy
    simp [start] at heq
  exact (Runs.exec_keeps (Guaranteed inv post) (fun _ _ _ h hstep => h.step hprog hstep) hstart
    hrun).log

end Threads

end MemAlloc
