import Mathlib.Data.List.Basic
import Mathlib.Logic.Function.Basic
import MemAlloc.Runs

/-!
# Programs that share data under locks

A library for objects whose calls take spin locks. `Prog` is the code of a
call, cut at its accesses to the shared data and to the locks; `run` is
what it does when nobody else moves, `Threads.step` one access of one of
any number of threads. `lock` is a load followed by an exchange, repeated
until both saw the lock free.

`Reads` and `Does` say what a program without locks answers and does to the
data; their `bind` rules follow a program. `Threads.alone_call` is the link between the two
meanings: a thread scheduled alone makes its call as `run` does. What holds
of every schedule is in `Linearizability` and `AbandonedLock`.

A call may return without unlocking (an early `return`): nothing here
assumes that locks are given back.

The order of the log is that of the last accesses. When a thread executes the
`return` that follows is not in the model, and no one else can tell: of two
calls the one whose last access is later may be the first to return.
-/

namespace MemAlloc

/-- The shared data and, for each lock, whether it is taken. -/
@[ext] structure Shared (ι σ : Type) where
  data : σ
  flag : ι → Bool

namespace Shared

variable {ι σ : Type} [DecidableEq ι]

def setFlag (s : Shared ι σ) (i : ι) (b : Bool) : Shared ι σ :=
  { s with flag := Function.update s.flag i b }

@[simp] theorem setFlag_data (s : Shared ι σ) (i : ι) (b : Bool) :
    (s.setFlag i b).data = s.data := rfl

@[simp] theorem setFlag_self (s : Shared ι σ) (i : ι) (b : Bool) :
    (s.setFlag i b).flag i = b := Function.update_self ..

theorem setFlag_of_ne (s : Shared ι σ) {i j : ι} (h : j ≠ i) (b : Bool) :
    (s.setFlag i b).flag j = s.flag j := Function.update_of_ne h ..

/-- The last store counts, whatever happened to the data in between. -/
theorem setFlag_data_setFlag (s : Shared ι σ) (i : ι) (b c : Bool) (d : σ) :
    { s.setFlag i b with data := d }.setFlag i c = { s with data := d }.setFlag i c :=
  Shared.ext rfl (Function.update_idem ..)

/-- Storing what is there. -/
theorem setFlag_eq_self {s : Shared ι σ} {i : ι} {b : Bool} (h : s.flag i = b) :
    s.setFlag i b = s := by
  subst h
  exact Shared.ext rfl (Function.update_eq_self ..)

end Shared

/-- The code of a call. A read goes on with what it saw, a write may fail
(it is undefined behaviour), an access to a lock does nothing else. -/
inductive Prog (ι σ ε α : Type) where
  | ret (a : α)
  | fail (e : ε)
  | read (k : σ → Prog ι σ ε α)
  | write (f : σ → Except ε σ) (k : Prog ι σ ε α)
  | lock (i : ι) (k : Prog ι σ ε α)
  | unlock (i : ι) (k : Prog ι σ ε α)

namespace Prog

variable {ι σ ε α β : Type}

protected def bind : Prog ι σ ε α → (α → Prog ι σ ε β) → Prog ι σ ε β
  | ret a, k => k a
  | fail e, _ => fail e
  | read r, k => read fun d => (r d).bind k
  | write f p, k => write f (p.bind k)
  | lock i p, k => lock i (p.bind k)
  | unlock i p, k => unlock i (p.bind k)

instance : Monad (Prog ι σ ε) where
  pure := ret
  bind := Prog.bind

@[simp] theorem pure_eq (a : α) : (pure a : Prog ι σ ε α) = ret a := rfl

@[simp] theorem ret_bind (a : α) (k : α → Prog ι σ ε β) : (ret a >>= k) = k a := rfl

@[simp] theorem fail_bind (e : ε) (k : α → Prog ι σ ε β) : (fail e >>= k) = fail e := rfl

@[simp] theorem read_bind (r : σ → Prog ι σ ε α) (k : α → Prog ι σ ε β) :
    (read r >>= k) = read fun d => r d >>= k := rfl

@[simp] theorem write_bind (f : σ → Except ε σ) (p : Prog ι σ ε α) (k : α → Prog ι σ ε β) :
    (write f p >>= k) = write f (p >>= k) := rfl

@[simp] theorem lock_bind (i : ι) (p : Prog ι σ ε α) (k : α → Prog ι σ ε β) :
    (lock i p >>= k) = lock i (p >>= k) := rfl

@[simp] theorem unlock_bind (i : ι) (p : Prog ι σ ε α) (k : α → Prog ι σ ε β) :
    (unlock i p >>= k) = unlock i (p >>= k) := rfl

protected theorem bind_assoc {γ : Type} (p : Prog ι σ ε α) (k : α → Prog ι σ ε β)
    (l : β → Prog ι σ ε γ) : (p >>= k) >>= l = p >>= fun a => k a >>= l := by
  induction p with
  | ret a => rfl
  | fail e => rfl
  | read r ih => exact congrArg read (funext fun d => ih d)
  | write f p ih => exact congrArg (write f) ih
  | lock i p ih => exact congrArg (lock i) ih
  | unlock i p ih => exact congrArg (unlock i) ih

/-- One read. -/
def get (f : σ → Except ε α) : Prog ι σ ε α :=
  read fun d => match f d with
    | .ok a => ret a
    | .error e => fail e

/-- One write. -/
def modify (f : σ → Except ε σ) : Prog ι σ ε Unit := write f (ret ())

/-- The program with its answer renamed. -/
def answering (f : α → β) (p : Prog ι σ ε α) : Prog ι σ ε β := p >>= fun a => ret (f a)

/-- `lock()` and `unlock()`. -/
def acquire (i : ι) : Prog ι σ ε Unit := lock i (ret ())

def release (i : ι) : Prog ι σ ε Unit := unlock i (ret ())

/-! ## One thread -/

section Run

variable [DecidableEq ι] (spins : ε)

/-- What the program does while nobody else moves; `spins` stands for the
loop of `lock` on a lock that is taken. -/
def run : Prog ι σ ε α → Shared ι σ → Except ε (α × Shared ι σ)
  | ret a, s => .ok (a, s)
  | fail e, _ => .error e
  | read k, s => (k s.data).run s
  | write f p, s =>
      match f s.data with
      | .ok d => p.run { s with data := d }
      | .error e => .error e
  | lock i p, s => if s.flag i then .error spins else p.run (s.setFlag i true)
  | unlock i p, s => p.run (s.setFlag i false)

theorem run_bind (p : Prog ι σ ε α) (k : α → Prog ι σ ε β) (s : Shared ι σ) :
    (p >>= k).run spins s = match p.run spins s with
      | .ok (a, s') => (k a).run spins s'
      | .error e => .error e := by
  induction p generalizing s with
  | ret a => rfl
  | fail e => rfl
  | read r ih => exact ih s.data s
  | write f p ih =>
      simp only [write_bind, run]
      cases f s.data with
      | error e => rfl
      | ok d => exact ih _
  | lock i p ih =>
      simp only [lock_bind, run]
      split
      · rfl
      · exact ih _
  | unlock i p ih => exact ih _

theorem run_answering (f : α → β) (p : Prog ι σ ε α) (s : Shared ι σ) :
    (p.answering f).run spins s = (p.run spins s).map fun r => (f r.1, r.2) := by
  rw [answering, run_bind]
  cases p.run spins s <;> rfl

end Run

/-! ## Programs without locks -/

section Computes

variable [DecidableEq ι] {spins : ε} {p : Prog ι σ ε α} {q : Prog ι σ ε Unit}
  {f : σ → Except ε α} {g : σ → Except ε σ}

/-- Alone, the program answers what the function says and changes nothing. -/
def Reads (spins : ε) (p : Prog ι σ ε α) (f : σ → Except ε α) : Prop :=
  ∀ s : Shared ι σ, p.run spins s = (f s.data).map fun a => (a, s)

/-- Alone, the program does to the data what the function says and leaves
the locks as they are. -/
def Does (spins : ε) (q : Prog ι σ ε Unit) (g : σ → Except ε σ) : Prop :=
  ∀ s : Shared ι σ, q.run spins s = (g s.data).map fun d => ((), { s with data := d })

theorem reads_get (f : σ → Except ε α) : Reads spins (get f : Prog ι σ ε α) f := by
  intro s
  simp only [Prog.get, run]
  cases f s.data <;> rfl

theorem does_modify (g : σ → Except ε σ) : Does spins (modify g : Prog ι σ ε Unit) g := by
  intro s
  simp only [Prog.modify, run]
  cases g s.data <;> rfl

theorem Reads.bind (h : Reads spins p f) (k : α → Prog ι σ ε β) (s : Shared ι σ) :
    (p >>= k).run spins s = match f s.data with
      | .ok a => (k a).run spins s
      | .error e => .error e := by
  rw [run_bind, h s]
  cases f s.data <;> rfl

theorem Does.bind (h : Does spins q g) (k : Unit → Prog ι σ ε β) (s : Shared ι σ) :
    (q >>= k).run spins s = match g s.data with
      | .ok d => (k ()).run spins { s with data := d }
      | .error e => .error e := by
  rw [run_bind, h s]
  cases g s.data <;> rfl

end Computes

/-! ## Programs guarded by one lock -/

section Guarded

variable {ω : Type} (i : ι) (stable : σ → ω)

/-- Inside the critical section of lock `i`: no other lock, nothing after
the unlock, and no write changes the stable part of the data. -/
def Sealed : Prog ι σ ε α → Prop
  | ret _ | fail _ => True
  | read k => ∀ d, (k d).Sealed
  | write f p => (∀ d d', f d = .ok d' → stable d' = stable d) ∧ p.Sealed
  | lock _ _ => False
  | unlock j p => j = i ∧ ∃ a, p = ret a

/-- Before the critical section: reads of the stable part only. -/
def Guarded : Prog ι σ ε α → Prop
  | lock j p => j = i ∧ p.Sealed i stable
  | read k => (∀ d d', stable d = stable d' → k d = k d') ∧ ∀ d, (k d).Guarded
  | fail _ => True
  | _ => False

variable {i stable}

/-- A program without locks whose writes keep the stable part. -/
def Keeps (stable : σ → ω) : Prog ι σ ε α → Prop
  | ret _ | fail _ => True
  | read k => ∀ d, (k d).Keeps stable
  | write f p => (∀ d d', f d = .ok d' → stable d' = stable d) ∧ p.Keeps stable
  | lock _ _ | unlock _ _ => False

theorem Keeps.bind {p : Prog ι σ ε α} {k : α → Prog ι σ ε β} (hp : p.Keeps stable)
    (hk : ∀ a, (k a).Keeps stable) : (p >>= k).Keeps stable := by
  induction p with
  | ret a => exact hk a
  | fail e => trivial
  | read r ih => exact fun d => ih d (hp d)
  | write f p ih => exact ⟨hp.1, ih hp.2⟩
  | lock i p => cases hp
  | unlock i p => cases hp

theorem Keeps.sealed_bind {p : Prog ι σ ε α} {k : α → Prog ι σ ε β} (hp : p.Keeps stable)
    (hk : ∀ a, (k a).Sealed i stable) : (p >>= k).Sealed i stable := by
  induction p with
  | ret a => exact hk a
  | fail e => trivial
  | read r ih => exact fun d => ih d (hp d)
  | write f p ih => exact ⟨hp.1, ih hp.2⟩
  | lock i p => cases hp
  | unlock i p => cases hp

theorem keeps_get (f : σ → Except ε α) : (get f : Prog ι σ ε α).Keeps stable := by
  intro d
  dsimp only
  split <;> trivial

theorem keeps_modify {f : σ → Except ε σ} (h : ∀ d d', f d = .ok d' → stable d' = stable d) :
    (modify f : Prog ι σ ε Unit).Keeps stable := ⟨h, trivial⟩

theorem Sealed.answering {p : Prog ι σ ε α} (hp : p.Sealed i stable) (f : α → β) :
    (p.answering f).Sealed i stable := by
  induction p with
  | ret a => trivial
  | fail e => trivial
  | read r ih => exact fun d => ih d (hp d)
  | write g p ih => exact ⟨hp.1, ih hp.2⟩
  | lock j p => cases hp
  | unlock j p =>
      obtain ⟨rfl, a, rfl⟩ := hp
      exact ⟨rfl, f a, rfl⟩

theorem Guarded.answering {p : Prog ι σ ε α} (hp : p.Guarded i stable) (f : α → β) :
    (p.answering f).Guarded i stable := by
  induction p with
  | lock j p => exact ⟨hp.1, hp.2.answering f⟩
  | read r ih =>
      exact ⟨fun d d' h => congrArg (Prog.answering f) (hp.1 d d' h), fun d => ih d (hp.2 d)⟩
  | ret a => cases hp
  | fail e => trivial
  | write g p => cases hp
  | unlock j p => cases hp

section Stable

variable [DecidableEq ι] {spins : ε} {s u : Shared ι σ} {a : α}

theorem Sealed.stable_run {p : Prog ι σ ε α} (hp : p.Sealed i stable)
    (h : p.run spins s = .ok (a, u)) : stable u.data = stable s.data := by
  induction p generalizing s with
  | ret b =>
      obtain ⟨-, rfl⟩ := Prod.mk.inj (Except.ok.inj h)
      rfl
  | fail e => cases h
  | read r ih => exact ih s.data (hp s.data) h
  | write f p ih =>
      cases hf : f s.data with
      | error e => simp [run, hf] at h
      | ok d =>
          simp only [run, hf] at h
          exact (ih hp.2 h).trans (hp.1 _ _ hf)
  | lock j p => cases hp
  | unlock j p =>
      obtain ⟨-, b, rfl⟩ := hp
      obtain ⟨-, rfl⟩ := Prod.mk.inj (Except.ok.inj h)
      rfl

/-- A call leaves the stable part of the data as it is. -/
theorem Guarded.stable_run {p : Prog ι σ ε α} (hp : p.Guarded i stable)
    (h : p.run spins s = .ok (a, u)) : stable u.data = stable s.data := by
  induction p with
  | lock j p =>
      simp only [run] at h
      split at h
      · cases h
      · have := hp.2.stable_run h
        exact this
  | read r ih => exact ih s.data (hp.2 s.data) h
  | ret a => cases hp
  | fail e => cases h
  | write g p => cases hp
  | unlock j p => cases hp

end Stable

end Guarded

end Prog

/-! ## Any number of threads -/

/-- A thread between two calls, or in one: the call it serves, whether the
load of a pending `lock` saw the lock free, and what is left of the code. -/
inductive Thread (κ ι σ ε α : Type) where
  | idle
  | busy (call : κ) (tested : Bool) (rest : Prog ι σ ε α)

/-- The shared state, the threads, and the calls that have made their last
access: which thread made them and with what answer, the oldest first. -/
structure Threads (κ ι σ ε α : Type) where
  shared : Shared ι σ
  threads : List (Thread κ ι σ ε α)
  log : List (Nat × κ × α) := []

/-- Why a thread cannot move: there is none, or its behaviour is undefined. -/
inductive Immobile where
  | noThread
  | undefined
deriving DecidableEq, Repr

namespace Prog

variable {ι σ ε α : Type} [DecidableEq ι]

/-- One access: the shared state after it, what `tested` says then, and the
rest of the program. -/
def access (s : Shared ι σ) (tested : Bool) :
    Prog ι σ ε α → Option (Shared ι σ × Bool × Prog ι σ ε α)
  | ret _ | fail _ => none
  | read k => some (s, false, k s.data)
  | write f p =>
      match f s.data with
      | .ok d => some ({ s with data := d }, false, p)
      | .error _ => none
  | lock i p =>
      if tested then
        -- the exchange: it stores `true` in any case
        some (s.setFlag i true, false, if s.flag i then lock i p else p)
      else some (s, !s.flag i, lock i p)
  | unlock i p => some (s.setFlag i false, false, p)

end Prog

namespace Threads

variable {κ ι σ ε α : Type} [DecidableEq ι] (prog : κ → Prog ι σ ε α)

omit [DecidableEq ι] in
/-- An entry of a log with one more: the last one, or one before. -/
theorem log_cases {e e' : Nat × κ × α} {log l₁ l₂ : List (Nat × κ × α)}
    (h : log ++ [e] = l₁ ++ e' :: l₂) :
    l₂ = [] ∧ e' = e ∨ ∃ l₃, l₂ = l₃ ++ [e] ∧ log = l₁ ++ e' :: l₃ := by
  rcases List.eq_nil_or_concat l₂ with rfl | ⟨l₃, e₃, rfl⟩
  · obtain ⟨-, hlast⟩ := List.append_inj' h rfl
    exact Or.inl ⟨rfl, (List.singleton_injective hlast).symm⟩
  · rw [List.concat_eq_append, ← List.cons_append, ← List.append_assoc] at h
    obtain ⟨hlog, hlast⟩ := List.append_inj' h rfl
    obtain rfl := List.singleton_injective hlast
    exact Or.inr ⟨l₃, List.concat_eq_append, hlog⟩

/-- All threads idle. -/
def start (s : Shared ι σ) (n : Nat) : Threads κ ι σ ε α :=
  { shared := s, threads := List.replicate n .idle }

/-- A thread that has made an access goes on with the rest; when that was
the last access, the call joins the log and only its `return` is left. -/
def settle (S : Threads κ ι σ ε α) (j : Nat) (call : κ) (tested : Bool) :
    Prog ι σ ε α → Threads κ ι σ ε α
  | .ret a =>
      { S with threads := S.threads.set j .idle, log := S.log ++ [(j, call, a)] }
  | p => { S with threads := S.threads.set j (.busy call tested p) }

/-- One step of a schedule: a thread, and the call it begins if idle. -/
def step (S : Threads κ ι σ ε α) (choice : Nat × κ) : Except Immobile (Threads κ ι σ ε α) :=
  match S.threads[choice.1]? with
  | none => .error .noThread
  | some .idle => .ok (S.settle choice.1 choice.2 false (prog choice.2))
  | some (.busy call tested p) =>
      match p.access S.shared tested with
      | none => .error .undefined
      | some (s, tested, p) => .ok ({ S with shared := s }.settle choice.1 call tested p)

/-- No call is under way. -/
def Quiet (S : Threads κ ι σ ε α) : Prop := ∀ t ∈ S.threads, t = .idle

variable {prog} {S S' : Threads κ ι σ ε α} {j : Nat} {call : κ} {tested : Bool}
  {p : Prog ι σ ε α}

omit [DecidableEq ι] in
theorem settle_cases (S : Threads κ ι σ ε α) (j : Nat) (call : κ) (tested : Bool)
    (p : Prog ι σ ε α) :
    (∃ a, p = .ret a ∧ S.settle j call tested p =
        { S with threads := S.threads.set j .idle, log := S.log ++ [(j, call, a)] }) ∨
      (∀ a, p ≠ .ret a) ∧ S.settle j call tested p =
        { S with threads := S.threads.set j (.busy call tested p) } := by
  cases p with
  | ret a => exact Or.inl ⟨a, rfl, rfl⟩
  | _ => exact Or.inr ⟨nofun, rfl⟩

/-- A thread begins a call, or makes one access. -/
theorem step_cases {choice : Nat × κ} (h : step prog S choice = .ok S') :
    (S.threads[choice.1]? = some .idle ∧
        S' = S.settle choice.1 choice.2 false (prog choice.2)) ∨
      ∃ call tested p s tested' p', S.threads[choice.1]? = some (.busy call tested p) ∧
        p.access S.shared tested = some (s, tested', p') ∧
        S' = { S with shared := s }.settle choice.1 call tested' p' := by
  unfold step at h
  split at h
  · cases h
  · rename_i hidle
    exact Or.inl ⟨hidle, (Except.ok.inj h).symm⟩
  · rename_i call tested p hbusy
    split at h
    · cases h
    · rename_i s tested' p' haccess
      exact Or.inr ⟨call, tested, p, s, tested', p', hbusy, haccess, (Except.ok.inj h).symm⟩

/-! ## One thread alone -/

theorem step_idle (h : S.threads[j]? = some .idle) (call : κ) :
    step prog S (j, call) = .ok (S.settle j call false (prog call)) := by
  simp only [step, h]

theorem step_busy {s : Shared ι σ} {tested' : Bool} {p' : Prog ι σ ε α}
    (h : S.threads[j]? = some (.busy call tested p))
    (haccess : p.access S.shared tested = some (s, tested', p')) (choice : κ) :
    step prog S (j, choice) = .ok ({ S with shared := s }.settle j call tested' p') := by
  simp only [step, h, haccess]

/-- A thread scheduled alone makes one access and goes on. -/
theorem exec_busy {s : Shared ι σ} {tested' : Bool} {p' : Prog ι σ ε α}
    (hj : j < S.threads.length) (haccess : p.access S.shared tested = some (s, tested', p'))
    (choice : κ) (k : Nat) :
    Runs.exec (step prog) { S with threads := S.threads.set j (.busy call tested p) }
        (List.replicate (k + 1) (j, choice)) =
      Runs.exec (step prog) ({ S with shared := s }.settle j call tested' p')
        (List.replicate k (j, choice)) := by
  have hbusy : (S.threads.set j (.busy call tested p))[j]? = some (.busy call tested p) :=
    List.getElem?_set_self hj
  rw [List.replicate_succ, Runs.exec_cons_ok (step_busy (S := { S with
    threads := S.threads.set j (.busy call tested p) }) hbusy haccess choice)]
  -- the thread's entry is overwritten
  rcases settle_cases { S with shared := s } j call tested' p' with ⟨a, rfl, -⟩ | ⟨hne, heq⟩
  · simp only [settle, List.set_set]
  · rw [heq]
    rcases settle_cases { S with
      shared := s
      threads := S.threads.set j (.busy call tested p) } j call tested' p' with
        ⟨a, rfl, -⟩ | ⟨-, heq'⟩
    · exact absurd rfl (hne a)
    · rw [heq', List.set_set]

/-- A thread scheduled alone runs its program to the end. -/
theorem alone_settle {spins : ε} {a : α} {s : Shared ι σ} (prog : κ → Prog ι σ ε α)
    (call choice : κ) (p : Prog ι σ ε α) :
    ∀ {S : Threads κ ι σ ε α}, j < S.threads.length → p.run spins S.shared = .ok (a, s) →
      ∃ k, Runs.exec (step prog) (S.settle j call false p) (List.replicate k (j, choice)) =
        .ok ⟨s, S.threads.set j .idle, S.log ++ [(j, call, a)]⟩ := by
  induction p with
  | ret b =>
      intro S _ hrun
      obtain ⟨rfl, rfl⟩ := Prod.mk.inj (Except.ok.inj hrun)
      exact ⟨0, rfl⟩
  | fail e =>
      intro S _ hrun
      cases hrun
  | read r ih =>
      intro S hj hrun
      obtain ⟨k, hk⟩ := ih S.shared.data hj hrun
      exact ⟨k + 1, (exec_busy hj rfl choice k).trans hk⟩
  | write f p ih =>
      intro S hj hrun
      cases hf : f S.shared.data with
      | error e => simp [Prog.run, hf] at hrun
      | ok d =>
          simp only [Prog.run, hf] at hrun
          obtain ⟨k, hk⟩ := ih (S := { S with shared := { S.shared with data := d } }) hj hrun
          have haccess : (Prog.write f p).access S.shared false
              = some ({ S.shared with data := d }, false, p) := by rw [Prog.access, hf]
          exact ⟨k + 1, (exec_busy hj haccess choice k).trans hk⟩
  | lock i p ih =>
      intro S hj hrun
      cases hflag : S.shared.flag i with
      | true => simp [Prog.run, hflag] at hrun
      | false =>
          simp only [Prog.run, hflag, Bool.false_eq_true, if_false] at hrun
          obtain ⟨k, hk⟩ := ih (S := { S with shared := S.shared.setFlag i true }) hj hrun
          have hload : (Prog.lock i p).access S.shared false
              = some (S.shared, true, .lock i p) := by
            rw [Prog.access, if_neg (by decide), hflag]
            rfl
          have hexchange : (Prog.lock i p).access S.shared true
              = some (S.shared.setFlag i true, false, p) := by
            rw [Prog.access, if_pos rfl, hflag]
            rfl
          exact ⟨k + 2, (exec_busy hj hload choice (k + 1)).trans
            ((exec_busy hj hexchange choice k).trans hk)⟩
  | unlock i p ih =>
      intro S hj hrun
      obtain ⟨k, hk⟩ := ih (S := { S with shared := S.shared.setFlag i false }) hj hrun
      exact ⟨k + 1, (exec_busy hj rfl choice k).trans hk⟩

/-- An idle thread scheduled alone makes a whole call. -/
theorem alone_call {spins : ε} {a : α} {s : Shared ι σ} (hidle : S.threads[j]? = some .idle)
    (hrun : (prog call).run spins S.shared = .ok (a, s)) :
    ∃ k, Runs.exec (step prog) S (List.replicate k (j, call)) =
      .ok ⟨s, S.threads, S.log ++ [(j, call, a)]⟩ := by
  obtain ⟨hj, hget⟩ := List.getElem?_eq_some_iff.mp hidle
  obtain ⟨k, hk⟩ := alone_settle prog call call _ hj hrun
  refine ⟨k + 1, ?_⟩
  rw [List.replicate_succ, Runs.exec_cons_ok (step_idle hidle call), hk, ← hget,
    List.set_getElem_self]

end Threads

end MemAlloc
