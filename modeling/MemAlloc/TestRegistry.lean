import MemAlloc.Interface
import MemAlloc.OrderedSet

/-!
# `Test`

The tests register themselves while the program's static objects are
constructed, in an order the language does not fix across files; `Test::Run`
calls them and prints the results they have left. Both collections are
`std::set`s: of function pointers, and of results under `custom_compare`,
which looks at the duration alone.

So the order of the registrations does not matter, and a test's result is
not printed when an earlier test has taken as many nanoseconds
(`run_prints`).
-/

namespace MemAlloc

/-- A function pointer: its address. -/
abbrev RunTestFunc := Nat

/-- A name and a duration. -/
abbrev TestResult := String × Nat

namespace Test

variable {σ : Type}

/-- `custom_compare` looks at this component. -/
def duration (result : TestResult) : Nat := result.2

/-- `Test::Register`, once for each of the functions. -/
def registerAll (funcs : List RunTestFunc) : List RunTestFunc := OrderedSet.fill id funcs

/-- The loop of `Test::Run`. A test works on a state of its own choice
(`rand`, the heap); it emplaces one result, or none if it returns early. -/
def runLoop (call : RunTestFunc → σ → Except Stuck (Option TestResult × σ)) :
    List RunTestFunc → List TestResult → σ → Except Stuck (List TestResult × σ)
  | [], results, s => .ok (results, s)
  | func :: tests, results, s => do
      let (result, s) ← call func s
      runLoop call tests (result.elim results fun r => OrderedSet.emplace duration r results) s

/-- `Test::Run`: the results in the order `PrintResults` prints them. -/
def run (call : RunTestFunc → σ → Except Stuck (Option TestResult × σ))
    (funcs : List RunTestFunc) (s : σ) : Except Stuck (List TestResult × σ) :=
  runLoop call (registerAll funcs) [] s

/-- The results of the calls, in the order of the calls. -/
def outcomes (call : RunTestFunc → σ → Except Stuck (Option TestResult × σ)) :
    List RunTestFunc → σ → Except Stuck (List TestResult × σ)
  | [], s => .ok ([], s)
  | func :: tests, s => do
      let (result, s) ← call func s
      let (results, s) ← outcomes call tests s
      return (result.toList ++ results, s)

variable (call : RunTestFunc → σ → Except Stuck (Option TestResult × σ))

theorem runLoop_eq : ∀ (tests : List RunTestFunc) (rs : List TestResult) (s : σ),
    runLoop call tests (OrderedSet.fill duration rs) s
      = (outcomes call tests s).map fun (rs', s') => (OrderedSet.fill duration (rs ++ rs'), s')
  | [], rs, s => by
      rw [runLoop, outcomes]
      simp [Except.map]
  | func :: tests, rs, s => by
      rw [runLoop, outcomes]
      cases call func s with
      | error e => rfl
      | ok r =>
          obtain ⟨result, s'⟩ := r
          have ih := runLoop_eq tests (rs ++ result.toList) s'
          have hstep : result.elim (OrderedSet.fill duration rs)
              (fun r => OrderedSet.emplace duration r (OrderedSet.fill duration rs))
              = OrderedSet.fill duration (rs ++ result.toList) := by
            cases result with
            | none => simp
            | some r => exact (OrderedSet.fill_append rs r).symm
          simp only [ok_bind, hstep, ih]
          cases outcomes call tests s' <;> simp [Except.map]

/-- **What a run of the tests prints.** Each registered function is called
once, by increasing address, whatever the order of the registrations. The
results come out by strictly increasing duration, and those of a test are
missing exactly when a test called before it has the same duration: there
are as many lines as there are different durations. -/
theorem run_prints (funcs : List RunTestFunc) (s : σ) :
    match outcomes call (funcs.toFinset.sort (· ≤ ·)) s with
    | .error e => run call funcs s = .error e
    | .ok (results, s') => ∃ printed, run call funcs s = .ok (printed, s') ∧
        printed.Pairwise (fun r r' => duration r < duration r') ∧
        (∀ r, r ∈ printed ↔ ∃ before after, results = before ++ r :: after ∧
          ∀ r' ∈ before, duration r' ≠ duration r) ∧
        printed.length = (results.map duration).toFinset.card := by
  have hrun := runLoop_eq call (funcs.toFinset.sort (· ≤ ·)) [] s
  rw [← OrderedSet.fill_id] at hrun ⊢
  cases hout : outcomes call (OrderedSet.fill id funcs) s with
  | error e =>
      rw [hout] at hrun
      exact hrun
  | ok r =>
      obtain ⟨results, s'⟩ := r
      rw [hout] at hrun
      exact ⟨_, hrun, OrderedSet.sorted_fill results, OrderedSet.mem_fill results,
        OrderedSet.length_fill results⟩

end Test

end MemAlloc
