import MemAlloc.Machine

/-!
# The allocator interface

What the allocators share: addresses (natural numbers), the two counters of
`AllocatorInterface`, the thread policy and the spin lock, and the ways in
which a call may fail to return.

`Spinlock.lock` is the outcome of the loop in `Spinlock::lock` when no
other thread runs: `lockLoop_eq_some` and `lockLoop_eq_none` justify it
from the loop itself, round by round.
-/

namespace MemAlloc

/-- `nullptr`. -/
def nullptr : Nat := 0

/-- Why a call does not return: it waits for a lock nobody will release,
touches an array outside its bounds (undefined behaviour), divides by zero, or
accesses memory the process does not have. -/
inductive Stuck where
  | spinsForever
  | outOfBounds
  | dividesByZero
  | unmapped
deriving DecidableEq, Repr

/-- A pointer a client holds, with the number of bytes it may write there. -/
structure Lease where
  ptr : Nat
  size : Nat
deriving DecidableEq, Repr

/-- The arguments of an `Allocate`. -/
structure Request where
  size : Nat
  alignment : Nat
deriving DecidableEq, Repr

@[simp] theorem ok_bind {ε α β : Type} (a : α) (f : α → Except ε β) :
    (Except.ok a >>= f) = f a := rfl

@[simp] theorem error_bind {ε α β : Type} (e : ε) (f : α → Except ε β) :
    (Except.error e >>= f) = .error e := rfl

/-- A sequence of two calls returns when both do. -/
theorem bind_eq_ok {ε α β : Type} {x : Except ε α} {f : α → Except ε β} {b : β} :
    x >>= f = .ok b ↔ ∃ a, x = .ok a ∧ f a = .ok b := by
  cases x <;> simp

theorem map_eq_ok {ε α β : Type} {x : Except ε α} {f : α → β} {b : β} :
    x.map f = .ok b ↔ ∃ a, x = .ok a ∧ f a = b := by
  cases x <;> simp [Except.map]

/-- The data members of `AllocatorInterface`. -/
structure AllocatorInterface where
  totalSize : Nat
  used : Nat := 0
deriving DecidableEq

namespace AllocatorInterface

def getTotalSize (a : AllocatorInterface) : Nat := a.totalSize

def getUsedSize (a : AllocatorInterface) : Nat := a.used

/-- The copy constructor. -/
def copy (allocator : AllocatorInterface) : AllocatorInterface where
  totalSize := allocator.totalSize
  used := allocator.used

end AllocatorInterface

inductive ThreadPolicy where
  | none
  | enableSpinLock
deriving DecidableEq, Repr

/-! ## The spin lock -/

structure Spinlock where
  mFlag : Bool := false
deriving DecidableEq, Repr

namespace Spinlock

/-- At most `fuel` rounds of the loop in `lock()`, run by the only active
thread. The relaxed load comes first; the exchange is evaluated only when
the load saw `false`. The counter decides when to yield, nothing else. -/
def lockLoop : Nat → Nat → Spinlock → Option Spinlock
  | 0, _, _ => none
  | fuel + 1, counterToYield, l =>
      if l.mFlag then
        lockLoop fuel (if counterToYield - 1 = 0 then 10 else counterToYield - 1) l
      else some { l with mFlag := true }

/-- `lock()` with no other thread running. -/
def lock (l : Spinlock) : Except Stuck Spinlock :=
  if l.mFlag then .error .spinsForever else .ok { l with mFlag := true }

def unlock (l : Spinlock) : Spinlock := { l with mFlag := false }

theorem lock_free {l : Spinlock} (h : l.mFlag = false) : l.lock = .ok ⟨true⟩ := by
  simp only [lock, h, Bool.false_eq_true, if_false]

theorem lock_held {l : Spinlock} (h : l.mFlag = true) : l.lock = .error .spinsForever := by
  simp only [lock, h, if_true]

/-- A free lock is taken in the first round. -/
theorem lockLoop_eq_some {l : Spinlock} (h : l.mFlag = false) (fuel c : Nat) :
    lockLoop (fuel + 1) c l = some { l with mFlag := true } := by
  simp [lockLoop, h]

/-- No number of rounds takes a lock that is held. -/
theorem lockLoop_eq_none {l : Spinlock} (h : l.mFlag = true) :
    ∀ fuel c, lockLoop fuel c l = none
  | 0, _ => rfl
  | fuel + 1, c => by
      rw [lockLoop, if_pos h]
      exact lockLoop_eq_none h fuel _

/-- `lock` is what the loop does in the limit. -/
theorem lock_eq_ok_iff {l l' : Spinlock} :
    l.lock = .ok l' ↔ ∃ fuel, lockLoop fuel 10 l = some l' := by
  cases h : l.mFlag with
  | true => simp [lock, h, lockLoop_eq_none h]
  | false =>
      simp only [lock, h, Bool.false_eq_true, if_false, Except.ok.injEq]
      constructor
      · rintro rfl
        exact ⟨1, lockLoop_eq_some h 0 10⟩
      · rintro ⟨fuel, hfuel⟩
        cases fuel with
        | zero => cases hfuel
        | succ fuel => exact Option.some.inj ((lockLoop_eq_some h fuel 10).symm.trans hfuel)

end Spinlock

end MemAlloc
