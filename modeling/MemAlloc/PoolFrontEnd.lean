import MemAlloc.Pool

/-!
# `PoolAllocators`

Nine pools of growing chunk sizes behind one `Allocate`/`Free`. A request
goes to the first pool whose chunks are large enough and, when that pool is
full or there is none, to `malloc`; a pointer is offered to the pools in
order and, when all refuse it, to the system's `free`.

The loops are followed as written; `allocateIn_eq` and `freeIn_eq` say in
one step what they do. Both return, beside what the source computes, who
served the call (`Server`).
-/

namespace MemAlloc

def sMaxChunksNum : Nat := 1000

/-- The chunk sizes of `mAllocators`. -/
def chunkSizes : List Nat := [64, 128, 256, 512, 1024, 2048, 3072, 4096, 5120]

/-- Who serves a call: the pool at an index of `mAllocators`, or the system. -/
inductive Server where
  | pool (i : Nat)
  | system
deriving DecidableEq, Repr

structure PoolAllocators where
  allocators : List PoolAllocator

namespace PoolAllocators

/-- The pools before `Init`. -/
def construct (chunksNum : Nat) (sizes : List Nat) : PoolAllocators :=
  ⟨sizes.map (PoolAllocator.construct chunksNum)⟩

/-- The loop of `Init` calls; each pool takes the results of its two
`malloc` calls from the list. -/
def initLoop (thread : ThreadPolicy) :
    List PoolAllocator → List (Nat × List Nat) → Except Stuck (List PoolAllocator)
  | allocator :: rest, (arena, table) :: mallocs => do
      let allocator ← allocator.init thread arena table
      let rest ← initLoop thread rest mallocs
      return allocator :: rest
  | rest, _ => .ok rest

/-- The loop of `Allocate`: `result`, the index it broke off at, and the
pools. -/
def allocateIn (thread : ThreadPolicy) (size : Nat) :
    List PoolAllocator → Except Stuck (Nat × Nat × List PoolAllocator)
  | [] => .ok (nullptr, 0, [])
  | allocator :: rest =>
      if size ≤ allocator.getChunkSize then do
        let (result, allocator) ← allocator.allocate thread
        return (result.getD nullptr, 0, allocator :: rest)
      else do
        let (result, i, rest) ← allocateIn thread size rest
        return (result, i + 1, allocator :: rest)

/-- `Allocate`; `fallback` is what `malloc(size)` would return. -/
def allocate (s : PoolAllocators) (thread : ThreadPolicy) (size fallback : Nat) :
    Except Stuck (Nat × Server × PoolAllocators) := do
  let (result, i, allocators) ← allocateIn thread size s.allocators
  if result = nullptr then
    return (fallback, .system, ⟨allocators⟩)
  return (result, .pool i, ⟨allocators⟩)

/-- The loop of `Free`: the index of the pool that took the pointer. -/
def freeIn (thread : ThreadPolicy) (p : Nat) :
    List PoolAllocator → Except Stuck (Option Nat × List PoolAllocator)
  | [] => .ok (none, [])
  | allocator :: rest => do
      let (found, allocator) ← allocator.free thread p
      if found then
        return (some 0, allocator :: rest)
      else do
        let (i, rest) ← freeIn thread p rest
        return (i.map (· + 1), allocator :: rest)

def free (s : PoolAllocators) (thread : ThreadPolicy) (p : Nat) :
    Except Stuck (Server × PoolAllocators) := do
  let (found, allocators) ← freeIn thread p s.allocators
  return (found.elim .system .pool, ⟨allocators⟩)

/-- `GetUsedSize`: a `uint32_t` accumulator. -/
def getUsedSize (s : PoolAllocators) : Nat :=
  s.allocators.foldl (fun usedSize a => SizeT.uint32 (SizeT.add usedSize a.getUsedSize)) 0

/-! ## What the loops do -/

variable (thread : ThreadPolicy) {size p : Nat}

/-- No pool has large enough chunks. -/
theorem allocateIn_none : ∀ {l : List PoolAllocator}, (∀ a ∈ l, a.chunkSize < size) →
    allocateIn thread size l = .ok (nullptr, l.length, l)
  | [], _ => rfl
  | a :: l, h => by
      have ha : ¬size ≤ a.getChunkSize := Nat.not_le_of_lt (h a (List.mem_cons_self ..))
      rw [allocateIn, if_neg ha, allocateIn_none fun b hb => h b (List.mem_cons_of_mem _ hb)]
      rfl

/-- The request is served by the first pool whose chunks are large enough. -/
theorem allocateIn_eq : ∀ {l : List PoolAllocator} {k : Nat} {a : PoolAllocator},
    l[k]? = some a → size ≤ a.chunkSize →
    (∀ j < k, ∀ b, l[j]? = some b → b.chunkSize < size) →
    allocateIn thread size l =
      (a.allocate thread).map fun (result, a') => (result.getD nullptr, k, l.set k a')
  | b :: l, 0, a, hk, hle, _ => by
      obtain rfl := Option.some.inj hk
      rw [allocateIn, if_pos (show size ≤ b.getChunkSize from hle)]
      cases b.allocate thread <;> rfl
  | b :: l, k + 1, a, hk, hle, hbefore => by
      have hb : ¬size ≤ b.getChunkSize :=
        Nat.not_le_of_lt (hbefore 0 (Nat.succ_pos k) b rfl)
      rw [allocateIn, if_neg hb, allocateIn_eq (l := l) (k := k) hk hle fun j hj c hc =>
        hbefore (j + 1) (Nat.succ_lt_succ hj) c hc]
      cases a.allocate thread <;> rfl

variable {thread}

/-- All pools refuse the pointer. -/
theorem freeIn_none : ∀ {l : List PoolAllocator}, (∀ a ∈ l, a.free thread p = .ok (false, a)) →
    freeIn thread p l = .ok (none, l)
  | [], _ => rfl
  | a :: l, h => by
      rw [freeIn, h a (List.mem_cons_self ..), ok_bind]
      simp only [Bool.false_eq_true, if_false]
      rw [freeIn_none fun b hb => h b (List.mem_cons_of_mem _ hb)]
      rfl

/-- The pointer is taken by the first pool that does not refuse it. -/
theorem freeIn_eq : ∀ {l : List PoolAllocator} {k : Nat} {a a' : PoolAllocator},
    l[k]? = some a → a.free thread p = .ok (true, a') →
    (∀ j < k, ∀ b, l[j]? = some b → b.free thread p = .ok (false, b)) →
    freeIn thread p l = .ok (some k, l.set k a')
  | b :: l, 0, a, a', hk, htake, _ => by
      obtain rfl := Option.some.inj hk
      rw [freeIn, htake]
      rfl
  | b :: l, k + 1, a, a', hk, htake, hbefore => by
      rw [freeIn, hbefore 0 (Nat.succ_pos k) b rfl, ok_bind]
      simp only [Bool.false_eq_true, if_false]
      rw [freeIn_eq (l := l) (k := k) hk htake fun j hj c hc =>
        hbefore (j + 1) (Nat.succ_lt_succ hj) c hc]
      rfl

/-- As long as the sum fits, the accumulator holds it. -/
theorem getUsedSize_eq {s : PoolAllocators}
    (hsum : (s.allocators.map fun a => a.used).sum < 2 ^ 32) :
    s.getUsedSize = (s.allocators.map fun a => a.used).sum := by
  have hloop : ∀ (l : List PoolAllocator) (acc : Nat), acc + (l.map fun a => a.used).sum < 2 ^ 32 →
      l.foldl (fun usedSize a => SizeT.uint32 (SizeT.add usedSize a.getUsedSize)) acc
        = acc + (l.map fun a => a.used).sum := by
    intro l
    induction l with
    | nil => intro acc _; rfl
    | cons a l ih =>
        intro acc hacc
        rw [List.map_cons, List.sum_cons] at hacc ⊢
        rw [List.foldl_cons, AllocatorInterface.getUsedSize, SizeT.add_of_lt (by omega),
          SizeT.uint32_of_lt (by omega), ih _ (by omega), Nat.add_assoc]
  rw [getUsedSize, hloop _ 0 (by omega), Nat.zero_add]

end PoolAllocators

end MemAlloc
