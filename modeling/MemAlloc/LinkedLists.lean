import Mathlib.Data.Fintype.Basic
import MemAlloc.Answers
import MemAlloc.Interface
import MemAlloc.NodeChain

/-!
# `StackLinkedList` and `SinglyLinkedList`

The two intrusive lists of the interface header. Their nodes belong to the
clients: a list object is a head pointer into a heap of nodes, and any
number of objects share the heap. To dereference a pointer to no node is
undefined behaviour.

`stacks_refine` and `lists_refine`: over whole runs, with every node in one
list at a time, the objects behave as lists of their own, whatever the
others do, and no operation touches a node's data.
-/

namespace MemAlloc

open NodeChain

/-- A node of a list; the padding of `SinglyLinkedList::Node` is left out. -/
structure Node (T : Type) where
  data : T
  next : Nat
deriving DecidableEq, Repr

/-- The nodes that exist, by address. -/
abbrev Nodes (T : Type) := Nat → Option (Node T)

namespace Nodes

variable {T : Type} (nodes : Nodes T)

/-- `node->next`, read. -/
def next (p : Nat) : Except Stuck Nat :=
  match nodes p with
  | some node => .ok node.next
  | none => .error .outOfBounds

/-- `node->next = next`. -/
def setNext (p next : Nat) : Except Stuck (Nodes T) :=
  match nodes p with
  | some node => .ok (Function.update nodes p (some { node with next }))
  | none => .error .outOfBounds

/-- The successor of each node, as far as it exists. -/
def succ (p : Nat) : Nat := (nodes p).elim nullptr Node.next

/-- What the nodes carry. -/
def payload (p : Nat) : Option T := (nodes p).map Node.data

variable {nodes} {p v : Nat}

theorem next_ok (h : nodes.payload p ≠ none) : nodes.next p = .ok (nodes.succ p) := by
  cases hp : nodes p with
  | none => simp [payload, hp] at h
  | some node => simp [next, succ, hp]

/-- A write redirects one node and keeps what all carry. -/
theorem setNext_ok (h : nodes.payload p ≠ none) (v : Nat) :
    ∃ nodes', nodes.setNext p v = .ok nodes' ∧
      nodes'.succ = Function.update nodes.succ p v ∧ nodes'.payload = nodes.payload := by
  cases hp : nodes p with
  | none => simp [payload, hp] at h
  | some node =>
      refine ⟨Function.update nodes p (some { node with next := v }), by rw [setNext, hp],
        funext fun q => ?_, funext fun q => ?_⟩
      · by_cases hq : q = p
        · subst hq
          simp [succ]
        · simp [succ, Function.update_of_ne hq]
      · by_cases hq : q = p
        · subst hq
          simp [payload, hp]
        · simp [payload, Function.update_of_ne hq]

end Nodes

/-! ## The two classes -/

structure StackLinkedList where
  head : Nat := nullptr
deriving DecidableEq, Repr

namespace StackLinkedList

variable {T : Type}

def push (nodes : Nodes T) (s : StackLinkedList) (newNode : Nat) :
    Except Stuck (Nodes T × StackLinkedList) := do
  let nodes ← nodes.setNext newNode s.head
  return (nodes, { s with head := newNode })

def pop (nodes : Nodes T) (s : StackLinkedList) : Except Stuck (Nat × StackLinkedList) := do
  if s.head = nullptr then
    return (nullptr, s)
  let top := s.head
  let next ← nodes.next s.head
  return (top, { s with head := next })

variable {nodes : Nodes T} {s : StackLinkedList} {p : Nat}

/-- `push` redirects the new node to what was the top. -/
theorem push_ok (h : nodes.payload p ≠ none) : ∃ nodes', push nodes s p = .ok (nodes', ⟨p⟩) ∧
    nodes'.succ = Function.update nodes.succ p s.head ∧ nodes'.payload = nodes.payload := by
  obtain ⟨nodes', hset, hsucc, hkeep⟩ := Nodes.setNext_ok h s.head
  exact ⟨nodes', by rw [push, hset]; rfl, hsucc, hkeep⟩

theorem pop_empty (nodes : Nodes T) (h : s.head = nullptr) : pop nodes s = .ok (nullptr, s) := by
  rw [pop, if_pos h]
  rfl

theorem pop_ok (h : s.head ≠ nullptr) (hexist : nodes.payload s.head ≠ none) :
    pop nodes s = .ok (s.head, ⟨nodes.succ s.head⟩) := by
  rw [pop, if_neg h, Nodes.next_ok hexist]
  rfl

end StackLinkedList

/-- The head has no initialiser: this is `SinglyLinkedList{}`. -/
structure SinglyLinkedList where
  head : Nat := nullptr
deriving DecidableEq, Repr

namespace SinglyLinkedList

variable {T : Type}

def insert (nodes : Nodes T) (s : SinglyLinkedList) (previousNode newNode : Nat) :
    Except Stuck (Nodes T × SinglyLinkedList) := do
  if previousNode = nullptr then
    -- is the first node
    let nodes ← if s.head ≠ nullptr then nodes.setNext newNode s.head
      else nodes.setNext newNode nullptr
    return (nodes, { s with head := newNode })
  let next ← nodes.next previousNode
  if next = nullptr then
    -- is the last node
    let nodes ← nodes.setNext previousNode newNode
    let nodes ← nodes.setNext newNode nullptr
    return (nodes, s)
  let next ← nodes.next previousNode
  let nodes ← nodes.setNext newNode next
  let nodes ← nodes.setNext previousNode newNode
  return (nodes, s)

def remove (nodes : Nodes T) (s : SinglyLinkedList) (previousNode deleteNode : Nat) :
    Except Stuck (Nodes T × SinglyLinkedList) := do
  if previousNode = nullptr then
    -- is the first node
    let next ← nodes.next deleteNode
    if next = nullptr then
      return (nodes, { s with head := nullptr })
    let next ← nodes.next deleteNode
    return (nodes, { s with head := next })
  let next ← nodes.next deleteNode
  let nodes ← nodes.setNext previousNode next
  return (nodes, s)

variable {nodes : Nodes T} {s : SinglyLinkedList} {p n : Nat}

theorem insert_front (h : nodes.payload n ≠ none) :
    ∃ nodes', insert nodes s nullptr n = .ok (nodes', ⟨n⟩) ∧
      nodes'.succ = Function.update nodes.succ n s.head ∧ nodes'.payload = nodes.payload := by
  obtain ⟨nodes', hset, hsucc, hkeep⟩ := Nodes.setNext_ok h s.head
  refine ⟨nodes', ?_, hsucc, hkeep⟩
  rw [insert, if_pos rfl]
  by_cases hhead : s.head = nullptr
  · rw [if_neg (not_not.mpr hhead), ← hhead, hset]
    rfl
  · rw [if_pos hhead, hset]
    rfl

/-- In the middle and at the end alike: the new node takes over the
successor. -/
theorem insert_after (hp : nodes.payload p ≠ none) (hn : nodes.payload n ≠ none)
    (hnonnull : p ≠ nullptr) (hne : p ≠ n) :
    ∃ nodes', insert nodes s p n = .ok (nodes', s) ∧
      nodes'.succ = Function.update (Function.update nodes.succ n (nodes.succ p)) p n ∧
      nodes'.payload = nodes.payload := by
  rw [insert, if_neg hnonnull, Nodes.next_ok hp]
  by_cases hlast : nodes.succ p = nullptr
  · obtain ⟨nodes₁, hset₁, hsucc₁, hkeep₁⟩ := Nodes.setNext_ok hp n
    obtain ⟨nodes₂, hset₂, hsucc₂, hkeep₂⟩ :=
      Nodes.setNext_ok (p := n) (by rwa [hkeep₁]) nullptr
    refine ⟨nodes₂, ?_, ?_, hkeep₂.trans hkeep₁⟩
    · simp only [ok_bind, if_pos hlast, hset₁, hset₂]
      rfl
    · rw [hsucc₂, hsucc₁, hlast, Function.update_comm hne]
  · obtain ⟨nodes₁, hset₁, hsucc₁, hkeep₁⟩ := Nodes.setNext_ok hn (nodes.succ p)
    obtain ⟨nodes₂, hset₂, hsucc₂, hkeep₂⟩ :=
      Nodes.setNext_ok (p := p) (by rwa [hkeep₁]) n
    refine ⟨nodes₂, ?_, ?_, hkeep₂.trans hkeep₁⟩
    · simp only [ok_bind, if_neg hlast, hset₁, hset₂]
      rfl
    · rw [hsucc₂, hsucc₁]

theorem remove_front (h : nodes.payload n ≠ none) :
    remove nodes s nullptr n = .ok (nodes, ⟨nodes.succ n⟩) := by
  rw [remove, if_pos rfl, Nodes.next_ok h, ok_bind]
  by_cases hlast : nodes.succ n = nullptr
  · rw [if_pos hlast, hlast]
    rfl
  · rw [if_neg hlast]
    rfl

theorem remove_after (hp : nodes.payload p ≠ none) (hn : nodes.payload n ≠ none)
    (hnonnull : p ≠ nullptr) : ∃ nodes', remove nodes s p n = .ok (nodes', s) ∧
      nodes'.succ = Function.update nodes.succ p (nodes.succ n) ∧
      nodes'.payload = nodes.payload := by
  obtain ⟨nodes', hset, hsucc, hkeep⟩ := Nodes.setNext_ok hp (nodes.succ n)
  refine ⟨nodes', ?_, hsucc, hkeep⟩
  rw [remove, if_neg hnonnull, Nodes.next_ok hn, ok_bind, hset]
  rfl

end SinglyLinkedList

/-! ## Lists in memory -/

section Runs

variable {T ι : Type} [DecidableEq ι]

/-- The lists with these heads are the abstract ones, with nodes of their
own; `payload` is what the nodes that exist carry. -/
structure Represents (payload : Nat → Option T) (nodes : Nodes T) (heads : ι → Nat)
    (contents : ι → List Nat) : Prop where
  owned : Owned nodes.succ nullptr heads contents
  exist : ∀ i, ∀ p ∈ contents i, payload p ≠ none
  payload_eq : nodes.payload = payload

omit [DecidableEq ι] in
theorem represents_start (nodes : Nodes T) :
    Represents nodes.payload nodes (fun _ : ι => nullptr) fun _ => [] :=
  ⟨owned_nil _ _, fun _ _ hp => absurd hp List.not_mem_nil, rfl⟩

variable {payload : Nat → Option T} {nodes nodes' : Nodes T} {heads : ι → Nat}
  {contents : ι → List Nat} {i : ι} {a n : Nat} {xs : List Nat}

/-- An operation on one list that adds at most nodes that exist and are in
no list, and redirects only its own and these. -/
theorem Represents.change (hnull : payload nullptr = none)
    (h : Represents payload nodes heads contents) (hkeep : nodes'.payload = nodes.payload)
    (hlinks : Links nodes'.succ a xs nullptr) (hnodup : xs.Nodup)
    (hnew : ∀ x ∈ xs, x ∈ contents i ∨ payload x ≠ none ∧ ∀ j, x ∉ contents j)
    (hframe : ∀ x, nodes'.succ x ≠ nodes.succ x → x ∈ contents i ∨ ∀ j, x ∉ contents j) :
    Represents payload nodes' (Function.update heads i a) (Function.update contents i xs) := by
  have hexist : ∀ x ∈ xs, payload x ≠ none := fun x hx =>
    (hnew x hx).elim (h.exist i x) And.left
  refine ⟨h.owned.change hlinks hnodup (fun hm => hexist _ hm hnull)
    (fun x hx => (hnew x hx).imp_right And.right) hframe, fun j p hp => ?_,
    hkeep.trans h.payload_eq⟩
  by_cases hj : j = i
  · subst hj
    rw [Function.update_self] at hp
    exact hexist p hp
  · rw [Function.update_of_ne hj] at hp
    exact h.exist j p hp

/-! ## Stacks -/

namespace Stacks

/-- A call on one of the stacks. -/
inductive Call (ι : Type) where
  | push (i : ι) (newNode : Nat)
  | pop (i : ι)
deriving DecidableEq, Repr

/-- The nodes and the stacks. -/
structure State (T ι : Type) where
  nodes : Nodes T
  lists : ι → StackLinkedList

/-- A call and the pointer it returns, if any. -/
def serve (s : State T ι) : Call ι → Except Stuck (Option Nat × State T ι)
  | .push i newNode => do
      let (nodes, stack) ← (s.lists i).push s.nodes newNode
      return (none, ⟨nodes, Function.update s.lists i stack⟩)
  | .pop i => do
      let (top, stack) ← (s.lists i).pop s.nodes
      return (some top, { s with lists := Function.update s.lists i stack })

/-- What stacks are for. -/
def serveAbstract (contents : ι → List Nat) :
    Call ι → Except Stuck (Option Nat × (ι → List Nat))
  | .push i newNode => .ok (none, Function.update contents i (newNode :: contents i))
  | .pop i =>
      .ok (some ((contents i).head?.getD nullptr), Function.update contents i (contents i).tail)

/-- The calls clients may make: `push` of a node that exists and is in no
stack. -/
def Legal (payload : Nat → Option T) (contents : ι → List Nat) : Call ι → Prop
  | .push _ newNode => payload newNode ≠ none ∧ ∀ j, newNode ∉ contents j
  | .pop _ => True

instance [Fintype ι] [DecidableEq T] (payload : Nat → Option T) (contents : ι → List Nat) :
    DecidablePred (Legal payload contents)
  | .push _ newNode => inferInstanceAs (Decidable (_ ∧ ∀ j, newNode ∉ contents j))
  | .pop _ => isTrue trivial

/-- The heads of the stacks. -/
def State.headOf (s : State T ι) (i : ι) : Nat := (s.lists i).head

variable {payload : Nat → Option T} {s : State T ι} {contents : ι → List Nat}

/-- The heads after a call on one of them. -/
theorem headOf_update (nodes : Nodes T) (lists : ι → StackLinkedList) (i : ι)
    (stack : StackLinkedList) :
    State.headOf ⟨nodes, Function.update lists i stack⟩ =
      Function.update (State.headOf ⟨nodes, lists⟩) i stack.head :=
  funext fun j => by
    by_cases hj : j = i
    · subst hj
      simp [State.headOf]
    · simp [State.headOf, Function.update_of_ne hj]

/-- **Step lemma.** A legal call answers as the abstract stacks do. -/
theorem serve_represents (hnull : payload nullptr = none)
    (h : Represents payload s.nodes s.headOf contents) (call : Call ι)
    (hlegal : Legal payload contents call) :
    ∃ a s' contents', serve s call = .ok (a, s') ∧
      serveAbstract contents call = .ok (a, contents') ∧
      Represents payload s'.nodes s'.headOf contents' := by
  obtain ⟨nodes, lists⟩ := s
  have hlinks := h.owned.links
  have hpayload : nodes.payload = payload := h.payload_eq
  cases call with
  | push i newNode =>
      obtain ⟨hexist, hfresh⟩ := hlegal
      obtain ⟨nodes', hpush, hsucc, hkeep⟩ :=
        StackLinkedList.push_ok (s := lists i) (hpayload ▸ hexist)
      refine ⟨none, ⟨nodes', Function.update lists i ⟨newNode⟩⟩, _, by rw [serve, hpush]; rfl, rfl,
        ?_⟩
      rw [headOf_update]
      refine h.change hnull hkeep (hsucc ▸ (hlinks i).push (hfresh i))
        (List.nodup_cons.mpr ⟨hfresh i, h.owned.nodup i⟩) ?_ fun x hx => ?_
      · rintro x (_ | ⟨_, hx⟩)
        · exact Or.inr ⟨hexist, hfresh⟩
        · exact Or.inl hx
      · obtain rfl : x = newNode := by
          by_contra hne
          exact hx (hsucc ▸ Function.update_of_ne hne ..)
        exact Or.inr hfresh
  | pop i =>
      cases hlist : contents i with
      | nil =>
          have hpop := StackLinkedList.pop_empty nodes
            (h.owned.head_eq_null.mpr hlist)
          refine ⟨some nullptr, ⟨nodes, lists⟩, contents, ?_, ?_, h⟩
          · rw [serve, hpop]
            show Except.ok (_, State.mk _ (Function.update lists i (lists i))) = _
            rw [Function.update_eq_self]
          · have hsame : Function.update contents i [] = contents := by
              rw [← hlist, Function.update_eq_self]
            simp [serveAbstract, hlist, hsame]
      | cons x xs =>
          have hlink := hlinks i
          rw [hlist] at hlink
          obtain ⟨hx, hrest⟩ := hlink
          obtain rfl : (lists i).head = x := hx
          have hmem : ∀ y ∈ (lists i).head :: xs, y ∈ contents i := fun y hy => hlist ▸ hy
          have hhead := hmem _ (List.mem_cons_self ..)
          have hexist : nodes.payload (lists i).head ≠ none := hpayload ▸ h.exist i _ hhead
          have hpop := StackLinkedList.pop_ok (fun heq => h.owned.nonnull i (heq ▸ hhead)) hexist
          refine ⟨some (lists i).head,
            ⟨nodes, Function.update lists i ⟨nodes.succ (lists i).head⟩⟩, _,
            by rw [serve, hpop]; rfl, by rw [serveAbstract, hlist]; rfl, ?_⟩
          rw [headOf_update]
          exact h.change hnull rfl hrest (List.Nodup.of_cons (hlist ▸ h.owned.nodup i))
            (fun y hy => Or.inl (hmem y (List.mem_cons_of_mem _ hy))) fun y hy => absurd rfl hy

/-- **Stacks.** From empty stacks, every run of legal calls returns, each `pop`
answers the node pushed last onto its stack and not yet popped (or
`nullptr`), and the data of all nodes is as before. -/
theorem stacks_refine (nodes : Nodes T) (hnull : nodes nullptr = none) (calls : List (Call ι))
    (hlegal : Runs.All (Runs.recording serveAbstract) (fun x => Legal nodes.payload x.1)
      (fun _ : ι => [], []) calls) :
    ∃ answers s contents,
      Runs.exec (Runs.recording serve) (⟨nodes, fun _ => {}⟩, []) calls = .ok (s, answers) ∧
        Runs.exec (Runs.recording serveAbstract) (fun _ => [], []) calls = .ok (contents, answers) ∧
        Represents nodes.payload s.nodes s.headOf contents :=
  Runs.recording_simulates
    (fun s contents => Represents nodes.payload s.nodes (State.headOf s) contents)
    (Legal nodes.payload)
    (fun _ _ call h hcall => serve_represents (by simp [Nodes.payload, hnull]) h call hcall)
    (represents_start nodes) hlegal

/-- Nodes at 8, 16 and 24 for the examples. -/
def threeNodes : Nodes Char := fun p =>
  if p = 8 then some ⟨'a', 0⟩ else if p = 16 then some ⟨'b', 8⟩
  else if p = 24 then some ⟨'c', 24⟩ else none

/-- Two stacks; a node popped from one is pushed onto the other. -/
theorem stacks_refine_two : ∃ s contents,
    Runs.exec (Runs.recording serve) ((⟨threeNodes, fun _ => {}⟩ : State Char (Fin 2)), [])
        [.push 0 8, .push 0 16, .pop 0, .push 1 16, .push 1 24, .pop 0, .pop 0] =
      .ok (s, [none, none, some 16, none, none, some 8, some 0]) ∧
    Represents threeNodes.payload s.nodes s.headOf contents ∧ contents 1 = [24, 16] := by
  obtain ⟨answers, s, contents, hrun, hspec, hrep⟩ := stacks_refine (ι := Fin 2) threeNodes rfl
    [.push 0 8, .push 0 16, .pop 0, .push 1 16, .push 1 24, .pop 0, .pop 0] (by decide)
  have hcheck : (Runs.exec (Runs.recording serveAbstract) ((fun _ : Fin 2 => []), [])
      [.push 0 8, .push 0 16, .pop 0, .push 1 16, .push 1 24, .pop 0, .pop 0]).map
        (fun r => (r.1 1, r.2)) =
      .ok ([24, 16], [none, none, some 16, none, none, some 8, some 0]) := by decide
  rw [hspec] at hcheck
  obtain ⟨hone, rfl⟩ := Prod.mk.inj (Except.ok.inj hcheck)
  exact ⟨s, contents, hrun, hrep, hone⟩

end Stacks

/-! ## Singly linked lists -/

namespace Lists

/-- A call on one of the lists. -/
inductive Call (ι : Type) where
  | insert (i : ι) (previousNode newNode : Nat)
  | remove (i : ι) (previousNode deleteNode : Nat)
deriving DecidableEq, Repr

/-- The nodes and the lists. -/
structure State (T ι : Type) where
  nodes : Nodes T
  lists : ι → SinglyLinkedList

def step (s : State T ι) : Call ι → Except Stuck (State T ι)
  | .insert i previousNode newNode => do
      let (nodes, list) ← (s.lists i).insert s.nodes previousNode newNode
      return ⟨nodes, Function.update s.lists i list⟩
  | .remove i previousNode deleteNode => do
      let (nodes, list) ← (s.lists i).remove s.nodes previousNode deleteNode
      return ⟨nodes, Function.update s.lists i list⟩

/-- The list with a new element behind the given one. -/
def insertAfter (p n : Nat) : List Nat → List Nat
  | [] => []
  | x :: xs => if x = p then x :: n :: xs else x :: insertAfter p n xs

/-- What the calls are for: `nullptr` as the previous node stands for the
front. -/
def stepAbstract (contents : ι → List Nat) : Call ι → ι → List Nat
  | .insert i previousNode newNode =>
      Function.update contents i (if previousNode = nullptr then newNode :: contents i
        else insertAfter previousNode newNode (contents i))
  | .remove i _ deleteNode => Function.update contents i ((contents i).erase deleteNode)

/-- The calls clients may make: `insert` of a node that exists and is in no
list, behind a node of this list; `remove` of a node of this list, with the
one before it. -/
def Legal (payload : Nat → Option T) (contents : ι → List Nat) : Call ι → Prop
  | .insert i previousNode newNode => payload newNode ≠ none ∧ (∀ j, newNode ∉ contents j) ∧
      (previousNode = nullptr ∨ previousNode ∈ contents i)
  | .remove i previousNode deleteNode =>
      if previousNode = nullptr then [deleteNode] <+: contents i
      else [previousNode, deleteNode] <:+: contents i

instance [Fintype ι] [DecidableEq T] (payload : Nat → Option T) (contents : ι → List Nat) :
    DecidablePred (Legal payload contents)
  | .insert i _ newNode =>
      inferInstanceAs (Decidable (_ ∧ (∀ j, newNode ∉ contents j) ∧ (_ ∨ _ ∈ contents i)))
  | .remove i previousNode deleteNode =>
      inferInstanceAs (Decidable (if previousNode = nullptr then [deleteNode] <+: contents i
        else [previousNode, deleteNode] <:+: contents i))

/-- The heads of the lists. -/
def State.headOf (s : State T ι) (i : ι) : Nat := (s.lists i).head

variable {payload : Nat → Option T} {s : State T ι} {contents : ι → List Nat}

/-- The heads after a call on one of them. -/
theorem headOf_update (nodes : Nodes T) (lists : ι → SinglyLinkedList) (i : ι)
    (list : SinglyLinkedList) :
    State.headOf ⟨nodes, Function.update lists i list⟩ =
      Function.update (State.headOf ⟨nodes, lists⟩) i list.head :=
  funext fun j => by
    by_cases hj : j = i
    · subst hj
      simp [State.headOf]
    · simp [State.headOf, Function.update_of_ne hj]

theorem insertAfter_append {p n : Nat} {xs ys : List Nat} (h : p ∉ xs) :
    insertAfter p n (xs ++ p :: ys) = xs ++ p :: n :: ys := by
  induction xs with
  | nil => simp [insertAfter]
  | cons x xs ih =>
      have hx : x ≠ p := fun heq => h (heq ▸ List.mem_cons_self ..)
      rw [List.cons_append, insertAfter, if_neg hx, ih fun hm => h (List.mem_cons_of_mem _ hm)]
      rfl

/-- **Step lemma.** A legal call does to the list what it is for. -/
theorem step_represents (hnull : payload nullptr = none)
    (h : Represents payload s.nodes s.headOf contents) (call : Call ι)
    (hlegal : Legal payload contents call) :
    ∃ s', step s call = .ok s' ∧
      Represents payload s'.nodes s'.headOf (stepAbstract contents call) := by
  obtain ⟨nodes, lists⟩ := s
  have hlinks := h.owned.links
  have hpayload : nodes.payload = payload := h.payload_eq
  cases call with
  | insert i p n =>
      obtain ⟨hexist, hfresh, hprev⟩ := hlegal
      by_cases hp : p = nullptr
      · subst hp
        obtain ⟨nodes', hins, hsucc, hkeep⟩ :=
          SinglyLinkedList.insert_front (s := lists i) (hpayload ▸ hexist)
        refine ⟨⟨nodes', Function.update lists i ⟨n⟩⟩, by rw [step, hins]; rfl, ?_⟩
        rw [headOf_update, stepAbstract, if_pos rfl]
        refine h.change hnull hkeep (hsucc ▸ (hlinks i).push (hfresh i))
          (List.nodup_cons.mpr ⟨hfresh i, h.owned.nodup i⟩) ?_ fun x hx => ?_
        · rintro x (_ | ⟨_, hx⟩)
          · exact Or.inr ⟨hexist, hfresh⟩
          · exact Or.inl hx
        · obtain rfl : x = n := by
            by_contra hne
            exact hx (hsucc ▸ Function.update_of_ne hne ..)
          exact Or.inr hfresh
      · have hmem := hprev.resolve_left hp
        have hne : p ≠ n := ne_of_mem_of_not_mem hmem (hfresh i)
        obtain ⟨nodes', hins, hsucc, hkeep⟩ := SinglyLinkedList.insert_after (s := lists i)
          (hpayload ▸ h.exist i p hmem) (hpayload ▸ hexist) hp hne
        obtain ⟨xs, ys, hlist⟩ := List.append_of_mem hmem
        have hnodup := hlist ▸ h.owned.nodup i
        have hpxs : p ∉ xs := fun hm =>
          (List.nodup_append.mp hnodup).2.2 p hm p (List.mem_cons_self ..) rfl
        refine ⟨⟨nodes', Function.update lists i (lists i)⟩, by rw [step, hins]; rfl, ?_⟩
        rw [headOf_update, stepAbstract, if_neg hp, hlist, insertAfter_append hpxs]
        refine h.change hnull hkeep (hsucc ▸ (hlist ▸ hlinks i).insert hnodup (hlist ▸ hfresh i))
          ?_ (fun x hx => ?_) fun x hx => ?_
        · have := hlist ▸ hfresh i
          rw [← List.singleton_append, ← List.append_assoc] at hnodup this ⊢
          exact List.nodup_middle.mpr (List.nodup_cons.mpr ⟨this, hnodup⟩)
        · rw [hlist]
          simp only [List.mem_append, List.mem_cons] at hx ⊢
          rcases hx with hx | rfl | rfl | hx
          · exact Or.inl (Or.inl hx)
          · exact Or.inl (Or.inr (Or.inl rfl))
          · exact Or.inr ⟨hexist, hfresh⟩
          · exact Or.inl (Or.inr (Or.inr hx))
        · by_cases hxp : x = p
          · exact Or.inl (hxp ▸ hmem)
          · refine Or.inr ?_
            obtain rfl : x = n := by
              by_contra hxn
              exact hx (by rw [hsucc, Function.update_of_ne hxp, Function.update_of_ne hxn])
            exact hfresh
  | remove i p d =>
      have hlegal : if p = nullptr then [d] <+: contents i else [p, d] <:+: contents i := hlegal
      by_cases hp : p = nullptr
      · subst hp
        rw [if_pos rfl] at hlegal
        obtain ⟨xs, hlist⟩ := hlegal
        have hlink := hlinks i
        rw [← hlist] at hlink
        obtain ⟨hd, hrest⟩ := hlink
        have hsub : ∀ y ∈ d :: xs, y ∈ contents i := fun y hy => hlist ▸ hy
        have hrem := SinglyLinkedList.remove_front (s := lists i)
          (hpayload ▸ h.exist i d (hsub d (List.mem_cons_self ..)))
        refine ⟨⟨nodes, Function.update lists i ⟨nodes.succ d⟩⟩, by rw [step, hrem]; rfl, ?_⟩
        rw [headOf_update, stepAbstract, ← hlist, List.singleton_append, List.erase_cons_head]
        exact h.change hnull rfl hrest (List.Nodup.of_cons (hlist ▸ h.owned.nodup i))
          (fun y hy => Or.inl (hsub y (List.mem_cons_of_mem _ hy))) fun y hy => absurd rfl hy
      · rw [if_neg hp] at hlegal
        obtain ⟨xs, ys, hlist⟩ := hlegal
        have hlist : contents i = xs ++ p :: d :: ys := by
          rw [← hlist]
          simp
        have hpmem : p ∈ contents i := by simp [hlist]
        have hdmem : d ∈ contents i := by simp [hlist]
        obtain ⟨nodes', hrem, hsucc, hkeep⟩ := SinglyLinkedList.remove_after (s := lists i)
          (hpayload ▸ h.exist i p hpmem) (hpayload ▸ h.exist i d hdmem) hp
        have hnodup := hlist ▸ h.owned.nodup i
        have herase : (xs ++ p :: d :: ys).erase d = xs ++ p :: ys := by
          have hd : d ∉ xs ++ [p] := fun hm => by
            rw [← List.singleton_append, ← List.append_assoc] at hnodup
            exact (List.nodup_append.mp hnodup).2.2 d hm d (List.mem_cons_self ..) rfl
          rw [← List.singleton_append, ← List.append_assoc, List.erase_append_right _ hd,
            List.erase_cons_head, List.append_assoc]
          rfl
        refine ⟨⟨nodes', Function.update lists i (lists i)⟩, by rw [step, hrem]; rfl, ?_⟩
        rw [headOf_update, stepAbstract, hlist, herase]
        refine h.change hnull hkeep (hsucc ▸ (hlist ▸ hlinks i).remove hnodup)
          (herase ▸ hnodup.erase d) (fun x hx => Or.inl ?_) fun x hx => ?_
        · rw [← herase] at hx
          exact hlist ▸ List.mem_of_mem_erase hx
        · obtain rfl : x = p := by
            by_contra hne
            exact hx (hsucc ▸ Function.update_of_ne hne ..)
          exact Or.inl hpmem

/-- **Lists.** From empty lists, every run of legal calls returns, each list
holds what insertions and removals make of it, and the data of all nodes is
as before. -/
theorem lists_refine (nodes : Nodes T) (hnull : nodes nullptr = none) (calls : List (Call ι))
    (hlegal : Runs.All (fun contents call => (.ok (stepAbstract contents call) : Except Stuck _))
      (Legal nodes.payload) (fun _ : ι => []) calls) :
    ∃ s, Runs.exec step ⟨nodes, fun _ => {}⟩ calls = .ok s ∧
      Represents nodes.payload s.nodes s.headOf (calls.foldl stepAbstract fun _ => []) :=
  Runs.exec_follows
    (fun s contents => Represents nodes.payload s.nodes (State.headOf s) contents)
    (Legal nodes.payload)
    (fun _ _ call h hcall => step_represents (by simp [Nodes.payload, hnull]) h call hcall)
    (represents_start nodes) hlegal

theorem lists_refine_two : ∃ s,
    Runs.exec step (⟨Stacks.threeNodes, fun _ => {}⟩ : State Char (Fin 2))
        [.insert 0 0 8, .insert 0 8 16, .insert 0 8 24, .remove 0 24 16, .insert 1 0 16,
          .remove 0 0 8] = .ok s ∧
      Links s.nodes.succ (s.headOf 0) [24] nullptr ∧
      Links s.nodes.succ (s.headOf 1) [16] nullptr := by
  obtain ⟨s, hrun, hrep⟩ := lists_refine (ι := Fin 2) Stacks.threeNodes rfl
    [.insert 0 0 8, .insert 0 8 16, .insert 0 8 24, .remove 0 24 16, .insert 1 0 16,
      .remove 0 0 8] (by decide)
  exact ⟨s, hrun, hrep.owned.links 0, hrep.owned.links 1⟩

end Lists

end Runs

end MemAlloc
