import StackTree.Fault

/-!
# Routines

A `Routine` owns the nodes of one method body. Nodes sit in the order of their allocation; a
released node leaves a hole behind, so that a `NodeId` never means two nodes. Operands are the only
edges that own; the link of a node to its place is kept beside them, and so are the effects of its
whole tree.

## Main definitions

* `Routine.get?`: the view that every operation is described through.
* `Routine.insert`, `Routine.update`, `Routine.erase`: the three ways in which the view changes.

## Main results

* `Routine.get?_insert`, `Routine.get?_update`, `Routine.get?_erase`: what each does to the view.
-/

namespace StackTree

/-- A node of a tree. -/
structure Node where
  /-- What the node does. -/
  kind : Kind
  /-- The operands, in the order of evaluation. -/
  children : List NodeId
  /-- The effects of the whole tree under the node. -/
  effects : Effects
  /-- Where the node hangs, if it does. -/
  parent : Option Link
deriving DecidableEq, Repr

/-- The trees of one method body. -/
structure Routine where
  /-- The name of the method. -/
  name : String
  /-- Every node ever allocated; a released one is `none`. -/
  nodes : Array (Option Node) := #[]
  /-- The number of nodes not yet released. -/
  live : Nat := 0
  /-- The top level, in the order of evaluation. -/
  body : List NodeId := []
deriving DecidableEq, Repr

namespace Routine

/-- The most nodes that a routine can ever allocate. -/
def capacity : Nat := UInt32.size

/-! ## The view -/

/-- The node of that name, unless it was released or never allocated. -/
def get? (r : Routine) (n : NodeId) : Option Node := r.nodes[n.index]?.join

/-- Whether the node exists. -/
def isLive (r : Routine) (n : NodeId) : Bool := (r.get? n).isSome

/-- The name that the next node gets. -/
def nextId (r : Routine) : NodeId := ⟨r.nodes.size⟩

/-- Adds a node under the next name. -/
def insert (r : Routine) (node : Node) : Routine :=
  { r with nodes := r.nodes.push (some node), live := r.live + 1 }

/-- Changes a node, if it exists. -/
def update (r : Routine) (n : NodeId) (change : Node → Node) : Routine :=
  { r with nodes := r.nodes.modify n.index (Option.map change) }

/-- Removes a node that exists. -/
def erase (r : Routine) (n : NodeId) : Routine :=
  { r with nodes := r.nodes.setIfInBounds n.index none, live := r.live - 1 }

@[simp] theorem get?_empty (name : String) (body : List NodeId) (n : NodeId) :
    get? { name := name, body := body } n = none := by
  simp [get?]

theorem get?_insert (r : Routine) (node : Node) (n : NodeId) :
    (r.insert node).get? n = if n = r.nextId then some node else r.get? n := by
  obtain ⟨i⟩ := n
  simp only [get?, insert, nextId, NodeId.mk.injEq, Array.getElem?_push]
  split <;> rfl

theorem get?_update (r : Routine) (n : NodeId) (change : Node → Node) (m : NodeId) :
    (r.update n change).get? m = if m = n then (r.get? n).map change else r.get? m := by
  obtain ⟨i⟩ := m
  obtain ⟨j⟩ := n
  simp only [get?, update, Array.getElem?_modify, NodeId.mk.injEq]
  by_cases h : j = i
  · subst h
    cases r.nodes[j]? with
    | none => simp
    | some cell => cases cell <;> simp
  · simp [h, Ne.symm h]

theorem get?_erase (r : Routine) (n m : NodeId) :
    (r.erase n).get? m = if m = n then none else r.get? m := by
  obtain ⟨i⟩ := m
  obtain ⟨j⟩ := n
  simp only [get?, erase, Array.getElem?_setIfInBounds, NodeId.mk.injEq]
  by_cases h : j = i
  · subst h
    by_cases hj : j < r.nodes.size <;> simp [hj]
  · simp [h, Ne.symm h]

/-- A node that was just added can be changed before it is added as well. -/
theorem update_insert_nextId (r : Routine) (node : Node) (change : Node → Node) :
    (r.insert node).update r.nextId change = r.insert (change node) := by
  simp only [insert, update, nextId, mk.injEq, and_true, true_and]
  apply Array.ext_getElem?
  intro i
  rw [Array.getElem?_modify, Array.getElem?_push, Array.getElem?_push]
  by_cases h : i = r.nodes.size
  · simp [h]
  · simp [h, Ne.symm h]

@[simp] theorem size_update (r : Routine) (n : NodeId) (change : Node → Node) :
    (r.update n change).nodes.size = r.nodes.size := by
  simp [update]

@[simp] theorem size_erase (r : Routine) (n : NodeId) :
    (r.erase n).nodes.size = r.nodes.size := by
  simp [erase]

/-! ## Questions about one node -/

/-- The node of that name, or the fault of naming a node that does not exist. -/
def node (r : Routine) (n : NodeId) : Except Fault Node :=
  match r.get? n with
  | some node => .ok node
  | none => .error (.released n)

/-- What the node does. -/
def kind (r : Routine) (n : NodeId) : Except Fault Kind := (·.kind) <$> r.node n

/-- The stored effects of the tree under the node. -/
def effects (r : Routine) (n : NodeId) : Except Fault Effects := (·.effects) <$> r.node n

/-- Where the node hangs, if it does. -/
def parent (r : Routine) (n : NodeId) : Except Fault (Option Link) := (·.parent) <$> r.node n

/-- The operands of the node. -/
def children (r : Routine) (n : NodeId) : Except Fault (List NodeId) := (·.children) <$> r.node n

/-- How many operands the node has. -/
def childCount (r : Routine) (n : NodeId) : Except Fault Nat :=
  (fun node => node.children.length) <$> r.node n

/-- The operand in a slot of the node. -/
def child (r : Routine) (n : NodeId) (slot : Nat) : Except Fault NodeId := do
  let node ← r.node n
  match node.children[slot]? with
  | some child => .ok child
  | none => .error (.noSuchSlot n slot node.children.length)

/-- Whether evaluating the node leaves a value behind. -/
def producesValue (r : Routine) (n : NodeId) : Except Fault Bool :=
  (fun node => node.kind.producesValue) <$> r.node n

/-- A list with the positions of the elements that a fallible test holds of. -/
def positions (test : NodeId → Except Fault Bool) : Nat → List NodeId → Except Fault (List Nat)
  | _, [] => .ok []
  | slot, n :: rest => do
    let here ← test n
    let later ← positions test (slot + 1) rest
    return if here then slot :: later else later

/-- The slots whose operands are still to be taken from the evaluation stack. -/
def pendingSlots (r : Routine) (n : NodeId) : Except Fault (List Nat) := do
  positions (fun child => (· == Kind.pop) <$> r.kind child) 0 (← r.children n)

/-- The operator and the two operands of a binary node. -/
def asBinary (r : Routine) (n : NodeId) :
    Except Fault (Option (BinaryOp × NodeId × NodeId)) := do
  let node ← r.node n
  return match node.kind, node.children with
    | .binary op, [left, right] => some (op, left, right)
    | _, _ => none

/-- The method, the arguments and the value flag of a call. -/
def asCall (r : Routine) (n : NodeId) :
    Except Fault (Option (String × List NodeId × Bool)) := do
  let node ← r.node n
  return match node.kind with
    | .call method returnsValue => some (method, node.children, returnsValue)
    | _ => none

/-! ## Effects from the operands -/

/-- The union of given effects with the stored effects of some nodes. -/
def unionEffects (r : Routine) (start : Effects) (ns : List NodeId) : Except Fault Effects :=
  ns.foldlM (fun acc n => do return acc ∪ (← r.effects n)) start

/-- The effects of a binary node: the stored effects of its two operands and those of the operator. -/
def binaryEffects (r : Routine) (n : NodeId) (op : BinaryOp) : Except Fault Effects := do
  let left ← r.effects (← r.child n 0)
  let right ← r.effects (← r.child n 1)
  return left ∪ right ∪ (Kind.binary op).intrinsic

/-- The effects of a node, from its own kind and the stored effects of its operands. -/
def computeEffects (r : Routine) (n : NodeId) : Except Fault Effects := do
  let node ← r.node n
  match node.kind with
  | .binary op => r.binaryEffects n op
  | kind => r.unionEffects kind.intrinsic node.children

/-! ## Lists of free nodes -/

/--
Checks that every listed node exists, hangs nowhere and is not listed before, and reports the first
that fails. `attached` words the second refusal; `seen` holds the nodes listed before.
-/
def checkFree (r : Routine) (attached : NodeId → Link → Fault) :
    (seen : List NodeId) → List NodeId → Except Fault Unit
  | _, [] => .ok ()
  | seen, n :: rest => do
    match (← r.node n).parent with
    | some link => .error (attached n link)
    | none =>
      if n ∈ seen then .error (.repeated n)
      else r.checkFree attached (n :: seen) rest

/-! ## Walking up -/

/--
A bound on the length of every path through the trees. A path names no node twice, so it has at most
as many nodes as were ever allocated.
-/
def pathBound (r : Routine) : Nat := r.nodes.size + 1

/-- The fault of a path that is longer than `pathBound` allows, which a forest does not have. -/
def endlessPath : Fault := .internal "the links between nodes form a cycle"

/-- Whether one node is the other or lies above it, looking at most so many nodes far. -/
def isAncestorOrSelfWithin (r : Routine) (candidate : NodeId) : Nat → NodeId → Except Fault Bool
  | 0, _ => .error endlessPath
  | bound + 1, n =>
    if n = candidate then .ok true
    else do
      match (← r.node n).parent with
      | none => .ok false
      | some link => r.isAncestorOrSelfWithin candidate bound link.parent

/-- Whether `candidate` is the node `n` or lies above it. -/
def isAncestorOrSelf (r : Routine) (candidate n : NodeId) : Except Fault Bool :=
  r.isAncestorOrSelfWithin candidate r.pathBound n

end Routine

end StackTree
