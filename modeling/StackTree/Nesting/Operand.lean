import StackTree.Routine.Edit

/-!
# Filling pending operands

Flat code leaves its values on a working stack, and a consumer has a `pop` for each value that it
takes. Filling a node replaces its pops by the producers on the working stack, the last operand
first, because its value lies on top. A producer moves past everything that is evaluated before the
operand it fills; whether it may is decided from stored effects alone (`mayReorder`), and where it
may not, the node stalls and keeps the rest of its pops.

## Main definitions

* `Workspace`, `Fill`: a routine with a working stack, and computations on both.
* `operandBlocked`: when an operand has to wait for the stack access of an earlier one.
* `fill`: fills the pops of a node, or answers the producer that stands for a bare pop.
* `fillOperands`, `fillBinary`: the walk over any number of operands, and the one over two.
-/

namespace StackTree

/-- A routine with a working stack. -/
structure Workspace where
  /-- The routine. -/
  code : Routine
  /-- Nodes whose values are produced and not yet taken, the most recent first. -/
  stack : List NodeId
deriving DecidableEq, Repr

/-- A computation that reads and changes a routine and a working stack and may fail. -/
abbrev Fill := EStateM Fault Workspace

/-- An edit of the routine leaves the working stack as it is. -/
instance : MonadLift Edit Fill where
  monadLift edit := fun ⟨code, stack⟩ =>
    match edit code with
    | .ok answer code => .ok answer ⟨code, stack⟩
    | .error fault code => .error fault ⟨code, stack⟩

/-- Asks the routine and the working stack a question that may fail and changes nothing. -/
def askWorkspace {α : Type} (question : Workspace → Except Fault α) : Fill α := fun w =>
  match question w with
  | .ok answer => .ok answer w
  | .error fault => .error fault w

/-- What became of a node whose pending operands were to be filled. -/
structure Filled where
  /-- The node that takes its place. -/
  node : NodeId
  /-- Whether no pending operand had to be left. -/
  finished : Bool
deriving DecidableEq, Repr

/-! ## One pending operand -/

/-- Takes the top of the working stack off. -/
def dropTop : Fill Unit := modify fun w => { w with stack := w.stack.tail }

/--
A bare pop stands for the top of the working stack, provided that there is one and that it may move
past the code with the effects `before`.
-/
def fillPop (n : NodeId) (before : Effects) : Fill Filled := do
  match (← get).stack with
  | [] => return ⟨n, false⟩
  | top :: _ =>
    let candidate ← (ask (·.effects top) : Edit Effects)
    if mayReorder before candidate then
      dropTop
      return ⟨top, true⟩
    else
      return ⟨n, false⟩

/-! ## Operands that have to wait -/

/--
How many pops the tree under a node has, going at most so many nodes deep. A tree whose effects say
that it pops nothing is not entered.
-/
def Routine.pendingPopsWithin (r : Routine) : Nat → NodeId → Except Fault Nat
  | 0, _ => .error endlessPath
  | bound + 1, n => do
    let node ← r.node n
    if node.effects.pops then
      node.children.foldlM
        (fun count child => do return count + (← r.pendingPopsWithin bound child))
        (if node.kind = .pop then 1 else 0)
    else
      return 0

/-- How many pops the tree under a node has. -/
def Routine.pendingPops (r : Routine) (n : NodeId) : Except Fault Nat :=
  r.pendingPopsWithin r.pathBound n

/-- Whether one of the nodes has stack access; the first that does ends the search. -/
def Routine.anyStackAccess (r : Routine) : List NodeId → Except Fault Bool
  | [] => .ok false
  | n :: rest => do
    if (← r.effects n).hasStackAccess then return true else r.anyStackAccess rest

/--
Whether an operand must leave the working stack alone because operands with the effects `earlier`,
evaluated before it, deal with the stack themselves. A peek among them would see another value once
something is taken. A pop among them would take the value that the pops of a moved producer expect.
-/
def operandBlocked (w : Workspace) (earlier : Effects) (operand : NodeId) : Except Fault Bool := do
  if !(← w.code.effects operand).pops then
    return false
  else if earlier.peeks then
    return true
  else if earlier.pops then
    w.code.anyStackAccess (w.stack.take (← w.code.pendingPops operand))
  else
    return false

/-! ## The operands of a node -/

/-- How the pops of a single operand are filled, given the effects of what comes before it. -/
abbrev Filler := NodeId → Effects → Fill Filled

/--
Fills one operand of `n` and puts what becomes of it into its slot. The answer says whether the walk
over the operands goes on.
-/
def fillSlot (fill : Filler) (n : NodeId) (slot : Nat) (operand : NodeId) (before : Effects) :
    Fill Bool := do
  let filled ← fill operand before
  (setChild n slot filled.node : Edit Unit)
  return filled.finished

/--
Fills the operands of `n` from the last to the first. The list holds those still to be looked at,
the last one first. An operand without stack access has nothing to fill. The code before an operand
is what comes before the whole node and the earlier operands, less their own dealings with the
stack.
-/
def fillOperandsFrom (fill : Filler) (n : NodeId) (before : Effects) :
    List NodeId → Fill Filled
  | [] => return ⟨n, true⟩
  | operand :: earlier => do
    let own ← (ask (·.effects operand) : Edit Effects)
    if own.hasStackAccess then
      let summary ← (ask (·.unionEffects ∅ earlier.reverse) : Edit Effects)
      if ← askWorkspace (operandBlocked · summary operand) then
        return ⟨n, false⟩
      else if ← fillSlot fill n earlier.length operand (before ∪ summary.withoutStackAccess) then
        fillOperandsFrom fill n before earlier
      else
        return ⟨n, false⟩
    else
      fillOperandsFrom fill n before earlier

/-- Fills the operands of a node with any number of them. -/
def fillOperands (fill : Filler) (n : NodeId) (before : Effects) : Fill Filled := do
  let children ← (ask (·.children n) : Edit (List NodeId))
  fillOperandsFrom fill n before children.reverse

/-- Fills the first of two operands. -/
def fillLeft (fill : Filler) (n left : NodeId) (leftEffects before : Effects) : Fill Filled := do
  if leftEffects.hasStackAccess then
    return ⟨n, ← fillSlot fill n 0 left before⟩
  else
    return ⟨n, true⟩

/-- Fills the operands of a node with two of them, the second before the first. -/
def fillBinary (fill : Filler) (n : NodeId) (before : Effects) : Fill Filled := do
  let left ← (ask (·.child n 0) : Edit NodeId)
  let right ← (ask (·.child n 1) : Edit NodeId)
  let leftEffects ← (ask (·.effects left) : Edit Effects)
  let rightEffects ← (ask (·.effects right) : Edit Effects)
  if rightEffects.hasStackAccess then
    if ← askWorkspace (operandBlocked · leftEffects right) then
      return ⟨n, false⟩
    else if ← fillSlot fill n 1 right (before ∪ leftEffects.withoutStackAccess) then
      fillLeft fill n left leftEffects before
    else
      return ⟨n, false⟩
  else
    fillLeft fill n left leftEffects before

/-! ## The whole tree -/

/-- Fills the pops under a node, going at most so many nodes deep. -/
def fillWithin : Nat → NodeId → Effects → Fill Filled
  | 0, _, _ => throw Routine.endlessPath
  | bound + 1, n, before => do
    match ← (ask (·.kind n) : Edit Kind) with
    | .pop => fillPop n before
    | .peek => return ⟨n, (← get).stack.isEmpty⟩
    | .const _ | .load _ => return ⟨n, true⟩
    | .binary _ => fillBinary (fillWithin bound) n before
    | .unary _ | .store _ | .call _ _ | .ret => fillOperands (fillWithin bound) n before

/--
Fills the pops under a node from the working stack. Code with the effects `before` is evaluated
between the stack's producers and the node.
-/
def fill (n : NodeId) (before : Effects) : Fill Filled := do
  fillWithin (← get).code.pathBound n before

end StackTree
