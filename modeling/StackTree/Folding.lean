import StackTree.Routine.Edit

/-!
# Folding constants

An operator whose operands are constants is replaced by the constant that it computes, in wrapping
32-bit arithmetic. Operands are folded before their operator, so one pass reaches every operator
that can be folded. An operation that would fault stays, because its fault is what the code does.

## Main definitions

* `UnaryOp.apply`, `BinaryOp.apply?`: what an operator computes on constants.
* `fold`: folds the tree under a node and answers the node that takes its place.
* `foldBody`: folds every entry of the body.
-/

namespace StackTree

/-! ## Arithmetic -/

/-- What a unary operator computes. -/
def UnaryOp.apply : UnaryOp → Int32 → Int32
  | .neg, v => -v
  | .not, v => ~~~v

/-- One if the condition holds, zero otherwise. -/
def truth (condition : Bool) : Int32 := if condition then 1 else 0

/-- Whether dividing these faults: the quotient does not exist or does not fit. -/
def divisionFaults (left right : Int32) : Bool :=
  right == 0 || (left == Int32.minValue && right == -1)

/--
What a binary operator computes, unless it faults. A shift counts its second operand modulo 32.
-/
def BinaryOp.apply? (op : BinaryOp) (left right : Int32) : Option Int32 :=
  match op with
  | .add => some (left + right)
  | .sub => some (left - right)
  | .mul => some (left * right)
  | .div => if divisionFaults left right then none else some (left / right)
  | .rem => if divisionFaults left right then none else some (left % right)
  | .and => some (left &&& right)
  | .or => some (left ||| right)
  | .xor => some (left ^^^ right)
  | .shl => some (left <<< right)
  | .shr => some (left >>> right)
  | .ceq => some (truth (left == right))
  | .clt => some (truth (decide (left < right)))
  | .cgt => some (truth (decide (right < left)))

/-! ## Trees -/

/-- A routine that is being folded. -/
structure FoldState where
  /-- The routine. -/
  code : Routine
  /-- How many operators were replaced by constants. -/
  folded : Nat
deriving DecidableEq, Repr

/-- A computation that reads and changes a routine, counts its replacements and may fail. -/
abbrev Fold := EStateM Fault FoldState

/-- An edit of the routine leaves the count as it is. -/
instance : MonadLift Edit Fold where
  monadLift edit := fun ⟨code, folded⟩ =>
    match edit code with
    | .ok answer code => .ok answer ⟨code, folded⟩
    | .error fault code => .error fault ⟨code, folded⟩

/-- The value of a node that is a constant. -/
def Routine.constant? (r : Routine) (n : NodeId) : Except Fault (Option Int32) := do
  match ← r.kind n with
  | .const value => return some value
  | _ => return none

/-- Allocates the constant that takes an operator's place and counts the replacement. -/
def foldTo (value : Int32) : Fold NodeId := do
  modify fun s => { s with folded := s.folded + 1 }
  (alloc (.const value) [] : Edit NodeId)

/-- Folds a unary node whose operand has been folded. -/
def foldUnary (op : UnaryOp) (n : NodeId) : Fold NodeId := do
  let operand ← (ask (·.child n 0) : Edit NodeId)
  match ← (ask (·.constant? operand) : Edit (Option Int32)) with
  | some value => foldTo (op.apply value)
  | none => return n

/-- Folds a binary node whose operands have been folded. -/
def foldBinary (op : BinaryOp) (n : NodeId) : Fold NodeId := do
  let left ← (ask (·.child n 0) : Edit NodeId)
  let right ← (ask (·.child n 1) : Edit NodeId)
  let leftValue ← (ask (·.constant? left) : Edit (Option Int32))
  let rightValue ← (ask (·.constant? right) : Edit (Option Int32))
  match leftValue, rightValue with
  | some l, some r =>
    match op.apply? l r with
    | some value => foldTo value
    | none => return n
  | _, _ => return n

/-- Folds the tree under a node, going at most so many nodes deep. -/
def foldWithin : Nat → NodeId → Fold NodeId
  | 0, _ => throw Routine.endlessPath
  | bound + 1, n => do
    match ← (ask (·.kind n) : Edit Kind) with
    | .const _ | .load _ | .pop | .peek => return n
    | .unary op =>
      mapChildren (foldWithin bound) n
      foldUnary op n
    | .binary op =>
      mapChildren (foldWithin bound) n
      foldBinary op n
    | .store _ | .call _ _ | .ret =>
      mapChildren (foldWithin bound) n
      return n

/--
Folds the tree under a node and answers the node that takes its place, which hangs nowhere if it is
a new one. The node itself is not released.
-/
def fold (n : NodeId) : Fold NodeId := do foldWithin (← get).code.pathBound n

/-- Folds the operands of a node. -/
def foldChildren (n : NodeId) : Fold Unit := do
  let bound := (← get).code.pathBound
  mapChildren (foldWithin bound) n

/-! ## Bodies -/

/-- Folds one entry of the body, which was listed at `index`. -/
def foldEntry (n : NodeId) (index : Nat) : Fold Unit := do
  let replacement ← fold n
  if replacement = n then
    return
  else
    (discard n : Edit Unit)
    modify fun s => { s with code := { s.code with body := s.code.body.set index replacement } }

/-- Folds the listed entries in order, each with the position where the body lists it. -/
def foldEntries (entries : List (NodeId × Nat)) : Fold Unit :=
  entries.forM fun (n, index) => foldEntry n index

/-- Folds every entry of the body and answers how many operators became constants. -/
def foldBody : Edit Nat := fun r =>
  let entries := r.body.zipIdx
  match foldEntries entries { code := r, folded := 0 } with
  | .ok () s => .ok s.folded s.code
  | .error fault s => .error fault s.code

end StackTree
