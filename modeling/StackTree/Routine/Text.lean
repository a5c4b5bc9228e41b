import StackTree.Routine.Tree

/-!
# Texts of nodes

A node with operands is written as its name and the operands between parentheses, a leaf as its name
and what it carries: `mul(add(ldc.i4 1, ldc.i4 2), ldc.i4 3)`. The text is written piece by piece
while the trees are walked, so that the same function serves a text in memory and a sink that may
refuse a piece. What refuses a piece ends the walk.

## Main definitions

* `Kind.heading`, `Kind.encloses`: how the kind of a node decides on its text.
* `Routine.renderTo`: writes the text of the tree under a node.
* `Routine.render`: the text in memory.
* `Sink`, `Routine.renderInto`: the text where room is limited.
* `Routine.text`: the whole routine.
-/

namespace StackTree

/-! ## What the kind decides -/

/-- The pieces of an integer: the sign, if it has one, and the digits. -/
def integerPieces (i : Int) : List String :=
  if i < 0 then ["-", toString i.natAbs] else [toString i.natAbs]

namespace Kind

/-- The pieces that a node is written with before its operands. -/
def heading : Kind → List String
  | const value => (const value).name :: " " :: integerPieces value.toInt
  | load slot => [(load slot).name, " ", "V_", toString slot.toNat]
  | store slot => [(store slot).name ++ " " ++ localName slot]
  | call method returnsValue => [(call method returnsValue).name ++ " " ++ method]
  | kind => [kind.name]

/-- Whether parentheses follow, with so many operands between them. A call has them even when it has
no operands, and leaving the routine has them only with a value. -/
def encloses (operands : Nat) : Kind → Bool
  | const _ | load _ | pop | peek => false
  | ret => operands != 0
  | unary _ | binary _ | store _ | call _ _ => true

end Kind

/-! ## Writing piece by piece -/

section Writing

variable {σ : Type} (put : String → EStateM Fault σ Unit)

/-- Writes operands, with a comma before each but the first. -/
def putOperands (putNode : NodeId → EStateM Fault σ Unit) : List NodeId → EStateM Fault σ Unit
  | [] => pure ()
  | n :: rest => do
    putNode n
    forM rest fun m => do
      put ", "
      putNode m

namespace Routine

/-- Writes the text of the tree under a node, going at most so many nodes deep. -/
def renderWithin (r : Routine) : Nat → NodeId → EStateM Fault σ Unit
  | 0, _ => throw endlessPath
  | bound + 1, n =>
    match r.node n with
    | .error fault => throw fault
    | .ok node => do
      forM node.kind.heading put
      if node.kind.encloses node.children.length then
        put "("
        putOperands put (r.renderWithin bound) node.children
        put ")"

/-- Writes the text of the tree under a node. -/
def renderTo (r : Routine) (n : NodeId) : EStateM Fault σ Unit :=
  r.renderWithin put r.pathBound n

end Routine

end Writing

/-! ## Sinks of limited room -/

/-- Where a text goes that may not take all of it. -/
structure Sink where
  /-- How many more bytes it takes. -/
  room : Nat
  /-- What it has taken. -/
  taken : String := ""
deriving DecidableEq, Repr

namespace Sink

/-- The sink once it has taken a text. -/
def after (sink : Sink) (text : String) : Sink :=
  { room := sink.room - text.utf8ByteSize, taken := sink.taken ++ text }

/-- Takes a piece whole, or refuses it. -/
def write (piece : String) : EStateM Fault Sink Unit := fun sink =>
  if piece.utf8ByteSize ≤ sink.room then
    .ok () (sink.after piece)
  else
    .error (.internal "failed to write instruction text") sink

end Sink

namespace Routine

/-- Writes the text of the tree under a node into a sink; the first refusal ends it. -/
def renderInto (r : Routine) (n : NodeId) : EStateM Fault Sink Unit := r.renderTo Sink.write n

/-- How many bytes are left when the text of the tree under a node goes into limited room. -/
def renderLimited (r : Routine) (n : NodeId) (limit : Nat) : Except Fault Nat :=
  match r.renderInto n { room := limit } with
  | .ok () sink => .ok sink.room
  | .error fault _ => .error fault

/-! ## Texts in memory -/

/-- Appends a piece to a text, which takes everything. -/
def putText (piece : String) : EStateM Fault String Unit := modify (· ++ piece)

/-- The text of the tree under a node. -/
def render (r : Routine) (n : NodeId) : Except Fault String :=
  match r.renderTo putText n "" with
  | .ok () text => .ok text
  | .error fault _ => .error fault

/-- The text of the whole routine: a line for each entry of the body, between braces. -/
def text (r : Routine) : Except Fault String := do
  let entries ← r.body.mapM r.render
  let lines := entries.map fun entry => "    " ++ entry ++ "\n"
  return "function " ++ r.name ++ " \x7b\n" ++ String.join lines ++ "\x7d"

end Routine

end StackTree
