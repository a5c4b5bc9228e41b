import StackTree.Machine.Run

/-!
# Running on a stack

A stack machine keeps every value on one stack: each step takes its operands off and pushes its
result. Flat code is a list of such steps. A tree runs on the same machine by running its operands
in order and then its node, where the value of a pop is on the stack already.

## Main definitions

* `Machine.stackStep`: one step of the stack machine.
* `Machine.runOn`, `Machine.runAllOn`: trees on a machine with given steps.
-/

namespace StackTree.Machine

/-- One step of the stack machine, with so many operands. -/
def stackStep (host : Host) (kind : Kind) (operands : Nat) : EStateM Halt State Unit := fun s =>
  match kind with
  | .peek =>
    match s.stack with
    | [] => .error .underflow s
    | v :: rest => .ok () { s with stack := v :: v :: rest }
  | kind =>
    if s.stack.length < operands then
      .error .underflow s
    else
      let left := s.stack.drop operands
      match perform host kind (s.stack.take operands).reverse s.store with
      | .ok v store =>
        .ok () { stack := if kind.producesValue then v :: left else left, store := store }
      | .error halt store => .error halt { stack := left, store := store }

section

variable {m : Type → Type} [Monad m]

/-- What is done at a pop, if a value was `pushed` since the operands began. -/
def skipPop (misplaced : m Unit) (pushed : Bool) : m Unit := if pushed then misplaced else pure ()

mutual

/--
Runs a tree on a machine that has the given steps: the operands in order, then the node. The value
of a pop is on the stack already, and values that the other operands push now would hide it; a pop
that comes after one of them is `misplaced`.
-/
def runOn (step : Kind → Nat → m Unit) (misplaced : m Unit) : Tree → m Unit
  | .node _ kind _ children => do
    runOperands step misplaced false children
    if kind = .pop then pure () else step kind children.length

/-- Runs operands in order; `pushed` says whether one of them has pushed its value. -/
def runOperands (step : Kind → Nat → m Unit) (misplaced : m Unit) : Bool → List Tree → m Unit
  | _, [] => pure ()
  | pushed, t :: rest =>
    if t.kind = .pop then do
      skipPop misplaced pushed
      runOperands step misplaced pushed rest
    else do
      runOn step misplaced t
      runOperands step misplaced true rest

end

/-- Runs trees in order. -/
def runAllOn (step : Kind → Nat → m Unit) (misplaced : m Unit) (trees : List Tree) : m Unit :=
  trees.forM (runOn step misplaced)

end

end StackTree.Machine
