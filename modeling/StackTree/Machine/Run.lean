import StackTree.Machine.Arithmetic
import StackTree.Routine.Forest

/-!
# Running trees

What the trees of a routine do when they run: entries run in order on a stack of values, local
variables and a log of what can be observed. Operands run first to last and then their node. What a
call does is a parameter, so a statement about every `Host` is one about every program around the
routine.

## Main definitions

* `Machine.eval`: the evaluation of one tree.
* `Machine.runEntry`, `Machine.runEntries`: running entries on a stack.
* `Machine.Supplied`: a static count of what entries need on the stack.
* `Machine.observe`: what can be told of a run once it is over.
-/

namespace StackTree.Machine

/-- The values of the local variables. -/
abbrev Locals := UInt32 → Int32

/-- What can be observed of a run. -/
inductive Event where
  /-- A local variable got a value. -/
  | stored (slot : UInt32) (value : Int32)
  /-- A method was called. -/
  | called (method : String) (arguments : List Int32)
  /-- An operation or a call trapped. -/
  | trapped
  /-- The routine was left. -/
  | returned (value : Option Int32)
deriving DecidableEq, Repr

/--
What calls do: from the method, the arguments and the locals to new locals and a result, or none if
the call traps.
-/
abbrev Host := String → List Int32 → Locals → Locals × Option Int32

/-- Why a run ends before its last entry is done. -/
inductive Halt where
  | trapped
  | returned
  /-- An entry takes or looks at more values than the stack holds. -/
  | underflow
deriving DecidableEq, Repr

/-- What a run changes besides the stack. -/
structure Store where
  /-- The local variables. -/
  locals : Locals
  /-- What was observed, the most recent first. -/
  log : List Event

/-- A computation that reads and changes locals and log and may end the run. -/
abbrev Run := EStateM Halt Store

/-! ## Trees -/

/-- Adds to the log. -/
def note (event : Event) : Run Unit := modify fun s => { s with log := event :: s.log }

/-- Logs a trap and ends the run. -/
def trap : Run Int32 := do
  note .trapped
  throw .trapped

/-- The value that stands for the result of a node without one. -/
def dummy : Int32 := 0

/-- Calls a method. -/
def call (host : Host) (method : String) (arguments : List Int32) : Run Int32 := do
  note (.called method arguments)
  let (locals, reply) := host method arguments (← get).locals
  modify fun s => { s with locals := locals }
  match reply with
  | some v => return v
  | none => trap

/-- What a node does once its operands are evaluated, unless it deals with the stack. -/
def perform (host : Host) (kind : Kind) (operands : List Int32) : Run Int32 := do
  match kind, operands with
  | .const v, _ => return v
  | .load slot, _ => return (← get).locals slot
  | .unary op, v :: _ => return op.denote v
  | .binary op, left :: right :: _ =>
    match op.denote? left right with
    | some v => return v
    | none => trap
  | .store slot, v :: _ =>
    modify fun s => { s with locals := fun i => if i = slot then v else s.locals i }
    note (.stored slot v)
    return dummy
  | .call method returnsValue, arguments =>
    let v ← call host method arguments
    return if returnsValue then v else dummy
  | .ret, operands =>
    note (.returned operands.head?)
    throw .returned
  | _, _ => return dummy

/-- An evaluation inside one entry: a run with the values for the pops still to come. -/
abbrev Eval := StateT (List Int32) Run

/-- The value for the next pop. -/
def takeSupply : Eval Int32 := do
  match ← get with
  | [] => throw .underflow
  | v :: rest =>
    set rest
    return v

mutual

/-- Evaluates a tree. `top` is what a peek sees. -/
def eval (host : Host) (top : Int32) : Tree → Eval Int32
  | .node _ kind _ children =>
    match kind with
    | .pop => takeSupply
    | .peek => return top
    | kind => do perform host kind (← evalAll host top children)

/-- Evaluates trees in order. -/
def evalAll (host : Host) (top : Int32) : List Tree → Eval (List Int32)
  | [] => return []
  | tree :: rest => do
    let v ← eval host top tree
    return v :: (← evalAll host top rest)

end

/-! ## Entries -/

mutual

/-- Whether a tree looks at the stack top. -/
def hasPeek : Tree → Bool
  | .node _ kind _ children => kind == .peek || anyPeek children

/-- Whether one of the trees looks at the stack top. -/
def anyPeek : List Tree → Bool
  | [] => false
  | tree :: rest => hasPeek tree || anyPeek rest

end

/-- How many values an entry needs on the stack. -/
def demand (tree : Tree) : Nat := max tree.popCount (if hasPeek tree then 1 else 0)

/-- How many values are on the stack after an entry, if there were so many before. -/
def depthAfter (depth : Nat) (tree : Tree) : Nat :=
  depth - tree.popCount + if tree.kind.producesValue then 1 else 0

/-- Whether entries never take or look at more values than there are, with so many at first. -/
def Supplied : Nat → List Tree → Prop
  | _, [] => True
  | depth, tree :: rest => demand tree ≤ depth ∧ Supplied (depthAfter depth tree) rest

/-- The count can be carried out. -/
instance decidableSupplied : (depth : Nat) → (trees : List Tree) → Decidable (Supplied depth trees)
  | _, [] => isTrue trivial
  | depth, tree :: rest =>
    have := decidableSupplied (depthAfter depth tree) rest
    inferInstanceAs (Decidable (_ ∧ _))

/-- The state between two entries. -/
structure State where
  /-- The values, the top first. -/
  stack : List Int32
  /-- The locals and the log. -/
  store : Store

/--
Runs an entry. It takes the values for its pops off the stack at its start, the last pop in the
order of evaluation getting the top, and pushes its result if it has one.
-/
def runEntry (host : Host) (tree : Tree) : EStateM Halt State Unit := fun s =>
  if s.stack.length < demand tree then
    .error .underflow s
  else
    let left := s.stack.drop tree.popCount
    match eval host (s.stack.headD dummy) tree (s.stack.take tree.popCount).reverse s.store with
    | .ok (v, _) store =>
      .ok () { stack := if tree.kind.producesValue then v :: left else left, store := store }
    | .error halt store => .error halt { stack := left, store := store }

/-- Runs entries in order. -/
def runEntries (host : Host) (trees : List Tree) : EStateM Halt State Unit :=
  trees.forM (runEntry host)

/-! ## What can be told of a run -/

/-- What can be told of a run once it is over. -/
structure Observation where
  /-- The stack that the run leaves, or why it ended early. -/
  ending : Except Halt (List Int32)
  /-- The locals and the log. -/
  store : Store

/-- Observes a run. What an entry that ends the run leaves on the stack cannot be told. -/
def observe (host : Host) (trees : List Tree) (s : State) : Observation :=
  match runEntries host trees s with
  | .ok () s => ⟨.ok s.stack, s.store⟩
  | .error halt s => ⟨.error halt, s.store⟩

end StackTree.Machine
