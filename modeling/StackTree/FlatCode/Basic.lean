import StackTree.Routine.Edit

/-!
# Flat code

Flat code is a method body as a stack machine runs it: each entry takes values off the evaluation
stack and may leave one. Building it gives a routine with one node on the top level for each entry;
whatever an entry takes from the stack becomes a pending operand.

## Main definitions

* `FlatEntry`, `FlatCode`.
* `FlatEntry.pops`, `FlatEntry.pushes`: how an entry moves the stack.
* `FlatCode.validate`: checks that no entry takes more values than there are.
* `FlatCode.build`: the routine.
-/

namespace StackTree

/-- One entry of flat code. -/
inductive FlatEntry where
  /-- A 32-bit constant. -/
  | const (value : Int32)
  /-- The value of a local variable. -/
  | load (slot : UInt32)
  /-- The top of the stack, which stays where it is. -/
  | peek
  /-- An operator on one value. -/
  | unary (op : UnaryOp)
  /-- An operator on two values. -/
  | binary (op : BinaryOp)
  /-- Stores a value in a local variable. -/
  | store (slot : UInt32)
  /-- Calls a method with so many arguments. -/
  | call (method : String) (args : UInt64) (returnsValue : Bool)
  /-- Leaves the routine, with or without a value. -/
  | ret (value : Bool)
deriving DecidableEq, Repr

namespace FlatEntry

/-- What the node of the entry does. -/
def kind : FlatEntry → Kind
  | const value => .const value
  | load slot => .load slot
  | peek => .peek
  | unary op => .unary op
  | binary op => .binary op
  | store slot => .store slot
  | call method _ returnsValue => .call method returnsValue
  | ret _ => .ret

/-- How many values the entry takes off the stack. -/
def pops : FlatEntry → Nat
  | const _ | load _ | peek => 0
  | unary _ | store _ => 1
  | binary _ => 2
  | call _ args _ => args.toNat
  | ret value => value.toNat

/-- How many values the entry leaves on the stack. -/
def pushes : FlatEntry → Nat
  | store _ | ret _ => 0
  | call _ _ returnsValue => returnsValue.toNat
  | _ => 1

/-- How many values the entry needs on the stack. -/
def needs : FlatEntry → Nat
  | peek => 1
  | entry => entry.pops

end FlatEntry

/-- The flat code of one method body. -/
structure FlatCode where
  /-- The name of the method. -/
  name : String
  /-- The entries in order. -/
  entries : List FlatEntry
deriving DecidableEq, Repr

namespace FlatCode

/-- Checks entries from one position on, where the stack holds `depth` values. -/
def validateFrom : (index depth : Nat) → List FlatEntry → Except Fault Unit
  | _, _, [] => .ok ()
  | index, depth, entry :: rest =>
    if depth < entry.needs then
      .error (.flatEntry index ("stack underflow: needs " ++ toString entry.needs ++ " value(s), "
        ++ toString depth ++ " available"))
    else
      validateFrom (index + 1) (depth - entry.pops + entry.pushes) rest

/-- Checks that no entry takes or looks at more values than the stack holds. -/
def validate (code : FlatCode) : Except Fault Unit := validateFrom 0 0 code.entries

/-- Allocates a node for each entry. -/
def allocEntries : List FlatEntry → Edit (List NodeId)
  | [] => return []
  | entry :: rest => do
    let n ← allocPending entry.kind entry.pops
    return n :: (← allocEntries rest)

/-- Builds the routine of valid flat code. -/
def build (code : FlatCode) : Except Fault Routine := do
  code.validate
  match allocEntries code.entries { name := code.name } with
  | .ok body r => .ok { r with body := body }
  | .error fault _ => .error fault

end FlatCode

end StackTree
