import StackTree.Effects
import StackTree.Operator

/-!
# Kinds of nodes

A `Kind` is what a node does, without its operands. It fixes the node's name in texts, the effects
that the node adds to those of its operands, how many operands it takes and whether it leaves a
value behind.
-/

namespace StackTree

/-- What a node does; its operands are stored beside it. -/
inductive Kind where
  /-- A 32-bit constant. -/
  | const (value : Int32)
  /-- The value of a local variable. -/
  | load (slot : UInt32)
  /-- A pending operand, to be taken from the evaluation stack. -/
  | pop
  /-- The top of the evaluation stack, which stays where it is. -/
  | peek
  /-- An operator on one operand. -/
  | unary (op : UnaryOp)
  /-- An operator on two operands. -/
  | binary (op : BinaryOp)
  /-- Stores its operand in a local variable. -/
  | store (slot : UInt32)
  /-- Calls a method with any number of arguments. -/
  | call (method : String) (returnsValue : Bool)
  /-- Leaves the routine, with or without a value. -/
  | ret
deriving DecidableEq, Repr, Inhabited

namespace Kind

/-- The name of the operation in texts. -/
def name : Kind → String
  | const _ => "ldc.i4"
  | load _ => "ldloc"
  | pop => "pop"
  | peek => "peek"
  | unary op => op.name
  | binary op => op.name
  | store _ => "stloc"
  | call _ _ => "call"
  | ret => "ret"

/-- The effects that the operation itself adds to those of its operands. -/
def intrinsic : Kind → Effects
  | const _ | unary _ => ∅
  | load _ => .read
  | pop => .pop
  | peek => .peek
  | binary op => if op.mayThrow then .raise else ∅
  | store _ => .write
  | call _ _ => .read ∪ .write ∪ .raise
  | ret => .exit

/-- Whether evaluating the node leaves a value behind. -/
def producesValue : Kind → Bool
  | store _ | ret => false
  | call _ returnsValue => returnsValue
  | _ => true

/-- Whether a node of this kind may have that many operands. -/
def accepts (k : Kind) (operands : Nat) : Bool :=
  match k with
  | const _ | load _ | pop | peek => operands == 0
  | unary _ | store _ => operands == 1
  | binary _ => operands == 2
  | call _ _ => true
  | ret => decide (operands ≤ 1)

/-- The operand count that a refusal names as the expected one. -/
def arity : Kind → Nat
  | const _ | load _ | pop | peek | call _ _ => 0
  | unary _ | store _ | ret => 1
  | binary _ => 2

/-- The name of a local variable in texts. -/
def localName (slot : UInt32) : String := "V_" ++ toString slot.toNat

end Kind

end StackTree
