import StackTree.Operator
import Mathlib.Algebra.Group.Int.Defs

/-!
# Arithmetic of the machine

What the operators mean on 32-bit integers, said through the integers: the exact result wraps
around, a quotient goes toward zero, a shift counts modulo 32, and a division traps where its
quotient does not exist or does not fit.
-/

namespace StackTree

/-- The meaning of a unary operator. -/
def UnaryOp.denote (op : UnaryOp) (v : Int32) : Int32 :=
  match op with
  | .neg => Int32.ofInt (-v.toInt)
  | .not => Int32.ofInt (-v.toInt - 1)

/-- How far a shift goes. -/
def shiftCount (v : Int32) : Nat := (v.toInt % 32).toNat

/-- A number that is one if something holds and zero if not. -/
def indicator (p : Prop) [Decidable p] : Int32 := Int32.ofInt (if p then 1 else 0)

/-- Whether a division traps. -/
def Traps (left right : Int32) : Prop :=
  right.toInt = 0 ∨ (left.toInt = -2 ^ 31 ∧ right.toInt = -1)

instance (left right : Int32) : Decidable (Traps left right) := by
  unfold Traps
  infer_instance

/-- The meaning of a binary operator, none if it traps. -/
def BinaryOp.denote? (op : BinaryOp) (left right : Int32) : Option Int32 :=
  match op with
  | .add => some (Int32.ofInt (left.toInt + right.toInt))
  | .sub => some (Int32.ofInt (left.toInt - right.toInt))
  | .mul => some (Int32.ofInt (left.toInt * right.toInt))
  | .div => if Traps left right then none else some (Int32.ofInt (left.toInt.tdiv right.toInt))
  | .rem => if Traps left right then none else some (Int32.ofInt (left.toInt.tmod right.toInt))
  | .and => some ⟨⟨left.toBitVec &&& right.toBitVec⟩⟩
  | .or => some ⟨⟨left.toBitVec ||| right.toBitVec⟩⟩
  | .xor => some ⟨⟨left.toBitVec ^^^ right.toBitVec⟩⟩
  | .shl => some (Int32.ofInt (left.toInt * 2 ^ shiftCount right))
  | .shr => some (Int32.ofInt (left.toInt / 2 ^ shiftCount right))
  | .ceq => some (indicator (left.toInt = right.toInt))
  | .clt => some (indicator (left.toInt < right.toInt))
  | .cgt => some (indicator (right.toInt < left.toInt))

end StackTree
