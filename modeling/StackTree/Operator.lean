/-!
# Operators

The closed sets of unary and binary operators with their names. What an operator computes on
constants is in `StackTree.Folding`.

## Main results

* `UnaryOp.ofName_name`, `BinaryOp.ofName_name`: an operator is read back from its name.
-/

namespace StackTree

/-- Operators on one value. -/
inductive UnaryOp where
  | neg
  | not
deriving DecidableEq, Repr, Inhabited

namespace UnaryOp

/-- Every unary operator. -/
def all : List UnaryOp := [neg, not]

/-- The name that texts use. -/
def name : UnaryOp → String
  | neg => "neg"
  | not => "not"

/-- The operator of that name. -/
def ofName? (name : String) : Option UnaryOp := all.find? (·.name == name)

@[simp] theorem ofName_name (op : UnaryOp) : ofName? op.name = some op := by
  cases op <;> decide

end UnaryOp

/-- Operators on two values. -/
inductive BinaryOp where
  | add
  | sub
  | mul
  | div
  | rem
  | and
  | or
  | xor
  | shl
  | shr
  | ceq
  | clt
  | cgt
deriving DecidableEq, Repr, Inhabited

namespace BinaryOp

/-- Every binary operator. -/
def all : List BinaryOp := [add, sub, mul, div, rem, and, or, xor, shl, shr, ceq, clt, cgt]

/-- The name that texts use. -/
def name : BinaryOp → String
  | add => "add"
  | sub => "sub"
  | mul => "mul"
  | div => "div"
  | rem => "rem"
  | and => "and"
  | or => "or"
  | xor => "xor"
  | shl => "shl"
  | shr => "shr"
  | ceq => "ceq"
  | clt => "clt"
  | cgt => "cgt"

/-- The operator of that name. -/
def ofName? (name : String) : Option BinaryOp := all.find? (·.name == name)

/-- Division and remainder are the operators that can fault. -/
def mayThrow : BinaryOp → Bool
  | div | rem => true
  | _ => false

@[simp] theorem ofName_name (op : BinaryOp) : ofName? op.name = some op := by
  cases op <;> decide

end BinaryOp

end StackTree
