import StackTree.Routine.Tree
import StackTree.FlatCode.Basic

/-!
# Terms

A `Term` is a tree without the names of its nodes: what it does and nothing about where it is
stored. Two trees of different routines are compared through their terms, and a structured program
is a list of terms.

## Main definitions

* `Tree.term`: the term of a tree.
* `Term.WellFormed`: a term that a structured program may hold.
* `Term.flatten`: the flat code that computes a term.

## Main results

* `Term.length_flatten`: flat code has an entry for each node.
-/

namespace StackTree

/-- A tree without names. -/
inductive Term where
  | node (kind : Kind) (operands : List Term)
deriving Repr, Inhabited

namespace Term

/-- What the topmost node does. -/
def kind : Term → Kind
  | node kind _ => kind

mutual

/-- How many nodes the term has. -/
def size : Term → Nat
  | node _ operands => 1 + sizes operands

/-- How many nodes the terms have together. -/
def sizes : List Term → Nat
  | [] => 0
  | term :: rest => term.size + sizes rest

end

/-! ## Structured programs -/

mutual

/--
A term of a structured program: nothing in it deals with the evaluation stack, every node has as
many operands as its kind takes, and every operand leaves a value.
-/
def WellFormed : Term → Prop
  | node kind operands =>
    kind ≠ .pop ∧ kind ≠ .peek ∧ kind.accepts operands.length = true ∧ OperandsWellFormed operands

/-- Terms that may be operands. -/
def OperandsWellFormed : List Term → Prop
  | [] => True
  | term :: rest =>
    term.kind.producesValue = true ∧ term.WellFormed ∧ OperandsWellFormed rest

end

mutual

/-- Whether a term is well-formed is decided node by node. -/
def decideWellFormed : (t : Term) → Decidable t.WellFormed
  | node kind operands =>
    have := decideOperandsWellFormed operands
    decidable_of_iff (kind ≠ .pop ∧ kind ≠ .peek ∧ kind.accepts operands.length = true ∧
      OperandsWellFormed operands) (by rw [WellFormed])

/-- Whether terms may be operands is decided term by term. -/
def decideOperandsWellFormed : (ts : List Term) → Decidable (OperandsWellFormed ts)
  | [] => isTrue trivial
  | t :: ts =>
    have := decideWellFormed t
    have := decideOperandsWellFormed ts
    decidable_of_iff (t.kind.producesValue = true ∧ t.WellFormed ∧ OperandsWellFormed ts)
      (by rw [OperandsWellFormed])

end

instance : DecidablePred WellFormed := decideWellFormed

/-! ## Flat code of a term -/

/-- The entry that does what a node of that kind with so many operands does. -/
def entry : (kind : Kind) → (operands : Nat) → FlatEntry
  | .const value, _ => .const value
  | .load slot, _ => .load slot
  | .pop, _ | .peek, _ => .peek
  | .unary op, _ => .unary op
  | .binary op, _ => .binary op
  | .store slot, _ => .store slot
  | .call method returnsValue, operands => .call method (UInt64.ofNat operands) returnsValue
  | .ret, operands => .ret (operands != 0)

mutual

/-- The flat code of a term: that of its operands first to last, then its own entry. -/
def flatten : Term → List FlatEntry
  | node kind operands => flattenAll operands ++ [entry kind operands.length]

/-- The flat code of several terms, one after the other. -/
def flattenAll : List Term → List FlatEntry
  | [] => []
  | term :: rest => term.flatten ++ flattenAll rest

end

mutual

/-- Flat code has an entry for each node. -/
theorem length_flatten : (term : Term) → term.flatten.length = term.size
  | node _ operands => by
    simp only [flatten, size, List.length_append, List.length_singleton,
      length_flattenAll operands]
    omega

theorem length_flattenAll : (terms : List Term) → (flattenAll terms).length = sizes terms
  | [] => rfl
  | term :: rest => by
    simp only [flattenAll, sizes, List.length_append, length_flatten term, length_flattenAll rest]

end

/-! ## Terms without the value flag -/

/-- The kind with the value flag of a call set, which texts do not show. -/
def unflagged : Kind → Kind
  | .call method _ => .call method true
  | kind => kind

mutual

/-- The term with the value flags of all calls set. -/
def unflag : Term → Term
  | node kind operands => node (unflagged kind) (unflagAll operands)

/-- The terms with the value flags of all calls set. -/
def unflagAll : List Term → List Term
  | [] => []
  | term :: rest => term.unflag :: unflagAll rest

end

end Term

namespace Tree

mutual

/-- What the tree does. -/
def term : Tree → Term
  | node _ kind _ children => .node kind (terms children)

/-- What each of the trees does. -/
def terms : List Tree → List Term
  | [] => []
  | tree :: rest => tree.term :: terms rest

end

theorem length_terms (ts : List Tree) : (terms ts).length = ts.length := by
  induction ts with
  | nil => rfl
  | cons t ts ih => rw [terms, List.length_cons, ih, List.length_cons]

theorem kind_term (t : Tree) : t.term.kind = t.kind := by
  obtain ⟨id, kind, effects, children⟩ := t
  rfl

end Tree

end StackTree
