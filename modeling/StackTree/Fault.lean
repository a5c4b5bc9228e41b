import StackTree.Kind
import StackTree.NodeId

/-!
# Faults

A `Fault` is a reason for which an operation can fail. Its wording and its stable code are functions
of the reason.
-/

namespace StackTree

/-- Why an operation failed. -/
inductive Fault where
  /-- A file could not be read or written. -/
  | io (text : String)
  /-- A document is not of the expected form. -/
  | json (text : String)
  /-- The node hangs somewhere already. -/
  | alreadyAttached (child parent : NodeId) (slot : Nat)
  /-- The node has no such slot. -/
  | noSuchSlot (node : NodeId) (slot count : Nat)
  /-- A node of this kind cannot have so many operands. -/
  | arity (kind : Kind) (expected got : Nat)
  /-- The node would hang under itself. -/
  | cycle (child parent : NodeId)
  /-- The node does not exist, or no longer does. -/
  | released (node : NodeId)
  /-- The node hangs under another one. -/
  | stillAttached (node parent : NodeId)
  /-- The node is listed twice. -/
  | repeated (node : NodeId)
  /-- The stored effects of a node are not those of its tree. -/
  | staleEffects (node : NodeId) (cached computed : Effects)
  /-- An entry of flat code cannot be built. -/
  | flatEntry (index : Nat) (text : String)
  /-- The settings cannot be read. -/
  | settings (text : String)
  /-- A condition that the library rules out. -/
  | internal (text : String)
deriving DecidableEq, Repr

namespace Fault

/-- The text shown for a fault. -/
def message : Fault → String
  | io text => "I/O error: " ++ text
  | json text => "JSON error: " ++ text
  | alreadyAttached child parent slot =>
    "Instruction " ++ child.text ++ " already belongs to " ++ parent.text ++ " (slot "
      ++ toString slot ++ ")"
  | noSuchSlot node slot count =>
    "Slot " ++ toString slot ++ " is out of range for " ++ node.text ++ " with "
      ++ toString count ++ " children"
  | arity kind expected got =>
    kind.name ++ " expects " ++ toString expected ++ " children, got " ++ toString got
  | cycle child parent =>
    "Attaching " ++ child.text ++ " under " ++ parent.text ++ " would create a cycle"
  | released node => "Instruction " ++ node.text ++ " has been released"
  | stillAttached node parent =>
    "Instruction " ++ node.text ++ " is still attached to " ++ parent.text
  | repeated node => "Instruction " ++ node.text ++ " appears more than once in the block"
  | staleEffects node cached computed =>
    "Cached flags of " ++ node.text ++ " are " ++ cached.text ++ ", recomputed " ++ computed.text
  | flatEntry index text => "Listing error at entry " ++ toString index ++ ": " ++ text
  | settings text => "Configuration error: " ++ text
  | internal text => "Internal error: " ++ text

/-- The stable code of a fault. -/
def code : Fault → String
  | io _ => "stackir::io_error"
  | json _ => "stackir::json_error"
  | alreadyAttached .. => "stackir::already_parented"
  | noSuchSlot .. => "stackir::slot_out_of_range"
  | arity .. => "stackir::cardinality"
  | cycle .. => "stackir::cyclic_child"
  | released _ => "stackir::dead_instruction"
  | stillAttached .. => "stackir::still_attached"
  | repeated _ => "stackir::duplicate_entry"
  | staleEffects .. => "stackir::flags_mismatch"
  | flatEntry .. => "stackir::listing_error"
  | settings _ => "stackir::config_error"
  | internal _ => "stackir::internal_error"

/-- Whether the fault is an attempt to break the shape of the trees. -/
def isStructural : Fault → Bool
  | alreadyAttached .. | noSuchSlot .. | arity .. | cycle .. | released _ | stillAttached ..
  | repeated _ => true
  | _ => false

end Fault

end StackTree
