import StackTree.Routine.Basic

/-!
# Audits

An audit recomputes what a routine stores twice and compares: the link of every operand with the
slot that it sits in, and the stored effects of every node with those of its tree.

## Main definitions

* `Routine.auditEffects`: recomputes the effects from the leaves up.
* `Routine.auditLinks`: compares every link with the slot.
* `Routine.audit`: both, for every entry of the body.
-/

namespace StackTree.Routine

/-! ## Effects -/

/--
Recomputes the effects of the tree under a node and counts the nodes it finds in order. A stale node
is reported only after its later siblings were looked at, but an operand that does not exist ends
the audit of its node at once.
-/
def auditEffectsWithin (r : Routine) : Nat → NodeId → ExceptT Fault (StateM Nat) Effects
  | 0, _ => throw endlessPath
  | bound + 1, n => do
    let node ← (r.node n : Except Fault Node)
    let union ← node.children.foldlM
      (fun (acc : Except Fault Effects) child => do
        let _ ← (r.node child : Except Fault Node)
        let found ← (ExceptT.lift (r.auditEffectsWithin bound child).run :
          ExceptT Fault (StateM Nat) (Except Fault Effects))
        return do return (← acc) ∪ (← found))
      (.ok node.kind.intrinsic)
    let computed ← union
    modify (· + 1)
    if node.effects = computed then return computed
    else throw (.staleEffects n node.effects computed)

/-- Recomputes the effects of the tree under a node and counts its nodes, if none is stale. -/
def countAudited (r : Routine) (n : NodeId) : Except Fault (Effects × Nat) :=
  match (r.auditEffectsWithin r.pathBound n).run 0 with
  | (.ok effects, checked) => .ok (effects, checked)
  | (.error fault, _) => .error fault

/-- The effects of the tree under a node, recomputed, if no node of it is stale. -/
def auditEffects (r : Routine) (n : NodeId) : Except Fault Effects := Prod.fst <$> r.countAudited n

/-! ## Links -/

/-- Compares the links of the operands of a node with the slots, counted from `slot`. -/
def checkLinks (r : Routine) (n : NodeId) : (slot : Nat) → List NodeId → Except Fault Unit
  | _, [] => .ok ()
  | slot, child :: rest => do
    match (← r.node child).parent with
    | some link =>
      if link = ⟨n, slot⟩ then r.checkLinks n (slot + 1) rest
      else .error (.alreadyAttached child link.parent link.slot)
    | none =>
      .error (.internal (child.text ++ " sits in slot " ++ toString slot ++ " of " ++ n.text
        ++ " without a back-reference"))

/-- Compares the links under a node, its own operands first and the last operand's tree next. -/
def auditLinksWithin (r : Routine) : Nat → NodeId → Except Fault Unit
  | 0, _ => .error endlessPath
  | bound + 1, n => do
    let node ← r.node n
    r.checkLinks n 0 node.children
    node.children.reverse.forM (r.auditLinksWithin bound)

/-- Compares every link under a node with the slot. -/
def auditLinks (r : Routine) (n : NodeId) : Except Fault Unit := r.auditLinksWithin r.pathBound n

/-! ## The whole routine -/

/-- Audits one entry of the body, which has to hang nowhere. -/
def auditEntry (r : Routine) (n : NodeId) : Except Fault Unit := do
  match ← r.parent n with
  | some link => .error (.stillAttached n link.parent)
  | none =>
    r.auditLinks n
    let _ ← r.auditEffects n

/-- Audits every entry of the body in order. -/
def audit (r : Routine) : Except Fault Unit := r.body.forM r.auditEntry

end StackTree.Routine
