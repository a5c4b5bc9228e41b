import StackTree.Routine.Basic

/-!
# Editing a routine

An `Edit` reads and changes a routine and may fail; what it changed before a failure stays changed.
The edits here check first and change afterwards.

## Main definitions

* `alloc`: a new node over free operands.
* `replaceChild`, `setChild`: another operand in a slot, keeping or releasing the one before.
* `discard`: releases a free node with its whole tree.
* `mapChildren`: replaces each operand by what a visitor answers for it.
-/

namespace StackTree

/-- A computation that reads and changes a routine and may fail. -/
abbrev Edit := EStateM Fault Routine

/-- Asks the routine a question that may fail and changes nothing. -/
def ask {α : Type} (question : Routine → Except Fault α) : Edit α := fun r =>
  match question r with
  | .ok answer => .ok answer r
  | .error fault => .error fault r

@[simp] theorem ask_run {α : Type} (question : Routine → Except Fault α) (r : Routine) :
    ask question r = match question r with
      | .ok answer => .ok answer r
      | .error fault => .error fault r := rfl

/-! ## Allocation -/

/-- Tells each listed node that it hangs under `parent`, in slots counted from `slot`. -/
def Routine.attachAll (r : Routine) (parent : NodeId) : (slot : Nat) → List NodeId → Routine
  | _, [] => r
  | slot, n :: rest =>
    (r.update n fun node => { node with parent := some ⟨parent, slot⟩ }).attachAll parent
      (slot + 1) rest

/-- The fault of a kind that cannot have so many operands. -/
def Kind.checkArity (k : Kind) (operands : Nat) : Except Fault Unit :=
  if k.accepts operands then .ok () else .error (.arity k k.arity operands)

/-- Checks that another node can be allocated. -/
def Routine.checkRoom (r : Routine) : Except Fault Unit :=
  if r.nodes.size < Routine.capacity then .ok ()
  else .error (.internal "instruction arena is full")

/-- The routine with a new node over free operands that stores the given effects. -/
def Routine.graft (r : Routine) (kind : Kind) (operands : List NodeId) (effects : Effects) :
    Routine :=
  (r.attachAll r.nextId 0 operands).insert
    { kind := kind, children := operands, effects := effects, parent := none }

/--
Allocates a node over the given operands, each of which has to exist, hang nowhere and be listed
once. The new node hangs nowhere.
-/
def alloc (kind : Kind) (operands : List NodeId) : Edit NodeId := do
  ask fun _ => kind.checkArity operands.length
  ask fun r => r.checkFree (fun n link => .alreadyAttached n link.parent link.slot) [] operands
  ask (·.checkRoom)
  let n ← modifyGet fun r => (r.nextId, r.graft kind operands ∅)
  let effects ← ask (·.computeEffects n)
  modify (·.update n fun node => { node with effects := effects })
  return n

/-- Allocates so many pending operands. -/
def allocPops : Nat → Edit (List NodeId)
  | 0 => return []
  | count + 1 => do
    let first ← alloc .pop []
    let rest ← allocPops count
    return first :: rest

/-- Allocates a node whose operands are all to be taken from the evaluation stack. -/
def allocPending (kind : Kind) (operands : Nat) : Edit NodeId := do
  alloc kind (← allocPops operands)

/-! ## Replacing an operand -/

/--
Brings the stored effects up to date from a node upwards, until they come out unchanged, looking at
most so many nodes far.
-/
def refreshEffectsWithin : Nat → NodeId → Edit Unit
  | 0, _ => throw Routine.endlessPath
  | bound + 1, n => do
    let computed ← ask (·.computeEffects n)
    let node ← ask (·.node n)
    if node.effects = computed then
      return
    else
      modify (·.update n fun node => { node with effects := computed })
      match node.parent with
      | none => return
      | some link => refreshEffectsWithin bound link.parent

/-- Brings the stored effects up to date from a node upwards. -/
def refreshEffects (n : NodeId) : Edit Unit := do
  refreshEffectsWithin (← get).pathBound n

/--
Puts `child` into a slot and answers the operand that was there, which hangs nowhere afterwards. The
slot has to exist and `child` to be free, not `parent` itself and not above it; a child that sits in
that very slot may stay.
-/
def replaceChild (parent : NodeId) (slot : Nat) (child : NodeId) : Edit NodeId := do
  let old ← ask (·.child parent slot)
  let node ← ask (·.node child)
  match node.parent with
  | some link =>
    if link = ⟨parent, slot⟩ then
      return old
    else
      throw (.alreadyAttached child link.parent link.slot)
  | none =>
    if ← ask (·.isAncestorOrSelf child parent) then
      throw (.cycle child parent)
    else
      modify (·.update old fun node => { node with parent := none })
      modify (·.update child fun node => { node with parent := some ⟨parent, slot⟩ })
      modify (·.update parent fun node => { node with children := node.children.set slot child })
      refreshEffects parent
      return old

/-! ## Release -/

/-- Releases a node and everything under it, going at most so many nodes deep. -/
def Routine.releaseWithin : Nat → NodeId → Routine → Routine
  | 0, _, r => r
  | bound + 1, n, r =>
    match r.get? n with
    | none => r
    | some node => node.children.foldl (fun r child => r.releaseWithin bound child) (r.erase n)

/-- Releases a node and everything under it. -/
def Routine.release (r : Routine) (n : NodeId) : Routine := r.releaseWithin r.pathBound n

/-- Releases a node that hangs nowhere, with its whole tree. -/
def discard (n : NodeId) : Edit Unit := do
  match ← ask (·.parent n) with
  | some link => throw (.stillAttached n link.parent)
  | none => modify (·.release n)

/-- Puts `child` into a slot and releases the operand that was there. -/
def setChild (parent : NodeId) (slot : Nat) (child : NodeId) : Edit Unit := do
  let old ← replaceChild parent slot child
  if old = child then return else discard old

/-! ## Mapping the operands -/

/--
Replaces each operand of a node by the node that the visitor answers for it. The visitor may change
the routine; it sees the operands first to last, each as it is when its turn comes.
-/
def mapChildren {m : Type → Type} [Monad m] [MonadLiftT Edit m] (visit : NodeId → m NodeId)
    (n : NodeId) : m Unit := do
  let count ← (ask (·.childCount n) : Edit Nat)
  (List.range count).forM fun slot => do
    let child ← (ask (·.child n slot) : Edit NodeId)
    let _ ← (ask (·.node child) : Edit Node)
    let replacement ← visit child
    (setChild n slot replacement : Edit Unit)

end StackTree
