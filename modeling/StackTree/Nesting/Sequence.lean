import StackTree.Nesting.Operand

/-!
# Nesting a flat sequence

Nesting walks over a sequence of entries with a working stack. Each entry is filled from the stack.
An entry that leaves a value goes onto the stack, any other entry settles, and everything on the
stack settles before it in its old order. An entry that stalls settles the stack as well.

## Main definitions

* `nestEntries`: the walk.
* `nestBlock`: nests a given sequence, after checking its entries.
* `nestBody`: nests the body of a routine.
-/

namespace StackTree

/-- What nesting did to a sequence. -/
structure NestingReport where
  /-- How many entries the sequence had. -/
  entriesBefore : Nat
  /-- How many it has now. -/
  entriesAfter : Nat
  /-- How many entries became operands or took the place of a pop. -/
  consumed : Nat
  /-- How many entries kept some of their pops. -/
  stalled : Nat
  /-- Whether no entry stalled. -/
  finished : Bool
deriving DecidableEq, Repr

/-- What the walk over a sequence has put behind it. -/
structure Settled where
  /-- Entries of the new sequence, the most recent first. -/
  entries : List NodeId
  /-- How many entries stalled. -/
  stalled : Nat
deriving DecidableEq, Repr

/-- Takes everything off the working stack, the most recent first. -/
def takeStack : Fill (List NodeId) := modifyGet fun w => (w.stack, { w with stack := [] })

/-- Puts a node onto the working stack. -/
def pushStack (n : NodeId) : Fill Unit := modify fun w => { w with stack := n :: w.stack }

/-- Settles everything on the working stack. -/
def settleStack (done : Settled) : Fill Settled := do
  return { done with entries := (← takeStack) ++ done.entries }

/-- Releases a bare pop whose place a producer took. -/
def releaseReplaced (n : NodeId) (filled : Filled) : Fill Unit :=
  if filled.node = n then pure () else (discard n : Edit Unit)

/-- Counts an entry that stalled and settles the stack before it. -/
def settleStalled (done : Settled) (finished : Bool) : Fill Settled :=
  if finished then pure done else settleStack { done with stalled := done.stalled + 1 }

/-- Puts an entry onto the working stack, or settles it after the stack if it leaves no value. -/
def placeEntry (done : Settled) (n : NodeId) : Fill Settled := do
  if ← (ask (·.producesValue n) : Edit Bool) then
    pushStack n
    return done
  else
    let done ← settleStack done
    return { done with entries := n :: done.entries }

/-- Fills one entry and puts it onto the working stack or settles it. -/
def nestEntry (done : Settled) (n : NodeId) : Fill Settled := do
  let filled ← fill n ∅
  releaseReplaced n filled
  let done ← settleStalled done filled.finished
  placeEntry done filled.node

/-- Fills the entries one after the other and settles what is left at the end. -/
def nestEntries (entries : List NodeId) : Fill Settled := do
  settleStack (← entries.foldlM nestEntry ⟨[], 0⟩)

/-- The report on a sequence of so many entries. -/
def Settled.report (done : Settled) (entriesBefore : Nat) : NestingReport where
  entriesBefore := entriesBefore
  entriesAfter := done.entries.length
  consumed := entriesBefore - done.entries.length
  stalled := done.stalled
  finished := done.stalled == 0

/-- A routine and a sequence after an attempt to nest the sequence. -/
structure BlockOutcome where
  /-- The routine. -/
  code : Routine
  /-- The sequence. -/
  block : List NodeId
  /-- The report, or why the attempt failed. -/
  result : Except Fault NestingReport

/--
Nests a sequence whose entries exist, hang nowhere and are listed once. If they do not, nothing
changes; a failure later than that would leave no sequence.
-/
def nestBlock (r : Routine) (block : List NodeId) : BlockOutcome :=
  match r.checkFree (fun n link => .stillAttached n link.parent) [] block with
  | .error fault => { code := r, block := block, result := .error fault }
  | .ok () =>
    match nestEntries block { code := r, stack := [] } with
    | .ok done w =>
      { code := w.code, block := done.entries.reverse, result := .ok (done.report block.length) }
    | .error fault w => { code := w.code, block := [], result := .error fault }

/-- Nests the body of a routine. -/
def nestBody : Edit NestingReport := fun r =>
  let ⟨name, nodes, live, body⟩ := r
  let outcome := nestBlock { name := name, nodes := nodes, live := live, body := [] } body
  let ⟨code, block, result⟩ := outcome
  let code := { code with body := block }
  match result with
  | .ok report => .ok report code
  | .error fault => .error fault code

end StackTree
