import StackTree.Pipeline
import StackTree.FlatCode.Basic
import StackTree.Proofs.Runs

/-!
# Scripts

A `Script` is any computation put together from the public operations on a routine: it may ask,
decide, fail, recover and go on. The routines that can come about at all are those that scripts
leave behind, whether they end well or not; statements about every routine are made for these.

## Main definitions

* `Script`: computations put together from the public operations.
* `Routine.Reachable`: a routine that some script leaves behind.

## Main results

* `Routine.Reachable.after`: going on from a reachable routine leads to reachable ones.
* `Routine.Reachable.build`: a routine built from flat code is reachable.
-/

namespace StackTree

/-- The routine that a result holds, whether good or bad. -/
def leftBy {α : Type} : EStateM.Result Fault Routine α → Routine
  | .ok _ r => r
  | .error _ r => r

/-- Fills a node from a given stack and forgets the stack. -/
def fillFrom (n : NodeId) (before : Effects) (stack : List NodeId) : Edit Filled := fun r =>
  match fill n before { code := r, stack := stack } with
  | .ok filled w => .ok filled w.code
  | .error fault w => .error fault w.code

/-- Nests a given sequence and answers what becomes of it. -/
def nestGiven (block : List NodeId) : Edit (List NodeId × Except Fault NestingReport) := fun r =>
  let outcome := nestBlock r block
  .ok (outcome.block, outcome.result) outcome.code

/-- Folds under a node, starting from a count, and answers the new count as well. -/
def foldCounting {α : Type} (action : Fold α) (folded : Nat) : Edit (α × Nat) := fun r =>
  match action { code := r, folded := folded } with
  | .ok answer s => .ok (answer, s.folded) s.code
  | .error fault s => .error fault s.code

/-- Computations put together from the public operations on a routine. -/
inductive Script : {α : Type} → Edit α → Prop where
  | pure {α : Type} (a : α) : Script (Pure.pure a)
  | fail {α : Type} (fault : Fault) : Script (throw fault : Edit α)
  | ask {α : Type} (question : Routine → Except Fault α) : Script (StackTree.ask question)
  | bind {α β : Type} {x : Edit α} {f : α → Edit β} (first : Script x)
      (next : ∀ a, Script (f a)) : Script (x >>= f)
  | recover {α : Type} {x : Edit α} {f : Fault → Edit α} (first : Script x)
      (next : ∀ fault, Script (f fault)) : Script (tryCatch x f)
  | setBody (body : List NodeId) : Script (modify fun r => { r with body := body })
  | alloc (kind : Kind) (operands : List NodeId) : Script (StackTree.alloc kind operands)
  | allocPending (kind : Kind) (operands : Nat) : Script (StackTree.allocPending kind operands)
  | replaceChild (parent : NodeId) (slot : Nat) (child : NodeId) :
      Script (StackTree.replaceChild parent slot child)
  | setChild (parent : NodeId) (slot : Nat) (child : NodeId) :
      Script (StackTree.setChild parent slot child)
  | discard (n : NodeId) : Script (StackTree.discard n)
  | mapChildren {σ : Type} (visit : NodeId → StateT σ Edit NodeId) (s : σ) (n : NodeId)
      (visits : ∀ c s, Script ((visit c).run s)) :
      Script ((StackTree.mapChildren visit n).run s)
  | fill (n : NodeId) (before : Effects) (stack : List NodeId) : Script (fillFrom n before stack)
  | nestGiven (block : List NodeId) : Script (StackTree.nestGiven block)
  | nestBody : Script StackTree.nestBody
  | fold (n : NodeId) (folded : Nat) : Script (foldCounting (StackTree.fold n) folded)
  | foldChildren (n : NodeId) (folded : Nat) :
      Script (foldCounting (StackTree.foldChildren n) folded)
  | foldBody : Script StackTree.foldBody
  | process (settings : Settings) : Script (StackTree.process settings)

namespace Routine

open Runs

/-- A routine that some script leaves behind. -/
def Reachable (r : Routine) : Prop :=
  ∃ (name : String) (α : Type) (x : Edit α), Script x ∧ leftBy (x { name := name }) = r

/-- An edit whose outcome is forgotten ends well, in the routine that the edit leaves behind. -/
theorem run_forgetting {α : Type} (x : Edit α) (r : Routine) :
    ∃ outcome, (tryCatch (do return some (← x)) fun _ => pure none : Edit (Option α)) r =
      .ok outcome (leftBy (x r)) := by
  rw [run_tryCatch, run_bind]
  cases x r with
  | ok a s => exact ⟨some a, rfl⟩
  | error f s => exact ⟨none, rfl⟩

/-- Going on from a reachable routine leads to reachable ones. -/
theorem Reachable.after {r : Routine} (h : r.Reachable) {α : Type} {x : Edit α} (hx : Script x) :
    Reachable (leftBy (x r)) := by
  obtain ⟨name, β, y, hy, rfl⟩ := h
  have hquiet : Script (tryCatch (do return some (← y)) fun _ => pure none : Edit (Option β)) :=
    .recover (.bind hy fun b => .pure (some b)) fun _ => .pure none
  obtain ⟨outcome, hrun⟩ := run_forgetting y { name := name }
  refine ⟨name, α, _, .bind hquiet fun _ => hx, ?_⟩
  rw [run_bind_of_ok hrun]

theorem script_allocEntries (entries : List FlatEntry) :
    Script (FlatCode.allocEntries entries) := by
  induction entries with
  | nil => exact .pure []
  | cons entry rest ih =>
    exact .bind (.allocPending _ _) fun n => .bind ih fun ns => .pure (n :: ns)

/-- A routine built from flat code is reachable. -/
theorem Reachable.build {code : FlatCode} {r : Routine} (h : code.build = .ok r) :
    r.Reachable := by
  let construct : Edit Unit := do
    let body ← FlatCode.allocEntries code.entries
    modify fun r => { r with body := body }
  have hscript : Script construct :=
    .bind (script_allocEntries code.entries) fun body => .setBody body
  refine ⟨code.name, Unit, construct, hscript, ?_⟩
  unfold FlatCode.build at h
  cases hv : code.validate with
  | error f => simp [hv, bind, Except.bind] at h
  | ok _ =>
    simp only [hv, bind, Except.bind] at h
    simp only [construct, bind, EStateM.bind]
    cases hrun : FlatCode.allocEntries code.entries { name := code.name } with
    | ok body s =>
      simp only [hrun, Except.ok.injEq] at h
      exact h
    | error f s => simp [hrun] at h

end Routine

end StackTree
