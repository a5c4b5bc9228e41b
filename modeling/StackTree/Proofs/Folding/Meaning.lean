import StackTree.Proofs.Folding.Arithmetic
import StackTree.Proofs.Folding.Bodies
import StackTree.Proofs.Machine.Values
import StackTree.Proofs.Ownership.Reach

/-!
# Folding keeps what a body does

A constant that takes the place of an operator is what the machine computes there
(`BinaryOp.apply?_eq`), and the operands that go with the operator are constants, which neither take
values off the stack nor change anything. So a folded tree evaluates exactly as the tree did, on
every supply of values and from every store, and it needs as much of the stack. Underflows and traps
happen where they happened, since an operator that would trap stays.

## Main definitions

* `Machine.Same`: two trees that no entry of a run can tell apart.

## Main results

* `same_of_computed`: an operator and the constant that it computes.
* `same_fold`, `runEntries_foldAll`: folding trees.
* `Routine.Reachable.foldBody_keeps_meaning`: folding a body changes nothing that can be observed.
-/

namespace StackTree.Machine

open Runs
open StackTree.Tree (atop computed? collapse foldAll popCounts)

/-- The trees evaluate to the same and ask the same of the stack. -/
structure Same (t u : Tree) : Prop where
  eval_eq : ∀ host top, eval host top u = eval host top t
  popCount_eq : u.popCount = t.popCount
  hasPeek_eq : hasPeek u = hasPeek t
  produces_eq : u.kind.producesValue = t.kind.producesValue

/-- Lists of trees that are the same one by one. -/
structure SameAll (ts us : List Tree) : Prop where
  eval_eq : ∀ host top, evalAll host top us = evalAll host top ts
  popCount_eq : popCounts us = popCounts ts
  anyPeek_eq : anyPeek us = anyPeek ts

theorem Same.trans {t u v : Tree} (h : Same t u) (h' : Same u v) : Same t v where
  eval_eq := fun host top => (h'.eval_eq host top).trans (h.eval_eq host top)
  popCount_eq := h'.popCount_eq.trans h.popCount_eq
  hasPeek_eq := h'.hasPeek_eq.trans h.hasPeek_eq
  produces_eq := h'.produces_eq.trans h.produces_eq

theorem sameAll_nil : SameAll [] [] := ⟨fun _ _ => rfl, rfl, rfl⟩

theorem SameAll.cons {t u : Tree} {ts us : List Tree} (h : Same t u) (h' : SameAll ts us) :
    SameAll (t :: ts) (u :: us) where
  eval_eq := by
    intro host top
    rw [evalAll, evalAll, h.eval_eq, h'.eval_eq]
  popCount_eq := by rw [popCounts, popCounts, h.popCount_eq, h'.popCount_eq]
  anyPeek_eq := by rw [anyPeek, anyPeek, h.hasPeek_eq, h'.anyPeek_eq]

/-- A node over the same operands is the same; its stored effects do not matter. -/
theorem SameAll.node {ts us : List Tree} (h : SameAll ts us) (id : NodeId) (kind : Kind)
    (e : Effects) : Same (.node id kind e ts) (atop id kind us) where
  eval_eq := by
    intro host top
    unfold atop
    cases kind with
    | pop => rfl
    | peek => rfl
    | _ => simp only [eval, h.eval_eq]
  popCount_eq := by
    unfold atop
    rw [Tree.popCount, Tree.popCount, h.popCount_eq]
  hasPeek_eq := by
    unfold atop
    rw [hasPeek, hasPeek, h.anyPeek_eq]
  produces_eq := rfl

/-! ## Constants -/

theorem eval_const (host : Host) (top : Int32) (id : NodeId) (value : Int32) :
    eval host top (atop id (.const value) []) = pure value := by
  unfold atop
  simp only [eval, evalAll, pure_bind]
  rfl

theorem evalAll_const (host : Host) (top : Int32) (id : NodeId) (value : Int32) (ts : List Tree) :
    evalAll host top (atop id (.const value) [] :: ts) =
      (fun values => value :: values) <$> evalAll host top ts := by
  rw [evalAll, eval_const]
  simp

theorem eval_unary (host : Host) (top : Int32) (id : NodeId) (op : UnaryOp) (e : Effects)
    (cs : List Tree) : eval host top (.node id (.unary op) e cs) = (do
      perform host (.unary op) (← evalAll host top cs)) := by
  simp only [eval]

theorem eval_binary (host : Host) (top : Int32) (id : NodeId) (op : BinaryOp) (e : Effects)
    (cs : List Tree) : eval host top (.node id (.binary op) e cs) = (do
      perform host (.binary op) (← evalAll host top cs)) := by
  simp only [eval]

/-- An operator over constants that does not trap is the constant that it computes. -/
theorem same_of_computed {t : Tree} (ht : t.Sound) {value : Int32}
    (h : computed? t.kind t.children = some value) (id : NodeId) :
    Same t (atop id (.const value) []) := by
  rcases ht.computed?_cases h with ⟨op, c, v, hkind, hchildren, hvalue⟩ |
    ⟨op, a, b, x, y, hkind, hchildren, hvalue⟩
  · obtain ⟨_, kind, e, cs⟩ := t
    obtain rfl : kind = .unary op := hkind
    obtain rfl : cs = [_] := hchildren
    refine ⟨fun host top => ?_, rfl, rfl, rfl⟩
    rw [UnaryOp.apply_eq] at hvalue
    rw [eval_const, eval_unary, evalAll_const, evalAll, ← hvalue]
    rfl
  · obtain ⟨_, kind, e, cs⟩ := t
    obtain rfl : kind = .binary op := hkind
    obtain rfl : cs = [_, _] := hchildren
    refine ⟨fun host top => ?_, rfl, rfl, rfl⟩
    rw [BinaryOp.apply?_eq] at hvalue
    have hperform : perform host (.binary op) [x, y] = pure value := by
      rw [perform_binary, hvalue]
    rw [eval_const, eval_binary, evalAll_const, evalAll_const, evalAll]
    show _ = liftM (perform host (.binary op) [x, y])
    rw [hperform]
    rfl

theorem same_collapse {t : Tree} {f : Folding Tree} (hf : f.result.Sound) (h : Same t f.result)
    (next : Nat) : Same t (collapse next f).result := by
  rcases Tree.collapse_cases next f with ⟨-, heq⟩ | ⟨value, hvalue, heq⟩
  · rw [heq]
    exact h
  · rw [heq]
    exact h.trans (same_of_computed hf hvalue _)

mutual

/-- Folding the operands of a tree cannot be told. -/
theorem same_foldOperands : (next : Nat) → (t : Tree) → t.Sound →
    Same t (t.foldOperands next).result
  | next, .node id kind e cs, h => by
    rw [Tree.foldOperands_node]
    exact (sameAll_foldAll next cs h.2.2).node id kind e

theorem sameAll_foldAll : (next : Nat) → (ts : List Tree) → Tree.SoundAll ts →
    SameAll ts (foldAll next ts).result
  | _, [], _ => by
    rw [Tree.foldAll_nil]
    exact sameAll_nil
  | next, t :: ts, h => by
    rw [Tree.foldAll_cons]
    have hfirst := same_collapse (h.1.foldOperands next t) (same_foldOperands next t h.1) next
    exact .cons hfirst (sameAll_foldAll _ ts h.2)

end

/-- Folding a tree cannot be told. -/
theorem same_fold {t : Tree} (h : t.Sound) (next : Nat) : Same t (t.fold next).result :=
  same_collapse (h.foldOperands next t) (same_foldOperands next t h) next

/-! ## Runs -/

theorem Same.runEntry_eq {t u : Tree} (h : Same t u) (host : Host) :
    runEntry host u = runEntry host t := by
  have hdemand : demand u = demand t := by rw [demand, demand, h.popCount_eq, h.hasPeek_eq]
  funext s
  unfold runEntry
  rw [hdemand, h.popCount_eq, h.produces_eq, h.eval_eq]

/-- Folded entries run like the entries, whatever the stack holds. -/
theorem runEntries_foldAll {ts : List Tree} (h : Tree.SoundAll ts) (next : Nat) (host : Host) :
    runEntries host (foldAll next ts).result = runEntries host ts := by
  induction ts generalizing next with
  | nil => rw [Tree.foldAll_nil]
  | cons t ts ih =>
    rw [Tree.foldAll_cons]
    show (do runEntry host (t.fold next).result; runEntries host (foldAll _ ts).result) =
      (do runEntry host t; runEntries host ts)
    rw [(same_fold h.1 next).runEntry_eq, ih h.2]

end StackTree.Machine

namespace StackTree

open StackTree.Machine Routine

variable {r : Routine}

/--
Folding keeps the meaning of a body. Over a reachable routine whose body consists of free nodes and
whose arena has room for the constants, folding succeeds, and the trees of the body run as before:
with every host and from every stack and store, with values enough or not, the run has the same log
and locals, leaves the same stack, and comes to its end or halts in the same way.
-/
theorem Routine.Reachable.foldBody_keeps_meaning (h : r.Reachable) (hfree : r.AllFree r.body)
    (hroom : r.RoomToFold) :
    ∃ before after folded s, r.body.mapM r.tree = .ok before ∧ foldBody r = .ok folded s ∧
      s.body.mapM s.tree = .ok after ∧ ∀ (host : Host) (start : State),
        runEntries host after start = runEntries host before start := by
  have hr := h.sound
  obtain ⟨before, hbefore⟩ := hr.exists_showsAll hfree
  obtain ⟨s, hrun, hrefolds, hbody⟩ := foldBody_eq hr hfree hbefore hroom
  refine ⟨before, (Tree.foldAll r.nodes.size before).result, _, s, hr.mapM_tree hbefore, hrun, ?_,
    fun host start => ?_⟩
  · rw [hbody]
    exact hrefolds.sound.mapM_tree hrefolds.supplies.showsAll
  · rw [runEntries_foldAll (hr.trees_sound hbefore)]

/-- A shift by 33 becomes a constant and a division by zero stays beside a pop: the body still
underflows on the empty stack and traps on any other. -/
theorem folded_shift_keeps_meaning :
    let build : Edit Unit := do
      let one ← alloc (.const 1) []
      let count ← alloc (.const 33) []
      let shifted ← alloc (.binary .shl) [one, count]
      let zero ← alloc (.const 0) []
      let divided ← alloc (.binary .div) [shifted, zero]
      let pending ← alloc .pop []
      let sum ← alloc (.binary .add) [pending, divided]
      modify fun r => { r with body := [sum] }
    let r := leftBy (build { name := "main" })
    r.Reachable ∧ r.AllFree r.body ∧ r.RoomToFold ∧
      ∃ before after folded s, r.body.mapM r.tree = .ok before ∧ foldBody r = .ok folded s ∧
        s.body.mapM s.tree = .ok after ∧ ∀ (host : Host) (start : State),
          runEntries host after start = runEntries host before start := by
  intro build r
  have hreach : r.Reachable :=
    ⟨"main", Unit, build, .bind (.alloc _ _) fun _ => .bind (.alloc _ _) fun _ =>
      .bind (.alloc _ _) fun _ => .bind (.alloc _ _) fun _ => .bind (.alloc _ _) fun _ =>
        .bind (.alloc _ _) fun _ => .bind (.alloc _ _) fun _ => .setBody _, rfl⟩
  have hfree : r.AllFree r.body := by
    have hcheck : r.checkFree (fun n _ => .released n) [] r.body = .ok () := by decide +kernel
    exact Routine.checkFree_nil_ok_iff.mp hcheck
  have hroom : r.RoomToFold := roomToFold_of_live hreach.sound hfree (by decide +kernel)
  exact ⟨hreach, hfree, hroom, Reachable.foldBody_keeps_meaning hreach hfree hroom⟩

end StackTree
