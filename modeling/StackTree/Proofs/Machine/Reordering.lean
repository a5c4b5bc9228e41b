import StackTree.Proofs.Machine.Swapping
import StackTree.Proofs.Nesting.Simulation
import StackTree.Proofs.Ownership.Reach

/-!
# Legal swaps cannot be told

The effects that a node stores are those of its whole tree (`Sound.tree_sound`), and a tree without
stack access leaves the values for pops alone, so its evaluation is a computation on locals and log.
Two such computations may be exchanged where `mayReorder` says so (`Abides.swap`): the locals, the
log, the way of ending and the two values are the same.

## Main definitions

* `Machine.evalPair`: one tree after the other.

## Main results

* `evalPair_swap`: the order of two trees that may swap places.
* `Routine.Reachable.evalPair_swap_of_mayReorder`: the same, decided from what the nodes store.
-/

namespace StackTree.Machine

open Runs

variable {host : Host} {top : Int32}

/-- A tree that takes nothing off the stack hands all values on. -/
theorem eval_of_not_pops {t : Tree} (ht : t.Sound) (h : t.effects.pops = false)
    (supply : List Int32) :
    eval host top t supply = (fun v => (v, supply)) <$> value host top t [] := by
  have hnone : ([] : List Int32).length = t.popCount := (ht.popCount_eq_zero h).symm
  exact eval_eq_value t ht [] supply hnone

/-- Evaluates one tree and then another one. -/
def evalPair (host : Host) (top : Int32) (first second : Tree) : Eval (Int32 × Int32) := do
  let v ← eval host top first
  let w ← eval host top second
  return (v, w)

/-- Trees without stack access that may swap places give the same in both orders. -/
theorem evalPair_swap {a b : Tree} (ha : a.Sound) (hb : b.Sound)
    (hquiet : a.effects.hasStackAccess = false) (hquiet' : b.effects.hasStackAccess = false)
    (h : mayReorder a.effects b.effects = true) :
    evalPair host top a b = Prod.swap <$> evalPair host top b a := by
  obtain ⟨-, hpops⟩ := Effects.hasStackAccess_eq_false_iff.mp hquiet
  obtain ⟨-, hpops'⟩ := Effects.hasStackAccess_eq_false_iff.mp hquiet'
  funext supply
  unfold evalPair
  show (do
      let v ← eval host top a supply
      let w ← eval host top b v.2
      pure ((v.1, w.1), w.2)) = Prod.map Prod.swap id <$> (do
      let w ← eval host top b supply
      let v ← eval host top a w.2
      pure ((w.1, v.1), v.2))
  simp only [eval_of_not_pops ha hpops, eval_of_not_pops hb hpops', bind_map_left, map_bind,
    map_pure]
  exact (value_abides ha []).swap (value_abides hb []) h fun v w => pure ((v, w), supply)

end StackTree.Machine

namespace StackTree.Routine

open StackTree.Machine

variable {r : Routine}

/-- A node whose stored effects are found is live. -/
theorem isLive_of_effects {n : NodeId} {e : Effects} (h : r.effects n = .ok e) :
    r.isLive n = true := by
  cases hn : r.get? n with
  | some node => exact isLive_iff.mpr ⟨node, hn⟩
  | none =>
    rw [Routine.effects, node_of_none hn] at h
    cases h

/--
The stored effects and `mayReorder` are sound for evaluation. Of two trees of a reachable routine
whose stored effects show no stack access and may swap places, wherever they are, either may be
evaluated first: whatever calls do and wherever the evaluation starts, the log, the locals, the way
of ending and both values are the same.
-/
theorem Reachable.evalPair_swap_of_mayReorder (h : r.Reachable) {n m : NodeId} {e f : Effects}
    (hn : r.effects n = .ok e) (hm : r.effects m = .ok f) (he : e.hasStackAccess = false)
    (hf : f.hasStackAccess = false) (hmay : mayReorder e f = true) :
    ∃ a b, r.tree n = .ok a ∧ r.tree m = .ok b ∧
      ∀ (host : Host) (top : Int32) (supply : List Int32) (s : Store),
        evalPair host top a b supply s = (Prod.swap <$> evalPair host top b a) supply s := by
  have hr := h.sound
  obtain ⟨a, ha⟩ := hr.exists_shows (isLive_of_effects hn)
  obtain ⟨b, hb⟩ := hr.exists_shows (isLive_of_effects hm)
  obtain rfl := Except.ok.inj (hn.symm.trans (effects_of_shows ha))
  obtain rfl := Except.ok.inj (hm.symm.trans (effects_of_shows hb))
  refine ⟨a, b, hr.tree_eq ha, hr.tree_eq hb, fun host top supply s => ?_⟩
  rw [evalPair_swap (hr.tree_sound ha) (hr.tree_sound hb) he hf hmay]

/-- A division by zero and a load: whichever comes first, the run ends in the same trap. -/
theorem evalPair_swap_at_trap :
    let build : Edit Unit := do
      let one ← alloc (.const 1) []
      let zero ← alloc (.const 0) []
      let _ ← alloc (.binary .div) [one, zero]
      let _ ← alloc (.load 3) []
    let r := leftBy (build { name := "main" })
    r.Reachable ∧ r.effects ⟨2⟩ = .ok .raise ∧ r.effects ⟨3⟩ = .ok .read ∧
      Effects.raise.hasStackAccess = false ∧ Effects.read.hasStackAccess = false ∧
      mayReorder .raise .read = true ∧
      ∃ a b, r.tree ⟨2⟩ = .ok a ∧ r.tree ⟨3⟩ = .ok b ∧
        ∀ (host : Host) (top : Int32) (supply : List Int32) (s : Store),
          evalPair host top a b supply s = (Prod.swap <$> evalPair host top b a) supply s := by
  intro build r
  have hreach : r.Reachable :=
    ⟨"main", Unit, build, .bind (.alloc _ _) fun _ => .bind (.alloc _ _) fun _ =>
      .bind (.alloc _ _) fun _ => .bind (.alloc _ _) fun _ => .pure _, rfl⟩
  have hdivision : r.effects ⟨2⟩ = .ok .raise := by decide +kernel
  have hload : r.effects ⟨3⟩ = .ok .read := by decide +kernel
  exact ⟨hreach, hdivision, hload, rfl, rfl, rfl,
    Reachable.evalPair_swap_of_mayReorder hreach hdivision hload rfl rfl rfl⟩

end StackTree.Routine
