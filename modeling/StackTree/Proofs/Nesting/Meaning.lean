import StackTree.Proofs.Machine.Observing
import StackTree.Proofs.Machine.Swapping
import StackTree.Proofs.Nesting.Blocks
import StackTree.Proofs.Nesting.Pulls
import StackTree.Proofs.Ownership.Reach

/-!
# Nesting keeps the meaning of a sequence

A pull moves the evaluation of a producer from its own entry into the middle of the next one, past
everything that is evaluated before the pop (`value_plug`). The values for the pops stay the same:
the producer takes its values first and the entry takes the next ones, or the entry takes both, and
in it the producer's pops come last. So the two entries do what the one entry does
(`MayFill.mimics`), and every run on a stack that holds what the entries need shows the same before
and after nesting.

## Main definitions

* `Machine.MayFill`: a producer that may take the place of a pop.

## Main results

* `value_plug`: a producer may be evaluated before the entry that it is part of.
* `MayFill.mimics`: a pull keeps the meaning.
* `nestBlock_keeps_meaning`: nesting keeps the meaning of every sequence.
-/

namespace StackTree

namespace Machine

open Runs
open StackTree.Tree (SoundAll soundAll_reverse popCounts popCounts_append effectsAll atop Layer plug
  plug_cons before before_cons after after_cons)

variable {host : Host} {top : Int32}

theorem values_around {ts us : List Tree} {t : Tree} {vs ws : List Int32}
    (hvs : vs.length = popCounts ts) (hws : ws.length = t.popCount) :
    values host top (ts ++ t :: us) (vs ++ ws) = (do
      let first ← values host top ts vs
      let v ← value host top t ws
      return first ++ v :: (← values host top us [])) := by
  rw [values_append, ← hvs, List.take_left, List.drop_left, values_cons, ← hws, List.take_length,
    List.drop_length]
  simp

/-- A producer may be evaluated before the entry that it is part of. -/
theorem value_plug {fs : List Layer} (id : NodeId) {p : Tree} {vs ws : List Int32}
    (hfs : ∀ f ∈ fs, f.Sound) (hp : p.Sound)
    (hm : mayReorder (effectsAll (before fs)).withoutStackAccess p.effects = true)
    (hafter : popCounts (after fs) = 0) (hvs : vs.length = popCounts (before fs))
    (hws : ws.length = p.popCount) :
    value host top (plug fs p) (vs ++ ws) = (do
      let v ← value host top p ws
      value host top (plug fs (atop id .pop [])) (vs ++ [v])) := by
  induction fs generalizing vs with
  | nil =>
    obtain rfl : vs = [] := List.length_eq_zero_iff.mp hvs
    simp only [plug, List.nil_append, atop, value_pop, List.headD_cons, bind_pure]
  | cons f fs ih =>
    rw [List.forall_mem_cons] at hfs
    rw [before_cons, popCounts_append] at hvs
    rw [after_cons, popCounts_append] at hafter
    rw [before_cons, Tree.effectsAll_append, Effects.withoutStackAccess_union] at hm
    obtain ⟨hswap, hrest⟩ := mayReorder_of_union hm
    obtain ⟨left, inner, rfl, hleft, hinner⟩ : ∃ left inner, vs = left ++ inner ∧
        left.length = popCounts f.left ∧ inner.length = popCounts (before fs) :=
      ⟨vs.take (popCounts f.left), vs.drop (popCounts f.left), (List.take_append_drop _ _).symm,
        by rw [List.length_take]; omega, by rw [List.length_drop]; omega⟩
    have hcount : (inner ++ ws).length = (plug fs p).popCount := by
      rw [Tree.popCount_plug hfs.2, List.length_append]
      omega
    have hcount' : ∀ v : Int32, (inner ++ [v]).length = (plug fs (atop id .pop [])).popCount := by
      intro v
      have hpop : (atop id .pop []).popCount = 1 := rfl
      rw [Tree.popCount_plug hfs.2, List.length_append, List.length_singleton, hpop]
      omega
    have hbelow := ih hfs.2 hrest (by omega) hinner
    rw [plug_cons, plug_cons, value_atop f.id _ _ hfs.1.ne_pop hfs.1.ne_peek, List.append_assoc,
      values_around hleft hcount, hbelow]
    simp only [bind_assoc, pure_bind]
    -- The producer goes first: past the operands that are evaluated before the way down to it.
    rw [values_swap hfs.1.left hp hswap]
    refine bind_congr fun v => ?_
    rw [value_atop f.id _ _ hfs.1.ne_pop hfs.1.ne_peek, List.append_assoc,
      values_around hleft (hcount' v)]
    simp only [bind_assoc, pure_bind]

/-! ## A pull keeps the meaning -/

/-- A producer that may take the place of a pop below the given layers. -/
structure MayFill (fs : List Layer) (p : Tree) : Prop where
  layers : ∀ f ∈ fs, f.Sound
  producer : p.Sound
  produces : p.kind.producesValue = true
  reorder : mayReorder (effectsAll (before fs)).withoutStackAccess p.effects = true
  noPeek : (effectsAll (before fs)).peeks = false
  noAfter : (effectsAll (after fs)).hasStackAccess = false

namespace MayFill

variable {fs : List Layer} {p : Tree}

theorem sound_hole (h : MayFill fs p) (id : NodeId) : (plug fs (atop id .pop [])).Sound :=
  Tree.sound_plug_iff.mpr ⟨h.layers, Tree.sound_atop rfl trivial⟩

theorem sound_filled (h : MayFill fs p) : (plug fs p).Sound :=
  Tree.sound_plug_iff.mpr ⟨h.layers, h.producer⟩

theorem popCounts_after (h : MayFill fs p) : popCounts (after fs) = 0 :=
  Tree.SoundAll.popCounts_eq_zero (Tree.soundAll_after h.layers)
    (Effects.hasStackAccess_eq_false_iff.mp h.noAfter).2

theorem popCount_hole (h : MayFill fs p) (id : NodeId) :
    (plug fs (atop id .pop [])).popCount = popCounts (before fs) + 1 := by
  have hpop : (atop id .pop []).popCount = 1 := rfl
  rw [Tree.popCount_plug h.layers, hpop, h.popCounts_after]

theorem popCount_filled (h : MayFill fs p) :
    (plug fs p).popCount = popCounts (before fs) + p.popCount := by
  rw [Tree.popCount_plug h.layers, h.popCounts_after]
  rfl

theorem producesValue_hole (h : MayFill fs p) (id : NodeId) :
    (plug fs (atop id .pop [])).kind.producesValue = (plug fs p).kind.producesValue := by
  cases fs with
  | nil => exact h.produces.symm
  | cons f fs => rfl

/-- Around the pop nothing peeks, so it does not matter that the producer's value is on top. -/
theorem peeks_hole (h : MayFill fs p) (id : NodeId) :
    (plug fs (atop id .pop [])).effects.peeks = false := by
  have hafter := (Effects.hasStackAccess_eq_false_iff.mp h.noAfter).1
  rw [← Bool.not_eq_true, Tree.peeks_plug h.layers, h.noPeek, hafter]
  simp [Tree.effects_atop, Kind.intrinsic, Effects.pop, Effects.empty, effectsAll]

theorem hasPeek_filled (h : MayFill fs p) (hpeek : hasPeek (plug fs p) = true) :
    hasPeek p = true := by
  have hafter := (Effects.hasStackAccess_eq_false_iff.mp h.noAfter).1
  rw [hasPeek_eq _ h.sound_filled, Tree.peeks_plug h.layers, h.noPeek, hafter] at hpeek
  rw [hasPeek_eq _ h.producer]
  simpa using hpeek

/-- What the producer and the entry need, one after the other. -/
theorem demands (h : MayFill fs p) {id : NodeId} {depth : Nat}
    (hd : Supplied depth [p, plug fs (atop id .pop [])]) :
    demand p ≤ depth ∧ demand (plug fs (atop id .pop [])) ≤ depth - p.popCount + 1 := by
  obtain ⟨hfirst, hsecond, -⟩ := hd
  rw [depthAfter, h.produces, if_pos rfl] at hsecond
  exact ⟨hfirst, hsecond⟩

/-- The pops of the entry, but for the one that is filled, come below those of the producer. -/
theorem popCount_le (h : MayFill fs p) {id : NodeId} {depth : Nat}
    (hd : Supplied depth [p, plug fs (atop id .pop [])]) :
    p.popCount + popCounts (before fs) ≤ depth := by
  obtain ⟨hfirst, hsecond⟩ := h.demands hd
  have hcount := (demand_le_iff.mp hfirst).1
  have hcount' := (demand_le_iff.mp hsecond).1
  rw [h.popCount_hole] at hcount'
  omega

theorem demand_filled (h : MayFill fs p) {id : NodeId} {depth : Nat}
    (hd : Supplied depth [p, plug fs (atop id .pop [])]) : demand (plug fs p) ≤ depth := by
  have hcounts := h.popCount_le hd
  have hfirst := (demand_le_iff.mp (h.demands hd).1).2
  refine demand_le_iff.mpr ⟨?_, fun hpeek => hfirst (h.hasPeek_filled hpeek)⟩
  rw [h.popCount_filled]
  omega

/-- The producer's value and the values below those that it takes are what the entry runs on. -/
theorem observe_filled (h : MayFill fs p) (id : NodeId) (host : Host) (s : State)
    (hs : Supplied s.stack.length [p, plug fs (atop id .pop [])]) :
    observe host [plug fs p] s = observe host [p, plug fs (atop id .pop [])] s := by
  obtain ⟨hfirst, hsecond⟩ := h.demands hs
  have hcounts := h.popCount_le hs
  have hdemand := h.demand_filled hs
  obtain ⟨stack, store⟩ := s
  simp only at hs hcounts hfirst hsecond
  have hsplit : (stack.take (popCounts (before fs) + p.popCount)).reverse =
      ((stack.drop p.popCount).take (popCounts (before fs))).reverse ++
        (stack.take p.popCount).reverse := by
    rw [Nat.add_comm, List.take_add, List.reverse_append]
  have hrest : stack.drop (popCounts (before fs) + p.popCount) =
      (stack.drop p.popCount).drop (popCounts (before fs)) := by
    rw [List.drop_drop, Nat.add_comm]
  have hvs : ((stack.drop p.popCount).take (popCounts (before fs))).reverse.length =
      popCounts (before fs) := by
    simp only [List.length_reverse, List.length_take, List.length_drop]
    omega
  have hws : (stack.take p.popCount).reverse.length = p.popCount := by
    simp only [List.length_reverse, List.length_take]
    omega
  have hlength : ∀ v : Int32,
      demand (plug fs (atop id .pop [])) ≤ (v :: stack.drop p.popCount).length := by
    intro v
    rw [List.length_cons, List.length_drop]
    exact hsecond
  rw [observe_cons, observe_cons, runEntry_eq h.sound_filled hdemand,
    runEntry_eq h.producer hfirst, h.popCount_filled]
  simp only
  rw [hsplit, hrest, value_plug id h.layers h.producer h.reorder h.popCounts_after hvs hws, run_bind]
  cases value host (stack.headD dummy) p (stack.take p.popCount).reverse store with
  | error halt store' => rfl
  | ok v store' =>
    simp only [h.produces, if_true]
    have htop : value host ((v :: stack.drop p.popCount).headD dummy)
          (plug fs (atop id .pop [])) =
        value host (stack.headD dummy) (plug fs (atop id .pop [])) :=
      funext fun us => value_congr_top _ (h.sound_hole id) (h.peeks_hole id) _ us
    rw [observe_cons, runEntry_eq (h.sound_hole id) (hlength v), h.popCount_hole,
      h.producesValue_hole, htop]
    simp only [List.take_succ_cons, List.reverse_cons, List.drop_succ_cons]

/-- A producer and the entry that takes its value do what the entry does with the producer in it. -/
theorem mimics (h : MayFill fs p) (id : NodeId) :
    Mimics [p, plug fs (atop id .pop [])] [plug fs p] where
  supplied := fun _ hd => ⟨h.demand_filled hd, trivial⟩
  depth_eq := by
    intro depth hd
    have hcounts := h.popCount_le hd
    simp only [depthAfterAll, List.foldl_cons, List.foldl_nil, depthAfter, h.popCount_hole,
      h.popCount_filled, h.producesValue_hole, h.produces, if_true]
    omega
  observe_eq := h.observe_filled id

end MayFill

/-! ## Nesting a sequence keeps the meaning -/

/-- A pull keeps the meaning, wherever in a sequence it happens. -/
theorem keptByPulls_mimics : Nest.KeptByPulls Mimics where
  refl := Mimics.refl
  trans := Mimics.trans
  around := fun ys hxs h => (h.append_left hxs).append_right ys
  pull := by
    intro stack left t u h hp
    cases hp with
    | take reorder noPeek noWait noAfter =>
      rename_i fs id top
      obtain ⟨htop, hleft⟩ := h.sound
      obtain ⟨hfs, -⟩ := Tree.sound_plug_iff.mp h.entry
      have hvalue := (List.forall_mem_cons.mp h.produces).1
      have hfill : MayFill fs top := ⟨hfs, htop, hvalue, reorder, noPeek, noAfter⟩
      rw [List.reverse_cons, List.append_assoc, List.singleton_append]
      exact (hfill.mimics id).append_left (soundAll_reverse.mpr hleft)

end Machine

open Machine

variable {r : Routine}

/-- A block of free nodes is nested without a fault, and every run on a stack that holds what the
block needs shows the same after nesting as before: the same way of ending, the same stack at the
end, the same locals and the same log. -/
theorem Routine.Reachable.nestBlock_keeps_meaning (h : r.Reachable) {block : List NodeId}
    (hfree : r.AllFree block) :
    ∃ before after report, block.mapM r.tree = .ok before ∧
      (nestBlock r block).result = .ok report ∧
      (nestBlock r block).block.mapM (nestBlock r block).code.tree = .ok after ∧
      ∀ (host : Host) (s : State), Supplied s.stack.length before →
        observe host after s = observe host before s := by
  have hr := h.sound
  obtain ⟨before, hbefore⟩ := exists_showsAll fun n hn => hr.exists_shows (hfree.2 n hn).isLive
  obtain ⟨s, hrun, hnests⟩ := nestBlock_eq hr hfree hbefore
  have hafter := showsAll_of_shows hnests.supplies.shows
  have hmimics := keptByPulls_mimics.run Nest.ready_start (hr.trees_sound hbefore)
  refine ⟨before, (Nest.start.run before).output, _, ?_, by rw [hrun], ?_, hmimics.observe_eq⟩
  · exact mapM_of_showsAll hbefore fun t _ ht => hr.tree_eq ht
  · rw [hrun]
    exact mapM_of_showsAll hafter fun t _ ht => hnests.sound.tree_eq ht

/-- A division of a local by zero traps after nesting as it does before. -/
theorem nested_division_keeps_meaning :
    let build : Edit NodeId := do
      let _ ← alloc (.load 0) []
      let _ ← alloc (.const 0) []
      allocPending (.binary .div) 2
    let r := leftBy (build { name := "main" })
    let block : List NodeId := [⟨0⟩, ⟨1⟩, ⟨4⟩]
    r.Reachable ∧ r.AllFree block ∧ ∃ before after, block.mapM r.tree = .ok before ∧
      Supplied 0 before ∧ (nestBlock r block).block.mapM (nestBlock r block).code.tree = .ok after ∧
      ∀ (host : Host) (store : Store),
        observe host after ⟨[], store⟩ = observe host before ⟨[], store⟩ := by
  intro build r block
  have hreach : r.Reachable :=
    ⟨"main", NodeId, build,
      .bind (.alloc _ _) fun _ => .bind (.alloc _ _) fun _ => .allocPending _ _, rfl⟩
  have hfree : r.AllFree block := by
    have hcheck : r.checkFree (fun n _ => .released n) [] block = .ok () := by decide
    exact Routine.checkFree_nil_ok_iff.mp hcheck
  obtain ⟨before, after, report, hbefore, -, hafter, hobserve⟩ :=
    Routine.Reachable.nestBlock_keeps_meaning hreach hfree
  have hsupplied : Supplied 0 before := by
    have hread : block.mapM r.tree = .ok [.atop ⟨0⟩ (.load 0) [], .atop ⟨1⟩ (.const 0) [],
        .atop ⟨4⟩ (.binary .div) [.atop ⟨2⟩ .pop [], .atop ⟨3⟩ .pop []]] := rfl
    obtain rfl := Except.ok.inj (hread.symm.trans hbefore)
    decide
  exact ⟨hreach, hfree, before, after, hbefore, hsupplied, hafter, fun host store =>
    hobserve host ⟨[], store⟩ hsupplied⟩

end StackTree
