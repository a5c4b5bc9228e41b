import StackTree.Nesting.Sequence
import StackTree.Proofs.Nesting.Simulation

/-!
# Nesting a sequence of free nodes

Once the entries of a sequence are free and listed once, nothing that nesting does can fail. The
working stack, the settled entries and the entries to come stay free, so each entry is filled as its
tree is (`fill_eq`), and the walk over the sequence is `Nest.run`.

## Main definitions

* `Routine.Nests`: what nesting does to a routine, given the trees before and after.

## Main results

* `nestEntry_eq`: one entry.
* `nestBlock_eq`: a sequence is nested without a fault, and its trees become those of `Nest.run`.
* `nestBody_eq`: the same for the body.
-/

namespace StackTree

namespace Routine

open Runs
open StackTree.Tree (forestNodes)

variable {r s : Routine}

/-- The trees before became the trees after, and nothing else changed. -/
structure Nests (r s : Routine) (before after : List Tree) : Prop where
  sound : s.Sound
  supplies : s.Supplies after
  size_eq : s.nodes.size = r.nodes.size
  name_eq : s.name = r.name
  body_eq : s.body = r.body
  live_eq : s.live + before.length = r.live + after.length
  nodes_subset : forestNodes after ⊆ forestNodes before
  bare_eq : ∀ m, m ∉ forestNodes before → s.bare m = r.bare m

namespace Nests

variable {before mid after : List Tree}

theorem refl (h : r.Sound) (hsup : r.Supplies before) : r.Nests r before before :=
  ⟨h, hsup, rfl, rfl, rfl, rfl, fun _ hm => hm, fun _ _ => rfl⟩

theorem trans {t : Routine} (h : r.Nests s before mid) (h' : s.Nests t mid after) :
    r.Nests t before after where
  sound := h'.sound
  supplies := h'.supplies
  size_eq := h'.size_eq.trans h.size_eq
  name_eq := h'.name_eq.trans h.name_eq
  body_eq := h'.body_eq.trans h.body_eq
  live_eq := by
    have := h.live_eq
    have := h'.live_eq
    omega
  nodes_subset := fun _ hm => h.nodes_subset (h'.nodes_subset hm)
  bare_eq := by
    intro m hm
    rw [h'.bare_eq m fun hmid => hm (h.nodes_subset hmid), h.bare_eq m hm]

/-- The order of the trees does not matter. -/
theorem perm {before' after' : List Tree} (h : r.Nests s before after)
    (hb : before.Perm before') (ha : after.Perm after') : r.Nests s before' after' where
  sound := h.sound
  supplies := h.supplies.perm ha
  size_eq := h.size_eq
  name_eq := h.name_eq
  body_eq := h.body_eq
  live_eq := by rw [← hb.length_eq, ← ha.length_eq, h.live_eq]
  nodes_subset := fun _ hm => (Tree.forestNodes_perm hb).subset
    (h.nodes_subset ((Tree.forestNodes_perm ha).symm.subset hm))
  bare_eq := fun m hm => h.bare_eq m fun hin => hm ((Tree.forestNodes_perm hb).subset hin)

end Nests

/-- Filling one of several free trees from others leaves it and all that were not taken free. -/
theorem Fills.supplies (hr : r.Sound) {t t' : Tree} {stack left others : List Tree}
    (hsup : r.Supplies (t :: (stack ++ others))) (hid : t'.id = t.id)
    (hf : r.Fills s t.id t.nodes stack left) (ht' : s.Shows t.id t') :
    s.Supplies (t' :: (left ++ others)) := by
  have hmem : t ∈ t :: (stack ++ others) := List.mem_cons_self ..
  have hrest : r.Supplies (stack ++ others) := hsup.sublist (List.sublist_cons_self ..)
  have hless : (left ++ others).Sublist (stack ++ others) := hf.suffix.sublist.append_right others
  have hbare : ∀ u ∈ left ++ others, ∀ m ∈ u.nodes, s.bare m = r.bare m := by
    intro u hu m hm
    have hin : u ∈ stack ++ others := hless.subset hu
    have hapart := hsup.disjoint hr hmem (List.mem_cons_of_mem t hin) (hsup.id_ne hin) m hm
    refine hf.bare_eq m hapart fun hstack => ?_
    rcases List.mem_append.mp hu with hleft | hother
    · have hfree : r.Free m := hrest.free.2 m (by
        rw [List.map_append]
        exact List.mem_append_left _ hstack)
      rw [hr.eq_id_of_free (hrest.shows u hin) hm hfree]
      exact List.mem_map_of_mem hleft
    · exact absurd hstack (hrest.notMem_ids_of_mem hr hother m hm)
  have hkept : s.Supplies (left ++ others) := (hrest.sublist hless).of_bare_eq hr hf.sound hbare
  have hfree : s.Free t.id := (hsup.free_of_mem hmem).of_link_eq hf.link_eq ht'.isLive
  have hne : t.id ∉ (left ++ others).map Tree.id := fun hin =>
    (List.nodup_cons.mp hsup.free.1).1 ((hless.map Tree.id).subset hin)
  rw [← hid] at ht' hfree hne
  exact hkept.cons ht' hfree hne

/-- Filling one of several free trees from others leaves the rest as they are. -/
theorem Fills.nests (hr : r.Sound) {t t' : Tree} {stack left others : List Tree}
    (hsup : r.Supplies (t :: (stack ++ others))) (hid : t'.id = t.id)
    (hnodes : t'.nodes ⊆ t.nodes ++ forestNodes stack)
    (hf : r.Fills s t.id t.nodes stack left) (ht' : s.Shows t.id t') :
    r.Nests s (t :: (stack ++ others)) (t' :: (left ++ others)) where
  sound := hf.sound
  supplies := hf.supplies hr hsup hid ht'
  size_eq := hf.size_eq
  name_eq := hf.name_eq
  body_eq := hf.body_eq
  live_eq := by
    have := hf.live_eq
    simp only [List.length_cons, List.length_append]
    omega
  nodes_subset := by
    intro m hm
    simp only [forestNodes, Tree.forestNodes_append, List.mem_append] at hm ⊢
    rcases hm with hm | hm | hm
    · rcases List.mem_append.mp (hnodes hm) with hm | hm
      · exact Or.inl hm
      · exact Or.inr (Or.inl hm)
    · exact Or.inr (Or.inl (Tree.forestNodes_subset_of_suffix hf.suffix hm))
    · exact Or.inr (Or.inr hm)
  bare_eq := by
    intro m hm
    simp only [forestNodes, Tree.forestNodes_append, List.mem_append, not_or] at hm
    refine hf.bare_eq m hm.1 fun hin => ?_
    obtain ⟨q, hq, rfl⟩ := List.mem_map.mp hin
    exact absurd (Tree.mem_forestNodes.mpr ⟨q, hq, q.id_mem_nodes⟩) hm.2.1

/-- Releasing a bare pop among free trees leaves the rest as they are. -/
theorem nests_release (hr : r.Sound) {t : Tree} {others : List Tree}
    (hsup : r.Supplies (t :: others)) (hchildren : t.children = []) :
    r.Nests (r.release t.id) (t :: others) others := by
  have ht : r.Shows t.id t := hsup.shows t (List.mem_cons_self ..)
  have hnodes : t.nodes = [t.id] := Tree.nodes_of_leaf hchildren
  have hrelease := hr.releases_release ht
  obtain ⟨hsound, hsupplies⟩ := hsup.release hr
  rw [hnodes] at hrelease
  refine ⟨hsound, hsupplies, hrelease.size_eq, hrelease.name_eq, hrelease.body_eq, ?_,
    fun m hm => List.mem_append_right _ hm, fun m hm => ?_⟩
  · have hle := hr.size_le_live ht
    have hpos := t.size_pos
    rw [hrelease.live_eq]
    simp only [List.length_cons, List.length_nil]
    omega
  · rw [forestNodes, List.mem_append, hnodes, not_or] at hm
    rw [bare, hrelease.get?_of_notMem hm.1, bare]

/-! ## One entry -/

theorem producesValue_of_shows {n : NodeId} {t : Tree} (h : r.Shows n t) :
    r.producesValue n = .ok t.kind.producesValue := by
  cases h with
  | node at_n _ =>
    rw [Routine.producesValue, node_of_get? at_n]
    rfl

theorem releaseReplaced_same (n : NodeId) (finished : Bool) (w : Workspace) :
    releaseReplaced n ⟨n, finished⟩ w = .ok () w := by
  simp [releaseReplaced]

/-- An entry is filled, and a bare pop whose place a producer takes is released. -/
theorem fillEntry_eq (hr : r.Sound) {t : Tree} {stack others : List Tree}
    (hsup : r.Supplies (t :: (stack ++ others))) :
    ∃ w s, fill t.id ∅ ⟨r, stack.map Tree.id⟩ =
        .ok ⟨(t.fill ∅ stack).result.id, (t.fill ∅ stack).finished⟩ w ∧
      releaseReplaced t.id ⟨(t.fill ∅ stack).result.id, (t.fill ∅ stack).finished⟩ w =
        .ok () ⟨s, (t.fill ∅ stack).stack.map Tree.id⟩ ∧
      r.Nests s (t :: (stack ++ others))
        ((t.fill ∅ stack).result :: ((t.fill ∅ stack).stack ++ others)) := by
  have ht : r.Shows t.id t := hsup.shows t (List.mem_cons_self ..)
  have hwith : r.Supplies (t :: stack) :=
    hsup.sublist ((List.sublist_append_left stack others).cons_cons t)
  have hstack : r.Supplies stack := hwith.sublist (List.sublist_cons_self t stack)
  obtain ⟨q, hrun, hpop, hfill⟩ := fill_eq hr ht hstack (hwith.notMem_forestNodes hr) ∅
  refine ⟨⟨q, (t.fill ∅ stack).stack.map Tree.id⟩, ?_⟩
  by_cases hk : t.kind = .pop
  · obtain rfl := hpop hk
    rcases Tree.fill_pop_cases ∅ stack hk with
      ⟨hresult, hleft, -⟩ | ⟨top, hleft, hresult, -, -⟩
    · refine ⟨q, hrun, ?_, ?_⟩
      · rw [hresult]
        exact releaseReplaced_same _ _ _
      · rw [hresult, hleft]
        exact .refl hr hsup
    · rw [hresult] at hrun ⊢
      generalize (t.fill ∅ stack).stack = left at hrun hleft ⊢
      subst hleft
      have hne : top.id ≠ t.id := hsup.id_ne (by simp)
      have hdiscard := discard_ok (hsup.free_of_mem (List.mem_cons_self ..))
      refine ⟨_, hrun, ?_, nests_release hr hsup ?_⟩
      · rw [releaseReplaced, if_neg hne]
        exact lift_of_ok hdiscard _
      · exact (hr.tree_sound ht).children_eq_nil (Or.inl hk)
  · obtain ⟨hfills, hresult⟩ := hfill hk
    have hid : (t.fill ∅ stack).result.id = t.id := Tree.id_fill hk
    refine ⟨q, hrun, ?_, hfills.nests hr hsup hid (Tree.fill_nodes ∅ stack t) hresult⟩
    rw [hid]
    exact releaseReplaced_same _ _ _

theorem settleStack_eq (w : Nest) (stalled : Nat) :
    settleStack ⟨w.settled.map Tree.id, stalled⟩ ⟨r, w.stack.map Tree.id⟩ =
      .ok ⟨w.trees.map Tree.id, stalled⟩ ⟨r, []⟩ := by
  simp [settleStack, takeStack, run_map, Nest.trees]

theorem settleStalled_eq (w : Nest) (finished : Bool) :
    settleStalled ⟨w.settled.map Tree.id, w.stalled⟩ finished ⟨r, w.stack.map Tree.id⟩ =
      .ok ⟨(w.settleStalled finished).settled.map Tree.id, (w.settleStalled finished).stalled⟩
        ⟨r, (w.settleStalled finished).stack.map Tree.id⟩ := by
  cases finished with
  | true => rfl
  | false => exact settleStack_eq w (w.stalled + 1)

theorem placeEntry_eq (w : Nest) {t : Tree} (ht : r.Shows t.id t) :
    placeEntry ⟨w.settled.map Tree.id, w.stalled⟩ t.id ⟨r, w.stack.map Tree.id⟩ =
      .ok ⟨(w.place t).settled.map Tree.id, (w.place t).stalled⟩
        ⟨r, (w.place t).stack.map Tree.id⟩ := by
  rw [placeEntry, run_bind_of_ok (lift_ask_of_ok (producesValue_of_shows ht) _), Nest.place]
  cases t.kind.producesValue with
  | true => simp [pushStack, run_map]
  | false =>
    simp only [Bool.false_eq_true, if_false]
    rw [run_bind_of_ok (settleStack_eq w w.stalled)]
    rfl

/-- One entry of a sequence is nested as its tree is. -/
theorem nestEntry_eq (hr : r.Sound) {w : Nest} {t : Tree} {rest : List Tree}
    (hsup : r.Supplies (w.trees ++ t :: rest)) :
    ∃ s, nestEntry ⟨w.settled.map Tree.id, w.stalled⟩ t.id ⟨r, w.stack.map Tree.id⟩ =
        .ok ⟨(w.step t).settled.map Tree.id, (w.step t).stalled⟩
          ⟨s, (w.step t).stack.map Tree.id⟩ ∧
      r.Nests s (w.trees ++ t :: rest) ((w.step t).trees ++ rest) := by
  have horder : (w.trees ++ t :: rest).Perm (t :: (w.stack ++ (w.settled ++ rest))) := by
    rw [Nest.trees, ← List.append_assoc]
    exact List.perm_middle
  obtain ⟨v, s, hfill, hrelease, hnests⟩ := fillEntry_eq hr (hsup.perm horder)
  have hafter : ((t.fill ∅ w.stack).result :: ((t.fill ∅ w.stack).stack ++ (w.settled ++ rest)))
      = (w.step t).trees ++ rest := by
    rw [Nest.trees_step, List.cons_append, List.append_assoc]
  rw [hafter] at hnests
  have hresult : s.Shows (t.fill ∅ w.stack).result.id (t.fill ∅ w.stack).result := by
    refine hnests.supplies.shows _ ?_
    rw [Nest.trees_step]
    simp
  refine ⟨s, ?_, hnests.perm horder.symm (List.Perm.refl _)⟩
  have hstalled := settleStalled_eq (r := s) { w with stack := (t.fill ∅ w.stack).stack }
    (t.fill ∅ w.stack).finished
  rw [nestEntry, run_bind_of_ok hfill, run_bind_of_ok hrelease, run_bind_of_ok hstalled,
    placeEntry_eq _ hresult]
  rfl

/-! ## All entries -/

/-- Entries are nested one after the other as their trees are, and the later ones stay free. -/
theorem nestEach_eq (hr : r.Sound) {w : Nest} {ts rest : List Tree}
    (hsup : r.Supplies (w.trees ++ (ts ++ rest))) :
    ∃ s, (ts.map Tree.id).foldlM nestEntry ⟨w.settled.map Tree.id, w.stalled⟩
          ⟨r, w.stack.map Tree.id⟩ =
        .ok ⟨(w.run ts).settled.map Tree.id, (w.run ts).stalled⟩
          ⟨s, (w.run ts).stack.map Tree.id⟩ ∧
      r.Nests s (w.trees ++ (ts ++ rest)) ((w.run ts).trees ++ rest) := by
  induction ts generalizing r w with
  | nil => exact ⟨r, rfl, .refl hr hsup⟩
  | cons t ts ih =>
    obtain ⟨q, hentry, hfirst⟩ := nestEntry_eq hr hsup
    obtain ⟨s, hrest, hlater⟩ := ih hfirst.sound hfirst.supplies
    refine ⟨s, ?_, hfirst.trans hlater⟩
    rw [List.map_cons, List.foldlM_cons, run_bind_of_ok hentry, hrest]
    rfl

theorem nestEntries_eq (hr : r.Sound) {ts : List Tree} (hsup : r.Supplies ts) :
    ∃ s, nestEntries (ts.map Tree.id) ⟨r, []⟩ =
        .ok ⟨(Nest.start.run ts).trees.map Tree.id, (Nest.start.run ts).stalled⟩ ⟨s, []⟩ ∧
      r.Nests s ts (Nest.start.run ts).trees := by
  have hall : r.Supplies (Nest.start.trees ++ (ts ++ [])) := by
    rwa [List.append_nil]
  obtain ⟨s, hrun, hnests⟩ := nestEach_eq hr hall
  rw [List.append_nil, List.append_nil] at hnests
  refine ⟨s, ?_, hnests⟩
  have hfold : (ts.map Tree.id).foldlM nestEntry ⟨[], 0⟩ ⟨r, []⟩ = _ := hrun
  rw [nestEntries, run_bind_of_ok hfold, settleStack_eq]

end Routine

open StackTree.Routine Runs

variable {r : Routine}

/-- The report on nesting trees. -/
def Nest.report (w : Nest) (entriesBefore : Nat) : NestingReport where
  entriesBefore := entriesBefore
  entriesAfter := w.output.length
  consumed := entriesBefore - w.output.length
  stalled := w.stalled
  finished := w.stalled == 0

/-- A sequence of free nodes is nested without a fault, and its trees become those of `Nest.run`. -/
theorem nestBlock_eq (hr : r.Sound) {ns : List NodeId} {ts : List Tree} (hfree : r.AllFree ns)
    (hts : r.ShowsAll ns ts) :
    ∃ s, nestBlock r ns = ⟨s, (Nest.start.run ts).output.map Tree.id,
        .ok ((Nest.start.run ts).report ts.length)⟩ ∧
      r.Nests s ts (Nest.start.run ts).output := by
  have hids := hts.map_id
  subst hids
  obtain ⟨s, hrun, hnests⟩ := nestEntries_eq hr ⟨hts.shows, hfree⟩
  refine ⟨s, ?_, hnests.perm (List.Perm.refl _) (List.reverse_perm _).symm⟩
  have hcheck : r.checkFree (fun n link => .stillAttached n link.parent) [] (ts.map Tree.id) =
      .ok () := checkFree_nil_ok_iff.mpr hfree
  rw [nestBlock, hcheck]
  simp only
  rw [hrun]
  simp [Nest.output, Nest.report, Settled.report]

/-- A body of free nodes is nested without a fault, and its trees become those of `Nest.run`. -/
theorem nestBody_eq (hr : r.Sound) {ts : List Tree} (hfree : r.AllFree r.body)
    (hts : r.ShowsAll r.body ts) :
    ∃ s, nestBody r = .ok ((Nest.start.run ts).report ts.length)
        { s with body := (Nest.start.run ts).output.map Tree.id } ∧
      Nests { r with body := [] } s ts (Nest.start.run ts).output := by
  have hempty := (hts.supplies hfree).with_body []
  obtain ⟨s, hrun, hnests⟩ := nestBlock_eq (hr.with_body []) hempty.free hempty.showsAll
  rw [hts.map_id] at hrun
  refine ⟨s, ?_, hnests⟩
  rw [nestBody]
  simp only
  rw [hrun]

end StackTree
