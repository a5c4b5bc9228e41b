import StackTree.Proofs.Folding.Bodies
import StackTree.Proofs.Folding.Reduction
import StackTree.Proofs.Nesting.Conservation

/-!
# Folding reaches a normal form

After one pass over a body no operator under it can be folded any more, so that a second pass changes
nothing. The nodes that are gone are those that folding reduced: constants and operators, one of
these for each replacement that was counted. Which nodes are left is found by counting: those that
were under no entry and those of the folded trees are live afterwards, and they are as many as the
count of live nodes says (`Refolds.perm_liveIds`), so nothing else is, and no constant leaks.

## Main definitions

* `Routine.releasedOf`: the released nodes of some kinds.
* `Routine.liveOutside`: the live nodes that are in none of some trees.
* `Routine.Normalizes`: what a pass reaches and what it costs.

## Main results

* `Refolds.perm_liveIds`, `Refolds.isLive_iff`: which nodes are live after folding.
* `Refolds.length_releasedOf`: how many nodes of a kind folding releases.
* `Routine.Reachable.foldBody_normalizes`: folding a body reaches its normal form in one pass.
-/

namespace StackTree

open StackTree.Tree (forestNodes subtreesAll sizes foldAll labelsOf Reduced Reduces)

namespace Routine

variable {r s q : Routine} {before after : List Tree} {added : Nat}

/-! ## Kinds -/

/-- Whether the node exists and is of one of the kinds. -/
def hasKind (r : Routine) (p : Kind → Bool) (n : NodeId) : Bool :=
  (r.get? n).any fun node => p node.kind

/-- The nodes of some kinds that were live in the first routine and are no longer in the second. -/
def releasedOf (r s : Routine) (p : Kind → Bool) : List NodeId :=
  (r.releasedBy s).filter (r.hasKind p)

theorem hasKind_of_get? {n : NodeId} {node : Node} (h : r.get? n = some node) (p : Kind → Bool) :
    r.hasKind p n = p node.kind := by
  rw [hasKind, h]
  rfl

theorem isLive_of_hasKind {p : Kind → Bool} {n : NodeId} (h : r.hasKind p n = true) :
    r.isLive n = true := by
  cases hn : r.get? n with
  | none =>
    rw [hasKind, hn] at h
    cases h
  | some node => exact isLive_iff.mpr ⟨node, hn⟩

theorem Shows.hasKind_eq {u : Tree} (h : r.Shows u.id u) (p : Kind → Bool) :
    r.hasKind p u.id = p u.kind := by
  obtain ⟨node, hget, hkind, -⟩ := h.node_of_label
  rw [hasKind_of_get? hget, hkind]
  rfl

theorem ShowsAll.mem_labelsOf_iff {ns : List NodeId} {ts : List Tree} (h : r.ShowsAll ns ts)
    {p : Kind → Bool} {n : NodeId} :
    n ∈ (labelsOf p ts).map Prod.fst ↔ n ∈ forestNodes ts ∧ r.hasKind p n = true := by
  rw [← Tree.map_id_subtreesAll]
  simp only [List.mem_map, Tree.mem_labelsOf]
  constructor
  · rintro ⟨-, ⟨u, hu, hkind, rfl⟩, rfl⟩
    exact ⟨⟨u, hu, rfl⟩, ((h.of_mem_subtrees u hu).hasKind_eq p).trans hkind⟩
  · rintro ⟨⟨u, hu, rfl⟩, hkind⟩
    exact ⟨u.label, ⟨u, hu, ((h.of_mem_subtrees u hu).hasKind_eq p).symm.trans hkind, rfl⟩, rfl⟩

theorem mem_releasedOf {p : Kind → Bool} {n : NodeId} :
    n ∈ r.releasedOf s p ↔ r.hasKind p n = true ∧ s.isLive n = false := by
  rw [releasedOf, List.mem_filter, mem_releasedBy]
  constructor
  · rintro ⟨⟨-, hgone⟩, hkind⟩
    exact ⟨hkind, hgone⟩
  · rintro ⟨hkind, hgone⟩
    exact ⟨⟨isLive_of_hasKind hkind, hgone⟩, hkind⟩

theorem nodup_releasedOf (r s : Routine) (p : Kind → Bool) : (r.releasedOf s p).Nodup :=
  (nodup_liveIds.filter _).filter _

/-- No node of some kind is listed twice. -/
theorem Supplies.nodup_labelsOf (hr : r.Sound) {ts : List Tree} (h : r.Supplies ts)
    (p : Kind → Bool) : ((labelsOf p ts).map Prod.fst).Nodup := by
  have hnodup := h.forestNodes_nodup hr
  rw [← Tree.map_id_subtreesAll] at hnodup
  rw [labelsOf, List.map_map]
  exact hnodup.sublist (List.filter_sublist.map Tree.id)

/-! ## Which nodes are live -/

/-- The live nodes that are in none of the trees. -/
def liveOutside (r : Routine) (ts : List Tree) : List NodeId :=
  r.liveIds.filter (· ∉ forestNodes ts)

theorem mem_liveOutside {ts : List Tree} {n : NodeId} :
    n ∈ r.liveOutside ts ↔ n ∉ forestNodes ts ∧ r.isLive n = true := by
  rw [liveOutside, List.mem_filter, mem_liveIds, decide_eq_true_iff, and_comm]

theorem nodup_liveOutside (r : Routine) (ts : List Tree) : (r.liveOutside ts).Nodup :=
  nodup_liveIds.filter _

/-- The live nodes are those of the trees and those outside of them. -/
theorem Supplies.perm_liveIds (hr : r.Sound) {ts : List Tree} (h : r.Supplies ts) :
    (forestNodes ts ++ r.liveOutside ts).Perm r.liveIds := by
  apply (List.perm_ext_iff_of_nodup ?_ nodup_liveIds).mpr
  · intro m
    rw [List.mem_append, mem_liveOutside, mem_liveIds]
    by_cases hm : m ∈ forestNodes ts
    · simp [hm, h.showsAll.live_of_mem hm]
    · simp [hm]
  · refine List.nodup_append.mpr ⟨h.forestNodes_nodup hr, nodup_liveOutside r ts, ?_⟩
    rintro m hm _ hother rfl
    exact (mem_liveOutside.mp hother).1 hm

namespace Refolds

/-- The live nodes afterwards are those of the folded trees and those that were outside before: these
are live, and they are as many as the count of live nodes says. -/
theorem perm_liveIds (hr : r.Sound) (hsup : r.Supplies before)
    (h : r.Refolds s before after added) :
    (forestNodes after ++ r.liveOutside before).Perm s.liveIds := by
  have hnodup : (forestNodes after ++ r.liveOutside before).Nodup := by
    refine List.nodup_append.mpr
      ⟨h.supplies.forestNodes_nodup h.sound, nodup_liveOutside r before, ?_⟩
    rintro m hm _ hother rfl
    obtain ⟨hout, hlive⟩ := mem_liveOutside.mp hother
    rcases h.nodes_subset m hm with hin | hge
    · exact hout hin
    · have := index_lt_of_isLive hlive
      omega
  have hsubset : forestNodes after ++ r.liveOutside before ⊆ s.liveIds := by
    intro m hm
    rw [mem_liveIds]
    rcases List.mem_append.mp hm with hm | hm
    · exact h.supplies.showsAll.live_of_mem hm
    · obtain ⟨hout, hlive⟩ := mem_liveOutside.mp hm
      rwa [isLive_of_bare_eq (h.bare_eq m hout (index_lt_of_isLive hlive))]
  have hlength : s.liveIds.length ≤ (forestNodes after ++ r.liveOutside before).length := by
    have hlive := h.live_eq
    have hbefore := (hsup.perm_liveIds hr).length_eq
    rw [hr.live_eq, h.sound.live_eq, liveNodes_eq_length, liveNodes_eq_length] at hlive
    rw [List.length_append, Tree.length_forestNodes] at hbefore ⊢
    omega
  exact (hnodup.subperm hsubset).perm_of_length_le hlength

/-- Live afterwards are the nodes of the folded trees, and the nodes outside the trees that were live
before. -/
theorem isLive_iff (hr : r.Sound) (hsup : r.Supplies before) (h : r.Refolds s before after added)
    {n : NodeId} :
    s.isLive n = true ↔ n ∈ forestNodes after ∨ (n ∉ forestNodes before ∧ r.isLive n = true) := by
  rw [← mem_liveIds, ← (h.perm_liveIds hr hsup).mem_iff, List.mem_append, mem_liveOutside]

/-- A node of a folded tree that was there before is of the kind that it was of. -/
theorem hasKind_eq (hsup : r.Supplies before) (h : r.Refolds s before after added)
    {steps : Nat} (hreduces : Reduces r.nodes.size steps before after) {n : NodeId}
    (hn : n ∈ forestNodes after) (hold : n ∈ forestNodes before) (p : Kind → Bool) :
    s.hasKind p n = r.hasKind p n := by
  rw [← Tree.map_id_subtreesAll] at hn
  obtain ⟨u, hu, rfl⟩ := List.mem_map.mp hn
  rcases hreduces.origin u hu with ⟨t, ht, hlabel⟩ | ⟨hge, -⟩
  · have hid : t.id = u.id := congrArg Prod.fst hlabel
    have hkind : t.kind = u.kind := congrArg (·.2.1) hlabel
    rw [(h.supplies.showsAll.of_mem_subtrees u hu).hasKind_eq, ← hid,
      (hsup.showsAll.of_mem_subtrees t ht).hasKind_eq, hkind]
  · have := index_lt_of_isLive (hsup.showsAll.live_of_mem hold)
    omega

/-- A node of a folded tree that was not there before is a constant. -/
theorem hasKind_new (h : r.Refolds s before after added)
    {steps : Nat} (hreduces : Reduces r.nodes.size steps before after) {n : NodeId}
    (hn : n ∈ forestNodes after) (hnew : n ∉ forestNodes before) {p : Kind → Bool}
    (hp : ∀ v, p (.const v) = false) : s.hasKind p n = false := by
  rw [← Tree.map_id_subtreesAll] at hn
  obtain ⟨u, hu, rfl⟩ := List.mem_map.mp hn
  rcases hreduces.origin u hu with ⟨t, ht, hlabel⟩ | ⟨-, v, hkind⟩
  · have hid : t.id = u.id := congrArg Prod.fst hlabel
    rw [← Tree.map_id_subtreesAll] at hnew
    exact absurd (hid ▸ List.mem_map_of_mem ht) hnew
  · rw [(h.supplies.showsAll.of_mem_subtrees u hu).hasKind_eq, hkind, hp]

/-! ## Which nodes are released -/

/-- A node of a kind that folding does not make is in the folded trees afterwards, or released. -/
theorem mem_labelsOf_iff (hr : r.Sound) (hsup : r.Supplies before)
    (h : r.Refolds s before after added) {steps : Nat}
    (hreduces : Reduces r.nodes.size steps before after) {p : Kind → Bool}
    (hp : ∀ v, p (.const v) = false) {n : NodeId} :
    n ∈ (labelsOf p before).map Prod.fst ↔
      n ∈ (labelsOf p after).map Prod.fst ∨ n ∈ r.releasedOf s p := by
  rw [hsup.showsAll.mem_labelsOf_iff, h.supplies.showsAll.mem_labelsOf_iff, mem_releasedOf]
  constructor
  · rintro ⟨hold, hkind⟩
    by_cases hin : n ∈ forestNodes after
    · exact Or.inl ⟨hin, (h.hasKind_eq hsup hreduces hin hold p).trans hkind⟩
    · refine Or.inr ⟨hkind, ?_⟩
      rw [← Bool.not_eq_true, h.isLive_iff hr hsup]
      rintro (hmem | ⟨hout, -⟩)
      · exact hin hmem
      · exact hout hold
  · rintro (⟨hin, hkind⟩ | ⟨hkind, hgone⟩)
    · by_cases hold : n ∈ forestNodes before
      · exact ⟨hold, (h.hasKind_eq hsup hreduces hin hold p).symm.trans hkind⟩
      · rw [h.hasKind_new hreduces hin hold hp] at hkind
        cases hkind
    · refine ⟨?_, hkind⟩
      by_contra hout
      rw [(h.isLive_iff hr hsup).mpr (Or.inr ⟨hout, isLive_of_hasKind hkind⟩)] at hgone
      cases hgone

/-- The released nodes of a kind that folding does not make are those that the trees have fewer. -/
theorem length_releasedOf (hr : r.Sound) (hsup : r.Supplies before)
    (h : r.Refolds s before after added) {steps : Nat}
    (hreduces : Reduces r.nodes.size steps before after) {p : Kind → Bool}
    (hp : ∀ v, p (.const v) = false) :
    (labelsOf p after).length + (r.releasedOf s p).length = (labelsOf p before).length := by
  have hnodup : ((labelsOf p after).map Prod.fst ++ r.releasedOf s p).Nodup := by
    refine List.nodup_append.mpr
      ⟨h.supplies.nodup_labelsOf h.sound p, nodup_releasedOf r s p, ?_⟩
    rintro n hn _ hgone rfl
    have hlive := h.supplies.showsAll.live_of_mem
      (h.supplies.showsAll.mem_labelsOf_iff.mp hn).1
    rw [(mem_releasedOf.mp hgone).2] at hlive
    cases hlive
  have hperm := (List.perm_ext_iff_of_nodup hnodup (hsup.nodup_labelsOf hr p)).mpr fun n => by
    rw [List.mem_append, h.mem_labelsOf_iff hr hsup hreduces hp]
  have hlength := hperm.length_eq
  rwa [List.length_append, List.length_map, List.length_map] at hlength

/-- A node that folding neither makes nor removes is kept. -/
theorem keepsNode (hsup : r.Supplies before) (h : r.Refolds s before after added) {steps : Nat}
    (hreduces : Reduces r.nodes.size steps before after) {n : NodeId} {node : Node}
    (hn : r.get? n = some node) (hkind : node.kind.foldable = false) : r.KeepsNode s n := by
  by_cases hold : n ∈ forestNodes before
  · rw [← Tree.map_id_subtreesAll] at hold
    obtain ⟨t, ht, rfl⟩ := List.mem_map.mp hold
    have hshows := hsup.showsAll.of_mem_subtrees t ht
    have hlasting : t.label ∈ labelsOf (!·.foldable) after := by
      rw [hreduces.lasting_eq, Tree.mem_labelsOf]
      refine ⟨t, ht, ?_, rfl⟩
      rw [← hshows.hasKind_eq (!·.foldable), hasKind_of_get? hn, hkind]
      rfl
    obtain ⟨u, hu, -, hlabel⟩ := Tree.mem_labelsOf.mp hlasting
    exact keepsNode_of_label hshows (h.supplies.showsAll.of_mem_subtrees u hu) hlabel
  · have hlt := index_lt_of_isLive (Routine.isLive_iff.mpr ⟨node, hn⟩)
    obtain ⟨effects, hget⟩ := get?_of_bare_eq hn (h.bare_eq n hold hlt)
    exact ⟨node, _, hn, hget, rfl, rfl⟩

/-- Where folding makes nothing of the trees, the routine stays as it is. -/
theorem eq_self (hs : s.Sound) (hsup : s.Supplies before) (h : s.Refolds q before before 0)
    (hbody : q.body = s.body) : q = s := by
  apply h.sound.eq_of_shape hs h.size_eq h.name_eq hbody
  intro m
  by_cases hm : m ∈ forestNodes before
  · exact hsup.showsAll.shape_agree h.supplies.showsAll m hm
  · by_cases hlt : m.index < s.nodes.size
    · exact shape_of_bare_eq (h.bare_eq m hm hlt)
    · have hnone : ∀ r : Routine, r.nodes.size = s.nodes.size → r.shape m = none := by
        intro r hsize
        rw [shape, get?, Array.getElem?_eq_none (by omega)]
        rfl
      rw [hnone q h.size_eq, hnone s rfl]

end Refolds

/-! ## A pass over a body -/

/-- The trees of a body were folded with so many replacements. -/
structure Normalizes (r s : Routine) (before after : List Tree) (folded : Nat) : Prop where
  /-- No operator on one operand is left over a constant. -/
  unary : ∀ u ∈ subtreesAll after, ∀ op, u.kind = .unary op → ∀ c ∈ u.children, ∀ v,
    c.kind ≠ .const v
  /-- An operator that is left over two constants is a division that traps. -/
  binary : ∀ u ∈ subtreesAll after, ∀ op x y, u.kind = .binary op →
    u.children.map Tree.kind = [.const x, .const y] → (op = .div ∨ op = .rem) ∧ Traps x y
  /-- Whatever is gone was a constant or an operator. -/
  released : ∀ n ∈ r.releasedBy s, r.hasKind Kind.foldable n = true
  /-- All other nodes are kept under their names. -/
  kept : ∀ n node, r.get? n = some node → node.kind.foldable = false → r.KeepsNode s n
  /-- Under the body they are evaluated in the same order. -/
  order : labelsOf (!·.foldable) after = labelsOf (!·.foldable) before
  /-- As many operators are gone as replacements were counted. -/
  count : (r.releasedOf s Kind.isUnary).length + (r.releasedOf s Kind.isBinary).length = folded
  /-- The count of nodes goes down by one for each of one operand, by two for each of two. -/
  live : s.live + (r.releasedOf s Kind.isUnary).length +
    2 * (r.releasedOf s Kind.isBinary).length = r.live
  /-- A second pass finds nothing to do. -/
  again : foldBody s = .ok 0 s

/-- Folded trees are reduced, so a second pass over them changes nothing. -/
theorem foldBody_of_reduced (hs : s.Sound) {ts : List Tree} (hsup : s.Supplies ts)
    (hbody : s.body = ts.map Tree.id) (hreduced : Reduced ts)
    (hroom : s.nodes.size ≤ Routine.capacity) : foldBody s = .ok 0 s := by
  have hshows : s.ShowsAll s.body ts := hbody ▸ hsup.showsAll
  have hfold : foldAll s.nodes.size ts = ⟨ts, 0⟩ :=
    Tree.foldAll_of_reduced _ ts (hs.trees_sound hshows) hreduced
  have hfree : s.AllFree s.body := hbody ▸ hsup.free
  have hfits : s.RoomToFold := by
    intro us hread
    obtain rfl := Except.ok.inj (hread.symm.trans (hs.mapM_tree hshows))
    rw [hfold]
    exact hroom
  obtain ⟨q, hrun, hrefolds, hbody'⟩ := foldBody_eq hs hfree hshows hfits
  rw [hfold] at hrun hrefolds hbody'
  rw [hrun, hrefolds.eq_self hs hsup (hbody'.trans hbody.symm)]

/--
Folding the body of a reachable routine reaches its normal form in one pass. Over a body of free
nodes and with room for the constants it succeeds; then no operator under the body can be folded but
for divisions that trap, only constants and operators are gone, everything else is kept and evaluated
in the same order, the counts are right, and a second pass changes nothing.
-/
theorem Reachable.foldBody_normalizes (h : r.Reachable) (hfree : r.AllFree r.body)
    (hroom : r.RoomToFold) :
    ∃ before after folded s, r.body.mapM r.tree = .ok before ∧ foldBody r = .ok folded s ∧
      s.body.mapM s.tree = .ok after ∧ r.Normalizes s before after folded := by
  have hr := h.sound
  obtain ⟨before, hbefore⟩ := hr.exists_showsAll hfree
  have hsup : r.Supplies before := hbefore.supplies hfree
  have hfits := hroom before (hr.mapM_tree hbefore)
  have hreduces := Tree.reduces_foldAll (hr.trees_sound hbefore) r.nodes.size
  have hreduced := Tree.reduced_foldAll r.nodes.size before
  obtain ⟨s, hrun, hrefolds, hbody⟩ := foldBody_eq hr hfree hbefore hroom
  generalize foldAll r.nodes.size before = folded at *
  have hs := hrefolds.sound
  have hafter := hrefolds.supplies.showsAll
  obtain ⟨hunary, hbinary⟩ :=
    hreduced.operators fun u hu => hs.tree_sound (hafter.of_mem_subtrees u hu)
  obtain ⟨unaries, binaries, hcount, hunaries, hbinaries, hsizes⟩ := hreduces.counts
  have hreleased := hrefolds.length_releasedOf hr hsup hreduces (p := Kind.isUnary) fun _ => rfl
  have hreleased' := hrefolds.length_releasedOf hr hsup hreduces (p := Kind.isBinary) fun _ => rfl
  have hlive := hrefolds.live_eq
  refine ⟨before, folded.result, folded.count, s, hr.mapM_tree hbefore, hrun, ?_, hunary, hbinary,
    ?released, fun n node hn hkind => hrefolds.keepsNode hsup hreduces hn hkind,
    hreduces.lasting_eq, by omega, by omega, ?again⟩
  · rw [hbody]
    exact hs.mapM_tree hafter
  case released =>
    intro n hn
    obtain ⟨hold, hgone⟩ := mem_releasedBy.mp hn
    obtain ⟨node, hget⟩ := Routine.isLive_iff.mp hold
    rw [hasKind_of_get? hget]
    by_contra hlasting
    obtain ⟨_, node', -, hget', -⟩ :=
      hrefolds.keepsNode hsup hreduces hget (Bool.eq_false_iff.mpr hlasting)
    rw [Routine.isLive_iff.mpr ⟨node', hget'⟩] at hgone
    cases hgone
  case again =>
    apply foldBody_of_reduced hs hrefolds.supplies hbody hreduced
    rw [hrefolds.size_eq]
    exact hfits

/-- A negation and the sum over it become constants, a division by zero stays under its call: two
replacements, three nodes fewer. -/
theorem normalized_sum_over_zero :
    let build : Edit Unit := do
      let minus ← alloc (.unary .neg) [← alloc (.const 1) []]
      let sum ← alloc (.binary .add) [minus, ← alloc (.const 2) []]
      let quotient ← alloc (.binary .div) [sum, ← alloc (.const 0) []]
      let caller ← alloc (.call "f" false) [quotient, ← alloc (.load 0) []]
      modify fun r => { r with body := [caller] }
    let r := leftBy (build { name := "main" })
    r.Reachable ∧ r.AllFree r.body ∧ r.RoomToFold ∧ r.live = 8 ∧
      ∃ before after s, r.body.mapM r.tree = .ok before ∧ foldBody r = .ok 2 s ∧
        s.body.mapM s.tree = .ok after ∧ s.live = 5 ∧ r.Normalizes s before after 2 := by
  intro build r
  have hreach : r.Reachable :=
    ⟨"main", Unit, build, .bind (.alloc _ _) fun _ => .bind (.alloc _ _) fun _ =>
      .bind (.alloc _ _) fun _ => .bind (.alloc _ _) fun _ => .bind (.alloc _ _) fun _ =>
        .bind (.alloc _ _) fun _ => .bind (.alloc _ _) fun _ => .bind (.alloc _ _) fun _ =>
          .setBody _, rfl⟩
  have hfree : r.AllFree r.body := by
    have hcheck : r.checkFree (fun n _ => .released n) [] r.body = .ok () := by decide +kernel
    exact Routine.checkFree_nil_ok_iff.mp hcheck
  have hroom : r.RoomToFold := roomToFold_of_live hreach.sound hfree (by decide +kernel)
  obtain ⟨before, after, folded, s, hbefore, hrun, hafter, hnormal⟩ :=
    Reachable.foldBody_normalizes hreach hfree hroom
  have hcount : (match foldBody r with
    | .ok folded _ => folded
    | .error _ _ => 0) = 2 := by decide +kernel
  have hlive : (leftBy (foldBody r)).live = 5 := by decide +kernel
  rw [hrun] at hcount hlive
  obtain rfl : folded = 2 := hcount
  exact ⟨hreach, hfree, hroom, by decide +kernel, before, after, s, hbefore, hrun, hafter, hlive,
    hnormal⟩

end Routine

end StackTree
