import StackTree.Proofs.Ownership.Reach

/-!
# What an edit leaves alone

A replacement changes two links and one slot; nothing else of any node changes but stored effects,
and these only on the way up from the slot, because below every other node the operands are what
they were. The tree that was in the slot is untouched and hangs nowhere. A release removes one tree,
and trees of a forest share no nodes, so nothing else goes with it. Putting an operand into a slot is
the one after the other.

## Main definitions

* `Routine.Replaced`: an operand took the place of another, and some nodes are gone.

## Main results

* `Fits.replaced`: what a replacement changes.
* `Routine.Replaced.release`: what is left after the tree that was in the slot is released.
* `Routine.Reachable.edits_touch_only`: what the edits of a reachable routine change.
-/

namespace StackTree

open Runs

namespace Routine

variable {r q s : Routine} {p old c : NodeId} {slot : Nat}

/-- In the slot of `p` the operand `c` took the place of `old`, and the nodes `gone` are no more. -/
structure Replaced (r s : Routine) (p : NodeId) (slot : Nat) (old c : NodeId)
    (gone : List NodeId) : Prop where
  /-- The operand sits in the slot. -/
  sits : s.HasChild p slot c
  /-- The operand is linked to the slot. -/
  linked : s.LinksTo c ⟨p, slot⟩
  /-- Nodes that did not exist do not exist afterwards, and some others do not any more. -/
  absent : ∀ m, r.get? m = none ∨ m ∈ gone → s.get? m = none
  /-- A node that is left does what it did, over the same operands and linked to the same place, but
  for the slot and the two nodes it is about. Stored effects change at `p` and above it only. -/
  kept : ∀ m node, r.get? m = some node → m ∉ gone → ∃ effects,
    s.get? m = some
      { kind := node.kind
        children := if m = p then node.children.set slot c else node.children
        effects := effects
        parent := if m = old then none else if m = c then some ⟨p, slot⟩ else node.parent } ∧
    (¬ r.Under m p → effects = node.effects)
  /-- No node is gone twice. -/
  nodup : gone.Nodup
  /-- The count of nodes is less by those that are gone. -/
  live_eq : s.live + gone.length = r.live
  size_eq : s.nodes.size = r.nodes.size
  name_eq : s.name = r.name
  body_eq : s.body = r.body

/-! ## A replacement -/

/-- Under a node that is not above the slot all operands are what they were, and so are the stored
effects. -/
theorem Fits.storedEffects_eq (h : r.Sound) (hf : r.Fits p slot old c) (hs : s.Sound)
    (halike : (r.relink p slot old c).Alike s) {m : NodeId} (hm : ¬ r.Under m p) :
    s.storedEffects m = r.storedEffects m := by
  apply hs.storedEffects_eq_of_shape h
  intro k hk
  have hne : k ≠ p := fun heq => hm (heq ▸ hk)
  rw [shape_of_bare_eq (halike.bare_eq k), hf.shape_relink h.toStructured hne]

/-- A replacement changes the slot, the links of two nodes, and stored effects on the way up. -/
theorem Fits.replaced (h : r.Sound) (hf : r.Fits p slot old c) (hs : s.Sound)
    (halike : (r.relink p slot old c).Alike s) : r.Replaced s p slot old c [] := by
  have hget := hf.get?_relink h.toStructured
  have hsits : s.HasChild p slot c :=
    hasChild_of_bare_eq (halike.bare_eq p)
      ((hf.hasChild_relink_iff h.toStructured).mpr (Or.inl ⟨rfl, rfl, rfl⟩))
  refine ⟨hsits, hs.down p slot c hsits, ?absent, ?kept, List.nodup_nil, halike.live_eq,
    halike.size_eq.trans Fits.size_relink, halike.name_eq, halike.body_eq⟩
  case absent =>
    intro m hm
    have hnone : r.get? m = none := by simpa using hm
    apply bare_eq_none_iff.mp
    rw [halike.bare_eq, bare_eq_none_iff, hget, hnone]
    rfl
  case kept =>
    intro m node hm _
    have hrelink := hget m
    rw [hm, Option.map_some] at hrelink
    obtain ⟨effects, hafter⟩ := get?_of_bare_eq hrelink (halike.bare_eq m)
    refine ⟨effects, hafter, ?_⟩
    intro hnot
    have hstored := hf.storedEffects_eq h hs halike hnot
    rwa [storedEffects_of_get? hafter, storedEffects_of_get? hm] at hstored

/-! ## A release -/

/-- A release removes each node of the tree, and the count says so. -/
theorem Structured.releases_release_live (h : r.Structured) {n : NodeId} {t : Tree}
    (ht : r.Shows n t) :
    r.Releases (r.release n) t.nodes ∧ (r.release n).live + t.size = r.live := by
  have hrelease := h.releases_release ht
  have hle := h.size_le_live ht
  refine ⟨hrelease, ?_⟩
  rw [hrelease.live_eq, t.length_nodes]
  omega

/-- Releasing nodes after a replacement, but neither the new operand nor the node above it, leaves
everything else as it is after the replacement. -/
theorem Replaced.release (h : r.Replaced q p slot old c []) {gone : List NodeId}
    (hs : q.Releases s gone) (hnodup : gone.Nodup) (hlive : s.live + gone.length = q.live)
    (hp : p ∉ gone) (hc : c ∉ gone) : r.Replaced s p slot old c gone where
  sits := by
    obtain ⟨node, hget, hslot⟩ := h.sits
    exact ⟨node, hs.get?_eq_some_iff.mpr ⟨hp, hget⟩, hslot⟩
  linked := by
    obtain ⟨node, hget, hlink⟩ := h.linked
    exact ⟨node, hs.get?_eq_some_iff.mpr ⟨hc, hget⟩, hlink⟩
  absent := by
    intro m hm
    rw [hs.get?_eq]
    split
    · rfl
    · next hnot =>
      rcases hm with hnone | hmem
      · exact h.absent m (Or.inl hnone)
      · exact absurd hmem hnot
  kept := by
    intro m node hget hm
    rw [hs.get?_of_notMem hm]
    exact h.kept m node hget List.not_mem_nil
  nodup := hnodup
  live_eq := hlive.trans h.live_eq
  size_eq := hs.size_eq.trans h.size_eq
  name_eq := hs.name_eq.trans h.name_eq
  body_eq := hs.body_eq.trans h.body_eq

end Routine

open Routine

variable {r s : Routine} {p old c : NodeId} {slot : Nat}

/-! ## The edits -/

/-- A replacement that goes well finds the operand in its place or puts it there; the tree that was
there stays whole and hangs nowhere. -/
theorem replaceChild_touches (h : r.Sound) (hrun : replaceChild p slot c r = .ok old s) :
    r.HasChild p slot old ∧
      ((old = c ∧ s = r) ∨
        (old ≠ c ∧ s.Sound ∧ r.Replaced s p slot old c [] ∧ s.Free old ∧
          ∃ t, r.Shows old t ∧ s.Shows old t)) := by
  rcases replaceChild_cases h p slot c with
    ⟨fault, hfails⟩ | ⟨hsame, hkept⟩ | ⟨o, q, hfits, hok, hsound, halike⟩
  · rw [hfails] at hrun
    cases hrun
  · rw [hkept] at hrun
    cases hrun
    exact ⟨hsame, Or.inl ⟨rfl, rfl⟩⟩
  · rw [hok] at hrun
    cases hrun
    have hlinked := h.down p slot old hfits.sits
    obtain ⟨t, ht⟩ := h.exists_shows hlinked.isLive
    have hfree : s.Free old :=
      free_of_bare_eq (halike.bare_eq old) (hfits.free_relink_old h.toStructured)
    exact ⟨hfits.sits, Or.inr ⟨hfits.old_ne_child h.toStructured, hsound,
      hfits.replaced h hsound halike, hfree, t, ht, hfits.shows_old h hsound halike ht⟩⟩

/-- A release that goes well removes the tree under the node. -/
theorem discard_touches (h : r.Sound) {n : NodeId} (hrun : discard n r = .ok () s) :
    ∃ t, r.Shows n t ∧ t.nodes.Nodup ∧ r.Releases s t.nodes ∧ s.live + t.size = r.live := by
  rcases discard_cases n r with ⟨fault, hfails⟩ | ⟨hfree, hok⟩
  · rw [hfails] at hrun
    cases hrun
  · rw [hok] at hrun
    cases hrun
    obtain ⟨t, ht⟩ := h.exists_shows hfree.isLive
    exact ⟨t, ht, h.nodes_nodup ht, h.releases_release_live ht⟩

/-- Putting an operand into a slot is a replacement, followed by a release of what was there if that
was another node. -/
theorem setChild_run_ok (hrun : setChild p slot c r = .ok () s) :
    ∃ old q, replaceChild p slot c r = .ok old q ∧
      ((old = c ∧ s = q) ∨ (old ≠ c ∧ discard old q = .ok () s)) := by
  rw [setChild, run_bind] at hrun
  cases hreplace : replaceChild p slot c r with
  | error fault q =>
    rw [hreplace] at hrun
    cases hrun
  | ok old q =>
    rw [hreplace] at hrun
    refine ⟨old, q, rfl, ?_⟩
    by_cases heq : old = c
    · left
      simp only [heq, if_true] at hrun
      cases hrun
      exact ⟨heq, rfl⟩
    · right
      simp only [heq, if_false] at hrun
      exact ⟨heq, hrun⟩

/-- Putting an operand into a slot that goes well finds it in its place, or puts it there and removes
the tree that was there. -/
theorem setChild_touches (h : r.Sound) (hrun : setChild p slot c r = .ok () s) :
    ∃ old t, r.HasChild p slot old ∧ r.Shows old t ∧
      ((old = c ∧ s = r) ∨ (old ≠ c ∧ r.Replaced s p slot old c t.nodes)) := by
  obtain ⟨old, q, hreplace, hrest⟩ := setChild_run_ok hrun
  obtain ⟨hsits, hcases⟩ := replaceChild_touches h hreplace
  obtain ⟨t, ht⟩ := h.exists_shows (h.down p slot old hsits).isLive
  refine ⟨old, t, hsits, ht, ?_⟩
  rcases hcases with ⟨heq, rfl⟩ | ⟨hne, hq, hreplaced, -, u, hu, hshows⟩
  · rcases hrest with ⟨-, rfl⟩ | ⟨hne, -⟩
    · exact Or.inl ⟨heq, rfl⟩
    · exact absurd heq hne
  · rcases hrest with ⟨heq, -⟩ | ⟨-, hdiscard⟩
    · exact absurd heq hne
    · obtain ⟨v, hv, hnodup, hrelease, hlive⟩ := discard_touches hq hdiscard
      -- the tree that is released is the one that was in the slot to begin with
      obtain rfl : v = u := hv.unique hshows
      obtain rfl : v = t := hu.unique ht
      have hp : p ∉ v.nodes := fun hm => h.not_under_child hsits (ht.under hm)
      have hc : c ∉ v.nodes := by
        intro hm
        have hunder : q.Under old p := by
          cases hv.under hm with
          | self => exact absurd rfl hne
          | child above sits =>
            obtain ⟨rfl, -⟩ := hq.slot_unique sits hreplaced.sits
            exact above
        exact hp (hv.mem_nodes_iff.mpr hunder)
      rw [← v.length_nodes] at hlive
      exact Or.inr ⟨hne, hreplaced.release hrelease hnodup hlive hp hc⟩

/--
What the edits of a reachable routine change. An operand that is put into a slot sits there and is
linked to it, exactly the nodes under the operand before it are gone, and every other node keeps what
it does, its operands and its link; its stored effects may change only if it is above the slot. A
replacement does the same, but for the tree that was in the slot: it stays, and hangs nowhere. An
operand that is there already changes nothing. A release removes exactly the nodes under the given
one.
-/
theorem Routine.Reachable.edits_touch_only (h : r.Reachable) :
    (∀ p slot c s, setChild p slot c r = .ok () s →
      ∃ old t, r.HasChild p slot old ∧ r.tree old = .ok t ∧
        ((old = c ∧ s = r) ∨ (old ≠ c ∧ r.Replaced s p slot old c t.nodes))) ∧
    (∀ p slot c old s, replaceChild p slot c r = .ok old s →
      ∃ t, r.HasChild p slot old ∧ r.tree old = .ok t ∧
        ((old = c ∧ s = r) ∨
          (old ≠ c ∧ r.Replaced s p slot old c [] ∧ s.Free old ∧ s.tree old = .ok t))) ∧
    ∀ n s, discard n r = .ok () s →
      ∃ t, r.tree n = .ok t ∧ t.nodes.Nodup ∧ r.Releases s t.nodes ∧ s.live + t.size = r.live := by
  have hr := h.sound
  refine ⟨?set, ?replace, ?release⟩
  case set =>
    intro p slot c s hrun
    obtain ⟨old, t, hsits, ht, hcases⟩ := setChild_touches hr hrun
    exact ⟨old, t, hsits, hr.tree_eq ht, hcases⟩
  case replace =>
    intro p slot c old s hrun
    obtain ⟨hsits, hcases⟩ := replaceChild_touches hr hrun
    rcases hcases with hsame | ⟨hne, hs, hreplaced, hfree, t, ht, hshows⟩
    · obtain ⟨t, ht⟩ := hr.exists_shows (hr.down p slot old hsits).isLive
      exact ⟨t, hsits, hr.tree_eq ht, Or.inl hsame⟩
    · exact ⟨t, hsits, hr.tree_eq ht, Or.inr ⟨hne, hreplaced, hfree, hs.tree_eq hshows⟩⟩
  case release =>
    intro n s hrun
    obtain ⟨t, ht, hrelease⟩ := discard_touches hr hrun
    exact ⟨t, hr.tree_eq ht, hrelease⟩

/-- Whether the computation goes well. -/
def succeeds {α : Type} : EStateM.Result Fault Routine α → Bool
  | .ok _ _ => true
  | .error _ _ => false

/-- An edit that answers nothing is known by the routine it leaves, if it goes well. -/
theorem eq_ok_leftBy {edit : Edit Unit} (h : succeeds (edit r) = true) :
    edit r = .ok () (leftBy (edit r)) := by
  cases hrun : edit r with
  | ok _ s => rfl
  | error fault s =>
    rw [hrun] at h
    cases h

/-- Under a sum a constant takes the place of a negated local: the load and the negation go, and the
sum reads nothing any more. Releasing the sum instead leaves the constant alone. -/
theorem Routine.edits_touch_only_at_sum :
    let build : Edit NodeId := do
      let inner ← alloc (.unary .neg) [← alloc (.load 0) []]
      let _ ← alloc (.binary .add) [inner, ← alloc (.const 1) []]
      alloc (.const 2) []
    let r := leftBy (build { name := "main" })
    let s := leftBy (setChild ⟨3⟩ 0 ⟨4⟩ r)
    let q := leftBy (discard ⟨3⟩ r)
    r.Reachable ∧ setChild ⟨3⟩ 0 ⟨4⟩ r = .ok () s ∧ discard ⟨3⟩ r = .ok () q ∧
      r.Replaced s ⟨3⟩ 0 ⟨1⟩ ⟨4⟩ [⟨0⟩, ⟨1⟩] ∧
      r.storedEffects ⟨3⟩ = .read ∧ s.storedEffects ⟨3⟩ = ∅ ∧
      r.Releases q [⟨0⟩, ⟨1⟩, ⟨2⟩, ⟨3⟩] := by
  intro build r s q
  have hreach : r.Reachable :=
    ⟨"main", NodeId, build, .bind (.alloc _ _) fun _ => .bind (.alloc _ _) fun _ =>
      .bind (.alloc _ _) fun _ => .bind (.alloc _ _) fun _ => .alloc _ _, rfl⟩
  obtain ⟨hset, -, hdiscard⟩ := Reachable.edits_touch_only hreach
  have hs : setChild ⟨3⟩ 0 ⟨4⟩ r = .ok () s := eq_ok_leftBy (by decide +kernel)
  have hq : discard ⟨3⟩ r = .ok () q := eq_ok_leftBy (by decide +kernel)
  refine ⟨hreach, hs, hq, ?_, by decide +kernel, by decide +kernel, ?_⟩
  · obtain ⟨old, t, hsits, ht, hcases⟩ := hset ⟨3⟩ 0 ⟨4⟩ s hs
    have hold : r.HasChild ⟨3⟩ 0 ⟨1⟩ := ⟨_, rfl, rfl⟩
    obtain rfl : ⟨1⟩ = old :=
      Except.ok.inj ((child_of_hasChild hold).symm.trans (child_of_hasChild hsits))
    have hnodes : (Tree.nodes <$> r.tree ⟨1⟩) = .ok [⟨0⟩, ⟨1⟩] := by decide +kernel
    rw [ht] at hnodes
    rw [← Except.ok.inj hnodes]
    rcases hcases with ⟨heq, -⟩ | ⟨-, hreplaced⟩
    · exact absurd heq (by decide)
    · exact hreplaced
  · obtain ⟨t, ht, -, hreleases, -⟩ := hdiscard ⟨3⟩ q hq
    have hnodes : (Tree.nodes <$> r.tree ⟨3⟩) = .ok [⟨0⟩, ⟨1⟩, ⟨2⟩, ⟨3⟩] := by decide +kernel
    rw [ht] at hnodes
    rw [← Except.ok.inj hnodes]
    exact hreleases

end StackTree
