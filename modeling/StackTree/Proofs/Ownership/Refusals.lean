import StackTree.Proofs.Ownership.Reach

/-!
# When edits are refused

An edit looks at its arguments before it writes anything. What it looks at is all that can go wrong:
in a forest the walk upward finds exactly the cycles, the effects of a node can always be computed,
and an operand that was taken out of its slot hangs nowhere, so releasing it cannot fail. The reasons
are those of `Routine.RefusesAlloc`, `Routine.RefusesChild` and `Routine.RefusesDiscard`; an edit
fails with the first one that applies, and a failed edit leaves the routine as it was.

## Main definitions

* `Routine.Refuses`: the edit fails with given faults and changes nothing then.

## Main results

* `exists_refusesAlloc_iff`, `exists_refusesChild_iff`, `exists_refusesDiscard_iff`: when there is a
  reason at all.
* `setChild_of_replaceChild`: a replacement that went well is followed by a release that does.
* `Routine.Reachable.edits_refused_iff`: when and how each edit of a reachable routine fails.
-/

namespace StackTree

open Runs

namespace Routine

variable {r : Routine}

/-- The edit fails with the given faults and no others, and then it changes nothing. -/
def Refuses {α : Type} (r : Routine) (edit : Edit α) (reason : Fault → Prop) : Prop :=
  ∀ fault s, edit r = .error fault s ↔ reason fault ∧ s = r

/-- Reasons that an edit fails for are all its faults, if it goes well where there is none. -/
theorem refuses_of_cases {α : Type} {edit : Edit α} {reason : Fault → Prop}
    (hfails : ∀ fault, reason fault → edit r = .error fault r)
    (hcases : (∃ fault, reason fault) ∨ ∃ a s, edit r = .ok a s) : r.Refuses edit reason := by
  intro fault s
  constructor
  · intro hrun
    rcases hcases with ⟨other, hreason⟩ | ⟨a, t, hok⟩
    · rw [hfails other hreason] at hrun
      cases hrun
      exact ⟨hreason, rfl⟩
    · rw [hok] at hrun
      cases hrun
  · rintro ⟨hreason, rfl⟩
    exact hfails fault hreason

/-! ## Whether there is a reason -/

theorem AllFree.not_rejects {attached : NodeId → Link → Fault} {ns : List NodeId} {fault : Fault}
    (hfree : r.AllFree ns) : ¬ r.Rejects attached ns fault := by
  intro hrejects
  have hfails := checkFree_of_rejects hrejects
  rw [checkFree_of_free hfree] at hfails
  cases hfails

/-- An allocation is refused when the operands are too few or too many, one of them is gone, attached
or listed before, or no name is left. -/
theorem exists_refusesAlloc_iff {kind : Kind} {operands : List NodeId} :
    (∃ fault, r.RefusesAlloc kind operands fault) ↔
      kind.accepts operands.length = false ∨
      (∃ earlier n later, operands = earlier ++ n :: later ∧
        (r.isLive n = false ∨ (∃ link, r.LinksTo n link) ∨ n ∈ earlier)) ∨
      capacity ≤ r.nodes.size := by
  have hoperands : (∃ fault, r.Rejects attachedOperand operands fault) ↔ _ := exists_rejects_iff
  rw [← hoperands]
  constructor
  · rintro ⟨fault, hrefuses⟩
    cases hrefuses with
    | arity misfit => exact Or.inl misfit
    | operand _ rejects => exact Or.inr (Or.inl ⟨fault, rejects⟩)
    | full _ _ full => exact Or.inr (Or.inr full)
  · intro hbad
    rcases r.refusesAlloc_or kind operands with hrefuses | ⟨hfits, hfree, hroom⟩
    · exact hrefuses
    · exfalso
      rcases hbad with hmisfit | ⟨fault, hrejects⟩ | hfull
      · rw [hfits] at hmisfit
        cases hmisfit
      · exact hfree.not_rejects hrejects
      · omega

/-- Putting an operand into a slot is refused when the node is gone or has no such slot, or the
operand is gone, hangs elsewhere, or is the node itself or above it. -/
theorem Structured.exists_refusesChild_iff (h : r.Structured) {p c : NodeId} {slot : Nat} :
    (∃ fault, r.RefusesChild p slot c fault) ↔
      r.isLive p = false ∨ (∀ old, ¬ r.HasChild p slot old) ∨ r.isLive c = false ∨
      (∃ link, r.LinksTo c link ∧ link ≠ ⟨p, slot⟩) ∨ r.Under c p := by
  constructor
  · rintro ⟨fault, hrefuses⟩
    cases hrefuses with
    | parent gone =>
      left
      rw [isLive, gone]
      rfl
    | slot at_p beyond =>
      right; left
      intro old hold
      have hslot := hold.mem at_p
      rw [List.getElem?_eq_none beyond] at hslot
      cases hslot
    | child _ gone =>
      right; right; left
      rw [isLive, gone]
      rfl
    | elsewhere _ linked other => exact Or.inr (Or.inr (Or.inr (Or.inl ⟨_, linked, other⟩)))
    | cycle _ _ above => exact Or.inr (Or.inr (Or.inr (Or.inr above)))
  · intro hbad
    rcases h.refusesChild_or p slot c with hrefuses | hsame | ⟨old, hfits⟩
    · exact hrefuses
    · exfalso
      have hlink : r.LinksTo c ⟨p, slot⟩ := h.down p slot c hsame
      have hp : r.isLive p = true := h.parent_live hlink
      have hc : r.isLive c = true := hlink.isLive
      rcases hbad with hgone | hnone | hgone | ⟨link, hother, hne⟩ | hunder
      · rw [hp] at hgone
        cases hgone
      · exact hnone c hsame
      · rw [hc] at hgone
        cases hgone
      · exact hne (hother.unique hlink)
      · exact h.not_under_child hsame hunder
    · exfalso
      have hp : r.isLive p = true := h.parent_live (h.down p slot old hfits.sits)
      have hc : r.isLive c = true := hfits.free.isLive
      rcases hbad with hgone | hnone | hgone | ⟨link, hother, -⟩ | hunder
      · rw [hp] at hgone
        cases hgone
      · exact hnone old hfits.sits
      · rw [hc] at hgone
        cases hgone
      · exact hfits.free.not_linksTo hother
      · exact hfits.apart hunder

/-- A release is refused when the node is gone or hangs somewhere. -/
theorem exists_refusesDiscard_iff {n : NodeId} :
    (∃ fault, r.RefusesDiscard n fault) ↔ r.isLive n = false ∨ ∃ link, r.LinksTo n link := by
  constructor
  · rintro ⟨fault, hrefuses⟩
    cases hrefuses with
    | gone gone =>
      left
      rw [isLive, gone]
      rfl
    | attached linked => exact Or.inr ⟨_, linked⟩
  · intro hbad
    rcases r.refusesDiscard_or n with hrefuses | hfree
    · exact hrefuses
    · exfalso
      rcases hbad with hgone | ⟨link, hlink⟩
      · rw [hfree.isLive] at hgone
        cases hgone
      · exact hfree.not_linksTo hlink

/-! ## What the edits do where there is none -/

theorem alloc_refuses (r : Routine) (kind : Kind) (operands : List NodeId) :
    r.Refuses (alloc kind operands) (r.RefusesAlloc kind operands) := by
  apply refuses_of_cases fun _ => alloc_of_refuses
  rcases r.refusesAlloc_or kind operands with hrefuses | ⟨hfits, hfree, hroom⟩
  · exact Or.inl hrefuses
  · exact Or.inr ⟨_, _, alloc_ok hfits hfree hroom⟩

theorem Sound.replaceChild_refuses (h : r.Sound) (p : NodeId) (slot : Nat) (c : NodeId) :
    r.Refuses (replaceChild p slot c) (r.RefusesChild p slot c) := by
  apply refuses_of_cases fun _ => replaceChild_of_refuses h.toStructured
  rcases h.refusesChild_or p slot c with hrefuses | hsame | ⟨old, hfits⟩
  · exact Or.inl hrefuses
  · exact Or.inr ⟨_, _, replaceChild_same h.toStructured hsame⟩
  · obtain ⟨s, hrun, -⟩ := replaceChild_ok h hfits
    exact Or.inr ⟨_, s, hrun⟩

/-- The release that follows a replacement always goes well, so that nothing is refused late. -/
theorem Sound.setChild_refuses (h : r.Sound) (p : NodeId) (slot : Nat) (c : NodeId) :
    r.Refuses (setChild p slot c) (r.RefusesChild p slot c) := by
  apply refuses_of_cases fun _ => setChild_of_refuses h.toStructured
  rcases h.refusesChild_or p slot c with hrefuses | hsame | ⟨old, hfits⟩
  · exact Or.inl hrefuses
  · exact Or.inr ⟨_, _, setChild_same h.toStructured hsame⟩
  · obtain ⟨t, ht⟩ := h.exists_shows (h.down p slot old hfits.sits).isLive
    obtain ⟨s, hrun, -⟩ := setChild_ok h hfits ht
    exact Or.inr ⟨_, s, hrun⟩

theorem discard_refuses (r : Routine) (n : NodeId) :
    r.Refuses (discard n) (r.RefusesDiscard n) := by
  apply refuses_of_cases fun _ => discard_of_refuses
  rcases r.refusesDiscard_or n with hrefuses | hfree
  · exact Or.inl hrefuses
  · exact Or.inr ⟨_, _, discard_ok hfree⟩

/-- Where a replacement goes well, so does the one that releases the old operand. -/
theorem Sound.setChild_of_replaceChild (h : r.Sound) {p c old : NodeId} {slot : Nat} {q : Routine}
    (hrun : replaceChild p slot c r = .ok old q) : ∃ s, setChild p slot c r = .ok () s := by
  cases hset : setChild p slot c r with
  | ok _ s => exact ⟨s, rfl⟩
  | error fault s =>
    have hrefuses := ((h.setChild_refuses p slot c fault s).mp hset).1
    rw [replaceChild_of_refuses h.toStructured hrefuses] at hrun
    cases hrun

/--
The edits of a reachable routine fail for their reasons and no others, each with the fault of the
first reason that applies, and a failed edit changes nothing. In particular no edit fails once it has
changed something: where a replacement goes well, so does the release after it.
-/
theorem Reachable.edits_refused_iff (h : r.Reachable) :
    (∀ kind operands,
      r.Refuses (alloc kind operands) (r.RefusesAlloc kind operands) ∧
      ((∃ fault, r.RefusesAlloc kind operands fault) ↔
        kind.accepts operands.length = false ∨
        (∃ earlier n later, operands = earlier ++ n :: later ∧
          (r.isLive n = false ∨ (∃ link, r.LinksTo n link) ∨ n ∈ earlier)) ∨
        capacity ≤ r.nodes.size)) ∧
    (∀ p slot c,
      r.Refuses (replaceChild p slot c) (r.RefusesChild p slot c) ∧
      r.Refuses (setChild p slot c) (r.RefusesChild p slot c) ∧
      ((∃ fault, r.RefusesChild p slot c fault) ↔
        r.isLive p = false ∨ (∀ old, ¬ r.HasChild p slot old) ∨ r.isLive c = false ∨
        (∃ link, r.LinksTo c link ∧ link ≠ ⟨p, slot⟩) ∨ r.Under c p) ∧
      ∀ old q, replaceChild p slot c r = .ok old q → ∃ s, setChild p slot c r = .ok () s) ∧
    ∀ n, r.Refuses (discard n) (r.RefusesDiscard n) ∧
      ((∃ fault, r.RefusesDiscard n fault) ↔ r.isLive n = false ∨ ∃ link, r.LinksTo n link) := by
  have hr := h.sound
  refine ⟨fun kind operands => ⟨r.alloc_refuses kind operands, exists_refusesAlloc_iff⟩,
    fun p slot c => ⟨hr.replaceChild_refuses p slot c, hr.setChild_refuses p slot c,
      hr.exists_refusesChild_iff, fun old q hrun => hr.setChild_of_replaceChild hrun⟩,
    fun n => ⟨r.discard_refuses n, exists_refusesDiscard_iff⟩⟩

/-- Beside a negation of a constant nothing can be put over the constant a second time, no cycle is
made, and neither a slot nor a node is found that is not there; each attempt changes nothing. -/
theorem edits_refused_at_negation :
    let build : Edit NodeId := do
      let one ← alloc (.const 1) []
      alloc (.unary .neg) [one]
    let r := leftBy (build { name := "main" })
    r.Reachable ∧
      alloc (.binary .add) [⟨1⟩] r = .error (.arity (.binary .add) 2 1) r ∧
      alloc (.binary .add) [⟨1⟩, ⟨1⟩] r = .error (.repeated ⟨1⟩) r ∧
      alloc (.binary .add) [⟨1⟩, ⟨0⟩] r = .error (.alreadyAttached ⟨0⟩ ⟨1⟩ 0) r ∧
      setChild ⟨1⟩ 1 ⟨7⟩ r = .error (.noSuchSlot ⟨1⟩ 1 1) r ∧
      setChild ⟨1⟩ 0 ⟨7⟩ r = .error (.released ⟨7⟩) r ∧
      setChild ⟨1⟩ 0 ⟨1⟩ r = .error (.cycle ⟨1⟩ ⟨1⟩) r ∧
      discard ⟨0⟩ r = .error (.stillAttached ⟨0⟩ ⟨1⟩) r := by
  intro build r
  have hreach : r.Reachable :=
    ⟨"main", NodeId, build, .bind (.alloc _ _) fun _ => .alloc _ _, rfl⟩
  obtain ⟨halloc, hchild, hdiscard⟩ := Reachable.edits_refused_iff hreach
  have hfree : r.Free ⟨1⟩ := ⟨_, rfl, rfl⟩
  have hlinked : r.LinksTo ⟨0⟩ ⟨⟨1⟩, 0⟩ := ⟨_, rfl, rfl⟩
  have hsits : r.HasChild ⟨1⟩ 0 ⟨0⟩ := ⟨_, rfl, rfl⟩
  have hone : r.AllFree [⟨1⟩] := ⟨List.nodup_singleton _, by simpa using hfree⟩
  have hslot : r.RefusesChild ⟨1⟩ 1 ⟨7⟩ (.noSuchSlot ⟨1⟩ 1 1) :=
    .slot (show r.get? ⟨1⟩ = some ⟨.unary .neg, [⟨0⟩], ∅, none⟩ from rfl) (by decide)
  have hset : ∀ slot c fault, r.RefusesChild ⟨1⟩ slot c fault →
      setChild ⟨1⟩ slot c r = .error fault r := by
    intro slot c fault hrefuses
    exact ((hchild ⟨1⟩ slot c).2.1 fault r).mpr ⟨hrefuses, rfl⟩
  refine ⟨hreach, ((halloc _ _).1 _ r).mpr ⟨.arity rfl, rfl⟩,
    ((halloc _ _).1 _ r).mpr ⟨.operand rfl ⟨[⟨1⟩], ⟨1⟩, [], rfl, hone, .repeated hfree ?_⟩, rfl⟩,
    ((halloc _ _).1 _ r).mpr ⟨.operand rfl ⟨[⟨1⟩], ⟨0⟩, [], rfl, hone, .attached hlinked⟩, rfl⟩,
    hset _ _ _ hslot, hset _ _ _ (.child hsits rfl),
    hset _ _ _ (.cycle hsits hfree .self),
    ((hdiscard _).1 _ r).mpr ⟨.attached hlinked, rfl⟩⟩
  exact List.mem_singleton.mpr rfl

end Routine

end StackTree
