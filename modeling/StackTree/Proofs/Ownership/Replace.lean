import StackTree.Proofs.Ownership.Alloc

/-!
# Replacing an operand keeps a routine sound

A replacement fails and changes nothing, finds the operand in its place already, or hangs a free
node into the slot and lets the old operand go (`replaceChild_cases`). In the last case three links
change (`Routine.relink`), which leaves the stored effects wrong at the parent at most. Going up
from there puts them right: a node whose effects come out as they were has nothing wrong above it,
because only the node above it looks at them (`refreshEffectsWithin_ok`).

## Main definitions

* `Routine.Fits`: a free node can be hung into a slot.
* `Routine.relink`: the routine with the links of the replacement.
* `Routine.RefusesChild`: why a replacement is refused.

## Main results

* `isAncestorOrSelf_eq`: the walk upward decides `Routine.Under`.
* `refreshEffectsWithin_ok`: bringing the effects up to date ends with a sound routine.
* `Fits.structured_relink`: the links of a replacement leave a forest.
* `replaceChild_ok`, `replaceChild_same`, `replaceChild_of_refuses`, `replaceChild_cases`: what a
  replacement does.
-/

namespace StackTree.Routine

open Runs

variable {r s : Routine}

/-! ## Walking up -/

theorem under_iff_of_linksTo (h : r.Structured) {a n : NodeId} {link : Link}
    (hl : r.LinksTo n link) (hne : n ≠ a) : r.Under a n ↔ r.Under a link.parent := by
  constructor
  · intro hu
    cases hu with
    | self => exact absurd rfl hne
    | child above sits =>
      obtain rfl := (h.down _ _ _ sits).unique hl
      exact above
  · exact fun hu => hu.child (h.up n link hl)

theorem isAncestorOrSelfWithin_eq (h : r.Structured) {a n : NodeId} {d bound : Nat}
    (hd : r.DepthIs n d) (hb : d < bound) :
    ∃ answer, r.isAncestorOrSelfWithin a bound n = .ok answer ∧ (answer = true ↔ r.Under a n) := by
  induction hd generalizing bound with
  | @root n free =>
    obtain ⟨bound, rfl⟩ := Nat.exists_eq_succ_of_ne_zero (Nat.ne_of_gt hb)
    obtain ⟨node, hn, hp⟩ := free
    rw [isAncestorOrSelfWithin]
    by_cases heq : n = a
    · exact ⟨true, if_pos heq, by simp [heq, Under.self]⟩
    · refine ⟨false, by simp [heq, node_of_get? hn, hp], ?_⟩
      simp only [Bool.false_eq_true, false_iff]
      exact fun hu => heq (h.under_of_free ⟨node, hn, hp⟩ hu)
  | @up n link d linked above ih =>
    obtain ⟨bound, rfl⟩ := Nat.exists_eq_succ_of_ne_zero (Nat.ne_of_gt (Nat.zero_lt_of_lt hb))
    rw [isAncestorOrSelfWithin]
    by_cases heq : n = a
    · exact ⟨true, if_pos heq, by simp [heq, Under.self]⟩
    · obtain ⟨answer, hrun, hanswer⟩ := ih (show d < bound by omega)
      refine ⟨answer, ?_, hanswer.trans (under_iff_of_linksTo h linked heq).symm⟩
      obtain ⟨node, hn, hp⟩ := linked
      simp [heq, node_of_get? hn, hp, hrun]

/-- The walk upward decides whether one node is the other or lies above it. -/
theorem Structured.isAncestorOrSelf_eq (h : r.Structured) {n : NodeId} (a : NodeId)
    (hn : r.isLive n = true) :
    ∃ answer, r.isAncestorOrSelf a n = .ok answer ∧ (answer = true ↔ r.Under a n) := by
  obtain ⟨d, hd⟩ := h.grounded n hn
  exact isAncestorOrSelfWithin_eq h hd (h.depth_lt_pathBound hd)

/-! ## Bringing stored effects up to date -/

/-- The routine with other stored effects at one node. -/
def setEffects (r : Routine) (n : NodeId) (effects : Effects) : Routine :=
  r.update n fun node => { node with effects := effects }

theorem alike_setEffects (n : NodeId) (effects : Effects) : r.Alike (r.setEffects n effects) where
  size_eq := size_update r n _
  live_eq := rfl
  name_eq := rfl
  body_eq := rfl
  bare_eq := by
    intro m
    rw [setEffects, bare, get?_update]
    split
    · next heq =>
      subst heq
      rw [Option.map_map]
      rfl
    · rfl

theorem get?_setEffects_self {n : NodeId} {node : Node} {effects : Effects}
    (h : r.get? n = some node) :
    (r.setEffects n effects).get? n = some { node with effects := effects } := by
  rw [setEffects, get?_update, if_pos rfl, h]
  rfl

theorem get?_setEffects_of_ne {n m : NodeId} {effects : Effects} (h : m ≠ n) :
    (r.setEffects n effects).get? m = r.get? m := by
  rw [setEffects, get?_update, if_neg h]

theorem joinEffects_setEffects {n : NodeId} {effects : Effects} {ms : List NodeId}
    (h : n ∉ ms) : (r.setEffects n effects).joinEffects ms = r.joinEffects ms := by
  refine joinEffects_congr fun m hm => ?_
  have hne : m ≠ n := fun heq => h (heq ▸ hm)
  rw [storedEffects, storedEffects, get?_setEffects_of_ne hne]

/-- Changing the effects of a node matters to the nodes that it is an operand of. -/
theorem effectsRight_setEffects {n m : NodeId} {effects : Effects} (hne : m ≠ n)
    (hchild : ∀ slot, ¬ r.HasChild m slot n) (h : r.EffectsRight m) :
    (r.setEffects n effects).EffectsRight m := by
  intro node hm
  rw [get?_setEffects_of_ne hne] at hm
  have hnot : n ∉ node.children := by
    intro hmem
    obtain ⟨slot, hslot⟩ := hasChild_of_mem hm hmem
    exact hchild slot hslot
  rw [joinEffects_setEffects hnot]
  exact h node hm

theorem Structured.not_hasChild_self (h : r.Structured) {n : NodeId} {slot : Nat} :
    ¬ r.HasChild n slot n :=
  fun hc => h.not_under_child hc .self

theorem computeEffects_eq (h : r.Structured) {n : NodeId} {node : Node}
    (hn : r.get? n = some node) :
    r.computeEffects n = .ok (node.kind.intrinsic ∪ r.joinEffects node.children) :=
  computeEffects_of_get? hn (h.arity n node hn) (h.children_live hn)

/-- Going up from the only node whose stored effects may be wrong puts everything right. -/
theorem refreshEffectsWithin_ok {bound d : Nat} {n : NodeId} (h : r.Structured)
    (hright : ∀ m, m ≠ n → r.EffectsRight m) (hd : r.DepthIs n d) (hb : d < bound) :
    ∃ s, refreshEffectsWithin bound n r = .ok () s ∧ s.Sound ∧ r.Alike s := by
  induction bound generalizing r n d with
  | zero => omega
  | succ bound ih =>
    obtain ⟨node, hn⟩ := isLive_iff.mp hd.isLive
    have hcompute := computeEffects_eq h hn
    have hnode := node_of_get? hn
    by_cases heq : node.effects = node.kind.intrinsic ∪ r.joinEffects node.children
    · refine ⟨r, ?_, ⟨h, fun m => ?_⟩, Alike.refl r⟩
      · simp [refreshEffectsWithin, run_bind, hcompute, hnode, heq]
      · by_cases hm : m = n
        · subst hm
          intro node' hn'
          obtain rfl := Option.some.inj (hn.symm.trans hn')
          exact heq
        · exact hright m hm
    · obtain ⟨effects, heffects⟩ :
          ∃ effects, effects = node.kind.intrinsic ∪ r.joinEffects node.children := ⟨_, rfl⟩
      rw [← heffects] at hcompute heq
      have halike := alike_setEffects (r := r) n effects
      have hstructured := h.of_alike halike
      have hself : (r.setEffects n effects).EffectsRight n := by
        intro node' hn'
        rw [get?_setEffects_self hn, Option.some.injEq] at hn'
        subst hn'
        have hnot : n ∉ node.children := by
          intro hmem
          obtain ⟨slot, hslot⟩ := hasChild_of_mem hn hmem
          exact h.not_hasChild_self hslot
        rw [joinEffects_setEffects hnot, heffects]
      cases hp : node.parent with
      | none =>
        refine ⟨r.setEffects n effects, ?_, ⟨hstructured, fun m => ?_⟩, halike⟩
        · simp [refreshEffectsWithin, run_bind, hcompute, hnode, heq, hp, setEffects]
        · by_cases hm : m = n
          · rw [hm]
            exact hself
          · refine effectsRight_setEffects hm (fun slot hc => ?_) (hright m hm)
            exact Free.not_linksTo ⟨node, hn, hp⟩ (h.down m slot n hc)
      | some link =>
        have hl : r.LinksTo n link := ⟨node, hn, hp⟩
        obtain ⟨e, hde, he⟩ := hl.depth hd
        obtain ⟨s, hrun, hsound, hs⟩ := ih hstructured (n := link.parent) (fun m hm => by
          by_cases hmn : m = n
          · rw [hmn]
            exact hself
          · refine effectsRight_setEffects hmn (fun slot hc => ?_) (hright m hmn)
            have := (h.down m slot n hc).unique hl
            exact hm (congrArg Link.parent this)) (he.of_alike halike) (by omega)
        refine ⟨s, ?_, hsound, halike.trans hs⟩
        rw [← hrun]
        simp [refreshEffectsWithin, run_bind, hcompute, hnode, heq, hp, setEffects]

/-! ## The links of a replacement -/

/-- The free node `c` can take the place of `old` in the slot. -/
structure Fits (r : Routine) (p : NodeId) (slot : Nat) (old c : NodeId) : Prop where
  sits : r.HasChild p slot old
  free : r.Free c
  apart : ¬ r.Under c p

/-- The routine with `c` linked to the slot in place of `old`. -/
def relink (r : Routine) (p : NodeId) (slot : Nat) (old c : NodeId) : Routine :=
  ((r.update old fun node => { node with parent := none }).update c
    fun node => { node with parent := some ⟨p, slot⟩ }).update p
    fun node => { node with children := node.children.set slot c }

variable {p old c : NodeId} {slot : Nat}

namespace Fits

theorem old_ne_child (h : r.Structured) (hf : r.Fits p slot old c) : old ≠ c :=
  fun heq => hf.free.not_linksTo (heq ▸ h.down p slot old hf.sits)

theorem parent_ne_child (hf : r.Fits p slot old c) : p ≠ c :=
  fun heq => hf.apart (heq ▸ .self)

theorem parent_ne_old (h : r.Structured) (hf : r.Fits p slot old c) : p ≠ old :=
  fun heq => h.not_under_child hf.sits (heq ▸ .self)

theorem get?_relink (h : r.Structured) (hf : r.Fits p slot old c) (m : NodeId) :
    (r.relink p slot old c).get? m = (r.get? m).map fun node =>
      { node with
        parent := if m = old then none else if m = c then some ⟨p, slot⟩ else node.parent
        children := if m = p then node.children.set slot c else node.children } := by
  have hoc := hf.old_ne_child h
  have hpc := hf.parent_ne_child
  have hpo := hf.parent_ne_old h
  simp only [relink, get?_update]
  by_cases hm : m = p
  · subst hm
    simp only [if_true, if_neg hpc, if_neg hpo]
  · by_cases hmc : m = c
    · subst hmc
      simp only [if_true, if_neg hm, if_neg hoc.symm]
    · by_cases hmo : m = old
      · subst hmo
        simp only [if_true, if_neg hm, if_neg hmc]
      · simp [hm, hmc, hmo]

theorem isLive_relink (h : r.Structured) (hf : r.Fits p slot old c) (m : NodeId) :
    (r.relink p slot old c).isLive m = r.isLive m := by
  rw [isLive, hf.get?_relink h, Option.isSome_map, isLive]

theorem storedEffects_relink (h : r.Structured) (hf : r.Fits p slot old c) (m : NodeId) :
    (r.relink p slot old c).storedEffects m = r.storedEffects m := by
  rw [storedEffects, hf.get?_relink h, Option.map_map]
  rfl

/-- Only the node that gets the operand has other operands. -/
theorem shape_relink (h : r.Structured) (hf : r.Fits p slot old c) {m : NodeId} (hm : m ≠ p) :
    (r.relink p slot old c).shape m = r.shape m := by
  rw [shape, shape, hf.get?_relink h, Option.map_map]
  simp [Function.comp_def, hm]

/-- Only the slot itself holds something else. -/
theorem hasChild_relink_iff (h : r.Structured) (hf : r.Fits p slot old c) {q m : NodeId}
    {i : Nat} : (r.relink p slot old c).HasChild q i m ↔
      (q = p ∧ i = slot ∧ m = c) ∨ (¬ (q = p ∧ i = slot) ∧ r.HasChild q i m) := by
  obtain ⟨node, hp, hold⟩ := hf.sits
  have hlt : slot < node.children.length := by
    by_contra hge
    rw [List.getElem?_eq_none (by omega)] at hold
    cases hold
  simp only [HasChild, hf.get?_relink h]
  by_cases hq : q = p
  · subst hq
    by_cases hi : i = slot
    · subst hi
      simp [hp, hlt, eq_comm]
    · simp [hp, Ne.symm hi, hi]
  · cases r.get? q with
    | none => simp [hq]
    | some node => simp [hq]

/-- Only the two operands are linked elsewhere. -/
theorem linksTo_relink_iff (h : r.Structured) (hf : r.Fits p slot old c) {m : NodeId}
    {link : Link} : (r.relink p slot old c).LinksTo m link ↔
      (m = c ∧ link = ⟨p, slot⟩) ∨ (m ≠ c ∧ m ≠ old ∧ r.LinksTo m link) := by
  have hoc := hf.old_ne_child h
  obtain ⟨node, hc, -⟩ := hf.free
  simp only [LinksTo, hf.get?_relink h]
  by_cases hmc : m = c
  · subst hmc
    simp [hc, hoc.symm, eq_comm]
  · by_cases hmo : m = old
    · subst hmo
      cases r.get? m with
      | none => simp [hoc]
      | some node => simp [hoc]
    · cases r.get? m with
      | none => simp [hmc]
      | some node => simp [hmc, hmo]

theorem free_relink (h : r.Structured) (hf : r.Fits p slot old c) {m : NodeId} (hm : r.Free m)
    (hne : m ≠ c) : (r.relink p slot old c).Free m := by
  obtain ⟨node, hget, hp⟩ := hm
  have hmo : m ≠ old := fun heq =>
    Free.not_linksTo ⟨node, hget, hp⟩ (heq ▸ h.down p slot old hf.sits)
  exact ⟨_, by rw [hf.get?_relink h, hget]; rfl, by simp [hmo, hne, hp]⟩

theorem free_relink_old (h : r.Structured) (hf : r.Fits p slot old c) :
    (r.relink p slot old c).Free old := by
  obtain ⟨node, hget⟩ := isLive_iff.mp (h.down p slot old hf.sits).isLive
  exact ⟨_, by rw [hf.get?_relink h, hget]; rfl, by simp⟩

/-- A way up that avoids `c` stays, or ends earlier at `old`. -/
theorem depthIs_relink_of_not_under (h : r.Structured) (hf : r.Fits p slot old c) {m : NodeId}
    {d : Nat} (hd : r.DepthIs m d) (hm : ¬ r.Under c m) :
    ∃ e, (r.relink p slot old c).DepthIs m e := by
  induction hd with
  | @root m free =>
    exact ⟨0, .root (hf.free_relink h free fun heq => hm (heq ▸ .self))⟩
  | @up m link d linked above ih =>
    by_cases hmo : m = old
    · subst hmo
      exact ⟨0, .root (hf.free_relink_old h)⟩
    · have hne : m ≠ c := fun heq => hm (heq ▸ .self)
      obtain ⟨e, he⟩ := ih fun hu => hm (hu.child (h.up m link linked))
      exact ⟨e + 1, .up ((hf.linksTo_relink_iff h).mpr (Or.inr ⟨hne, hmo, linked⟩)) he⟩

/-- Every way up stays, ends earlier at `old`, or goes on from `c` to the parent. -/
theorem depthIs_relink (h : r.Structured) (hf : r.Fits p slot old c) {m : NodeId} {d : Nat}
    (hd : r.DepthIs m d) : ∃ e, (r.relink p slot old c).DepthIs m e := by
  induction hd with
  | @root m free =>
    by_cases hmc : m = c
    · subst hmc
      obtain ⟨node, hp, -⟩ := hf.sits
      obtain ⟨dp, hdp⟩ := h.grounded p (isLive_iff.mpr ⟨node, hp⟩)
      obtain ⟨e, he⟩ := hf.depthIs_relink_of_not_under h hdp hf.apart
      exact ⟨e + 1, .up ((hf.linksTo_relink_iff h).mpr (Or.inl ⟨rfl, rfl⟩)) he⟩
    · exact ⟨0, .root (hf.free_relink h free hmc)⟩
  | @up m link d linked above ih =>
    by_cases hmo : m = old
    · subst hmo
      exact ⟨0, .root (hf.free_relink_old h)⟩
    · have hne : m ≠ c := fun heq => hf.free.not_linksTo (heq ▸ linked)
      obtain ⟨e, he⟩ := ih
      exact ⟨e + 1, .up ((hf.linksTo_relink_iff h).mpr (Or.inr ⟨hne, hmo, linked⟩)) he⟩

theorem size_relink : (r.relink p slot old c).nodes.size = r.nodes.size := by
  simp [relink]

/-- The links of a replacement leave a forest. -/
theorem structured_relink (h : r.Structured) (hf : r.Fits p slot old c) :
    (r.relink p slot old c).Structured where
  down := by
    intro q i m hc
    rw [hf.linksTo_relink_iff h]
    rcases (hf.hasChild_relink_iff h).mp hc with ⟨rfl, rfl, rfl⟩ | ⟨hne, hbefore⟩
    · exact Or.inl ⟨rfl, rfl⟩
    · have hl := h.down q i m hbefore
      refine Or.inr ⟨fun heq => hf.free.not_linksTo (heq ▸ hl), ?_, hl⟩
      rintro rfl
      exact hne (h.slot_unique hbefore hf.sits)
  up := by
    rintro m ⟨q, i⟩ hl
    rw [hf.hasChild_relink_iff h]
    rcases (hf.linksTo_relink_iff h).mp hl with ⟨rfl, heq⟩ | ⟨hmc, hmo, hl⟩
    · simp only [Link.mk.injEq] at heq
      exact Or.inl ⟨heq.1, heq.2, rfl⟩
    · have hc := h.up m ⟨q, i⟩ hl
      refine Or.inr ⟨?_, hc⟩
      rintro ⟨rfl, rfl⟩
      obtain ⟨node, hq, hold⟩ := hf.sits
      exact hmo (Option.some.inj ((hc.mem hq).symm.trans hold))
  arity := by
    intro n node hn
    rw [hf.get?_relink h] at hn
    obtain ⟨old, hold, rfl⟩ := Option.map_eq_some_iff.mp hn
    have := h.arity n old hold
    simp only
    split
    · rw [List.length_set]
      exact this
    · exact this
  grounded := by
    intro n hn
    rw [hf.isLive_relink h] at hn
    obtain ⟨d, hd⟩ := h.grounded n hn
    exact hf.depthIs_relink h hd
  live_eq := by
    rw [liveNodes_congr size_relink (hf.isLive_relink h), ← h.live_eq]
    rfl

/-- Only the parent looks at other effects than before. -/
theorem effectsRight_relink (h : r.Sound) (hf : r.Fits p slot old c) {m : NodeId} (hm : m ≠ p) :
    (r.relink p slot old c).EffectsRight m := by
  intro node hn
  rw [hf.get?_relink h.toStructured] at hn
  obtain ⟨before, hbefore, rfl⟩ := Option.map_eq_some_iff.mp hn
  simp only [if_neg hm]
  rw [joinEffects_congr fun n _ => hf.storedEffects_relink h.toStructured n]
  exact h.effectsRight m before hbefore

/-- The tree that was in the slot is the same afterwards. -/
theorem shows_old (h : r.Sound) (hs : s.Sound) (hf : r.Fits p slot old c)
    (halike : (r.relink p slot old c).Alike s) {t : Tree} (ht : r.Shows old t) :
    s.Shows old t := by
  apply hs.shows_of_shape h ht
  intro m hm
  have hne : m ≠ p := by
    rintro rfl
    exact h.not_under_child hf.sits (ht.under hm)
  rw [shape_of_bare_eq (halike.bare_eq m), hf.shape_relink h.toStructured hne]

end Fits

theorem ages_of_view {s : Routine} (hsize : s.nodes.size = r.nodes.size)
    (h : ∀ n, r.get? n = none → s.get? n = none) : r.Ages s :=
  ⟨Nat.le_of_eq hsize.symm, fun n hn => h n hn.2⟩

theorem Fits.ages_relink (h : r.Structured) (hf : r.Fits p slot old c) :
    r.Ages (r.relink p slot old c) :=
  ages_of_view Fits.size_relink fun n hn => by rw [hf.get?_relink h, hn]; rfl

end StackTree.Routine

namespace StackTree

open Runs

variable {r : Routine} {p old c : NodeId} {slot : Nat}

/-- A free node that fits takes the slot; what was there hangs nowhere afterwards. -/
theorem replaceChild_ok (h : r.Sound) (hf : r.Fits p slot old c) :
    ∃ s, replaceChild p slot c r = .ok old s ∧ s.Sound ∧ (r.relink p slot old c).Alike s := by
  have hchild : r.child p slot = .ok old := Routine.child_of_hasChild hf.sits
  have hlive : r.isLive p = true := h.parent_live (h.down p slot old hf.sits)
  obtain ⟨child, hc, hfree⟩ := hf.free
  obtain ⟨answer, hanswer, hiff⟩ := h.isAncestorOrSelf_eq c hlive
  obtain rfl : answer = false := by
    rw [← Bool.not_eq_true, hiff]
    exact hf.apart
  have hstructured := hf.structured_relink h.toStructured
  obtain ⟨d, hd⟩ := hstructured.grounded p ((hf.isLive_relink h.toStructured p).trans hlive)
  obtain ⟨s, hrun, hsound, halike⟩ := Routine.refreshEffectsWithin_ok hstructured
    (fun m hm => hf.effectsRight_relink h hm) hd (hstructured.depth_lt_pathBound hd)
  refine ⟨s, ?_, hsound, halike⟩
  have hrefresh : refreshEffects p (r.relink p slot old c) = .ok () s := by
    simp [refreshEffects, run_bind, hrun]
  unfold Routine.relink at hrefresh
  simp [replaceChild, run_bind, run_map, hchild, Routine.node_of_get? hc, hfree, hanswer, hrefresh]

/-- A replacement by what is there already changes nothing. -/
theorem replaceChild_same (h : r.Structured) (hc : r.HasChild p slot old) :
    replaceChild p slot old r = .ok old r := by
  obtain ⟨child, hget, hl⟩ := h.down p slot old hc
  simp [replaceChild, run_bind, Routine.child_of_hasChild hc, Routine.node_of_get? hget, hl]

/-! ## Refused replacements -/

/-- Why putting `c` into a slot is refused; each reason counts only where those before it do not
apply. -/
inductive Routine.RefusesChild (r : Routine) (p : NodeId) (slot : Nat) (c : NodeId) : Fault → Prop where
  /-- The node does not exist. -/
  | parent (gone : r.get? p = none) : RefusesChild r p slot c (.released p)
  /-- The node has fewer slots. -/
  | slot {node : Node} (at_p : r.get? p = some node) (beyond : node.children.length ≤ slot) :
      RefusesChild r p slot c (.noSuchSlot p slot node.children.length)
  /-- The new operand does not exist. -/
  | child {old : NodeId} (sits : r.HasChild p slot old) (gone : r.get? c = none) :
      RefusesChild r p slot c (.released c)
  /-- The new operand hangs somewhere, and not in that slot. -/
  | elsewhere {old : NodeId} {link : Link} (sits : r.HasChild p slot old)
      (linked : r.LinksTo c link) (other : link ≠ ⟨p, slot⟩) :
      RefusesChild r p slot c (.alreadyAttached c link.parent link.slot)
  /-- The new operand is the node itself or above it. -/
  | cycle {old : NodeId} (sits : r.HasChild p slot old) (free : r.Free c) (above : r.Under c p) :
      RefusesChild r p slot c (.cycle c p)

/-- A slot exists, or the node is gone or has fewer slots. -/
theorem Routine.hasChild_or_refuses (r : Routine) (p : NodeId) (slot : Nat) (c : NodeId) :
    (∃ old, r.HasChild p slot old) ∨ ∃ fault, r.RefusesChild p slot c fault := by
  cases hp : r.get? p with
  | none => exact Or.inr ⟨_, .parent hp⟩
  | some node =>
    cases hslot : node.children[slot]? with
    | none => exact Or.inr ⟨_, .slot hp (List.getElem?_eq_none_iff.mp hslot)⟩
    | some old => exact Or.inl ⟨old, node, hp, hslot⟩

/-- Putting an operand into a slot is refused, or it is there already, or it fits. -/
theorem Routine.Structured.refusesChild_or (h : r.Structured) (p : NodeId) (slot : Nat)
    (c : NodeId) : (∃ fault, r.RefusesChild p slot c fault) ∨ r.HasChild p slot c ∨
      ∃ old, r.Fits p slot old c := by
  rcases r.hasChild_or_refuses p slot c with ⟨old, hsits⟩ | hrefuses
  · cases hc : r.get? c with
    | none => exact Or.inl ⟨_, .child hsits hc⟩
    | some node =>
      cases hlink : node.parent with
      | some link =>
        by_cases heq : link = ⟨p, slot⟩
        · exact Or.inr (Or.inl (h.up c ⟨p, slot⟩ ⟨node, hc, heq ▸ hlink⟩))
        · exact Or.inl ⟨_, .elsewhere hsits ⟨node, hc, hlink⟩ heq⟩
      | none =>
        by_cases hunder : r.Under c p
        · exact Or.inl ⟨_, .cycle hsits ⟨node, hc, hlink⟩ hunder⟩
        · exact Or.inr (Or.inr ⟨old, hsits, ⟨node, hc, hlink⟩, hunder⟩)
  · exact Or.inl hrefuses

/-- A refused replacement changes nothing. -/
theorem replaceChild_of_refuses (h : r.Structured) {fault : Fault}
    (hrefuses : r.RefusesChild p slot c fault) : replaceChild p slot c r = .error fault r := by
  unfold replaceChild
  cases hrefuses with
  | parent gone => simp [run_bind, Routine.child, Routine.node_of_none gone]
  | slot at_p beyond =>
    simp [run_bind, Routine.child, Routine.node_of_get? at_p, List.getElem?_eq_none beyond]
  | child sits gone =>
    simp [run_bind, Routine.child_of_hasChild sits, Routine.node_of_none gone]
  | elsewhere sits linked other =>
    obtain ⟨node, hc, hlink⟩ := linked
    simp [run_bind, Routine.child_of_hasChild sits, Routine.node_of_get? hc, hlink, other]
  | cycle sits free above =>
    obtain ⟨node, hc, hlink⟩ := free
    obtain ⟨answer, hanswer, hiff⟩ := h.isAncestorOrSelf_eq c (h.parent_live (h.down p slot _ sits))
    rw [hiff.mpr above] at hanswer
    simp [run_bind, Routine.child_of_hasChild sits, Routine.node_of_get? hc, hlink, hanswer]

/-- A replacement fails and changes nothing, finds the operand in its place, or goes well. -/
theorem replaceChild_cases (h : r.Sound) (p : NodeId) (slot : Nat) (c : NodeId) :
    (∃ fault, replaceChild p slot c r = .error fault r) ∨
      (r.HasChild p slot c ∧ replaceChild p slot c r = .ok c r) ∨
      (∃ old s, r.Fits p slot old c ∧ replaceChild p slot c r = .ok old s ∧ s.Sound ∧
        (r.relink p slot old c).Alike s) := by
  rcases h.refusesChild_or p slot c with ⟨fault, hrefuses⟩ | hsame | ⟨old, hfits⟩
  · exact Or.inl ⟨fault, replaceChild_of_refuses h.toStructured hrefuses⟩
  · exact Or.inr (Or.inl ⟨hsame, replaceChild_same h.toStructured hsame⟩)
  · obtain ⟨s, hrun, hsound, halike⟩ := replaceChild_ok h hfits
    exact Or.inr (Or.inr ⟨old, s, hfits, hrun, hsound, halike⟩)

end StackTree
