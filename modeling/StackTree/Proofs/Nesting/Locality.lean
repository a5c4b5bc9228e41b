import StackTree.Proofs.Nesting.Conservation

/-!
# Filling changes nothing beside its place

On a working stack of which nothing is known, filling a node may fail half-way, and what it puts
under the node may be any free tree. But a producer is refused unless it hangs nowhere and is not
above the slot that it is for. So nothing that hangs beside the way up from that slot is ever moved,
and only nodes on that way have other stored effects afterwards (`Routine.StaysIn`).

This is what the walk over two operands rests on. It reads the effects of the first operand before
the second one is filled, and does not ask whether the first one has to wait: nothing is evaluated
before it. The general walk reads them afterwards and asks. Both come to the same, whatever happens
to the second operand.

## Main definitions

* `Routine.StaysIn`: a change of the routine that stays in a slot.
* `Filler.Local`: filling with it stays in the slot of the node that is filled.

## Main results

* `Routine.setChild_staysIn`: putting an operand into a slot stays in that slot.
* `Filler.local_fillWithin`, `Filler.local_fill`: filling is local, on any working stack.
* `Routine.Reachable.fillBinary_eq_fillOperands`: the walk over two operands is the general one.
-/

namespace StackTree

open Runs

namespace Routine

variable {r s t : Routine} {p n m a : NodeId} {i slot : Nat}

/-! ## Changes that stay in a slot -/

/-- What is above a node depends on the links on the way up from it only. -/
theorem Structured.under_iff_of_link_eq (hr : r.Structured) (hs : s.Structured)
    (h : ∀ m, r.Under m n → s.link m = r.link m) : s.Under a n ↔ r.Under a n := by
  constructor
  · intro hu
    induction hu with
    | self => exact .self
    | @child m c slot above sits ih =>
      have hl : r.LinksTo c ⟨m, slot⟩ := by
        rw [linksTo_iff_link, ← h c .self, ← linksTo_iff_link]
        exact hs.down m slot c sits
      have hc := hr.up c _ hl
      exact (ih fun b hb => h b (hb.child hc)).child hc
  · intro hu
    induction hu with
    | self => exact .self
    | @child m c slot above sits ih =>
      have hl : s.LinksTo c ⟨m, slot⟩ := by
        rw [linksTo_iff_link, h c .self, ← linksTo_iff_link]
        exact hr.down m slot c sits
      exact (ih fun b hb => h b (hb.child sits)).child (hs.up c _ hl)

/-- The node hangs on the way up from the slot, in another slot than those that the way goes
through. -/
def Beside (r : Routine) (p : NodeId) (slot : Nat) (m : NodeId) : Prop :=
  ∃ link, r.LinksTo m link ∧ r.Under link.parent p ∧ ¬ r.Under m p ∧ link ≠ ⟨p, slot⟩

theorem Structured.beside_of_hasChild (hr : r.Structured) (hm : r.HasChild p i m)
    (hne : i ≠ slot) : r.Beside p slot m := by
  refine ⟨⟨p, i⟩, hr.down p i m hm, .self, hr.not_under_child hm, ?_⟩
  simpa using hne

/-- What hangs on the way up from a slot hangs on the longer way up from a slot below it. -/
theorem Beside.inner (hr : r.Structured) (hc : r.HasChild p i n) (h : r.Beside p i m) :
    r.Beside n slot m := by
  obtain ⟨link, hl, habove, hnot, hne⟩ := h
  have hn := hr.down p i n hc
  have hmn : n ≠ m := fun heq => hne (hl.unique (heq ▸ hn))
  refine ⟨link, hl, habove.child hc, mt (under_iff_of_linksTo hr hn hmn).mp hnot, ?_⟩
  rintro rfl
  exact hr.not_under_child hc habove

/-- The change from one routine to another is one of what is in the slot. Up from the slot all links
are as before, and whatever hangs on that way is untouched. -/
structure StaysIn (r s : Routine) (p : NodeId) (slot : Nat) : Prop where
  link_eq : ∀ m, r.Under m p → s.link m = r.link m
  beside : ∀ m, r.Beside p slot m → s.get? m = r.get? m

namespace StaysIn

theorem refl (r : Routine) (p : NodeId) (slot : Nat) : r.StaysIn r p slot :=
  ⟨fun _ _ => rfl, fun _ _ => rfl⟩

theorem beside_of_beside (hr : r.Structured) (hs : s.Structured) (h : r.StaysIn s p slot)
    (hm : r.Beside p slot m) : s.Beside p slot m := by
  have hget := h.beside m hm
  obtain ⟨link, ⟨node, hn, hp⟩, habove, hnot, hne⟩ := hm
  refine ⟨link, ⟨node, hget.trans hn, hp⟩, ?_, ?_, hne⟩
  · rwa [hr.under_iff_of_link_eq hs h.link_eq]
  · rwa [hr.under_iff_of_link_eq hs h.link_eq]

/-- Two changes in the same slot, one after the other. -/
theorem trans (hr : r.Structured) (hs : s.Structured) (h : r.StaysIn s p slot)
    (h' : s.StaysIn t p slot) : r.StaysIn t p slot where
  link_eq := by
    intro m hm
    have hm' : s.Under m p := (hr.under_iff_of_link_eq hs h.link_eq).mpr hm
    rw [h'.link_eq m hm', h.link_eq m hm]
  beside := by
    intro m hm
    rw [h'.beside m (h.beside_of_beside hr hs hm), h.beside m hm]

/-- A change in a slot of a node is one in the slot that the node is in. -/
theorem inner (hr : r.Structured) (hc : r.HasChild p i n) (h : r.StaysIn s n slot) :
    r.StaysIn s p i where
  link_eq := fun m hm => h.link_eq m (hm.child hc)
  beside := fun m hm => h.beside m (hm.inner hr hc)

/-- The node itself stays where it is. -/
theorem hasChild (hr : r.Structured) (hs : s.Structured) (h : r.StaysIn s n slot)
    (hc : r.HasChild p i n) : s.HasChild p i n := by
  refine hs.up n ⟨p, i⟩ (linksTo_iff_link.mpr ?_)
  rw [h.link_eq n .self, ← linksTo_iff_link]
  exact hr.down p i n hc

/-- What is in another slot of the node stays there. -/
theorem sibling (hr : r.Structured) (hs : s.Structured) (h : r.StaysIn s p slot)
    (hm : r.HasChild p i m) (hne : i ≠ slot) : s.HasChild p i m := by
  have hget := h.beside m (hr.beside_of_hasChild hm hne)
  obtain ⟨node, hn, hp⟩ := hr.down p i m hm
  exact hs.up m _ ⟨node, hget.trans hn, hp⟩

end StaysIn

/-! ## Putting an operand into a slot -/

/-- What is under a node beside a slot is not under what is in the slot. -/
theorem Beside.not_under (hr : r.Structured) {old k : NodeId} (hm : r.Beside p slot m)
    (hold : r.HasChild p slot old) (hk : r.Under m k) : ¬ r.Under old k := by
  obtain ⟨link, hl, habove, hnot, hne⟩ := hm
  have hlold := hr.down p slot old hold
  have hdistinct : old ≠ m := fun heq => hne (hl.unique (heq ▸ hlold))
  intro hu
  rcases hr.under_total hk hu with hmo | hom
  · exact hnot ((under_iff_of_linksTo hr hlold hdistinct).mp hmo)
  · have hup := (under_iff_of_linksTo hr hl hdistinct.symm).mp hom
    exact hr.not_under_child hold (hup.trans habove)

/-- Another operand in a slot is a change in that slot. -/
theorem setChild_staysIn (hr : r.Sound) (p : NodeId) (slot : Nat) (c : NodeId) :
    r.StaysIn (stateAfter (setChild p slot c r)) p slot := by
  rcases replaceChild_cases hr p slot c with ⟨fault, hrun⟩ | ⟨hc, -⟩ | ⟨old, -, hf, -, -, -⟩
  · rw [setChild, run_bind, hrun]
    exact .refl ..
  · rw [setChild_same hr.toStructured hc]
    exact .refl ..
  · obtain ⟨u, hu⟩ := hr.exists_shows (hr.down p slot old hf.sits).isLive
    obtain ⟨s, hrun, hs, hbare, -⟩ := setChild_ok hr hf hu
    rw [hrun]
    show r.StaysIn s p slot
    have hkept : ∀ k, k ∉ u.nodes → k ≠ old → k ≠ c → k ≠ p → s.bare k = r.bare k := by
      intro k hku hko hkc hkp
      rw [hbare, if_neg hku, bare, hf.get?_relink hr.toStructured, Option.map_map, bare]
      simp [Function.comp_def, hko, hkc, hkp]
    constructor
    · intro m hm
      have hmu : m ∉ u.nodes := fun hmem =>
        hr.not_under_child hf.sits ((hu.under hmem).trans hm)
      have hmo : m ≠ old := fun heq => hmu (heq ▸ hu.mem_nodes_iff.mpr .self)
      have hmc : m ≠ c := fun heq => hf.apart (heq ▸ hm)
      rw [Routine.link, hbare, if_neg hmu, bare, hf.get?_relink hr.toStructured, Routine.link, bare]
      cases r.get? m with
      | none => rfl
      | some node => simp [hmo, hmc, Node.bare]
    · intro m hm
      refine hs.get?_eq_of_bare hr fun k hk => hkept k ?_ ?_ ?_ ?_
      · exact fun hku => hm.not_under hr.toStructured hf.sits hk (hu.under hku)
      · rintro rfl
        exact hm.not_under hr.toStructured hf.sits hk .self
      · rintro rfl
        obtain ⟨link, hl, -⟩ := hm
        obtain rfl := hr.under_of_free hf.free hk
        exact hf.free.not_linksTo hl
      · rintro rfl
        obtain ⟨link, -, -, hnot, -⟩ := hm
        exact hnot hk

end Routine

/-! ## Filling stays in its place -/

/-- A question to the routine in a workspace changes nothing. -/
theorem lift_ask_run {α : Type} (question : Routine → Except Fault α) (w : Workspace) :
    (liftM (ask question) : Fill α) w = match question w.code with
      | .ok answer => .ok answer w
      | .error fault => .error fault w := by
  simp only [liftM, monadLift, MonadLift.monadLift, ask_run]
  cases question w.code with
  | ok a => rfl
  | error fault => rfl

/-- A question changes nothing, so what is done with its answer has to stay in the slot. -/
theorem staysIn_ask {α β : Type} {question : Routine → Except Fault α} {f : α → Fill β}
    {w : Workspace} {p : NodeId} {i : Nat} (h : ∀ a, question w.code = .ok a →
      w.code.StaysIn (stateAfter (f a w)).code p i) :
    w.code.StaysIn (stateAfter (((liftM (ask question) : Fill α) >>= f) w)).code p i := by
  rw [run_bind, lift_ask_run]
  cases hq : question w.code with
  | error fault => exact .refl ..
  | ok a => exact h a hq

theorem staysIn_askWorkspace {α β : Type} {question : Workspace → Except Fault α} {f : α → Fill β}
    {w : Workspace} {p : NodeId} {i : Nat} (h : ∀ a, w.code.StaysIn (stateAfter (f a w)).code p i) :
    w.code.StaysIn (stateAfter ((askWorkspace question >>= f) w)).code p i := by
  rw [run_bind, askWorkspace]
  cases question w with
  | error fault => exact .refl ..
  | ok a => exact h a

/-- An answer that is only passed on changes nothing more. -/
theorem stateAfter_bind_pure {σ α β : Type} (x : EStateM Fault σ α) (g : α → β) (s : σ) :
    stateAfter ((x >>= fun a => pure (g a)) s) = stateAfter (x s) := by
  rw [run_bind]
  cases x s with
  | ok a s => rfl
  | error fault s => rfl

/-- What an edit does to the routine in a workspace. -/
theorem code_stateAfter_lift {α : Type} (edit : Edit α) (w : Workspace) :
    (stateAfter ((liftM edit : Fill α) w)).code = stateAfter (edit w.code) := by
  simp only [liftM, monadLift, MonadLift.monadLift]
  cases edit w.code with
  | ok a r => rfl
  | error fault r => rfl

/-- Filling with it keeps routines sound, and it stays in the slot of the node that is filled. -/
structure Filler.Local (filler : Filler) : Prop where
  keeps : ∀ n before, Keeps.Fill (filler n before)
  stays : ∀ {p slot n} before (w : Workspace), w.code.Sound → w.code.HasChild p slot n →
    w.code.StaysIn (stateAfter (filler n before w)).code p slot

namespace Filler.Local

variable {filler : Filler} (hf : filler.Local) {p n operand : NodeId} {i slot : Nat}
  {w : Workspace} (hw : w.code.Sound)
include hf hw

theorem fillSlot (ho : w.code.HasChild n slot operand) (before : Effects) :
    w.code.StaysIn (stateAfter (fillSlot filler n slot operand before w)).code n slot := by
  have hfirst := hf.stays before w hw ho
  have hkept := (hf.keeps operand before w hw).1
  rw [StackTree.fillSlot, run_bind]
  cases hrun : filler operand before w with
  | error fault v =>
    rw [hrun] at hfirst
    exact hfirst
  | ok filled v =>
    rw [hrun] at hfirst hkept
    have hset := Routine.setChild_staysIn hkept n slot filled.node
    rw [← code_stateAfter_lift] at hset
    show w.code.StaysIn (stateAfter ((liftM (setChild n slot filled.node) >>= fun _ =>
      pure filled.finished : Fill Bool) v)).code n slot
    rw [stateAfter_bind_pure]
    exact hfirst.trans hw.toStructured hkept.toStructured hset

/-- Filling an operand of a node stays in the slot of that node, if what is done next does. -/
theorem fillSlot_bind (hc : w.code.HasChild p i n) (ho : w.code.HasChild n slot operand)
    (before : Effects) {β : Type} {next : Bool → Fill β}
    (hnext : ∀ goesOn (v : Workspace), v.code.Sound → w.code.StaysIn v.code n slot →
      v.code.StaysIn (stateAfter (next goesOn v)).code p i) :
    w.code.StaysIn
      (stateAfter ((StackTree.fillSlot filler n slot operand before >>= next) w)).code p i := by
  have hslot := hf.fillSlot hw ho before
  have hkept := (Keeps.fillSlot hf.keeps n slot operand before w hw).1
  rw [run_bind]
  cases hrun : StackTree.fillSlot filler n slot operand before w with
  | error fault v =>
    rw [hrun] at hslot
    exact hslot.inner hw.toStructured hc
  | ok goesOn v =>
    rw [hrun] at hslot hkept
    exact (hslot.inner hw.toStructured hc).trans hw.toStructured hkept.toStructured
      (hnext goesOn v hkept hslot)

/-- The walk over the operands stays in the slot of the node. Those that are still to be looked at
stay where they are while the later ones are filled. -/
theorem fillOperandsFrom (hc : w.code.HasChild p i n) (before : Effects) {operands : List NodeId}
    (ho : ∀ slot m, operands.reverse[slot]? = some m → w.code.HasChild n slot m) :
    w.code.StaysIn (stateAfter (fillOperandsFrom filler n before operands w)).code p i := by
  induction operands generalizing w with
  | nil => exact .refl ..
  | cons operand earlier ih =>
    have hearlier : ∀ slot m, earlier.reverse[slot]? = some m →
        slot < earlier.length ∧ w.code.HasChild n slot m := by
      intro slot m hm
      have hlt : slot < earlier.reverse.length := (List.getElem?_eq_some_iff.mp hm).1
      refine ⟨by rwa [List.length_reverse] at hlt, ho slot m ?_⟩
      rw [List.reverse_cons, List.getElem?_append_left hlt, hm]
    have hlast : w.code.HasChild n earlier.length operand := by
      apply ho
      rw [List.reverse_cons, ← List.length_reverse, List.getElem?_concat_length]
    refine staysIn_ask fun own _ => ?_
    split
    · refine staysIn_ask fun summary _ => ?_
      refine staysIn_askWorkspace fun b => ?_
      split
      · exact .refl ..
      · refine hf.fillSlot_bind hw hc hlast _ fun goesOn v hv hslot => ?_
        split
        · refine ih hv (hslot.hasChild hw.toStructured hv.toStructured hc) fun slot m hm => ?_
          obtain ⟨hlt, hchild⟩ := hearlier slot m hm
          exact hslot.sibling hw.toStructured hv.toStructured hchild (Nat.ne_of_lt hlt)
        · exact .refl ..
    · exact ih hw hc fun slot m hm => (hearlier slot m hm).2

theorem fillOperands (hc : w.code.HasChild p i n) (before : Effects) :
    w.code.StaysIn (stateAfter (fillOperands filler n before w)).code p i := by
  refine staysIn_ask fun cs hcs => ?_
  refine hf.fillOperandsFrom hw hc before fun slot m hm => ?_
  rw [List.reverse_reverse] at hm
  exact Routine.hasChild_of_children hcs hm

theorem fillLeft (hc : w.code.HasChild p i n) {left : NodeId} (hl : w.code.HasChild n 0 left)
    (leftEffects before : Effects) :
    w.code.StaysIn (stateAfter (fillLeft filler n left leftEffects before w)).code p i := by
  rw [StackTree.fillLeft]
  split
  · exact hf.fillSlot_bind hw hc hl before fun _ _ _ _ => .refl ..
  · exact .refl ..

theorem fillBinary (hc : w.code.HasChild p i n) (before : Effects) :
    w.code.StaysIn (stateAfter (fillBinary filler n before w)).code p i := by
  refine staysIn_ask fun left hleft => ?_
  refine staysIn_ask fun right hright => ?_
  refine staysIn_ask fun leftEffects _ => ?_
  refine staysIn_ask fun rightEffects _ => ?_
  have hl : w.code.HasChild n 0 left := Routine.hasChild_of_child hleft
  have hr : w.code.HasChild n 1 right := Routine.hasChild_of_child hright
  split
  · refine staysIn_askWorkspace fun b => ?_
    split
    · exact .refl ..
    · refine hf.fillSlot_bind hw hc hr _ fun goesOn v hv hslot => ?_
      split
      · exact hf.fillLeft hv (hslot.hasChild hw.toStructured hv.toStructured hc)
          (hslot.sibling hw.toStructured hv.toStructured hl (by decide)) leftEffects before
      · exact .refl ..
  · exact hf.fillLeft hw hc hl leftEffects before

end Filler.Local

/-- A bare pop is filled without a change of the routine. -/
theorem code_stateAfter_fillPop (n : NodeId) (before : Effects) (w : Workspace) :
    (stateAfter (fillPop n before w)).code = w.code := by
  obtain ⟨r, stack⟩ := w
  cases stack with
  | nil => rfl
  | cons top rest =>
    rw [fillPop, run_bind, run_get]
    simp only
    rw [run_bind, lift_ask_run]
    cases r.effects top with
    | error fault => rfl
    | ok candidate =>
      simp only
      split
      · rfl
      · rfl

theorem Filler.local_fillWithin (bound : Nat) : Filler.Local (fillWithin bound) where
  keeps := Keeps.fillWithin bound
  stays := by
    induction bound with
    | zero => exact fun before w _ _ => .refl ..
    | succ bound ih =>
      intro p i n before w hw hc
      have hlocal : Filler.Local (fillWithin bound) := ⟨Keeps.fillWithin bound, ih⟩
      refine staysIn_ask fun kind _ => ?_
      cases kind with
      | pop =>
        show w.code.StaysIn (stateAfter (fillPop n before w)).code p i
        rw [code_stateAfter_fillPop]
        exact .refl ..
      | peek | const value | load slot => exact .refl ..
      | binary op => exact hlocal.fillBinary hw hc before
      | unary op | store slot | call method returnsValue | ret =>
        exact hlocal.fillOperands hw hc before

theorem Filler.local_fill : Filler.Local fill where
  keeps := Keeps.fill
  stays := fun before w hw hc => (local_fillWithin w.code.pathBound).stays before w hw hc

/-! ## Two operands -/

section TwoOperands

open Routine

variable {filler : Filler} {n left right : NodeId} {leftEffects : Effects}

/-- Nothing is evaluated before the first operand, so it never has to wait. -/
theorem operandBlocked_empty {w : Workspace} {effects : Effects}
    (h : w.code.effects left = .ok effects) : operandBlocked w ∅ left = .ok false := by
  rw [operandBlocked, h, except_bind_ok]
  cases effects.pops <;> rfl

/-- With only the first operand to go, the general walk does what the one over two operands does. -/
theorem fillOperandsFrom_left {w : Workspace} (h : w.code.effects left = .ok leftEffects)
    (before : Effects) :
    fillOperandsFrom filler n before [left] w = fillLeft filler n left leftEffects before w := by
  have hown : (liftM (ask (·.effects left)) : Fill Effects) w = .ok leftEffects w :=
    lift_ask_of_ok h w.stack
  rw [fillOperandsFrom, run_bind_of_ok hown, fillLeft]
  split
  · have hempty : w.code.unionEffects ∅ [].reverse = .ok ∅ := rfl
    have hsummary : (liftM (ask (·.unionEffects ∅ [].reverse)) : Fill Effects) w = .ok ∅ w :=
      lift_ask_of_ok hempty w.stack
    have hblocked : askWorkspace (operandBlocked · ∅ left) w = .ok false w := by
      rw [askWorkspace, operandBlocked_empty h]
    rw [run_bind_of_ok hsummary, run_bind_of_ok hblocked]
    simp only [Bool.false_eq_true, if_false, List.length_nil, Effects.withoutStackAccess_empty,
      Effects.union_empty]
    rw [run_bind, run_bind]
    cases fillSlot filler n 0 left before w with
    | error fault v => rfl
    | ok goesOn v => cases goesOn <;> rfl
  · rfl

/-- The walk over two operands is the general walk, if filling the second one keeps the effects of
the first. -/
theorem fillBinary_eq_of_local (hf : filler.Local) {w : Workspace} (hw : w.code.Sound)
    {node : Node} (hn : w.code.get? n = some node) (hc : node.children = [left, right])
    (before : Effects) :
    fillBinary filler n before w = fillOperands filler n before w := by
  obtain ⟨r, stack⟩ := w
  have hl : r.HasChild n 0 left := ⟨node, hn, by rw [hc]; rfl⟩
  have hr : r.HasChild n 1 right := ⟨node, hn, by rw [hc]; rfl⟩
  have hchildren : r.children n = .ok [left, right] := by
    rw [Routine.children, node_of_get? hn, ← hc]
    rfl
  obtain ⟨leftNode, hleft⟩ := isLive_iff.mp (hw.down n 0 left hl).isLive
  obtain ⟨rightNode, hright⟩ := isLive_iff.mp (hw.down n 1 right hr).isLive
  have hsummary : r.unionEffects ∅ [left].reverse = .ok leftNode.effects := by
    simp [unionEffects, effects_of_get? hleft, Effects.empty_union]
  -- Whatever happens to the second operand, the first one keeps its effects.
  have hlater : ∀ v : Workspace, r.StaysIn v.code n 1 →
      fillOperandsFrom filler n before [left] v =
        fillLeft filler n left leftNode.effects before v := by
    intro v hv
    refine fillOperandsFrom_left (effects_of_get? ?_) before
    rw [hv.beside left (hw.beside_of_hasChild hl (by decide)), hleft]
  rw [fillBinary, fillOperands, run_bind_of_ok (lift_ask_of_ok (child_of_hasChild hl) stack),
    run_bind_of_ok (lift_ask_of_ok (child_of_hasChild hr) stack),
    run_bind_of_ok (lift_ask_of_ok (effects_of_get? hleft) stack),
    run_bind_of_ok (lift_ask_of_ok (effects_of_get? hright) stack),
    run_bind_of_ok (lift_ask_of_ok hchildren stack)]
  show _ = fillOperandsFrom filler n before [right, left] ⟨r, stack⟩
  rw [fillOperandsFrom, run_bind_of_ok (lift_ask_of_ok (effects_of_get? hright) stack)]
  split
  · rw [run_bind_of_ok (lift_ask_of_ok hsummary stack), run_bind, run_bind, askWorkspace]
    cases operandBlocked ⟨r, stack⟩ leftNode.effects right with
    | error fault => rfl
    | ok blocked =>
      cases blocked with
      | true => rfl
      | false =>
        have hslot := hf.fillSlot hw hr (before ∪ leftNode.effects.withoutStackAccess)
        show (fillSlot filler n 1 right (before ∪ leftNode.effects.withoutStackAccess) >>= _) _ =
          (fillSlot filler n 1 right (before ∪ leftNode.effects.withoutStackAccess) >>= _) _
        rw [run_bind, run_bind]
        cases hrun : fillSlot filler n 1 right (before ∪ leftNode.effects.withoutStackAccess)
            ⟨r, stack⟩ with
        | error fault v => rfl
        | ok goesOn v =>
          rw [hrun] at hslot
          cases goesOn with
          | true => exact (hlater v hslot).symm
          | false => rfl
  · exact (hlater _ (.refl ..)).symm

end TwoOperands

/--
The walk over two operands is the general one. For a live node of two operands in a reachable
routine, whatever is evaluated before it and whatever is on the working stack, both answer the same
or fail with the same fault, and they leave the same routine and the same working stack.
-/
theorem Routine.Reachable.fillBinary_eq_fillOperands {r : Routine} (h : r.Reachable) {n : NodeId}
    {op : BinaryOp} (hkind : r.kind n = .ok (.binary op)) (before : Effects)
    (stack : List NodeId) :
    fillBinary fill n before ⟨r, stack⟩ = fillOperands fill n before ⟨r, stack⟩ ∧
      ∀ bound, fillBinary (fillWithin bound) n before ⟨r, stack⟩ =
        fillOperands (fillWithin bound) n before ⟨r, stack⟩ := by
  have hr := h.sound
  obtain ⟨node, hn, hk⟩ := exists_node_of_kind hkind
  have harity := hr.arity n node hn
  rw [hk] at harity
  obtain ⟨left, right, hc⟩ := List.length_eq_two.mp (eq_of_beq harity)
  have hsame : ∀ {filler : Filler}, filler.Local →
      fillBinary filler n before ⟨r, stack⟩ = fillOperands filler n before ⟨r, stack⟩ :=
    fun hf => fillBinary_eq_of_local hf hr hn hc before
  exact ⟨hsame Filler.local_fill, fun bound => hsame (Filler.local_fillWithin bound)⟩

/-- The producer for the second operand is a constant, the one for the first the sum itself. Both
walks take both off the working stack, fill the second operand, and refuse the first. -/
theorem Routine.fillBinary_eq_fillOperands_at_cycle :
    let build : Edit Unit := do
      let _ ← alloc (.binary .add) [← alloc .pop [], ← alloc .pop []]
      let _ ← alloc (.const 5) []
    let r := leftBy (build { name := "main" })
    let stack : List NodeId := [⟨3⟩, ⟨2⟩, ⟨0⟩, ⟨9⟩]
    r.Reachable ∧ ∃ s : Routine, s.isLive ⟨1⟩ = false ∧
      fillBinary fill ⟨2⟩ ∅ ⟨r, stack⟩ = .error (.cycle ⟨2⟩ ⟨2⟩) ⟨s, [⟨0⟩, ⟨9⟩]⟩ ∧
      fillOperands fill ⟨2⟩ ∅ ⟨r, stack⟩ = .error (.cycle ⟨2⟩ ⟨2⟩) ⟨s, [⟨0⟩, ⟨9⟩]⟩ := by
  intro build r stack
  have hreach : r.Reachable :=
    ⟨"main", Unit, build, .bind (.alloc _ _) fun _ => .bind (.alloc _ _) fun _ =>
      .bind (.alloc _ _) fun _ => .bind (.alloc _ _) fun _ => .pure _, rfl⟩
  have hkind : r.kind ⟨2⟩ = .ok (.binary .add) := by decide +kernel
  obtain ⟨hsame, -⟩ := Reachable.fillBinary_eq_fillOperands hreach hkind ∅ stack
  have hrun : fillBinary fill ⟨2⟩ ∅ ⟨r, stack⟩ = .error (.cycle ⟨2⟩ ⟨2⟩)
      ⟨(stateAfter (fillBinary fill ⟨2⟩ ∅ ⟨r, stack⟩)).code, [⟨0⟩, ⟨9⟩]⟩ := by rfl
  refine ⟨hreach, _, ?_, hrun, hsame.symm.trans hrun⟩
  decide +kernel

end StackTree
