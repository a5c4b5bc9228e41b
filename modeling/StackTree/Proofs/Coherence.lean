import StackTree.Proofs.Ownership.Faults
import StackTree.Proofs.Audits
import StackTree.Proofs.Nesting.Acceptance

/-!
# Stored effects are never stale

Every node of a reachable routine stores the union of the effects that the kinds of all nodes of its
tree add. So the effects of a node contain those of everything under it, and an audit, which
computes the effects once more from the leaves up, finds what is stored.

An audit of a whole routine can still refuse an entry of the body, which may be gone or hang
somewhere. What it never reports is a fault of what the routine stores twice.

## Main results

* `Routine.Sound.countAudited_eq`: the audit of a tree finds its effects and counts its nodes.
* `Routine.Sound.audit_ok_iff`: the audit of a routine succeeds when the entries of its body are
  free.
* `FailsOrdinarilyOnSound.process`: processing never reports stale effects.
* `Routine.Reachable.effects_coherent`: the statements for every reachable routine.
-/

namespace StackTree

namespace Routine

open Runs
variable {r : Routine}

/-! ## Effects of what lies under a node -/

theorem storedEffects_subset_joinEffects {n : NodeId} {ns : List NodeId} (h : n ∈ ns) :
    r.storedEffects n ⊆ r.joinEffects ns := by
  induction ns with
  | nil => cases h
  | cons m ns ih =>
    rw [joinEffects]
    rcases List.mem_cons.mp h with rfl | h
    · exact Effects.subset_union_left _ _
    · exact Effects.subset_trans (ih h) (Effects.subset_union_right _ _)

/-- The effects of a node contain those of everything under it. -/
theorem Sound.storedEffects_subset (h : r.Sound) {n m : NodeId} (hm : r.Under n m) :
    r.storedEffects m ⊆ r.storedEffects n := by
  induction hm with
  | self => exact Effects.subset_refl _
  | child _ sits ih =>
    obtain ⟨node, hp, hc⟩ := sits
    refine Effects.subset_trans ?_ ih
    rw [storedEffects_of_get? hp, h.effectsRight _ node hp]
    exact Effects.subset_trans (storedEffects_subset_joinEffects (List.mem_of_getElem? hc))
      (Effects.subset_union_right _ _)

theorem Structured.live_of_under (h : r.Structured) {n m : NodeId} (hm : r.Under n m)
    (hn : r.isLive n = true) : r.isLive m = true := by
  cases hm with
  | self => exact hn
  | child _ sits => exact (h.down _ _ _ sits).isLive

theorem effects_of_isLive {n : NodeId} (hn : r.isLive n = true) :
    r.effects n = .ok (r.storedEffects n) := by
  obtain ⟨node, hget⟩ := isLive_iff.mp hn
  rw [effects_of_get? hget, storedEffects_of_get? hget]

/-! ## Audits of one tree -/

theorem Sound.firstStale?_eq_none (h : r.Sound) {n : NodeId} {t : Tree} (ht : r.Shows n t) :
    t.firstStale? = none :=
  Tree.firstStale?_eq_none_iff.mpr fun u hu => h.effects_eq (ht.of_mem_subtrees u hu)

/-- The audit of a tree finds its effects and counts its nodes. -/
theorem Sound.countAudited_eq (h : r.Sound) {n : NodeId} {t : Tree} (ht : r.Shows n t) :
    r.countAudited n = .ok (t.effects, t.size) := by
  have hfresh := h.firstStale?_eq_none ht
  rw [Routine.countAudited_eq ht (h.nodes_nodup ht), hfresh, Tree.counted_of_fresh hfresh,
    h.effects_eq ht]
  rfl

theorem Sound.auditEffects_eq (h : r.Sound) {n : NodeId} {t : Tree} (ht : r.Shows n t) :
    r.auditEffects n = .ok t.effects := by
  rw [auditEffects, h.countAudited_eq ht]
  rfl

theorem auditEffects_of_none {n : NodeId} (hn : r.get? n = none) :
    r.auditEffects n = .error (.released n) := by
  rw [auditEffects, countAudited, pathBound, auditEffectsWithin, node_of_none hn]
  rfl

/-! ## Audits of a routine -/

theorem Sound.auditEntry_of_free (h : r.Sound) {n : NodeId} (hf : r.Free n) :
    r.auditEntry n = .ok () := by
  refine h.acyclic.auditEntry_ok_iff.mpr ⟨hf, fun p slot c _ hc => h.down p slot c hc, ?_⟩
  intro m hm
  obtain ⟨t, ht⟩ := h.exists_shows (h.live_of_under hm hf.isLive)
  exact ⟨t, ht, h.effects_eq ht⟩

/-- The audit of an entry refuses it only if it is gone or hangs somewhere. -/
theorem Sound.auditEntry_cases (h : r.Sound) (n : NodeId) :
    (r.Free n ∧ r.auditEntry n = .ok ()) ∨
      (¬ r.Free n ∧ ∃ fault, r.auditEntry n = .error fault ∧ fault.isStructural = true) := by
  cases hn : r.get? n with
  | none =>
    right
    constructor
    · rintro ⟨node, hget, -⟩
      rw [hn] at hget
      cases hget
    · exact ⟨.released n, by rw [auditEntry, parent, node_of_none hn]; rfl, rfl⟩
  | some node =>
    cases hp : node.parent with
    | none =>
      have hf : r.Free n := ⟨node, hn, hp⟩
      exact Or.inl ⟨hf, h.auditEntry_of_free hf⟩
    | some link =>
      have hparent : r.parent n = .ok (some link) := by
        rw [parent, node_of_get? hn, except_map_ok, hp]
      right
      constructor
      · exact fun hf => hf.not_linksTo ⟨node, hn, hp⟩
      · exact ⟨.stillAttached n link.parent, by rw [auditEntry, hparent]; rfl, rfl⟩

theorem Sound.auditEntries_cases (h : r.Sound) (ns : List NodeId) :
    ((∀ n ∈ ns, r.Free n) ∧ ns.forM r.auditEntry = .ok ()) ∨
      (¬ (∀ n ∈ ns, r.Free n) ∧
        ∃ fault, ns.forM r.auditEntry = .error fault ∧ fault.isStructural = true) := by
  induction ns with
  | nil => exact Or.inl ⟨by simp, rfl⟩
  | cons n ns ih =>
    rw [List.forM_eq_forM, List.forM_cons]
    rcases h.auditEntry_cases n with ⟨hf, hn⟩ | ⟨hnot, fault, hn, hs⟩
    · rw [hn, except_bind_ok]
      rcases ih with ⟨hall, hrest⟩ | ⟨hnot, fault, hrest, hs⟩
      · exact Or.inl ⟨List.forall_mem_cons.mpr ⟨hf, hall⟩, hrest⟩
      · exact Or.inr ⟨fun hall => hnot (List.forall_mem_cons.mp hall).2, fault, hrest, hs⟩
    · rw [hn, except_bind_error]
      exact Or.inr ⟨fun hall => hnot (List.forall_mem_cons.mp hall).1, fault, rfl, hs⟩

/-- The audit of a routine succeeds when the entries of its body exist and hang nowhere. -/
theorem Sound.audit_ok_iff (h : r.Sound) : r.audit = .ok () ↔ ∀ n ∈ r.body, r.Free n := by
  rcases h.auditEntries_cases r.body with ⟨hall, hrun⟩ | ⟨hnot, fault, hrun, -⟩
  · exact ⟨fun _ => hall, fun _ => hrun⟩
  · constructor
    · intro hok
      rw [audit, hrun] at hok
      cases hok
    · exact fun hall => absurd hall hnot

/-- The audit of a routine reports no fault of what the routine stores twice. -/
theorem Sound.audit_ordinary (h : r.Sound) {fault : Fault} (hrun : r.audit = .error fault) :
    fault.isStructural = true := by
  rcases h.auditEntries_cases r.body with ⟨-, hok⟩ | ⟨-, other, hother, hs⟩
  · rw [audit, hok] at hrun
    cases hrun
  · rw [audit, hother] at hrun
    obtain rfl := Except.error.inj hrun
    exact hs

end Routine

/-! ## Processing -/

open Routine Runs

/-- On a sound routine the edit fails with ordinary faults only. -/
def FailsOrdinarilyOnSound {α : Type} (x : Edit α) : Prop :=
  ∀ r : Routine, r.Sound → ∀ fault s, x r = .error fault s → fault.Ordinary

namespace FailsOrdinarilyOnSound

variable {α β : Type}

theorem of_failsOrdinarily {x : Edit α} (h : FailsOrdinarily x) : FailsOrdinarilyOnSound x :=
  fun r _ => h r

theorem bind {x : Edit α} {f : α → Edit β} (hkeeps : Keeps.Edit x)
    (hx : FailsOrdinarilyOnSound x) (hf : ∀ a, FailsOrdinarilyOnSound (f a)) :
    FailsOrdinarilyOnSound (x >>= f) := by
  intro r hr fault s h
  have hsound := (hkeeps r hr).1
  rw [run_bind] at h
  cases hcase : x r with
  | error other t =>
    simp only [hcase, EStateM.Result.error.injEq] at h
    exact h.1 ▸ hx r hr other t hcase
  | ok a t =>
    rw [hcase] at h hsound
    exact hf a t hsound fault s h

theorem nestBody : FailsOrdinarilyOnSound StackTree.nestBody := by
  intro r hr fault s h
  obtain ⟨⟨earlier, n, later, -, -, hrefused⟩, -⟩ := (nestBody_error_iff hr).mp h
  cases hrefused with
  | released gone => exact .structural rfl
  | attached linked => exact .structural rfl
  | repeated free again => exact .structural rfl

theorem auditIf (settings : Settings) : FailsOrdinarilyOnSound (StackTree.auditIf settings) := by
  intro r hr fault s h
  rw [StackTree.auditIf] at h
  split at h
  · cases hcase : r.audit with
    | ok u => simp [hcase] at h
    | error other =>
      simp only [ask_run, hcase, EStateM.Result.error.injEq] at h
      exact .structural (h.1 ▸ hr.audit_ordinary hcase)
  · cases h

theorem pure (a : α) : FailsOrdinarilyOnSound (Pure.pure a) :=
  of_failsOrdinarily (.pure a)

theorem ite {c : Prop} [Decidable c] {x y : Edit α} (hx : FailsOrdinarilyOnSound x)
    (hy : FailsOrdinarilyOnSound y) : FailsOrdinarilyOnSound (if c then x else y) := by
  split
  · exact hx
  · exact hy

theorem runNesting (settings : Settings) (pass : NestingPass) :
    FailsOrdinarilyOnSound (StackTree.runNesting settings pass) := by
  have hkeeps : Keeps.Edit pass.run := Keeps.nestBody.bind fun _ => .pure _
  have hpass : FailsOrdinarilyOnSound pass.run := bind .nestBody nestBody fun _ => pure _
  exact ite (bind hkeeps hpass fun _ => bind (.auditIf settings) (auditIf settings) fun _ => pure _)
    (pure _)

theorem runFolding (settings : Settings) (pass : FoldingPass) :
    FailsOrdinarilyOnSound (StackTree.runFolding settings pass) := by
  have hkeeps : Keeps.Edit pass.run := Keeps.foldBody.bind fun _ => .pure _
  have hpass : FailsOrdinarilyOnSound pass.run :=
    bind .foldBody (of_failsOrdinarily .foldBody) fun _ => pure _
  exact ite (bind hkeeps hpass fun _ => bind (.auditIf settings) (auditIf settings) fun _ => pure _)
    (pure _)

/-- Processing reports no fault of what the routine stores twice. -/
theorem process (settings : Settings) : FailsOrdinarilyOnSound (StackTree.process settings) :=
  bind (.runNesting settings _) (runNesting settings _) fun _ =>
    bind (.runFolding settings _) (runFolding settings _) fun _ =>
      bind .get (of_failsOrdinarily .get) fun _ => pure _

end FailsOrdinarilyOnSound

namespace Routine

variable {r : Routine}

/--
Stored effects are never stale in a reachable routine. The routine is coherent: every node stores
the union of the effects that the kinds of the nodes of its tree add. An audit computes the same and
counts those nodes, and whatever lies under a node has no effect that the node does not have. So no
audit, of one tree or of the routine, and no processing of the routine reports stale effects.
-/
theorem Reachable.effects_coherent (h : r.Reachable) :
    r.Coherent ∧
    (∀ n, r.isLive n = true → ∃ t, r.tree n = .ok t ∧ r.effects n = .ok t.ownEffects ∧
      r.auditEffects n = .ok t.ownEffects ∧ r.countAudited n = .ok (t.ownEffects, t.size)) ∧
    (∀ n m, r.isLive n = true → r.Under n m →
      ∃ above below, r.effects n = .ok above ∧ r.effects m = .ok below ∧ below ⊆ above) ∧
    ∀ n cached computed,
      (∀ root, r.auditEffects root ≠ .error (.staleEffects n cached computed)) ∧
      r.audit ≠ .error (.staleEffects n cached computed) ∧
      ∀ settings s, process settings r ≠ .error (.staleEffects n cached computed) s := by
  have hr := h.sound
  refine ⟨hr.coherent, fun n hn => ?_, fun n m hn hm => ?_,
    fun n cached computed => ⟨fun root => ?_, ?_, ?_⟩⟩
  · obtain ⟨t, ht⟩ := hr.exists_shows hn
    rw [effects_of_isLive hn, storedEffects_of_shows ht, hr.auditEffects_eq ht,
      hr.countAudited_eq ht, hr.effects_eq ht]
    exact ⟨t, hr.tree_eq ht, rfl, rfl, rfl⟩
  · exact ⟨_, _, effects_of_isLive hn, effects_of_isLive (hr.live_of_under hm hn),
      hr.storedEffects_subset hm⟩
  · intro hrun
    cases hroot : r.get? root with
    | none =>
      rw [auditEffects_of_none hroot] at hrun
      cases hrun
    | some node =>
      obtain ⟨t, ht⟩ := hr.exists_shows (isLive_iff.mpr ⟨node, hroot⟩)
      rw [hr.auditEffects_eq ht] at hrun
      cases hrun
  · intro hrun
    exact (Fault.Ordinary.structural (hr.audit_ordinary hrun)).ne_stale n cached computed rfl
  · intro settings s hrun
    exact (FailsOrdinarilyOnSound.process settings r hr _ s hrun).ne_stale n cached computed rfl

/-- Two operators over a constant read the locals after a load takes the place of the constant, and
read nothing any more after a constant takes the place of the load. -/
theorem effects_coherent_after_setChild :
    let build : Edit Unit := do
      let inner ← alloc (.unary .neg) [← alloc (.const 1) []]
      let _ ← alloc (.unary .not) [inner]
      setChild inner 0 (← alloc (.load 0) [])
    let r := leftBy (build { name := "main" })
    let s := leftBy ((do setChild ⟨1⟩ 0 (← alloc (.const 2) [])) r)
    r.Reachable ∧ r.auditEffects ⟨2⟩ = .ok .read ∧ s.Reachable ∧ s.auditEffects ⟨2⟩ = .ok ∅ := by
  intro build r s
  have hreach : r.Reachable :=
    ⟨"main", Unit, build, .bind (.alloc _ _) fun _ => .bind (.alloc _ _) fun _ =>
      .bind (.alloc _ _) fun _ => .bind (.alloc _ _) fun _ => .setChild _ _ _, rfl⟩
  have hreach' : s.Reachable := hreach.after (.bind (.alloc _ _) fun _ => .setChild _ _ _)
  refine ⟨hreach, ?_, hreach', ?_⟩
  · obtain ⟨t, -, heffects, haudit, -⟩ :=
      (Reachable.effects_coherent hreach).2.1 ⟨2⟩ (by decide +kernel)
    rw [haudit, ← heffects]
    decide +kernel
  · obtain ⟨t, -, heffects, haudit, -⟩ :=
      (Reachable.effects_coherent hreach').2.1 ⟨2⟩ (by decide +kernel)
    rw [haudit, ← heffects]
    decide +kernel

end Routine

end StackTree
