import StackTree.Proofs.Ownership.Reach

/-!
# What edits and folding can fail with

An edit fails because its arguments do not fit the trees, or with a fault that the library rules
out; it never complains about files, documents or stored effects. This holds of every routine,
sound or not, because it only depends on the faults that the computations name.

## Main definitions

* `Fault.Ordinary`: the faults of edits.
* `FailsOrdinarily`: a computation that fails with those only.

## Main results

* `FailsOrdinarily.alloc`, `.replaceChild`, `.discard`, `.setChild`: the edits.
* `FailsOrdinarily.foldBody`: folding.
-/

namespace StackTree

open Runs

/-- The fault names an attempt to break the shape of the trees, or what the library rules out. -/
def Fault.Ordinary (fault : Fault) : Prop :=
  fault.isStructural = true ∨ ∃ text, fault = .internal text

theorem Fault.Ordinary.structural {fault : Fault} (h : fault.isStructural = true) :
    fault.Ordinary :=
  Or.inl h

theorem Fault.Ordinary.internal (text : String) : (Fault.internal text).Ordinary :=
  Or.inr ⟨text, rfl⟩

/-- Stale effects are no ordinary fault. -/
theorem Fault.Ordinary.ne_stale {fault : Fault} (h : fault.Ordinary) (n : NodeId)
    (cached computed : Effects) : fault ≠ .staleEffects n cached computed := by
  rintro rfl
  rcases h with h | ⟨text, h⟩
  · cases h
  · cases h

/-! ## Questions -/

/-- The question fails with ordinary faults only. -/
def AnswersOrdinarily {α : Type} (question : Routine → Except Fault α) : Prop :=
  ∀ r fault, question r = .error fault → fault.Ordinary

namespace AnswersOrdinarily

variable {α β : Type}

theorem ok (a : Routine → α) : AnswersOrdinarily fun r => .ok (a r) := by
  intro r fault h
  cases h

theorem error {fault : Routine → Fault} (hf : ∀ r, (fault r).Ordinary) :
    AnswersOrdinarily (fun r => .error (fault r) : Routine → Except Fault α) := by
  intro r other h
  obtain rfl := Except.error.inj h
  exact hf r

theorem bind {q : Routine → Except Fault α} {next : α → Routine → Except Fault β}
    (hq : AnswersOrdinarily q) (hnext : ∀ a, AnswersOrdinarily (next a)) :
    AnswersOrdinarily fun r => q r >>= fun a => next a r := by
  intro r fault h
  simp only at h
  cases hcase : q r with
  | error other =>
    rw [hcase, except_bind_error] at h
    obtain rfl := Except.error.inj h
    exact hq r other hcase
  | ok a =>
    rw [hcase, except_bind_ok] at h
    exact hnext a r fault h

theorem map {q : Routine → Except Fault α} (f : α → β) (hq : AnswersOrdinarily q) :
    AnswersOrdinarily fun r => f <$> q r :=
  hq.bind fun a => ok fun _ => f a

theorem node (n : NodeId) : AnswersOrdinarily (·.node n) := by
  intro r fault h
  cases hn : r.get? n with
  | some node =>
    simp only [Routine.node_of_get? hn] at h
    cases h
  | none =>
    simp only [Routine.node_of_none hn, Except.error.injEq] at h
    exact h ▸ .structural rfl

theorem kind (n : NodeId) : AnswersOrdinarily (·.kind n) := (node n).map _

theorem effects (n : NodeId) : AnswersOrdinarily (·.effects n) := (node n).map _

theorem parent (n : NodeId) : AnswersOrdinarily (·.parent n) := (node n).map _

theorem childCount (n : NodeId) : AnswersOrdinarily (·.childCount n) := (node n).map _

theorem child (n : NodeId) (slot : Nat) : AnswersOrdinarily (·.child n slot) := by
  refine (node n).bind fun node => ?_
  cases node.children[slot]? with
  | some c => exact ok fun _ => c
  | none => exact error fun _ => .structural rfl

theorem constant? (n : NodeId) : AnswersOrdinarily (·.constant? n) := by
  refine (kind n).bind fun kind => ?_
  cases kind <;> exact ok fun _ => _

theorem unionEffects (start : Effects) (ns : List NodeId) :
    AnswersOrdinarily (·.unionEffects start ns) := by
  induction ns generalizing start with
  | nil => exact ok fun _ => start
  | cons n rest ih => exact ((effects n).map (start ∪ ·)).bind fun acc => ih acc

theorem binaryEffects (n : NodeId) (op : BinaryOp) :
    AnswersOrdinarily (·.binaryEffects n op) :=
  (child n 0).bind fun left => (effects left).bind fun _ =>
    (child n 1).bind fun right => (effects right).bind fun _ => ok fun _ => _

theorem computeEffects (n : NodeId) : AnswersOrdinarily (·.computeEffects n) := by
  refine (node n).bind fun node => ?_
  cases node.kind with
  | binary op => exact binaryEffects n op
  | _ => exact unionEffects _ _

theorem checkFree {attached : NodeId → Link → Fault} (hattached : ∀ n link, (attached n link).Ordinary)
    (seen ns : List NodeId) : AnswersOrdinarily (·.checkFree attached seen ns) := by
  induction ns generalizing seen with
  | nil => exact ok fun _ => ()
  | cons n rest ih =>
    refine (node n).bind fun node => ?_
    cases node.parent with
    | some link => exact error fun _ => hattached n link
    | none =>
      by_cases hn : n ∈ seen
      · simp only [hn, if_true]
        exact error fun _ => .structural rfl
      · simp only [hn, if_false]
        exact ih (n :: seen)

theorem isAncestorOrSelfWithin (candidate : NodeId) (bound : Nat) (n : NodeId) :
    AnswersOrdinarily (·.isAncestorOrSelfWithin candidate bound n) := by
  induction bound generalizing n with
  | zero => exact error fun _ => .internal _
  | succ bound ih =>
    by_cases hn : n = candidate
    · simp only [Routine.isAncestorOrSelfWithin, hn, if_true]
      exact ok fun _ => true
    · simp only [Routine.isAncestorOrSelfWithin, hn, if_false]
      refine (node n).bind fun node => ?_
      cases node.parent with
      | some link => exact ih link.parent
      | none => exact ok fun _ => false

theorem isAncestorOrSelf (candidate n : NodeId) :
    AnswersOrdinarily (·.isAncestorOrSelf candidate n) :=
  fun r => isAncestorOrSelfWithin candidate r.pathBound n r

theorem checkArity (kind : Kind) (operands : Nat) :
    AnswersOrdinarily fun _ => kind.checkArity operands := by
  by_cases h : kind.accepts operands = true
  · simp only [Kind.checkArity, h, if_true]
    exact ok fun _ => ()
  · simp only [Kind.checkArity, h, Bool.false_eq_true, if_false]
    exact error fun _ => .structural rfl

theorem checkRoom : AnswersOrdinarily (·.checkRoom) := by
  intro r fault h
  simp only [Routine.checkRoom] at h
  split at h
  · cases h
  · obtain rfl := Except.error.inj h
    exact .internal _

end AnswersOrdinarily

/-! ## Computations -/

/-- The computation fails with ordinary faults only. -/
def FailsOrdinarily {σ α : Type} (x : EStateM Fault σ α) : Prop :=
  ∀ s fault s', x s = .error fault s' → fault.Ordinary

namespace FailsOrdinarily

section Closure

variable {σ α β : Type}

theorem pure (a : α) : FailsOrdinarily (Pure.pure a : EStateM Fault σ α) := by
  intro s fault s' h
  cases h

theorem throw {fault : Fault} (hf : fault.Ordinary) :
    FailsOrdinarily (throw fault : EStateM Fault σ α) := by
  intro s other s' h
  simp only [run_throw, EStateM.Result.error.injEq] at h
  exact h.1 ▸ hf

theorem modifyGet (f : σ → α × σ) : FailsOrdinarily (modifyGet f : EStateM Fault σ α) := by
  intro s fault s' h
  cases h

theorem modify (f : σ → σ) : FailsOrdinarily (modify f : EStateM Fault σ PUnit) := modifyGet _

theorem get : FailsOrdinarily (get : EStateM Fault σ σ) := by
  intro s fault s' h
  cases h

theorem bind {x : EStateM Fault σ α} {f : α → EStateM Fault σ β} (hx : FailsOrdinarily x)
    (hf : ∀ a, FailsOrdinarily (f a)) : FailsOrdinarily (x >>= f) := by
  intro s fault s' h
  rw [run_bind] at h
  cases hcase : x s with
  | error other t =>
    simp only [hcase, EStateM.Result.error.injEq] at h
    exact h.1 ▸ hx s other t hcase
  | ok a t =>
    simp only [hcase] at h
    exact hf a t fault s' h

theorem ite {c : Prop} [Decidable c] {x y : EStateM Fault σ α} (hx : FailsOrdinarily x)
    (hy : FailsOrdinarily y) : FailsOrdinarily (if c then x else y) := by
  split
  · exact hx
  · exact hy

theorem forM {xs : List α} {f : α → EStateM Fault σ PUnit} (hf : ∀ a, FailsOrdinarily (f a)) :
    FailsOrdinarily (xs.forM f) := by
  induction xs with
  | nil => exact pure _
  | cons x xs ih =>
    rw [List.forM_eq_forM, List.forM_cons]
    exact (hf x).bind fun _ => ih

end Closure

/-! ## Edits -/

theorem ask {α : Type} {question : Routine → Except Fault α} (h : AnswersOrdinarily question) :
    FailsOrdinarily (StackTree.ask question) := by
  intro r fault r' hrun
  cases hcase : question r with
  | ok a => simp [hcase] at hrun
  | error other =>
    simp only [ask_run, hcase, EStateM.Result.error.injEq] at hrun
    exact hrun.1 ▸ h r other hcase

open AnswersOrdinarily in
theorem alloc (kind : Kind) (operands : List NodeId) :
    FailsOrdinarily (StackTree.alloc kind operands) := by
  refine (ask (checkArity kind _)).bind fun _ => ?_
  refine (ask (checkFree (fun _ _ => .structural rfl) [] operands)).bind fun _ => ?_
  refine (ask checkRoom).bind fun _ => (modifyGet _).bind fun n => ?_
  exact (ask (computeEffects n)).bind fun _ => (modify _).bind fun _ => pure n

open AnswersOrdinarily in
theorem refreshEffectsWithin (bound : Nat) (n : NodeId) :
    FailsOrdinarily (StackTree.refreshEffectsWithin bound n) := by
  induction bound generalizing n with
  | zero => exact throw (.internal _)
  | succ bound ih =>
    refine (ask (computeEffects n)).bind fun computed => (ask (node n)).bind fun node => ?_
    refine ite (pure _) ((modify _).bind fun _ => ?_)
    cases node.parent with
    | none => exact pure _
    | some link => exact ih link.parent

open AnswersOrdinarily in
theorem replaceChild (p : NodeId) (slot : Nat) (c : NodeId) :
    FailsOrdinarily (StackTree.replaceChild p slot c) := by
  refine (ask (child p slot)).bind fun old => (ask (node c)).bind fun node => ?_
  cases node.parent with
  | some link => exact ite (pure _) (throw (.structural rfl))
  | none =>
    refine (ask (isAncestorOrSelf c p)).bind fun above => ite (throw (.structural rfl)) ?_
    refine (modify _).bind fun _ => (modify _).bind fun _ => (modify _).bind fun _ => ?_
    exact (get.bind fun r => refreshEffectsWithin r.pathBound p).bind fun _ => pure old

open AnswersOrdinarily in
theorem discard (n : NodeId) : FailsOrdinarily (StackTree.discard n) := by
  refine (ask (parent n)).bind fun link => ?_
  cases link with
  | some link => exact throw (.structural rfl)
  | none => exact modify _

theorem setChild (p : NodeId) (slot : Nat) (c : NodeId) :
    FailsOrdinarily (StackTree.setChild p slot c) :=
  (replaceChild p slot c).bind fun old => ite (pure _) (discard old)

/-! ## Folding -/

theorem fold_of_edit {α : Type} {x : Edit α} (hx : FailsOrdinarily x) :
    FailsOrdinarily (liftM x : Fold α) := by
  rintro ⟨r, folded⟩ fault s' h
  simp only [liftM, monadLift, MonadLift.monadLift] at h
  cases hcase : x r with
  | ok a s => simp [hcase] at h
  | error other s =>
    simp only [hcase, EStateM.Result.error.injEq] at h
    exact h.1 ▸ hx r other s hcase

open AnswersOrdinarily in
theorem mapChildren_fold {visit : NodeId → Fold NodeId} (hvisit : ∀ c, FailsOrdinarily (visit c))
    (n : NodeId) : FailsOrdinarily (mapChildren visit n) :=
  Keeps.mapChildren_of_closed (fun x => FailsOrdinarily x) (fun x => FailsOrdinarily x) pure bind
    (fun _ hx => fold_of_edit hx) (ask (childCount n)) (fun slot => ask (child n slot))
    (fun c => ask (node c)) (setChild n) hvisit

theorem foldTo (value : Int32) : FailsOrdinarily (StackTree.foldTo value) :=
  (modify _).bind fun _ => fold_of_edit (alloc _ _)

open AnswersOrdinarily in
theorem foldUnary (op : UnaryOp) (n : NodeId) : FailsOrdinarily (StackTree.foldUnary op n) := by
  refine (fold_of_edit (ask (child n 0))).bind fun operand => ?_
  refine (fold_of_edit (ask (constant? operand))).bind fun value => ?_
  cases value with
  | some v => exact foldTo _
  | none => exact pure _

open AnswersOrdinarily in
theorem foldBinary (op : BinaryOp) (n : NodeId) : FailsOrdinarily (StackTree.foldBinary op n) := by
  refine (fold_of_edit (ask (child n 0))).bind fun left => ?_
  refine (fold_of_edit (ask (child n 1))).bind fun right => ?_
  refine (fold_of_edit (ask (constant? left))).bind fun l => ?_
  refine (fold_of_edit (ask (constant? right))).bind fun r => ?_
  split
  · split
    · exact foldTo _
    · exact pure _
  · exact pure _

theorem foldWithin (bound : Nat) (n : NodeId) :
    FailsOrdinarily (StackTree.foldWithin bound n) := by
  induction bound generalizing n with
  | zero => exact throw (.internal _)
  | succ bound ih =>
    have hmap := mapChildren_fold ih n
    refine (fold_of_edit (ask (.kind n))).bind fun kind => ?_
    cases kind with
    | const value => exact pure _
    | load slot => exact pure _
    | pop => exact pure _
    | peek => exact pure _
    | unary op => exact hmap.bind fun _ => foldUnary op n
    | binary op => exact hmap.bind fun _ => foldBinary op n
    | store slot => exact hmap.bind fun _ => pure _
    | call method returnsValue => exact hmap.bind fun _ => pure _
    | ret => exact hmap.bind fun _ => pure _

theorem foldEntry (n : NodeId) (index : Nat) : FailsOrdinarily (StackTree.foldEntry n index) := by
  refine (get.bind fun s => foldWithin s.code.pathBound n).bind fun replacement => ?_
  exact ite (pure _) ((fold_of_edit (discard n)).bind fun _ => modify _)

theorem foldBody : FailsOrdinarily StackTree.foldBody := by
  intro r fault s h
  have hentries : FailsOrdinarily (foldEntries r.body.zipIdx) := forM fun p => foldEntry p.1 p.2
  rw [StackTree.foldBody] at h
  cases hcase : foldEntries r.body.zipIdx { code := r, folded := 0 } with
  | ok a s => simp [hcase] at h
  | error other s =>
    simp only [hcase, EStateM.Result.error.injEq] at h
    exact h.1 ▸ hentries _ other s hcase

end FailsOrdinarily

end StackTree
