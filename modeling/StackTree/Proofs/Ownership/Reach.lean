import StackTree.Script
import StackTree.Proofs.Ownership.Release

/-!
# Every reachable routine is sound

Each operation keeps a routine sound and lets its names age, whether it goes well or fails half-way
through (`Keeps`). Both properties pass from the parts of a computation to the whole, so it is
enough to look at the operations that change a routine themselves: allocation, replacement and
release. Everything else is put together from them.

## Main definitions

* `Keeps`: a computation that keeps routines sound, on every way through it.

## Main results

* `Keeps.mapChildren`: mapping the operands keeps what its visitor keeps.
* `keeps_of_script`: every script keeps routines sound.
* `Routine.Reachable.sound`: every reachable routine is sound.
* `Routine.Reachable.owned_and_names_final`: the nodes of a reachable routine own their operands,
  and a released name is final.
-/

namespace StackTree

open Runs

/-- The state that a result holds, whether good or bad. -/
def stateAfter {ε σ α : Type} : EStateM.Result ε σ α → σ
  | .ok _ s => s
  | .error _ s => s

/-- Whatever way a computation ends, it leaves a sound routine, and names aged only. -/
def Keeps {σ α : Type} (code : σ → Routine) (x : EStateM Fault σ α) : Prop :=
  ∀ s, (code s).Sound →
    (code (stateAfter (x s))).Sound ∧ (code s).Ages (code (stateAfter (x s)))

namespace Keeps

section Closure

variable {σ α β : Type} {code : σ → Routine}

/-- What leaves the routine alone keeps it. -/
theorem of_code_eq {x : EStateM Fault σ α} (h : ∀ s, code (stateAfter (x s)) = code s) :
    Keeps code x := by
  intro s hs
  rw [h s]
  exact ⟨hs, .refl _⟩

theorem pure (a : α) : Keeps code (Pure.pure a) := of_code_eq fun _ => rfl

theorem throw (fault : Fault) : Keeps code (throw fault : EStateM Fault σ α) :=
  of_code_eq fun _ => rfl

theorem get : Keeps code (get : EStateM Fault σ σ) := of_code_eq fun _ => rfl

theorem bind {x : EStateM Fault σ α} {f : α → EStateM Fault σ β} (hx : Keeps code x)
    (hf : ∀ a, Keeps code (f a)) : Keeps code (x >>= f) := by
  intro s hs
  have hfirst := hx s hs
  rw [run_bind]
  cases hrun : x s with
  | error e s' =>
    rw [hrun] at hfirst
    exact hfirst
  | ok a s' =>
    rw [hrun] at hfirst
    obtain ⟨hsound, hages⟩ := hf a s' hfirst.1
    exact ⟨hsound, hfirst.2.trans hages⟩

theorem tryCatch {x : EStateM Fault σ α} {f : Fault → EStateM Fault σ α} (hx : Keeps code x)
    (hf : ∀ e, Keeps code (f e)) : Keeps code (tryCatch x f) := by
  intro s hs
  have hfirst := hx s hs
  rw [run_tryCatch]
  cases hrun : x s with
  | ok a s' =>
    rw [hrun] at hfirst
    exact hfirst
  | error e s' =>
    rw [hrun] at hfirst
    obtain ⟨hsound, hages⟩ := hf e s' hfirst.1
    exact ⟨hsound, hfirst.2.trans hages⟩

theorem ite {c : Prop} [Decidable c] {x y : EStateM Fault σ α} (hx : Keeps code x)
    (hy : Keeps code y) : Keeps code (if c then x else y) := by
  split
  · exact hx
  · exact hy

theorem forM {xs : List α} {f : α → EStateM Fault σ PUnit} (hf : ∀ a, Keeps code (f a)) :
    Keeps code (xs.forM f) := by
  induction xs with
  | nil => exact pure _
  | cons x xs ih =>
    rw [List.forM_eq_forM, List.forM_cons]
    exact (hf x).bind fun _ => ih

theorem foldlM {xs : List α} {f : β → α → EStateM Fault σ β} (hf : ∀ b a, Keeps code (f b a))
    (b : β) : Keeps code (xs.foldlM f b) := by
  induction xs generalizing b with
  | nil => exact pure b
  | cons x xs ih =>
    rw [List.foldlM_cons]
    exact (hf b x).bind fun b => ih b

end Closure

/-! ## Edits -/

/-- An edit that keeps the routines it works on. -/
abbrev Edit {α : Type} (x : StackTree.Edit α) : Prop := Keeps id x

theorem ask {α : Type} (question : Routine → Except Fault α) : Edit (StackTree.ask question) :=
  of_code_eq fun r => by
    rw [ask_run]
    cases question r <;> rfl

theorem setBody (f : Routine → List NodeId) : Edit (modify fun r => { r with body := f r }) :=
  fun r h => ⟨h.with_body (f r), ⟨Nat.le_refl _, fun _ hn => hn.2⟩⟩

theorem alloc (kind : Kind) (operands : List NodeId) : Edit (StackTree.alloc kind operands) := by
  intro r h
  rcases alloc_cases kind operands r with ⟨fault, hrun⟩ | ⟨ha, hf, -, hrun⟩
  · rw [hrun]
    exact ⟨h, .refl r⟩
  · rw [hrun]
    exact ⟨h.graft ha hf rfl, Routine.ages_graft hf⟩

theorem allocPops (count : Nat) : Edit (StackTree.allocPops count) := by
  induction count with
  | zero => exact pure []
  | succ count ih => exact (alloc .pop []).bind fun n => ih.bind fun ns => pure (n :: ns)

theorem allocPending (kind : Kind) (operands : Nat) :
    Edit (StackTree.allocPending kind operands) :=
  (allocPops operands).bind fun ns => alloc kind ns

theorem replaceChild (p : NodeId) (slot : Nat) (c : NodeId) :
    Edit (StackTree.replaceChild p slot c) := by
  intro r (h : r.Sound)
  rcases replaceChild_cases h p slot c with ⟨fault, hrun⟩ | ⟨-, hrun⟩ | ⟨old, s, hf, hrun, hs, ha⟩
  · rw [hrun]
    exact ⟨h, .refl r⟩
  · rw [hrun]
    exact ⟨h, .refl r⟩
  · rw [hrun]
    exact ⟨hs, (hf.ages_relink h.toStructured).trans ha.ages⟩

theorem discard (n : NodeId) : Edit (StackTree.discard n) := by
  intro r h
  rcases discard_cases n r with ⟨fault, hrun⟩ | ⟨hf, hrun⟩
  · rw [hrun]
    exact ⟨h, .refl r⟩
  · rw [hrun]
    obtain ⟨t, ht⟩ := h.exists_shows hf.isLive
    have hrelease := h.releases_release ht
    exact ⟨h.of_releases ht hf hrelease, hrelease.ages⟩

theorem setChild (p : NodeId) (slot : Nat) (c : NodeId) : Edit (StackTree.setChild p slot c) :=
  (replaceChild p slot c).bind fun _ => ite (pure _) (discard _)

/-! ## Mapping the operands -/

section MapChildren

variable {m : Type → Type} [Monad m] [MonadLiftT StackTree.Edit m]

/--
Mapping the operands has every property that its parts have and that passes from parts to the whole:
its three questions, the replacement of an operand, and the visitor.
-/
theorem mapChildren_of_closed (P : {α : Type} → m α → Prop)
    (Q : {α : Type} → StackTree.Edit α → Prop) (hpure : ∀ {α : Type} (a : α), P (Pure.pure a : m α))
    (hbind : ∀ {α β : Type} {x : m α} {f : α → m β}, P x → (∀ a, P (f a)) → P (x >>= f))
    (hlift : ∀ {α : Type} (x : StackTree.Edit α), Q x → P (liftM x : m α)) {n : NodeId}
    (hcount : Q (StackTree.ask (·.childCount n))) (hchild : ∀ slot, Q (StackTree.ask (·.child n slot)))
    (hnode : ∀ c, Q (StackTree.ask (·.node c))) (hset : ∀ slot c, Q (StackTree.setChild n slot c))
    {visit : NodeId → m NodeId} (hvisit : ∀ c, P (visit c)) :
    P (StackTree.mapChildren visit n) := by
  refine hbind (hlift _ hcount) fun count => ?_
  induction List.range count with
  | nil => exact hpure _
  | cons slot slots ih =>
    rw [List.forM_eq_forM, List.forM_cons]
    refine hbind ?_ fun _ => ih
    refine hbind (hlift _ (hchild slot)) fun child => ?_
    refine hbind (hlift _ (hnode child)) fun _ => ?_
    exact hbind (hvisit child) fun replacement => hlift _ (hset slot replacement)

end MapChildren

/-- A visitor with a state of its own keeps routines if each of its runs does. -/
theorem mapChildren {σ : Type} {visit : NodeId → StateT σ StackTree.Edit NodeId}
    (hvisit : ∀ c s, Edit ((visit c).run s)) (n : NodeId) (s : σ) :
    Edit ((StackTree.mapChildren visit n).run s) := by
  refine mapChildren_of_closed (m := StateT σ StackTree.Edit) (fun x => ∀ s, Edit (x.run s))
    (fun x => Edit x) ?_ ?_ ?_ (ask _) (fun _ => ask _) (fun _ => ask _) (setChild n) hvisit s
  · intro α a s
    exact pure (a, s)
  · intro α β x f hx hf s
    rw [StateT.run_bind]
    exact (hx s).bind fun p => hf p.1 p.2
  · intro α x hx s
    exact hx.bind fun a => pure (a, s)

/-! ## Filling and nesting -/

/-- A computation on a workspace that keeps its routine. -/
abbrev Fill {α : Type} (x : StackTree.Fill α) : Prop := Keeps Workspace.code x

theorem fill_of_edit {α : Type} {x : StackTree.Edit α} (hx : Edit x) :
    Fill (liftM x : StackTree.Fill α) := by
  rintro ⟨r, stack⟩ h
  have hrun := hx r h
  simp only [liftM, monadLift, MonadLift.monadLift]
  cases hcase : x r with
  | ok a s =>
    rw [hcase] at hrun
    exact hrun
  | error e s =>
    rw [hcase] at hrun
    exact hrun

theorem askWorkspace {α : Type} (question : Workspace → Except Fault α) :
    Fill (StackTree.askWorkspace question) :=
  of_code_eq fun w => by
    rw [StackTree.askWorkspace]
    cases question w <;> rfl

theorem fillPop (n : NodeId) (before : Effects) : Fill (StackTree.fillPop n before) := by
  refine get.bind fun w => ?_
  split
  · exact pure _
  · refine (fill_of_edit (ask _)).bind fun candidate => ite ?_ (pure _)
    exact (of_code_eq fun _ => rfl).bind fun _ => pure _

section Operands

variable {filler : Filler} (hfill : ∀ n before, Fill (filler n before))
include hfill

theorem fillSlot (n : NodeId) (slot : Nat) (operand : NodeId) (before : Effects) :
    Fill (StackTree.fillSlot filler n slot operand before) :=
  (hfill operand before).bind fun filled =>
    (fill_of_edit (setChild n slot filled.node)).bind fun _ => pure _

theorem fillOperandsFrom (n : NodeId) (before : Effects) (operands : List NodeId) :
    Fill (StackTree.fillOperandsFrom filler n before operands) := by
  induction operands with
  | nil => exact pure _
  | cons operand earlier ih =>
    refine (fill_of_edit (ask _)).bind fun own => ite ?_ ih
    refine (fill_of_edit (ask _)).bind fun summary => (askWorkspace _).bind fun blocked => ?_
    exact ite (pure _) ((fillSlot hfill n _ operand _).bind fun goesOn => ite ih (pure _))

theorem fillOperands (n : NodeId) (before : Effects) :
    Fill (StackTree.fillOperands filler n before) :=
  (fill_of_edit (ask _)).bind fun children => fillOperandsFrom hfill n before children.reverse

theorem fillLeft (n left : NodeId) (leftEffects before : Effects) :
    Fill (StackTree.fillLeft filler n left leftEffects before) :=
  ite ((fillSlot hfill n 0 left before).bind fun _ => pure _) (pure _)

theorem fillBinary (n : NodeId) (before : Effects) :
    Fill (StackTree.fillBinary filler n before) := by
  refine (fill_of_edit (ask _)).bind fun left => (fill_of_edit (ask _)).bind fun right => ?_
  refine (fill_of_edit (ask _)).bind fun leftEffects => ?_
  refine (fill_of_edit (ask _)).bind fun rightEffects => ite ?_ (fillLeft hfill n left _ before)
  refine (askWorkspace _).bind fun blocked => ite (pure _) ?_
  exact (fillSlot hfill n 1 right _).bind fun goesOn =>
    ite (fillLeft hfill n left leftEffects before) (pure _)

end Operands

theorem fillWithin (bound : Nat) (n : NodeId) (before : Effects) :
    Fill (StackTree.fillWithin bound n before) := by
  induction bound generalizing n before with
  | zero => exact throw _
  | succ bound ih =>
    refine (fill_of_edit (ask _)).bind fun kind => ?_
    cases kind with
    | pop => exact fillPop n before
    | peek => exact get.bind fun w => pure _
    | const value => exact pure _
    | load slot => exact pure _
    | binary op => exact fillBinary ih n before
    | unary op => exact fillOperands ih n before
    | store slot => exact fillOperands ih n before
    | call method returnsValue => exact fillOperands ih n before
    | ret => exact fillOperands ih n before

theorem fill (n : NodeId) (before : Effects) : Fill (StackTree.fill n before) :=
  get.bind fun w => fillWithin w.code.pathBound n before

theorem fillFrom (n : NodeId) (before : Effects) (stack : List NodeId) :
    Edit (StackTree.fillFrom n before stack) := by
  intro r h
  have hrun := fill n before { code := r, stack := stack } h
  rw [StackTree.fillFrom]
  cases hcase : StackTree.fill n before { code := r, stack := stack } with
  | ok filled w =>
    rw [hcase] at hrun
    exact hrun
  | error e w =>
    rw [hcase] at hrun
    exact hrun

theorem settleStack (done : Settled) : Fill (StackTree.settleStack done) :=
  (of_code_eq fun _ => rfl).bind fun _ => pure _

theorem placeEntry (done : Settled) (n : NodeId) : Fill (StackTree.placeEntry done n) := by
  refine (fill_of_edit (ask _)).bind fun produces => ite ?_ ?_
  · exact (of_code_eq fun _ => rfl).bind fun _ => pure _
  · exact (settleStack done).bind fun _ => pure _

theorem nestEntry (done : Settled) (n : NodeId) : Fill (StackTree.nestEntry done n) := by
  refine (fill n ∅).bind fun filled => ?_
  refine (ite (pure _) (fill_of_edit (discard n))).bind fun _ => ?_
  exact (ite (pure _) (settleStack _)).bind fun done => placeEntry done filled.node

theorem nestEntries (entries : List NodeId) : Fill (StackTree.nestEntries entries) :=
  (foldlM nestEntry _).bind fun done => settleStack done

/-- Nesting a sequence keeps the routine, whatever the sequence is. -/
theorem nestBlock {r : Routine} (h : r.Sound) (block : List NodeId) :
    (StackTree.nestBlock r block).code.Sound ∧ r.Ages (StackTree.nestBlock r block).code := by
  rw [StackTree.nestBlock]
  cases r.checkFree (fun n link => .stillAttached n link.parent) [] block with
  | error fault => exact ⟨h, .refl r⟩
  | ok _ =>
    have hrun := nestEntries block { code := r, stack := [] } h
    dsimp only
    cases hcase : StackTree.nestEntries block { code := r, stack := [] } with
    | ok done w =>
      rw [hcase] at hrun
      exact hrun
    | error fault w =>
      rw [hcase] at hrun
      exact hrun

theorem nestGiven (block : List NodeId) : Edit (StackTree.nestGiven block) :=
  fun _ h => nestBlock h block

theorem nestBody : Edit StackTree.nestBody := by
  intro r h
  obtain ⟨hsound, hages⟩ := nestBlock (h.with_body []) r.body
  have hdone : ∀ block, (id { (StackTree.nestBlock { r with body := [] } r.body).code with
      body := block } : Routine).Sound ∧ r.Ages
        { (StackTree.nestBlock { r with body := [] } r.body).code with body := block } :=
    fun block => ⟨hsound.with_body block, ⟨hages.size_le, hages.released⟩⟩
  rw [StackTree.nestBody]
  dsimp only
  cases (StackTree.nestBlock { r with body := [] } r.body).result with
  | ok report => exact hdone _
  | error fault => exact hdone _

/-! ## Folding -/

/-- A computation that folds and keeps its routine. -/
abbrev Fold {α : Type} (x : StackTree.Fold α) : Prop := Keeps FoldState.code x

theorem fold_of_edit {α : Type} {x : StackTree.Edit α} (hx : Edit x) :
    Fold (liftM x : StackTree.Fold α) := by
  rintro ⟨r, folded⟩ h
  have hrun := hx r h
  simp only [liftM, monadLift, MonadLift.monadLift]
  cases hcase : x r with
  | ok a s =>
    rw [hcase] at hrun
    exact hrun
  | error e s =>
    rw [hcase] at hrun
    exact hrun

theorem foldTo (value : Int32) : Fold (StackTree.foldTo value) :=
  (of_code_eq fun _ => rfl).bind fun _ => fold_of_edit (alloc _ _)

theorem foldUnary (op : UnaryOp) (n : NodeId) : Fold (StackTree.foldUnary op n) := by
  refine (fold_of_edit (ask _)).bind fun operand => (fold_of_edit (ask _)).bind fun value => ?_
  cases value with
  | some v => exact foldTo _
  | none => exact pure _

theorem foldBinary (op : BinaryOp) (n : NodeId) : Fold (StackTree.foldBinary op n) := by
  refine (fold_of_edit (ask _)).bind fun left => (fold_of_edit (ask _)).bind fun right => ?_
  refine (fold_of_edit (ask _)).bind fun l => (fold_of_edit (ask _)).bind fun r => ?_
  split
  · split
    · exact foldTo _
    · exact pure _
  · exact pure _

theorem mapChildren_fold {visit : NodeId → StackTree.Fold NodeId}
    (hvisit : ∀ c, Fold (visit c)) (n : NodeId) : Fold (StackTree.mapChildren visit n) :=
  mapChildren_of_closed (fun x => Fold x) (fun x => Edit x) pure bind (fun _ hx => fold_of_edit hx)
    (ask _) (fun _ => ask _) (fun _ => ask _) (setChild n) hvisit

theorem foldWithin (bound : Nat) (n : NodeId) : Fold (StackTree.foldWithin bound n) := by
  induction bound generalizing n with
  | zero => exact throw _
  | succ bound ih =>
    have hmap := mapChildren_fold ih n
    refine (fold_of_edit (ask _)).bind fun kind => ?_
    cases kind with
    | const value => exact pure _
    | load slot => exact pure _
    | pop => exact pure _
    | peek => exact pure _
    | unary op => exact hmap.bind fun _ => foldUnary op n
    | binary op => exact hmap.bind fun _ => foldBinary op n
    | store slot => exact hmap.bind fun _ => pure _
    | call method returnsValue => exact hmap.bind fun _ => pure _
    | ret => exact hmap.bind fun _ => pure _

theorem fold (n : NodeId) : Fold (StackTree.fold n) :=
  get.bind fun s => foldWithin s.code.pathBound n

theorem foldChildren (n : NodeId) : Fold (StackTree.foldChildren n) :=
  get.bind fun s => mapChildren_fold (foldWithin s.code.pathBound) n

theorem foldCounting {α : Type} {action : StackTree.Fold α} (h : Fold action) (folded : Nat) :
    Edit (StackTree.foldCounting action folded) := by
  intro r hr
  have hrun := h { code := r, folded := folded } hr
  rw [StackTree.foldCounting]
  cases hcase : action { code := r, folded := folded } with
  | ok a s =>
    rw [hcase] at hrun
    exact hrun
  | error e s =>
    rw [hcase] at hrun
    exact hrun

theorem foldEntry (n : NodeId) (index : Nat) : Fold (StackTree.foldEntry n index) := by
  refine (fold n).bind fun replacement => ite (pure _) ?_
  refine (fold_of_edit (discard n)).bind fun _ => ?_
  exact fun s h => ⟨h.with_body _, ⟨Nat.le_refl _, fun _ hn => hn.2⟩⟩

theorem foldBody : Edit StackTree.foldBody := by
  intro r h
  have hrun : Fold (foldEntries r.body.zipIdx) := forM fun p => foldEntry p.1 p.2
  have hstate := hrun { code := r, folded := 0 } h
  rw [StackTree.foldBody]
  cases hcase : foldEntries r.body.zipIdx { code := r, folded := 0 } with
  | ok a s =>
    rw [hcase] at hstate
    exact hstate
  | error e s =>
    rw [hcase] at hstate
    exact hstate

/-! ## Processing -/

theorem auditIf (settings : Settings) : Edit (StackTree.auditIf settings) :=
  ite (ask _) (pure _)

theorem runNesting (settings : Settings) (pass : NestingPass) :
    Edit (StackTree.runNesting settings pass) := by
  have hpass : Edit pass.run := nestBody.bind fun _ => pure _
  exact ite (hpass.bind fun _ => (auditIf settings).bind fun _ => pure _) (pure _)

theorem runFolding (settings : Settings) (pass : FoldingPass) :
    Edit (StackTree.runFolding settings pass) := by
  have hpass : Edit pass.run := foldBody.bind fun _ => pure _
  exact ite (hpass.bind fun _ => (auditIf settings).bind fun _ => pure _) (pure _)

theorem process (settings : Settings) : Edit (StackTree.process settings) :=
  (runNesting settings _).bind fun _ => (runFolding settings _).bind fun _ =>
    get.bind fun _ => pure _

end Keeps

/-! ## Scripts -/

/-- Every script keeps routines sound and ages their names, whatever way it ends. -/
theorem keeps_of_script {α : Type} {x : Edit α} (h : Script x) : Keeps.Edit x := by
  induction h with
  | pure a => exact .pure a
  | fail fault => exact .throw fault
  | ask question => exact .ask question
  | bind _ _ ihx ihf => exact ihx.bind ihf
  | recover _ _ ihx ihf => exact ihx.tryCatch ihf
  | setBody body => exact .setBody fun _ => body
  | alloc kind operands => exact .alloc kind operands
  | allocPending kind operands => exact .allocPending kind operands
  | replaceChild p slot c => exact .replaceChild p slot c
  | setChild p slot c => exact .setChild p slot c
  | discard n => exact .discard n
  | mapChildren visit s n _ ih => exact .mapChildren ih n s
  | fill n before stack => exact .fillFrom n before stack
  | nestGiven block => exact .nestGiven block
  | nestBody => exact .nestBody
  | fold n folded => exact .foldCounting (.fold n) folded
  | foldChildren n folded => exact .foldCounting (.foldChildren n) folded
  | foldBody => exact .foldBody
  | process settings => exact .process settings

end StackTree

namespace StackTree.Routine

variable {r : Routine}

/-- Every reachable routine is sound. -/
theorem Reachable.sound (h : r.Reachable) : r.Sound := by
  obtain ⟨name, α, x, hx, rfl⟩ := h
  have hkept := (keeps_of_script hx { name := name } (Sound.new name [])).1
  cases hrun : x { name := name } with
  | ok a s =>
    rw [hrun] at hkept
    exact hkept
  | error f s =>
    rw [hrun] at hkept
    exact hkept

/-- A released node stays so through every script, and no allocation afterwards answers it. -/
theorem Sound.released_after (h : r.Sound) {n : NodeId} (hn : r.Released n) {α : Type}
    {x : Edit α} (hx : Script x) :
    (leftBy (x r)).Released n ∧
      ∀ kind operands m s, alloc kind operands (leftBy (x r)) = .ok m s → m ≠ n := by
  have hages : r.Ages (leftBy (x r)) := by
    have hkept := (keeps_of_script hx r h).2
    cases hrun : x r with
    | ok a s =>
      rw [hrun] at hkept
      exact hkept
    | error f s =>
      rw [hrun] at hkept
      exact hkept
  have hlt : n.index < (leftBy (x r)).nodes.size := Nat.lt_of_lt_of_le hn.1 hages.size_le
  refine ⟨⟨hlt, hages.released n hn⟩, fun kind operands m s hrun => ?_⟩
  rcases alloc_cases kind operands (leftBy (x r)) with ⟨fault, hcase⟩ | ⟨-, -, -, hcase⟩
  · rw [hcase] at hrun
    cases hrun
  · rw [hcase] at hrun
    obtain rfl : (leftBy (x r)).nextId = m := by
      simpa using congrArg (fun result : EStateM.Result Fault Routine NodeId =>
        match result with
        | .ok m _ => m
        | .error _ _ => n) hrun
    rintro rfl
    exact Nat.lt_irrefl _ hlt

/--
The nodes of a reachable routine own their operands: the links are those of the slots, no node sits
in two of them, arities fit, every way up is short, and the count is right. A name whose node is
released is final: no script brings the node back, and none gives the name to another node.
-/
theorem Reachable.owned_and_names_final (h : r.Reachable) :
    r.Owned ∧
      (∀ p q i j n, r.HasChild p i n → r.HasChild q j n → p = q ∧ i = j) ∧
      ∀ n, r.Released n → ∀ {α : Type} (x : Edit α), Script x →
        (leftBy (x r)).Released n ∧
          ∀ kind operands m s, alloc kind operands (leftBy (x r)) = .ok m s → m ≠ n :=
  ⟨h.sound.owned, fun _ _ _ _ _ hp hq => h.sound.slot_unique hp hq,
    fun _ hn _ _ hx => h.sound.released_after hn hx⟩

/-- A call over a constant is discarded beside a negated one. The names of the call and its constant
are gone for good, and the negation still owns its operand. -/
theorem owned_after_discard :
    let build : Edit Unit := do
      let value ← alloc (.const 7) []
      let caller ← alloc (.call "f" true) [value]
      let kept ← alloc (.const 5) []
      let _ ← alloc (.unary .neg) [kept]
      discard caller
    let r := leftBy (build { name := "main" })
    r.Reachable ∧ r.Released ⟨0⟩ ∧ r.Released ⟨1⟩ ∧ r.live = 2 ∧ r.HasChild ⟨3⟩ 0 ⟨2⟩ ∧ r.Owned ∧
      (∀ q j, r.HasChild q j ⟨2⟩ → q = ⟨3⟩ ∧ j = 0) ∧
      (leftBy (alloc .pop [] r)).Released ⟨0⟩ ∧ (leftBy (alloc .pop [] r)).Released ⟨1⟩ := by
  intro build r
  have hreach : r.Reachable :=
    ⟨"main", Unit, build, .bind (.alloc _ _) fun _ => .bind (.alloc _ _) fun _ =>
      .bind (.alloc _ _) fun _ => .bind (.alloc _ _) fun _ => .discard _, rfl⟩
  have hvalue : r.Released ⟨0⟩ := ⟨by decide, by decide⟩
  have hcaller : r.Released ⟨1⟩ := ⟨by decide, by decide⟩
  have hkept : r.HasChild ⟨3⟩ 0 ⟨2⟩ := ⟨_, rfl, rfl⟩
  obtain ⟨howned, honce, hfinal⟩ := Reachable.owned_and_names_final hreach
  exact ⟨hreach, hvalue, hcaller, by decide, hkept, howned,
    fun q j hchild => honce q _ j _ _ hchild hkept,
    (hfinal ⟨0⟩ hvalue _ (.alloc .pop [])).1, (hfinal ⟨1⟩ hcaller _ (.alloc .pop [])).1⟩

end StackTree.Routine
