import StackTree.Proofs.Machine.Values

/-!
# Effects bound what evaluation does

Three properties of computations are all that the order of evaluation turns on: to answer without
regard to anything (`x = pure a`), to answer from the locals and change nothing (`Reads`), and to
leave the locals alone (`KeepsLocals`). Each is what the stored effects promise when some of them are
absent, and if `mayReorder` holds of two trees, one of them has so few effects that swapping the two
cannot be told (`Abides.swap`).

## Main definitions

* `Reads`, `KeepsLocals`: two properties of computations.
* `Machine.Abides`: a computation does nothing that its effects do not tell of.

## Main results

* `value_abides`, `values_abides`: the stored effects of a tree tell of all that it does.
* `mayReorder_cases`: what a legal swap says about the effects.
* `Abides.swap`: what may swap places may do so.
-/

namespace StackTree.Machine

open Runs
open StackTree.Tree (Sound SoundAll effectsAll)

variable {α β γ : Type} {host : Host} {top : Int32}

/-! ## Three kinds of computations -/

/-- The computation answers from the locals and changes nothing. -/
def Reads (x : Run α) : Prop := ∃ answer : Locals → α, ∀ s, x s = .ok (answer s.locals) s

/-- The computation leaves the locals alone, however it ends. -/
def KeepsLocals (x : Run α) : Prop := ∀ s, match x s with
  | .ok _ s' => s'.locals = s.locals
  | .error _ s' => s'.locals = s.locals

theorem reads_pure (a : α) : Reads (pure a : Run α) := ⟨fun _ => a, fun _ => rfl⟩

theorem Reads.bind {x : Run α} {f : α → Run β} (hx : Reads x) (hf : ∀ a, Reads (f a)) :
    Reads (x >>= f) := by
  obtain ⟨answer, hx⟩ := hx
  choose next hf using hf
  refine ⟨fun l => next (answer l) l, fun s => ?_⟩
  rw [run_bind, hx s]
  exact hf _ s

theorem Reads.keepsLocals {x : Run α} (hx : Reads x) : KeepsLocals x := by
  obtain ⟨answer, hx⟩ := hx
  intro s
  rw [hx s]

theorem KeepsLocals.bind {x : Run α} {f : α → Run β} (hx : KeepsLocals x)
    (hf : ∀ a, KeepsLocals (f a)) : KeepsLocals (x >>= f) := by
  intro s
  have hfirst := hx s
  rw [run_bind]
  cases hs : x s with
  | error e s' =>
    rw [hs] at hfirst
    exact hfirst
  | ok a s' =>
    rw [hs] at hfirst
    have hnext := hf a s'
    simp only at hfirst ⊢
    cases ht : f a s' with
    | ok b s'' =>
      rw [ht] at hnext
      exact hnext.trans hfirst
    | error e s'' =>
      rw [ht] at hnext
      exact hnext.trans hfirst

/-- A computation that only reads may swap places with one that leaves the locals alone. -/
theorem Reads.swap {x : Run α} {y : Run β} (hx : Reads x) (hy : KeepsLocals y)
    (k : α → β → Run γ) :
    (do let a ← x; let b ← y; k a b) = (do let b ← y; let a ← x; k a b) := by
  obtain ⟨answer, hx⟩ := hx
  funext s
  have hkeep := hy s
  rw [run_bind, hx s]
  simp only
  rw [run_bind, run_bind]
  cases hs : y s with
  | error e s' => rfl
  | ok b s' =>
    rw [hs] at hkeep
    simp only at hkeep ⊢
    rw [run_bind, hx s', hkeep]

/-! ## Single nodes -/

theorem BinaryOp.denote_of_not_mayThrow {op : BinaryOp} (h : op.mayThrow = false)
    (left right : Int32) : ∃ v, op.denote? left right = some v := by
  cases op <;> first | exact ⟨_, rfl⟩ | cases h

/-- A node without side effects and reads answers without regard to anything. -/
theorem perform_pure {kind : Kind} (hside : kind.intrinsic.hasSideEffect = false)
    (hreads : kind.intrinsic.reads = false) (operands : List Int32) :
    ∃ v, perform host kind operands = pure v := by
  cases kind with
  | const v => exact ⟨v, rfl⟩
  | load slot => cases hreads
  | pop => exact ⟨dummy, rfl⟩
  | peek => exact ⟨dummy, rfl⟩
  | unary op =>
    cases operands with
    | nil => exact ⟨dummy, rfl⟩
    | cons v vs => exact ⟨op.denote v, rfl⟩
  | binary op =>
    have hthrow : op.mayThrow = false := by
      cases op <;> first | rfl | cases hside
    match operands with
    | [] => exact ⟨dummy, rfl⟩
    | [_] => exact ⟨dummy, rfl⟩
    | left :: right :: _ =>
      obtain ⟨v, hv⟩ := BinaryOp.denote_of_not_mayThrow hthrow left right
      refine ⟨v, ?_⟩
      rw [perform_binary, hv]
  | store slot => cases hside
  | call method returnsValue => cases hside
  | ret => cases hside

/-- A node without side effects at most reads. -/
theorem perform_reads {kind : Kind} (hside : kind.intrinsic.hasSideEffect = false)
    (operands : List Int32) : Reads (perform host kind operands) := by
  cases hreads : kind.intrinsic.reads with
  | false =>
    obtain ⟨v, hv⟩ : ∃ v, perform host kind operands = pure v :=
      perform_pure hside hreads operands
    rw [hv]
    exact reads_pure v
  | true =>
    cases kind with
    | load slot => exact ⟨fun l => l slot, fun _ => rfl⟩
    | binary op => cases op <;> cases hreads
    | call method returnsValue => cases hside
    | _ => cases hreads

/-- A node that does not write leaves the locals alone. -/
theorem perform_keepsLocals {kind : Kind} (hwrites : kind.intrinsic.writes = false)
    (operands : List Int32) : KeepsLocals (perform host kind operands) := by
  cases kind with
  | store slot => cases hwrites
  | call method returnsValue => cases hwrites
  | ret =>
    intro s
    rfl
  | binary op =>
    match operands with
    | [] => exact (reads_pure dummy).keepsLocals
    | [_] => exact (reads_pure dummy).keepsLocals
    | left :: right :: _ =>
      rw [perform_binary]
      cases op.denote? left right with
      | some v => exact (reads_pure v).keepsLocals
      | none =>
        intro s
        rfl
  | _ => exact (perform_reads rfl operands).keepsLocals

/-! ## Trees -/

mutual

/-- A tree without side effects at most reads. -/
theorem value_reads : (t : Tree) → t.Sound → t.effects.hasSideEffect = false →
    (vs : List Int32) → Reads (value host top t vs)
  | .node id kind e cs, h, hside, vs => by
    rw [Tree.effects, h.2.1, Effects.hasSideEffect_union, Bool.or_eq_false_iff] at hside
    by_cases hpop : kind = .pop
    · subst hpop
      rw [value_pop]
      exact reads_pure _
    · by_cases hpeek : kind = .peek
      · subst hpeek
        rw [value_peek]
        exact reads_pure _
      · rw [value_node id e cs vs hpop hpeek]
        exact (values_reads cs h.2.2 hside.2 vs).bind fun operands =>
          perform_reads hside.1 operands

theorem values_reads : (ts : List Tree) → SoundAll ts → (effectsAll ts).hasSideEffect = false →
    (vs : List Int32) → Reads (values host top ts vs)
  | [], _, _, _ => by
    rw [values_nil]
    exact reads_pure []
  | t :: ts, h, hside, vs => by
    rw [effectsAll, Effects.hasSideEffect_union, Bool.or_eq_false_iff] at hside
    rw [values_cons]
    exact (value_reads t h.1 hside.1 _).bind fun _ =>
      (values_reads ts h.2 hside.2 _).bind fun _ => reads_pure _

end

mutual

/-- A tree without side effects and reads answers without regard to anything. -/
theorem value_pure : (t : Tree) → t.Sound → t.effects.hasSideEffect = false →
    t.effects.reads = false → (vs : List Int32) → ∃ v, value host top t vs = pure v
  | .node id kind e cs, h, hside, hreads, vs => by
    rw [Tree.effects, h.2.1, Effects.hasSideEffect_union, Bool.or_eq_false_iff] at hside
    rw [Tree.effects, h.2.1, Effects.union_reads, Bool.or_eq_false_iff] at hreads
    by_cases hpop : kind = .pop
    · subst hpop
      exact ⟨_, value_pop id e cs vs⟩
    · by_cases hpeek : kind = .peek
      · subst hpeek
        exact ⟨_, value_peek id e cs vs⟩
      · obtain ⟨operands, hbelow⟩ := values_pure cs h.2.2 hside.2 hreads.2 vs
        obtain ⟨v, hv⟩ : ∃ v, perform host kind operands = pure v :=
          perform_pure hside.1 hreads.1 operands
        refine ⟨v, ?_⟩
        rw [value_node id e cs vs hpop hpeek, hbelow, pure_bind, hv]

theorem values_pure : (ts : List Tree) → SoundAll ts → (effectsAll ts).hasSideEffect = false →
    (effectsAll ts).reads = false → (vs : List Int32) → ∃ all, values host top ts vs = pure all
  | [], _, _, _, vs => ⟨[], values_nil vs⟩
  | t :: ts, h, hside, hreads, vs => by
    rw [effectsAll, Effects.hasSideEffect_union, Bool.or_eq_false_iff] at hside
    rw [effectsAll, Effects.union_reads, Bool.or_eq_false_iff] at hreads
    obtain ⟨v, hv⟩ := value_pure t h.1 hside.1 hreads.1 (vs.take t.popCount)
    obtain ⟨all, hall⟩ := values_pure ts h.2 hside.2 hreads.2 (vs.drop t.popCount)
    refine ⟨v :: all, ?_⟩
    rw [values_cons, hv, hall]
    simp

end

mutual

/-- A tree that does not write leaves the locals alone. -/
theorem value_keepsLocals : (t : Tree) → t.Sound → t.effects.writes = false →
    (vs : List Int32) → KeepsLocals (value host top t vs)
  | .node id kind e cs, h, hwrites, vs => by
    rw [Tree.effects, h.2.1, Effects.union_writes, Bool.or_eq_false_iff] at hwrites
    by_cases hpop : kind = .pop
    · subst hpop
      rw [value_pop]
      exact (reads_pure _).keepsLocals
    · by_cases hpeek : kind = .peek
      · subst hpeek
        rw [value_peek]
        exact (reads_pure _).keepsLocals
      · rw [value_node id e cs vs hpop hpeek]
        exact (values_keepsLocals cs h.2.2 hwrites.2 vs).bind fun operands =>
          perform_keepsLocals hwrites.1 operands

theorem values_keepsLocals : (ts : List Tree) → SoundAll ts → (effectsAll ts).writes = false →
    (vs : List Int32) → KeepsLocals (values host top ts vs)
  | [], _, _, _ => by
    rw [values_nil]
    exact (reads_pure []).keepsLocals
  | t :: ts, h, hwrites, vs => by
    rw [effectsAll, Effects.union_writes, Bool.or_eq_false_iff] at hwrites
    rw [values_cons]
    exact (value_keepsLocals t h.1 hwrites.1 _).bind fun _ =>
      (values_keepsLocals ts h.2 hwrites.2 _).bind fun _ => (reads_pure _).keepsLocals

end

/-! ## Swapping -/

/-- The computation does nothing that the effects do not tell of. -/
structure Abides (effects : Effects) (x : Run α) : Prop where
  /-- Without side effects it ends well and changes nothing. -/
  reads : effects.hasSideEffect = false → Reads x
  /-- Without reads its answer does not depend on the locals either. -/
  pure : effects.hasSideEffect = false → effects.reads = false → ∃ a, x = Pure.pure a
  /-- Without writes it leaves the locals alone. -/
  keeps : effects.writes = false → KeepsLocals x

theorem value_abides {t : Tree} (ht : t.Sound) (vs : List Int32) :
    Abides t.effects (value host top t vs) where
  reads := fun hside => value_reads t ht hside vs
  pure := fun hside hreads => value_pure t ht hside hreads vs
  keeps := fun hwrites => value_keepsLocals t ht hwrites vs

theorem values_abides {ts : List Tree} (hts : SoundAll ts) (vs : List Int32) :
    Abides (effectsAll ts) (values host top ts vs) where
  reads := fun hside => values_reads ts hts hside vs
  pure := fun hside hreads => values_pure ts hts hside hreads vs
  keeps := fun hwrites => values_keepsLocals ts hts hwrites vs

/-- If two pieces of code may swap places, one has no side effect and what it reads the other does
not write. -/
theorem mayReorder_cases {a b : Effects} (h : mayReorder a b = true) :
    (a.hasSideEffect = false ∧ (a.reads = false ∨ b.writes = false)) ∨
      (b.hasSideEffect = false ∧ (b.reads = false ∨ a.writes = false)) := by
  rw [mayReorder] at h
  simp only [Effects.touchesState] at h
  grind

/-- Computations whose effects may swap places may do so: whatever follows cannot tell. -/
theorem Abides.swap {a b : Effects} {x : Run α} {y : Run β} (hx : Abides a x) (hy : Abides b y)
    (h : mayReorder a b = true) (k : α → β → Run γ) :
    (do let v ← x; let w ← y; k v w) = (do let w ← y; let v ← x; k v w) := by
  rcases mayReorder_cases h with ⟨hside, hreads | hwrites⟩ | ⟨hside, hreads | hwrites⟩
  · obtain ⟨v, rfl⟩ := hx.pure hside hreads
    simp
  · exact (hx.reads hside).swap (hy.keeps hwrites) k
  · obtain ⟨w, rfl⟩ := hy.pure hside hreads
    simp
  · exact ((hy.reads hside).swap (hx.keeps hwrites) fun w v => k v w).symm

/-- Trees that may swap places may do so. That the first ones deal with the stack does not matter,
since the values for their pops are given. -/
theorem values_swap {ts : List Tree} {t : Tree} (hts : SoundAll ts) (ht : t.Sound)
    (h : mayReorder (effectsAll ts).withoutStackAccess t.effects = true) (other : Int32)
    (vs us : List Int32) (k : List Int32 → Int32 → Run γ) :
    (do let all ← values host top ts vs; let v ← value host other t us; k all v) =
      (do let v ← value host other t us; let all ← values host top ts vs; k all v) := by
  have hless : Abides (effectsAll ts).withoutStackAccess (values host top ts vs) :=
    ⟨(values_abides hts vs).reads, (values_abides hts vs).pure, (values_abides hts vs).keeps⟩
  exact hless.swap (value_abides ht us) h k

end StackTree.Machine
