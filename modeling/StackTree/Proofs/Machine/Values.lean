import StackTree.Machine.Run
import StackTree.Proofs.Runs
import StackTree.Proofs.Nesting.OnTrees

/-!
# Evaluation with the values for the pops given

The machine hands the values for the pops from one operand to the next. How many each operand takes
is known beforehand, so the values can as well be dealt out before the evaluation starts. `value`
evaluates a tree that way, and it is what the machine does (`eval_eq_value`). With nothing handed on,
an evaluation is a computation on the locals and the log alone, and such computations can be
compared and reordered.

## Main definitions

* `Machine.value`, `Machine.values`: evaluation with the values for the pops dealt out.

## Main results

* `eval_eq_value`: the machine does nothing else.
* `values_append`: the values are dealt out by the number of pops.
* `value_congr_top`: only peeks see the top of the stack.
-/

namespace StackTree.Machine

open Runs
open StackTree.Tree (Sound SoundAll popCounts effectsAll atop)

variable {host : Host} {top : Int32}

theorem perform_binary (op : BinaryOp) (left right : Int32) (rest : List Int32) :
    perform host (.binary op) (left :: right :: rest) =
      match op.denote? left right with
      | some v => pure v
      | none => trap := rfl

mutual

/-- Evaluates a tree, given the values for its pops in the order of evaluation. -/
def value (host : Host) (top : Int32) : Tree → List Int32 → Run Int32
  | .node _ kind _ children, vs =>
    match kind with
    | .pop => pure (vs.headD dummy)
    | .peek => pure top
    | kind => do perform host kind (← values host top children vs)

/-- Evaluates trees in order, given the values for their pops. -/
def values (host : Host) (top : Int32) : List Tree → List Int32 → Run (List Int32)
  | [], _ => pure []
  | t :: ts, vs => do
    let v ← value host top t (vs.take t.popCount)
    return v :: (← values host top ts (vs.drop t.popCount))

end

theorem value_pop (id : NodeId) (e : Effects) (cs : List Tree) (vs : List Int32) :
    value host top (.node id .pop e cs) vs = pure (vs.headD dummy) := by
  simp [value]

theorem value_peek (id : NodeId) (e : Effects) (cs : List Tree) (vs : List Int32) :
    value host top (.node id .peek e cs) vs = pure top := by
  simp [value]

theorem value_node (id : NodeId) {kind : Kind} (e : Effects) (cs : List Tree) (vs : List Int32)
    (hpop : kind ≠ .pop) (hpeek : kind ≠ .peek) :
    value host top (.node id kind e cs) vs =
      values host top cs vs >>= perform host kind := by
  cases kind <;> simp_all [value]

theorem value_atop (id : NodeId) {kind : Kind} (cs : List Tree) (vs : List Int32)
    (hpop : kind ≠ .pop) (hpeek : kind ≠ .peek) :
    value host top (atop id kind cs) vs = values host top cs vs >>= perform host kind :=
  value_node id _ cs vs hpop hpeek

@[simp] theorem values_nil (vs : List Int32) : values host top [] vs = pure [] := by
  simp [values]

theorem values_cons (t : Tree) (ts : List Tree) (vs : List Int32) :
    values host top (t :: ts) vs = (do
      let v ← value host top t (vs.take t.popCount)
      return v :: (← values host top ts (vs.drop t.popCount))) := by
  simp only [values]

theorem values_append (ts us : List Tree) (vs : List Int32) :
    values host top (ts ++ us) vs = (do
      let first ← values host top ts (vs.take (popCounts ts))
      return first ++ (← values host top us (vs.drop (popCounts ts)))) := by
  induction ts generalizing vs with
  | nil => simp [popCounts]
  | cons t ts ih =>
    simp only [List.cons_append, values_cons, ih, popCounts, bind_assoc, pure_bind,
      List.take_take, List.drop_drop, List.drop_take, Nat.min_eq_left (Nat.le_add_right _ _),
      Nat.add_sub_cancel_left]

/-! ## The machine deals the values out -/

theorem eval_node (id : NodeId) {kind : Kind} (e : Effects) (cs : List Tree) (supply : List Int32)
    (hpop : kind ≠ .pop) (hpeek : kind ≠ .peek) :
    eval host top (.node id kind e cs) supply = (do
      let (operands, rest) ← evalAll host top cs supply
      return (← perform host kind operands, rest)) := by
  cases kind with
  | pop => exact absurd rfl hpop
  | peek => exact absurd rfl hpeek
  | _ =>
    simp only [eval]
    rfl

mutual

/-- The machine takes the values for the pops of a tree and hands the rest on. -/
theorem eval_eq_value : (t : Tree) → t.Sound → (vs rest : List Int32) →
    vs.length = t.popCount →
    eval host top t (vs ++ rest) = (fun v => (v, rest)) <$> value host top t vs
  | .node id kind e cs, h, vs, rest, hlength => by
    by_cases hpop : kind = .pop
    · subst hpop
      have hnil : cs = [] := h.children_eq_nil (Or.inl rfl)
      subst hnil
      obtain ⟨v, rfl⟩ : ∃ v, vs = [v] := List.length_eq_one_iff.mp hlength
      rfl
    · rw [Tree.popCount, if_neg hpop, Nat.zero_add] at hlength
      by_cases hpeek : kind = .peek
      · subst hpeek
        have hnil : cs = [] := h.children_eq_nil (Or.inr (Or.inl rfl))
        subst hnil
        obtain rfl : vs = [] := List.length_eq_zero_iff.mp hlength
        rfl
      · have hbelow := evalAll_eq_values cs h.2.2 vs rest hlength
        rw [eval_node id e cs _ hpop hpeek, value_node id e cs vs hpop hpeek, hbelow]
        simp

theorem evalAll_eq_values : (ts : List Tree) → SoundAll ts → (vs rest : List Int32) →
    vs.length = popCounts ts →
    evalAll host top ts (vs ++ rest) = (fun all => (all, rest)) <$> values host top ts vs
  | [], _, vs, rest, hlength => by
    obtain rfl : vs = [] := List.length_eq_zero_iff.mp hlength
    rfl
  | t :: ts, h, vs, rest, hlength => by
    rw [popCounts] at hlength
    have hsplit : vs ++ rest = vs.take t.popCount ++ (vs.drop t.popCount ++ rest) := by
      rw [← List.append_assoc, List.take_append_drop]
    have hfirst := eval_eq_value t h.1 (vs.take t.popCount) (vs.drop t.popCount ++ rest) (by
      rw [List.length_take]
      omega)
    have hlater := evalAll_eq_values ts h.2 (vs.drop t.popCount) rest (by
      rw [List.length_drop]
      omega)
    have hcons : evalAll host top (t :: ts) (vs ++ rest) = (do
        let (v, supply) ← eval host top t (vs ++ rest)
        let (all, supply) ← evalAll host top ts supply
        return (v :: all, supply)) := by
      rw [evalAll]
      rfl
    rw [hcons, hsplit, hfirst, values_cons]
    simp [hlater]

end

/-! ## Peeks -/

mutual

/-- The stored effects of a sound tree say exactly whether it has peeks. -/
theorem hasPeek_eq : (t : Tree) → t.Sound → hasPeek t = t.effects.peeks
  | .node id kind e cs, h => by
    have hkind : (kind == .peek) = kind.intrinsic.peeks := by
      rw [Bool.eq_iff_iff, Kind.intrinsic_peeks, beq_iff_eq]
    rw [hasPeek, Tree.effects, h.2.1, Effects.union_peeks, anyPeek_eq cs h.2.2, hkind]

theorem anyPeek_eq : (ts : List Tree) → SoundAll ts → anyPeek ts = (effectsAll ts).peeks
  | [], _ => rfl
  | t :: ts, h => by
    rw [anyPeek, effectsAll, Effects.union_peeks, hasPeek_eq t h.1, anyPeek_eq ts h.2]

end

mutual

/-- A tree without peeks does not see the top of the stack. -/
theorem value_congr_top : (t : Tree) → t.Sound → t.effects.peeks = false → (other : Int32) →
    (vs : List Int32) → value host top t vs = value host other t vs
  | .node id kind e cs, h, hpeeks, other, vs => by
    rw [Tree.effects, h.2.1, Effects.union_peeks, Bool.or_eq_false_iff] at hpeeks
    have hpeek : kind ≠ .peek := by
      rintro rfl
      cases hpeeks.1
    by_cases hpop : kind = .pop
    · subst hpop
      rw [value_pop, value_pop]
    · rw [value_node id e cs vs hpop hpeek, value_node id e cs vs hpop hpeek,
        values_congr_top cs h.2.2 hpeeks.2 other vs]

theorem values_congr_top : (ts : List Tree) → SoundAll ts → (effectsAll ts).peeks = false →
    (other : Int32) → (vs : List Int32) → values host top ts vs = values host other ts vs
  | [], _, _, _, _ => rfl
  | t :: ts, h, hpeeks, other, vs => by
    rw [effectsAll, Effects.union_peeks, Bool.or_eq_false_iff] at hpeeks
    rw [values_cons, values_cons, value_congr_top t h.1 hpeeks.1 other,
      values_congr_top ts h.2 hpeeks.2 other]

end

/-! ## Entries -/

theorem demand_le_iff {t : Tree} {depth : Nat} :
    demand t ≤ depth ↔ t.popCount ≤ depth ∧ (hasPeek t = true → 1 ≤ depth) := by
  rw [demand, Nat.max_le]
  split
  · next h => simp [h]
  · next h => simp [h]

/-- With no more values than it takes, a tree leaves none. -/
theorem eval_eq_value_nil {t : Tree} (ht : t.Sound) {vs : List Int32}
    (hlength : vs.length = t.popCount) :
    eval host top t vs = (fun v => (v, [])) <$> value host top t vs := by
  have heval : eval host top t (vs ++ []) = _ := eval_eq_value t ht vs [] hlength
  rwa [List.append_nil] at heval

/-- An entry whose values are there is evaluated on them. -/
theorem runEntry_eq {t : Tree} (ht : t.Sound) {s : State} (hd : demand t ≤ s.stack.length) :
    runEntry host t s =
      match value host (s.stack.headD dummy) t (s.stack.take t.popCount).reverse s.store with
      | .ok v store => .ok () ⟨if t.kind.producesValue then v :: s.stack.drop t.popCount
          else s.stack.drop t.popCount, store⟩
      | .error halt store => .error halt ⟨s.stack.drop t.popCount, store⟩ := by
  have hcount : t.popCount ≤ s.stack.length := Nat.le_trans (Nat.le_max_left _ _) hd
  have hlength : (s.stack.take t.popCount).reverse.length = t.popCount := by
    rw [List.length_reverse, List.length_take]
    omega
  rw [runEntry, if_neg (by omega), eval_eq_value_nil ht hlength, run_map]
  cases value host (s.stack.headD dummy) t (s.stack.take t.popCount).reverse s.store <;> rfl

end StackTree.Machine
