import StackTree.Folding
import StackTree.Proofs.Nesting.OnTrees

/-!
# Folding on trees

What folding does to a routine it does to the trees under the entries. On trees it is a function
that always gives a result: the operands are folded first to last, then the node over them collapses
into the constant that it computes, if it computes one. A new constant gets the next name that is
free, so the number of constants made so far is all that one operand hands on to the next.

## Main definitions

* `Folding`: what folding makes of something.
* `Tree.computed?`: the value that an operator over constants has.
* `Tree.foldOperands`, `Tree.fold`, `Tree.foldAll`: folding below a node, a tree and several trees.

## Main results

* `collapse_cases`: a folded tree is the one over the folded operands or a new constant.
* `foldOperands_leaf`: nodes without operands stay as they are.
* `foldOperands_nodes`: folding adds no nodes but new ones.
-/

namespace StackTree

/-- What folding made of trees, and how many operators became constants for that. -/
structure Folding (α : Type) where
  /-- What takes their place. -/
  result : α
  /-- How many operators became constants. -/
  count : Nat

namespace Tree

/-- The value of a tree that is a constant. -/
def constant? (t : Tree) : Option Int32 :=
  match t.kind with
  | .const value => some value
  | _ => none

/-- What a node over these operands computes, if it is an operator over constants that does not
fault. -/
def computed? (kind : Kind) (operands : List Tree) : Option Int32 :=
  match kind, operands.map constant? with
  | .unary op, [some value] => some (op.apply value)
  | .binary op, [some left, some right] => op.apply? left right
  | _, _ => none

/-- Puts a constant in the place of a node that computes one. `next` is the index of the first new
node. -/
def collapse (next : Nat) (f : Folding Tree) : Folding Tree :=
  match computed? f.result.kind f.result.children with
  | some value => ⟨atop ⟨next + f.count⟩ (.const value) [], f.count + 1⟩
  | none => f

mutual

/-- Folds the operands of a tree. -/
def foldOperands (next : Nat) : Tree → Folding Tree
  | node id kind _ children =>
    let below := foldAll next children
    ⟨atop id kind below.result, below.count⟩

/-- Folds trees first to last. -/
def foldAll (next : Nat) : List Tree → Folding (List Tree)
  | [] => ⟨[], 0⟩
  | tree :: rest =>
    let first := collapse next (foldOperands next tree)
    let later := foldAll (next + first.count) rest
    ⟨first.result :: later.result, first.count + later.count⟩

end

/-- Folds a tree: its operands, then the node over them. -/
def fold (next : Nat) (t : Tree) : Folding Tree := collapse next (t.foldOperands next)

/-! ## How folding goes -/

theorem foldOperands_node (next : Nat) (id : NodeId) (kind : Kind) (e : Effects)
    (cs : List Tree) :
    (node id kind e cs).foldOperands next =
      ⟨atop id kind (foldAll next cs).result, (foldAll next cs).count⟩ := by
  rw [foldOperands]

@[simp] theorem foldAll_nil (next : Nat) : foldAll next [] = ⟨[], 0⟩ := by
  rw [foldAll]

theorem foldAll_cons (next : Nat) (t : Tree) (ts : List Tree) :
    foldAll next (t :: ts) =
      ⟨(t.fold next).result :: (foldAll (next + (t.fold next).count) ts).result,
        (t.fold next).count + (foldAll (next + (t.fold next).count) ts).count⟩ := by
  rw [foldAll]
  rfl

theorem id_foldOperands (next : Nat) (t : Tree) : (t.foldOperands next).result.id = t.id := by
  cases t
  rw [foldOperands_node]
  rfl

/-- A node stays as it is, or it computes a value and a new constant takes its place. -/
theorem collapse_cases (next : Nat) (f : Folding Tree) :
    (computed? f.result.kind f.result.children = none ∧ collapse next f = f) ∨
      ∃ value, computed? f.result.kind f.result.children = some value ∧
        collapse next f = ⟨atop ⟨next + f.count⟩ (.const value) [], f.count + 1⟩ := by
  unfold collapse
  cases computed? f.result.kind f.result.children with
  | none => exact Or.inl ⟨rfl, rfl⟩
  | some value => exact Or.inr ⟨value, rfl, rfl⟩

theorem count_foldOperands_le (next : Nat) (t : Tree) :
    (t.foldOperands next).count ≤ (t.fold next).count := by
  unfold fold
  rcases collapse_cases next (t.foldOperands next) with ⟨-, heq⟩ | ⟨value, -, heq⟩
  · exact Nat.le_of_eq (congrArg Folding.count heq).symm
  · rw [heq]
    exact Nat.le_succ _

/-- A node without operands stays as it is. -/
theorem foldOperands_leaf {t : Tree} (ht : t.Sound) (hleaf : t.children = []) (next : Nat) :
    t.foldOperands next = ⟨t, 0⟩ := by
  have hself := ht.eq_atop
  obtain ⟨id, kind, e, cs⟩ := t
  obtain rfl : cs = [] := hleaf
  rw [foldOperands_node, foldAll_nil, hself]
  rfl

/-! ## Folded trees are sound -/

theorem Sound.collapse {f : Folding Tree} (h : f.result.Sound) (next : Nat) :
    (collapse next f).result.Sound := by
  rcases collapse_cases next f with ⟨-, heq⟩ | ⟨value, -, heq⟩
  · rw [heq]
    exact h
  · rw [heq]
    exact sound_atop rfl trivial

mutual

theorem Sound.foldOperands : (next : Nat) → (t : Tree) → t.Sound →
    (t.foldOperands next).result.Sound
  | next, node id kind e cs, h => by
    rw [foldOperands_node]
    obtain ⟨hlength, hsound⟩ := SoundAll.foldAll next cs h.2.2
    exact sound_atop (hlength ▸ h.1) hsound

theorem SoundAll.foldAll : (next : Nat) → (ts : List Tree) → SoundAll ts →
    (foldAll next ts).result.length = ts.length ∧ SoundAll (foldAll next ts).result
  | _, [], _ => by
    rw [foldAll_nil]
    exact ⟨rfl, trivial⟩
  | next, t :: ts, h => by
    obtain ⟨hlength, hlater⟩ := SoundAll.foldAll (next + (t.fold next).count) ts h.2
    rw [foldAll_cons]
    exact ⟨congrArg (· + 1) hlength, (Sound.foldOperands next t h.1).collapse next, hlater⟩

end

/-- A sound tree that is a constant has no operands. -/
theorem Sound.eq_const {t : Tree} (h : t.Sound) {value : Int32}
    (hvalue : t.constant? = some value) : t = atop t.id (.const value) [] := by
  have hkind : t.kind = .const value := by
    unfold constant? at hvalue
    split at hvalue
    · next v hk => rw [hk, Option.some.inj hvalue]
    · cases hvalue
  have hself := h.eq_atop
  rwa [h.children_eq_nil (Or.inr (Or.inr (Or.inl ⟨value, hkind⟩))), hkind] at hself

/-- What computes a value is an operator over constants. -/
theorem Sound.computed?_cases {t : Tree} (h : t.Sound) {value : Int32}
    (hvalue : computed? t.kind t.children = some value) :
    (∃ op c v, t.kind = .unary op ∧ t.children = [atop c (.const v) []] ∧ op.apply v = value) ∨
      ∃ op a b x y, t.kind = .binary op ∧
        t.children = [atop a (.const x) [], atop b (.const y) []] ∧ op.apply? x y = some value := by
  have harity := h.arity
  have hbelow := soundAll_iff.mp h.children
  obtain ⟨id, kind, e, cs⟩ := t
  cases kind with
  | unary op =>
    obtain ⟨c, rfl⟩ : ∃ c, cs = [c] := List.length_eq_one_iff.mp (eq_of_beq harity)
    cases hc : c.constant? with
    | none => simp [computed?, Tree.kind, Tree.children, hc] at hvalue
    | some v =>
      simp only [computed?, Tree.kind, Tree.children, List.map_cons, List.map_nil, hc,
        Option.some.injEq] at hvalue
      rw [(hbelow c (List.mem_singleton.mpr rfl)).eq_const hc]
      exact Or.inl ⟨op, c.id, v, rfl, rfl, hvalue⟩
  | binary op =>
    obtain ⟨a, b, rfl⟩ : ∃ a b, cs = [a, b] := List.length_eq_two.mp (eq_of_beq harity)
    cases ha : a.constant? with
    | none => simp [computed?, Tree.kind, Tree.children, ha] at hvalue
    | some x =>
      cases hb : b.constant? with
      | none => simp [computed?, Tree.kind, Tree.children, ha, hb] at hvalue
      | some y =>
        simp only [computed?, Tree.kind, Tree.children, List.map_cons, List.map_nil, ha, hb]
          at hvalue
        have hleft := (hbelow a (List.mem_cons_self ..)).eq_const ha
        have hright := (hbelow b (List.mem_cons_of_mem a (List.mem_singleton.mpr rfl))).eq_const hb
        refine Or.inr ⟨op, a.id, b.id, x, y, rfl, ?_, hvalue⟩
        rw [← hleft, ← hright]
        rfl
  | _ => cases hvalue

/-! ## The nodes of a folded tree -/

/-- A constant that is made for a tree is a new node. -/
theorem collapse_nodes {next : Nat} {f : Folding Tree} {old : List NodeId}
    (h : ∀ m ∈ f.result.nodes, m ∈ old ∨ next ≤ m.index) :
    ∀ m ∈ (collapse next f).result.nodes, m ∈ old ∨ next ≤ m.index := by
  rcases collapse_cases next f with ⟨-, heq⟩ | ⟨value, -, heq⟩
  · rw [heq]
    exact h
  · rw [heq]
    intro m hm
    obtain rfl := List.mem_singleton.mp hm
    exact Or.inr (Nat.le_add_right next f.count)

mutual

/-- Whatever is under a node after its operands are folded was there before or is new. -/
theorem foldOperands_nodes : (next : Nat) → (t : Tree) →
    ∀ m ∈ (t.foldOperands next).result.nodes, m ∈ t.nodes ∨ next ≤ m.index
  | next, node id kind e cs => by
    rw [foldOperands_node]
    intro m hm
    simp only [atop, nodes, List.mem_append] at hm ⊢
    rcases hm with hm | hm
    · rcases foldAll_nodes next cs m hm with hold | hnew
      · exact Or.inl (Or.inl hold)
      · exact Or.inr hnew
    · exact Or.inl (Or.inr hm)

theorem foldAll_nodes : (next : Nat) → (ts : List Tree) →
    ∀ m ∈ forestNodes (foldAll next ts).result, m ∈ forestNodes ts ∨ next ≤ m.index
  | next, [] => by simp [forestNodes]
  | next, t :: ts => by
    rw [foldAll_cons]
    intro m hm
    simp only [forestNodes, List.mem_append] at hm ⊢
    rcases hm with hm | hm
    · rcases collapse_nodes (foldOperands_nodes next t) m hm with hold | hnew
      · exact Or.inl (Or.inl hold)
      · exact Or.inr hnew
    · rcases foldAll_nodes (next + (t.fold next).count) ts m hm with hold | hnew
      · exact Or.inl (Or.inr hold)
      · exact Or.inr (Nat.le_trans (Nat.le_add_right _ _) hnew)

end

end Tree

end StackTree
