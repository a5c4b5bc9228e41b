import StackTree.Proofs.Folding.Arithmetic
import StackTree.Proofs.Folding.OnTrees
import StackTree.Proofs.Nesting.Flat

/-!
# Folding as a reduction

Folding is a sequence of small steps: somewhere in the trees an operator over constants gives way to
the constant that it computes. Whatever each step keeps, wherever in the trees it happens, a whole
fold keeps (`KeptByFolds.foldAll`). Every step takes away one operator and as many constants as it
has operands, and adds one constant; nothing else comes or goes.

Folding goes from the operands up, so when it looks at a node, nothing below computes a value any
more, and a constant that takes the place of the node computes none either. One pass is therefore
enough (`reduced_foldAll`), and a second one finds nothing to do (`foldAll_of_reduced`).

## Main definitions

* `Kind.foldable`: the kinds that folding makes and removes.
* `Tree.Reduced`: no node computes a value.
* `Tree.KeptByFolds`: what a step keeps, wherever it happens.
* `Tree.Reduces`: what comes and what goes.

## Main results

* `reduced_foldAll`, `foldAll_of_reduced`: one pass is enough.
* `reduces_foldAll`: folding reduces trees.
* `BinaryOp.apply?_eq_none_iff`: the operators that stay are the divisions that trap.
-/

namespace StackTree

/-! ## Kinds -/

namespace Kind

/-- An operator on one operand. -/
def isUnary : Kind → Bool
  | unary _ => true
  | _ => false

/-- An operator on two operands. -/
def isBinary : Kind → Bool
  | binary _ => true
  | _ => false

/-- What folding makes or removes. -/
def foldable : Kind → Bool
  | const _ | unary _ | binary _ => true
  | _ => false

end Kind

/-- An operator that computes nothing is a division that traps. -/
theorem BinaryOp.apply?_eq_none_iff {op : BinaryOp} {left right : Int32} :
    op.apply? left right = none ↔ (op = .div ∨ op = .rem) ∧ Traps left right := by
  rw [← divisionFaults_iff]
  unfold BinaryOp.apply?
  cases op <;> simp

namespace Tree

theorem sizes_append (ts us : List Tree) : sizes (ts ++ us) = sizes ts + sizes us := by
  rw [← length_forestNodes, forestNodes_append, List.length_append, length_forestNodes,
    length_forestNodes]

/-! ## One pass is enough -/

/-- No node computes a value. -/
def Reduced (ts : List Tree) : Prop := ∀ u ∈ subtreesAll ts, computed? u.kind u.children = none

theorem reduced_nil : Reduced [] := fun _ hu => by cases hu

theorem Reduced.append {ts us : List Tree} (h : Reduced ts) (h' : Reduced us) :
    Reduced (ts ++ us) := by
  intro u hu
  rw [subtreesAll_append] at hu
  rcases List.mem_append.mp hu with hu | hu
  · exact h u hu
  · exact h' u hu

theorem reduced_node {id : NodeId} {kind : Kind} {e : Effects} {cs : List Tree} :
    Reduced [node id kind e cs] ↔ Reduced cs ∧ computed? kind cs = none := by
  rw [Reduced, subtreesAll_singleton, subtrees]
  constructor
  · intro h
    exact ⟨fun u hu => h u (List.mem_append_left _ hu),
      h _ (List.mem_append_right _ (List.mem_singleton_self _))⟩
  · rintro ⟨hbelow, hself⟩ u hu
    rcases List.mem_append.mp hu with hu | hu
    · exact hbelow u hu
    · rw [List.mem_singleton.mp hu]
      exact hself

theorem Reduced.of_cons {t : Tree} {ts : List Tree} (h : Reduced (t :: ts)) :
    Reduced [t] ∧ Reduced ts := by
  constructor
  · intro u hu
    rw [subtreesAll_singleton] at hu
    exact h u (List.mem_append_left _ hu)
  · exact fun u hu => h u (List.mem_append_right _ hu)

/-- A node over reduced operands is reduced once it collapses. -/
theorem reduced_collapse {id : NodeId} {kind : Kind} {cs : List Tree} {count : Nat}
    (h : Reduced cs) (next : Nat) :
    Reduced [(collapse next ⟨atop id kind cs, count⟩).result] := by
  rcases collapse_cases next ⟨atop id kind cs, count⟩ with ⟨hnone, heq⟩ | ⟨value, -, heq⟩
  · rw [heq]
    exact reduced_node.mpr ⟨h, hnone⟩
  · rw [heq]
    exact reduced_node.mpr ⟨reduced_nil, rfl⟩

mutual

/-- A folded tree is reduced. -/
theorem reduced_fold : (next : Nat) → (t : Tree) → Reduced [(t.fold next).result]
  | next, node id kind e cs => by
    unfold fold
    rw [foldOperands_node]
    exact reduced_collapse (reduced_foldAll next cs) next

theorem reduced_foldAll : (next : Nat) → (ts : List Tree) → Reduced (foldAll next ts).result
  | _, [] => by
    rw [foldAll_nil]
    exact reduced_nil
  | next, t :: ts => by
    rw [foldAll_cons]
    exact (reduced_fold next t).append (reduced_foldAll _ ts)

end

mutual

/-- A reduced tree stays as it is. -/
theorem fold_of_reduced : (next : Nat) → (t : Tree) → t.Sound → Reduced [t] →
    t.fold next = ⟨t, 0⟩
  | next, node id kind e cs, h, hreduced => by
    obtain ⟨hbelow, hself⟩ := reduced_node.mp hreduced
    have heq : atop id kind cs = node id kind e cs := h.eq_atop.symm
    unfold fold
    rw [foldOperands_node, foldAll_of_reduced next cs h.2.2 hbelow, heq]
    rcases collapse_cases next ⟨node id kind e cs, 0⟩ with ⟨-, hkept⟩ | ⟨value, hvalue, -⟩
    · exact hkept
    · cases hself.symm.trans hvalue

theorem foldAll_of_reduced : (next : Nat) → (ts : List Tree) → SoundAll ts → Reduced ts →
    foldAll next ts = ⟨ts, 0⟩
  | _, [], _, _ => foldAll_nil _
  | next, t :: ts, h, hreduced => by
    obtain ⟨hfirst, hrest⟩ := hreduced.of_cons
    rw [foldAll_cons, fold_of_reduced next t h.1 hfirst, foldAll_of_reduced _ ts h.2 hrest]
    rfl

end

/-! ## What every step keeps -/

/-- Trees before and after so many steps are related, wherever the steps happen; the constants that
are made get names from `next` on. -/
structure KeptByFolds (next : Nat) (R : Nat → List Tree → List Tree → Prop) : Prop where
  nil : R 0 [] []
  trans : ∀ {a b ts us vs}, R a ts us → R b us vs → R (a + b) ts vs
  append : ∀ {a b ts ts' us us'}, R a ts ts' → R b us us' → R (a + b) (ts ++ us) (ts' ++ us')
  below : ∀ {a ts us} (id kind e), us.length = ts.length → R a ts us →
    R a [node id kind e ts] [atop id kind us]
  step : ∀ {t value id}, t.Sound → computed? t.kind t.children = some value → next ≤ id.index →
    R 1 [t] [atop id (.const value) []]

namespace KeptByFolds

variable {next : Nat} {R : Nat → List Tree → List Tree → Prop}

theorem collapse (hR : KeptByFolds next R) {t : Tree} {f : Folding Tree} (hf : f.result.Sound)
    (h : R f.count [t] [f.result]) {m : Nat} (hm : next ≤ m) :
    R (Tree.collapse m f).count [t] [(Tree.collapse m f).result] := by
  rcases collapse_cases m f with ⟨-, heq⟩ | ⟨value, hvalue, heq⟩
  · rw [heq]
    exact h
  · rw [heq]
    exact hR.trans h (hR.step hf hvalue (Nat.le_trans hm (Nat.le_add_right m f.count)))

mutual

/-- What every step keeps, folding a tree keeps. -/
theorem fold (hR : KeptByFolds next R) : (m : Nat) → next ≤ m → (t : Tree) → t.Sound →
    R (t.fold m).count [t] [(t.fold m).result]
  | m, hm, node id kind e cs, h => by
    have hlength := (SoundAll.foldAll m cs h.2.2).1
    have hoperands := hR.below id kind e hlength (KeptByFolds.foldAll hR m hm cs h.2.2)
    have hsound := h.foldOperands m
    unfold Tree.fold
    rw [foldOperands_node] at hsound ⊢
    exact hR.collapse hsound hoperands hm

/-- What every step keeps, folding trees keeps. -/
theorem foldAll (hR : KeptByFolds next R) : (m : Nat) → next ≤ m → (ts : List Tree) → SoundAll ts →
    R (foldAll m ts).count ts (foldAll m ts).result
  | m, _, [], _ => by
    rw [foldAll_nil]
    exact hR.nil
  | m, hm, t :: ts, h => by
    have hlater : next ≤ m + (t.fold m).count := Nat.le_trans hm (Nat.le_add_right ..)
    rw [foldAll_cons]
    exact hR.append (KeptByFolds.fold hR m hm t h.1) (KeptByFolds.foldAll hR _ hlater ts h.2)

end

end KeptByFolds

/-! ## What comes and what goes -/

/-- In so many steps some operators gave way to constants, and with each went its operands. -/
structure Reduces (next : Nat) (count : Nat) (ts us : List Tree) : Prop where
  /-- Every node was there before, or it is a constant with a new name. -/
  origin : ∀ u ∈ subtreesAll us, (∃ t ∈ subtreesAll ts, t.label = u.label) ∨
    (next ≤ u.id.index ∧ ∃ value, u.kind = .const value)
  /-- Nodes of other kinds are the same, evaluated in the same order. -/
  lasting_eq : labelsOf (!·.foldable) us = labelsOf (!·.foldable) ts
  /-- Each step takes one operator, and the count of nodes goes down by its operands less one. -/
  counts : ∃ unaries binaries, unaries + binaries = count ∧
    (labelsOf Kind.isUnary us).length + unaries = (labelsOf Kind.isUnary ts).length ∧
    (labelsOf Kind.isBinary us).length + binaries = (labelsOf Kind.isBinary ts).length ∧
    sizes us + unaries + 2 * binaries = sizes ts

namespace Reduces

variable {next a b : Nat} {ts ts' us us' vs : List Tree}

theorem trans (h : Reduces next a ts us) (h' : Reduces next b us vs) :
    Reduces next (a + b) ts vs where
  origin := by
    intro v hv
    rcases h'.origin v hv with ⟨u, hu, hlabel⟩ | hnew
    · rcases h.origin u hu with ⟨t, ht, hold⟩ | ⟨hindex, value, hvalue⟩
      · exact Or.inl ⟨t, ht, hold.trans hlabel⟩
      · right
        have hid : u.id = v.id := congrArg Prod.fst hlabel
        have hkind : u.kind = v.kind := congrArg (·.2.1) hlabel
        exact ⟨hid ▸ hindex, value, hkind ▸ hvalue⟩
    · exact Or.inr hnew
  lasting_eq := h'.lasting_eq.trans h.lasting_eq
  counts := by
    obtain ⟨x, y, hcount, hunary, hbinary, hsize⟩ := h.counts
    obtain ⟨x', y', hcount', hunary', hbinary', hsize'⟩ := h'.counts
    exact ⟨x + x', y + y', by omega, by omega, by omega, by omega⟩

theorem append (h : Reduces next a ts ts') (h' : Reduces next b us us') :
    Reduces next (a + b) (ts ++ us) (ts' ++ us') where
  origin := by
    intro u hu
    rw [subtreesAll_append] at hu ⊢
    rcases List.mem_append.mp hu with hu | hu
    · exact (h.origin u hu).imp_left fun ⟨t, ht, hlabel⟩ => ⟨t, List.mem_append_left _ ht, hlabel⟩
    · exact (h'.origin u hu).imp_left fun ⟨t, ht, hlabel⟩ => ⟨t, List.mem_append_right _ ht, hlabel⟩
  lasting_eq := by rw [labelsOf_append, labelsOf_append, h.lasting_eq, h'.lasting_eq]
  counts := by
    obtain ⟨x, y, hcount, hunary, hbinary, hsize⟩ := h.counts
    obtain ⟨x', y', hcount', hunary', hbinary', hsize'⟩ := h'.counts
    refine ⟨x + x', y + y', by omega, ?_, ?_, ?_⟩
    · simp only [labelsOf_append, List.length_append]
      omega
    · simp only [labelsOf_append, List.length_append]
      omega
    · simp only [sizes_append]
      omega

/-- Steps below a node leave the node as it is. -/
theorem below (h : Reduces next a ts us) (id : NodeId) (kind : Kind) (e : Effects)
    (hlength : us.length = ts.length) :
    Reduces next a [node id kind e ts] [atop id kind us] where
  origin := by
    intro u hu
    rw [subtreesAll_singleton, atop, subtrees] at hu
    rw [subtreesAll_singleton, subtrees]
    rcases List.mem_append.mp hu with hu | hu
    · exact (h.origin u hu).imp_left fun ⟨t, ht, hlabel⟩ => ⟨t, List.mem_append_left _ ht, hlabel⟩
    · left
      refine ⟨_, List.mem_append_right _ (List.mem_singleton_self _), ?_⟩
      rw [List.mem_singleton.mp hu, label, label, children, children, hlength]
      rfl
  lasting_eq := by rw [atop, labelsOf_node, labelsOf_node, h.lasting_eq, hlength]
  counts := by
    obtain ⟨x, y, hcount, hunary, hbinary, hsize⟩ := h.counts
    refine ⟨x, y, hcount, ?_, ?_, ?_⟩
    · rw [atop, labelsOf_node, labelsOf_node, hlength, List.length_append, List.length_append]
      omega
    · rw [atop, labelsOf_node, labelsOf_node, hlength, List.length_append, List.length_append]
      omega
    · simp only [atop, sizes, size]
      omega

/-- One step: with a unary operator goes one constant, with a binary one go two. -/
theorem step {t : Tree} {value : Int32} {id : NodeId} (ht : t.Sound)
    (hvalue : computed? t.kind t.children = some value) (hnew : next ≤ id.index) :
    Reduces next 1 [t] [atop id (.const value) []] := by
  have horigin : ∀ u ∈ subtreesAll [atop id (.const value) []],
      (∃ v ∈ subtreesAll [t], v.label = u.label) ∨
        (next ≤ u.id.index ∧ ∃ value, u.kind = .const value) := by
    intro u hu
    obtain rfl : u = atop id (.const value) [] := List.mem_singleton.mp hu
    exact Or.inr ⟨hnew, value, rfl⟩
  rcases ht.computed?_cases hvalue with ⟨op, c, v, hkind, hchildren, -⟩ |
    ⟨op, c, d, x, y, hkind, hchildren, -⟩
  · obtain ⟨_, kind, e, cs⟩ := t
    obtain rfl : kind = .unary op := hkind
    obtain rfl : cs = [_] := hchildren
    exact ⟨horigin, rfl, 1, 0, rfl, rfl, rfl, rfl⟩
  · obtain ⟨_, kind, e, cs⟩ := t
    obtain rfl : kind = .binary op := hkind
    obtain rfl : cs = [_, _] := hchildren
    exact ⟨horigin, rfl, 0, 1, rfl, rfl, rfl, rfl⟩

end Reduces

theorem keptByFolds_reduces (next : Nat) : KeptByFolds next (Reduces next) where
  nil := ⟨nofun, rfl, 0, 0, rfl, rfl, rfl, rfl⟩
  trans := Reduces.trans
  append := Reduces.append
  below := fun id kind e hlength h => h.below id kind e hlength
  step := Reduces.step

/-- Folding reduces trees, by as many steps as it counts. -/
theorem reduces_foldAll {ts : List Tree} (h : SoundAll ts) (next : Nat) :
    Reduces next (foldAll next ts).count ts (foldAll next ts).result :=
  (keptByFolds_reduces next).foldAll next (Nat.le_refl next) ts h

/-- In reduced trees no operator computes a value: not a unary one over a constant, and a binary one
over two constants only where it would trap. -/
theorem Reduced.operators {ts : List Tree} (h : Reduced ts) (hts : ∀ u ∈ subtreesAll ts, u.Sound) :
    (∀ u ∈ subtreesAll ts, ∀ op, u.kind = .unary op → ∀ c ∈ u.children, ∀ v, c.kind ≠ .const v) ∧
    ∀ u ∈ subtreesAll ts, ∀ op x y, u.kind = .binary op →
      u.children.map Tree.kind = [.const x, .const y] → (op = .div ∨ op = .rem) ∧ Traps x y := by
  constructor
  · intro u hu op hkind c hc v hconst
    have harity := (hts u hu).arity
    have hnone := h u hu
    rw [hkind] at harity hnone
    obtain ⟨d, hchildren⟩ := List.length_eq_one_iff.mp (eq_of_beq harity)
    rw [hchildren] at hc hnone
    obtain rfl := List.mem_singleton.mp hc
    simp [computed?, constant?, hconst] at hnone
  · intro u hu op x y hkind hconst
    have hnone := h u hu
    rw [hkind] at hnone
    obtain ⟨a, rest, hchildren, ha, hrest⟩ := List.map_eq_cons_iff.mp hconst
    obtain ⟨b, more, rfl, hb, hnil⟩ := List.map_eq_cons_iff.mp hrest
    obtain rfl := List.map_eq_nil_iff.mp hnil
    rw [hchildren] at hnone
    apply BinaryOp.apply?_eq_none_iff.mp
    simpa [computed?, constant?, ha, hb] using hnone

end Tree

end StackTree
