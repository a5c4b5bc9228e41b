import StackTree.Routine.Text
import StackTree.Term
import StackTree.Proofs.Ownership.Trees

/-!
# What rendering writes

Writing the text of a node hands the sink the pieces of its term, one after the other in a fixed
order, whatever the sink does with them. A term says nothing about where a tree is stored, so
neither does the text. In memory nothing is refused, and the text is all the pieces joined.

## Main definitions

* `Term.pieces`, `Term.text`: the pieces in order, and all of them joined.

## Main results

* `Routine.Structured.renderTo_eq`: writing a text is writing its pieces.
* `Routine.Structured.render_eq`: the text in memory.
-/

namespace StackTree

namespace Term

mutual

/-- The pieces of the text, in the order in which they are written. -/
def pieces : Term → List String
  | node kind operands =>
    kind.heading ++ if kind.encloses operands.length then "(" :: separated operands ++ [")"] else []

/-- The pieces of operands with commas between them. -/
def separated : List Term → List String
  | [] => []
  | term :: rest => term.pieces ++ continued rest

/-- The pieces of further operands, each after a comma. -/
def continued : List Term → List String
  | [] => []
  | term :: rest => ", " :: term.pieces ++ continued rest

end

/-- The text of the term. -/
def text (term : Term) : String := String.join term.pieces

end Term

namespace Routine

open StackTree.Tree (terms length_terms)

variable {r : Routine}

section Writing

variable {σ : Type} (put : String → EStateM Fault σ Unit)

/-- Further operands are written piece by piece if each of them is. -/
theorem forM_continued {putNode : NodeId → EStateM Fault σ Unit} {ns : List NodeId}
    {ts : List Tree} (h : r.ShowsAll ns ts)
    (hput : ∀ t ∈ ts, ∀ n, r.Shows n t → putNode n = forM t.term.pieces put) :
    (forM ns fun m => do put ", "; putNode m) = forM (Term.continued (terms ts)) put := by
  induction ns generalizing ts with
  | nil =>
    cases h
    rfl
  | cons n ns ih =>
    cases h with
    | @cons _ t _ ts head tail =>
      have hn := hput t (List.mem_cons_self ..) n head
      have hns := ih tail fun u hu => hput u (List.mem_cons_of_mem t hu)
      simp [terms, Term.continued, hn, hns]

theorem putOperands_eq {putNode : NodeId → EStateM Fault σ Unit} {ns : List NodeId}
    {ts : List Tree} (h : r.ShowsAll ns ts)
    (hput : ∀ t ∈ ts, ∀ n, r.Shows n t → putNode n = forM t.term.pieces put) :
    putOperands put putNode ns = forM (Term.separated (terms ts)) put := by
  cases h with
  | nil => rfl
  | @cons n t ns ts head tail =>
    have hn := hput t (List.mem_cons_self ..) n head
    have hns := forM_continued put tail fun u hu => hput u (List.mem_cons_of_mem t hu)
    rw [putOperands, terms, Term.separated, List.forM_append, hn, hns]

/-- A walk that may go as deep as the tree has nodes writes its pieces. -/
theorem Shows.renderWithin_eq {bound : Nat} {n : NodeId} {t : Tree} (h : r.Shows n t)
    (hb : t.size ≤ bound) : r.renderWithin put bound n = forM t.term.pieces put := by
  induction bound generalizing n t with
  | zero =>
    have := t.size_pos
    omega
  | succ bound ih =>
    cases h with
    | @node _ node ts at_n below =>
      have hoperands : putOperands put (r.renderWithin put bound) node.children =
          forM (Term.separated (terms ts)) put := by
        refine putOperands_eq put below fun t ht n hshows => ih hshows ?_
        have := Tree.size_le_sizes ht
        simp only [Tree.size] at hb
        omega
      rw [renderWithin, node_of_get? at_n]
      simp only [hoperands, below.length_eq, Tree.term, Term.pieces, length_terms]
      split
      · simp
      · simp

/-- Writing a text is writing its pieces. -/
theorem Structured.renderTo_eq (h : r.Structured) {n : NodeId} {t : Tree} (ht : r.Shows n t) :
    r.renderTo put n = forM t.term.pieces put :=
  ht.renderWithin_eq put (Nat.le_of_lt (h.size_lt_pathBound ht))

end Writing

theorem forM_putText (pieces : List String) (text : String) :
    forM pieces putText text = .ok () (text ++ String.join pieces) := by
  induction pieces generalizing text with
  | nil => simp
  | cons piece rest ih =>
    rw [String.join_cons, ← String.append_assoc]
    exact ih (text ++ piece)

/-- The text in memory is all the pieces joined. -/
theorem Structured.render_eq (h : r.Structured) {n : NodeId} {t : Tree} (ht : r.Shows n t) :
    r.render n = .ok t.term.text := by
  rw [render, h.renderTo_eq putText ht, forM_putText, String.empty_append]
  rfl

end Routine

end StackTree
