import StackTree.Routine.Tree

/-!
# Routines as forests

The statements about routines are made through relations between a routine and what it holds: which
tree lies under a node, which nodes lie under another, what it means that the nodes own their
operands and that the stored effects are right. None of them goes through the bounded walks of the
operations.

## Main definitions

* `Routine.Shows`: the tree under a node.
* `Routine.Under`: one node lies under another.
* `Routine.Owned`: the nodes of a routine form a forest, and its links and its count are right.
* `Routine.Coherent`: the stored effects are those of the whole tree.

## Main results

* `Routine.Shows.unique`: there is one tree under a node.
* `Routine.shows_of_tree`: what is read out is the tree under the node.
-/

namespace StackTree

/-! ## The tree under a node -/

mutual

/-- The tree under a node. -/
inductive Routine.Shows (r : Routine) : NodeId → Tree → Prop where
  | node {n : NodeId} {node : Node} {trees : List Tree} (at_n : r.get? n = some node)
      (below : Routine.ShowsAll r node.children trees) :
      Routine.Shows r n (.node n node.kind node.effects trees)

/-- The trees under several nodes. -/
inductive Routine.ShowsAll (r : Routine) : List NodeId → List Tree → Prop where
  | nil : Routine.ShowsAll r [] []
  | cons {n : NodeId} {tree : Tree} {ns : List NodeId} {trees : List Tree}
      (head : Routine.Shows r n tree) (tail : Routine.ShowsAll r ns trees) :
      Routine.ShowsAll r (n :: ns) (tree :: trees)

end

namespace Routine

mutual

/-- There is one tree under a node. -/
theorem Shows.unique {r : Routine} {n : NodeId} {s t : Tree} (hs : r.Shows n s)
    (ht : r.Shows n t) : s = t := by
  cases hs with
  | node at_s below_s =>
    cases ht with
    | node at_t below_t =>
      obtain rfl := Option.some.inj (at_s.symm.trans at_t)
      rw [ShowsAll.unique below_s below_t]

theorem ShowsAll.unique {r : Routine} {ns : List NodeId} {ss ts : List Tree}
    (hs : r.ShowsAll ns ss) (ht : r.ShowsAll ns ts) : ss = ts := by
  cases hs with
  | nil =>
    cases ht
    rfl
  | cons head_s tail_s =>
    cases ht with
    | cons head_t tail_t => rw [Shows.unique head_s head_t, ShowsAll.unique tail_s tail_t]

end

theorem showsAll_of_mapM {r : Routine} {read : NodeId → Except Fault Tree}
    (hread : ∀ n t, read n = .ok t → r.Shows n t) (ns : List NodeId) (ts : List Tree)
    (h : ns.mapM read = .ok ts) : r.ShowsAll ns ts := by
  induction ns generalizing ts with
  | nil =>
    simp only [List.mapM_nil, pure, Except.pure, Except.ok.injEq] at h
    subst h
    exact .nil
  | cons n ns ih =>
    rw [List.mapM_cons] at h
    cases hn : read n with
    | error f => simp [hn, bind, Except.bind] at h
    | ok t =>
      cases hns : ns.mapM read with
      | error f => simp [hn, hns, bind, Except.bind] at h
      | ok us =>
        simp only [hn, hns, bind, Except.bind, pure, Except.pure, Except.ok.injEq] at h
        subst h
        exact .cons (hread n t hn) (ih us hns)

theorem shows_of_treeWithin {r : Routine} (bound : Nat) (n : NodeId) (t : Tree)
    (h : r.treeWithin bound n = .ok t) : r.Shows n t := by
  induction bound generalizing n t with
  | zero => simp [treeWithin] at h
  | succ bound ih =>
    simp only [treeWithin, node] at h
    cases hn : r.get? n with
    | none => simp [hn, bind, Except.bind] at h
    | some node =>
      cases hc : node.children.mapM (r.treeWithin bound) with
      | error f => simp [hn, hc, bind, Except.bind] at h
      | ok ts =>
        simp only [hn, hc, bind, Except.bind, pure, Except.pure, Except.ok.injEq] at h
        subst h
        exact .node hn (showsAll_of_mapM ih _ _ hc)

/-- What is read out is the tree under the node. -/
theorem shows_of_tree {r : Routine} {n : NodeId} {t : Tree} (h : r.tree n = .ok t) :
    r.Shows n t :=
  shows_of_treeWithin _ _ _ h

/-! ## Ownership -/

/-- The node sits in a slot of the other. -/
def HasChild (r : Routine) (parent : NodeId) (slot : Nat) (child : NodeId) : Prop :=
  ∃ node, r.get? parent = some node ∧ node.children[slot]? = some child

/-- The node is linked to a slot of the other. -/
def LinksTo (r : Routine) (child : NodeId) (link : Link) : Prop :=
  ∃ node, r.get? child = some node ∧ node.parent = some link

/-- The node `m` is the node `n` or lies under it. -/
inductive Under (r : Routine) (n : NodeId) : NodeId → Prop where
  | self : Under r n n
  | child {m c : NodeId} {slot : Nat} (above : Under r n m) (sits : r.HasChild m slot c) :
      Under r n c

/-- Going up so many links from the node leads to a node that hangs nowhere. -/
inductive RootWithin (r : Routine) : Nat → NodeId → Prop where
  | root {steps : Nat} {n : NodeId} {node : Node} (at_n : r.get? n = some node)
      (free : node.parent = none) : RootWithin r steps n
  | up {steps : Nat} {n : NodeId} {link : Link} (linked : r.LinksTo n link)
      (above : RootWithin r steps link.parent) : RootWithin r (steps + 1) n

/-- How many nodes were not released. -/
def liveNodes (r : Routine) : Nat := r.nodes.toList.countP Option.isSome

/-- The nodes of a routine form a forest, and its links and its count are right. -/
structure Owned (r : Routine) : Prop where
  /-- Every operand exists. -/
  children_live : ∀ p slot c, r.HasChild p slot c → r.isLive c = true
  /-- A node sits in a slot exactly when it is linked to that slot. -/
  hasChild_iff_linksTo : ∀ p slot c, r.isLive c = true →
    (r.HasChild p slot c ↔ r.LinksTo c ⟨p, slot⟩)
  /-- Every node has as many operands as its kind takes. -/
  arity : ∀ n node, r.get? n = some node → node.kind.accepts node.children.length = true
  /-- Every node is fewer steps below a free one than there are nodes. -/
  rooted : ∀ n, r.isLive n = true → ∃ steps, steps < r.live ∧ r.RootWithin steps n
  /-- The count of nodes is right. -/
  live_eq : r.live = r.liveNodes

/-! ## Effects -/

end Routine

namespace Tree

mutual

/-- The union of the effects that the kinds of all nodes of the tree add. -/
def ownEffects : Tree → Effects
  | node _ kind _ children => kind.intrinsic ∪ ownEffectsAll children

/-- The union of the effects that the kinds of all nodes of the trees add. -/
def ownEffectsAll : List Tree → Effects
  | [] => ∅
  | tree :: rest => tree.ownEffects ∪ ownEffectsAll rest

end

mutual

/-- How many nodes of the tree are pops. -/
def popCount : Tree → Nat
  | node _ kind _ children => (if kind = .pop then 1 else 0) + popCounts children

/-- How many nodes of the trees are pops. -/
def popCounts : List Tree → Nat
  | [] => 0
  | tree :: rest => tree.popCount + popCounts rest

end

end Tree

namespace Routine

/-- The stored effects of every node are those of its whole tree. -/
def Coherent (r : Routine) : Prop := ∀ n t, r.Shows n t → t.effects = t.ownEffects

end Routine

end StackTree
