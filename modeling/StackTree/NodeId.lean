/-!
# Names of nodes and places

A `NodeId` names a node of a routine for good: it is the number of nodes allocated before it, and it
is never used again once the node is released. A `Link` is a place under a node.
-/

namespace StackTree

/-- The name of a node: how many nodes were allocated before it. -/
structure NodeId where
  /-- Position in the order of allocation. -/
  index : Nat
deriving DecidableEq, Repr, Inhabited

namespace NodeId

/-- The written form: the index after a number sign. -/
def text (n : NodeId) : String := "#" ++ toString n.index

@[ext] theorem ext {m n : NodeId} (h : m.index = n.index) : m = n := by
  cases m
  cases n
  simp_all

end NodeId

/-- A place where a node can hang: a slot of another node. -/
structure Link where
  /-- The node above. -/
  parent : NodeId
  /-- Which operand of the node above, counted from zero. -/
  slot : Nat
deriving DecidableEq, Repr, Inhabited

end StackTree
