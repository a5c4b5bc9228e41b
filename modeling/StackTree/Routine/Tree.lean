import StackTree.Routine.Basic

/-!
# Trees

A `Tree` is everything under a node read out as a value. What only looks at a whole tree (its size,
its trace, its text) is a function on `Tree`, so it recurses on the data and cannot fail.

## Main definitions

* `Routine.tree`: the tree under a node.
* `Tree.size`, `Tree.nodes`: how many nodes it has, and which, in the order of evaluation.
* `Tree.trace`: a line for each node, a node before its operands.

## Main results

* `Tree.length_nodes`: each node is evaluated once.
-/

namespace StackTree

/-- A node with everything under it. -/
inductive Tree where
  | node (id : NodeId) (kind : Kind) (effects : Effects) (children : List Tree)
deriving Repr, Inhabited

namespace Tree

/-- The name of the topmost node. -/
def id : Tree → NodeId
  | node id _ _ _ => id

/-- What the topmost node does. -/
def kind : Tree → Kind
  | node _ kind _ _ => kind

/-- The stored effects of the topmost node. -/
def effects : Tree → Effects
  | node _ _ effects _ => effects

/-- The trees of the operands, in the order of evaluation. -/
def children : Tree → List Tree
  | node _ _ _ children => children

/-! ## Size and order of evaluation -/

mutual

/-- How many nodes the tree has. -/
def size : Tree → Nat
  | node _ _ _ children => 1 + sizes children

/-- How many nodes the trees have together. -/
def sizes : List Tree → Nat
  | [] => 0
  | tree :: rest => tree.size + sizes rest

end

mutual

/-- The nodes in the order of evaluation: the operands first to last, then the node. -/
def nodes : Tree → List NodeId
  | node id _ _ children => forestNodes children ++ [id]

/-- The nodes of several trees, one tree after the other. -/
def forestNodes : List Tree → List NodeId
  | [] => []
  | tree :: rest => tree.nodes ++ forestNodes rest

end

mutual

/-- Each node is evaluated once. -/
theorem length_nodes : (tree : Tree) → tree.nodes.length = tree.size
  | node _ _ _ children => by
    simp only [nodes, size, List.length_append, List.length_singleton, length_forestNodes children]
    omega

theorem length_forestNodes : (trees : List Tree) → (forestNodes trees).length = sizes trees
  | [] => rfl
  | tree :: rest => by
    simp only [forestNodes, sizes, List.length_append, length_nodes tree, length_forestNodes rest]

end

/-! ## Traces -/

/-- The names of some nodes, separated by blanks. -/
def namesOf (trees : List Tree) : String := " ".intercalate (trees.map (·.id.text))

/-- What a trace says of a single node, given its operands. -/
def describe (id : NodeId) (kind : Kind) (children : List Tree) : String :=
  match kind with
  | .const value => "ldc_i4 " ++ id.text ++ " " ++ toString value.toInt
  | .load slot => "ld_loc " ++ id.text ++ " " ++ Kind.localName slot
  | .pop => "pop " ++ id.text
  | .peek => "peek " ++ id.text
  | .unary op => "unary " ++ id.text ++ " " ++ op.name ++ " " ++ namesOf children
  | .binary op => "binary " ++ id.text ++ " " ++ op.name ++ " " ++ namesOf children
  | .store slot =>
    "st_loc " ++ id.text ++ " " ++ Kind.localName slot ++ " " ++ namesOf children
  | .call method returnsValue =>
    "call " ++ id.text ++ " " ++ method ++ " [" ++ namesOf children ++ "] "
      ++ toString returnsValue
  | .ret =>
    "ret " ++ id.text ++ " " ++ if children.isEmpty then "none" else namesOf children

mutual

/-- A line for each node, a node before its operands and the operands first to last. -/
def trace : Tree → List String
  | node id kind _ children => describe id kind children :: traces children

/-- The lines of several trees, one tree after the other. -/
def traces : List Tree → List String
  | [] => []
  | tree :: rest => tree.trace ++ traces rest

end

end Tree

/-! ## Reading a tree out of a routine -/

namespace Routine

/-- The tree under a node, going at most so many nodes deep. -/
def treeWithin (r : Routine) : Nat → NodeId → Except Fault Tree
  | 0, _ => .error endlessPath
  | bound + 1, n => do
    let node ← r.node n
    let children ← node.children.mapM (r.treeWithin bound)
    return .node n node.kind node.effects children

/-- The tree under a node. -/
def tree (r : Routine) (n : NodeId) : Except Fault Tree := r.treeWithin r.pathBound n

/-- How many nodes the tree of each operand has. -/
def childSizes (r : Routine) (n : NodeId) : Except Fault (List Nat) := do
  return (← r.tree n).children.map Tree.size

end Routine

end StackTree
