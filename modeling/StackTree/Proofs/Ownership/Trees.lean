import StackTree.Proofs.Ownership.Sound

/-!
# The trees of a sound routine

Under every live node of a sound routine lies a tree (`Structured.exists_shows`). Its nodes are
those under the topmost one, none of them occurs twice, and together they are no more than the
routine has; so every walk that is allowed `Routine.pathBound` steps deep reaches the leaves.

The stored effects of a sound routine follow from the rest. A routine is therefore compared with
another through `Routine.bare`, the view without stored effects, and trees through `Routine.shape`,
which leaves out the links as well: where two sound routines agree on the shape of a tree's nodes,
they hold the same tree (`Sound.shows_of_shape`).

## Main definitions

* `Tree.subtrees`: the trees under all nodes of a tree, in the order of evaluation.
* `Tree.effectsAll`, `Tree.atop`: a tree with the effects that its operands give it.
* `Routine.Acyclic`, `Routine.Unshared`: nothing lies under its own operand, nothing sits in two slots.
* `Routine.bare`, `Routine.Alike`: the view without stored effects.
* `Routine.shape`: what decides which tree lies under a node.
* `Routine.Supplies`: trees that hang nowhere, such as those of a working stack.

## Main results

* `Structured.exists_shows`, `Structured.tree_eq`: the tree under a node exists and is read out.
* `Shows.mem_nodes_iff`: the nodes of a tree are those under its topmost one.
* `Unshared.nodes_nodup`, `Unshared.forestNodes_nodup`: no node occurs twice where none sits in two
  slots and none lies under its own operand, as in a structured routine.
* `Sound.shows_of_shape`, `Sound.eq_of_shape`: the shapes determine the trees and the routine.
-/

namespace StackTree

namespace Tree

/-- The union of the stored effects of trees. -/
def effectsAll : List Tree → Effects
  | [] => ∅
  | tree :: rest => tree.effects ∪ effectsAll rest

/-- A tree over operands, with the effects that its kind and its operands give it. -/
def atop (id : NodeId) (kind : Kind) (children : List Tree) : Tree :=
  node id kind (kind.intrinsic ∪ effectsAll children) children

@[simp] theorem id_atop (id : NodeId) (kind : Kind) (children : List Tree) :
    (atop id kind children).id = id := rfl

@[simp] theorem kind_atop (id : NodeId) (kind : Kind) (children : List Tree) :
    (atop id kind children).kind = kind := rfl

@[simp] theorem effects_atop (id : NodeId) (kind : Kind) (children : List Tree) :
    (atop id kind children).effects = kind.intrinsic ∪ effectsAll children := rfl

@[simp] theorem children_atop (id : NodeId) (kind : Kind) (children : List Tree) :
    (atop id kind children).children = children := rfl

theorem effectsAll_append (ts us : List Tree) :
    effectsAll (ts ++ us) = effectsAll ts ∪ effectsAll us := by
  induction ts with
  | nil => simp [effectsAll]
  | cons t ts ih => simp [effectsAll, ih, Effects.union_assoc]

theorem id_mem_nodes (t : Tree) : t.id ∈ t.nodes := by
  cases t
  simp [id, nodes]

theorem nodes_of_leaf {t : Tree} (h : t.children = []) : t.nodes = [t.id] := by
  obtain ⟨id, kind, effects, children⟩ := t
  obtain rfl : children = [] := h
  rfl

theorem forestNodes_append (ts us : List Tree) :
    forestNodes (ts ++ us) = forestNodes ts ++ forestNodes us := by
  induction ts with
  | nil => rfl
  | cons t ts ih => simp [forestNodes, ih]

theorem forestNodes_eq_flatten (ts : List Tree) : forestNodes ts = (ts.map nodes).flatten := by
  induction ts with
  | nil => rfl
  | cons t ts ih => simp [forestNodes, ih]

/-- The order of the trees does not decide which nodes there are. -/
theorem forestNodes_perm {ts us : List Tree} (h : ts.Perm us) :
    (forestNodes ts).Perm (forestNodes us) := by
  rw [forestNodes_eq_flatten, forestNodes_eq_flatten]
  exact (h.map nodes).flatten

theorem mem_forestNodes {m : NodeId} {ts : List Tree} :
    m ∈ forestNodes ts ↔ ∃ t ∈ ts, m ∈ t.nodes := by
  induction ts with
  | nil => simp [forestNodes]
  | cons t ts ih => simp [forestNodes, ih]

mutual

/-- The trees under all nodes, in the order of evaluation: the operands first to last, then the
node. -/
def subtrees : Tree → List Tree
  | node id kind effects children => subtreesAll children ++ [node id kind effects children]

/-- The trees under all nodes of several trees, one tree after the other. -/
def subtreesAll : List Tree → List Tree
  | [] => []
  | tree :: rest => tree.subtrees ++ subtreesAll rest

end

theorem subtreesAll_append (ts us : List Tree) :
    subtreesAll (ts ++ us) = subtreesAll ts ++ subtreesAll us := by
  induction ts with
  | nil => rfl
  | cons t ts ih => rw [List.cons_append, subtreesAll, subtreesAll, ih, List.append_assoc]

theorem subtreesAll_singleton (t : Tree) : subtreesAll [t] = t.subtrees := List.append_nil _

theorem forestNodes_singleton (t : Tree) : forestNodes [t] = t.nodes := List.append_nil _

mutual

theorem map_id_subtrees : (t : Tree) → t.subtrees.map Tree.id = t.nodes
  | node id kind e cs => by
    rw [subtrees, List.map_append, map_id_subtreesAll cs, nodes]
    rfl

theorem map_id_subtreesAll : (ts : List Tree) → (subtreesAll ts).map Tree.id = forestNodes ts
  | [] => rfl
  | t :: ts => by
    rw [subtreesAll, List.map_append, map_id_subtrees t, map_id_subtreesAll ts, forestNodes]

end

theorem mem_subtrees (t : Tree) : t ∈ t.subtrees := by
  cases t
  exact List.mem_append_right _ (List.mem_singleton_self _)

mutual

theorem subtrees_subset : (t : Tree) → ∀ u ∈ t.subtrees, u.subtrees ⊆ t.subtrees
  | node id kind e cs, u, hu => by
    rw [subtrees] at hu
    rcases List.mem_append.mp hu with hu | hu
    · exact List.subset_append_of_subset_left _ (subtreesAll_subset cs u hu)
    · rw [List.mem_singleton.mp hu]
      exact fun _ hm => hm

theorem subtreesAll_subset : (ts : List Tree) → ∀ u ∈ subtreesAll ts, u.subtrees ⊆ subtreesAll ts
  | [], u, hu => by cases hu
  | t :: ts, u, hu => by
    rcases List.mem_append.mp hu with hu | hu
    · exact List.subset_append_of_subset_left _ (subtrees_subset t u hu)
    · exact List.subset_append_of_subset_right _ (subtreesAll_subset ts u hu)

end

/-- The nodes of a part of a tree are nodes of the tree. -/
theorem nodes_subset_of_mem_subtrees {t u : Tree} (hu : u ∈ t.subtrees) : u.nodes ⊆ t.nodes := by
  rw [← map_id_subtrees, ← map_id_subtrees]
  exact List.map_subset _ (subtrees_subset t u hu)

theorem size_pos : (t : Tree) → 0 < t.size
  | node _ _ _ _ => by simp only [size]; omega

theorem size_le_sizes {t : Tree} {ts : List Tree} (h : t ∈ ts) : t.size ≤ sizes ts := by
  induction ts with
  | nil => cases h
  | cons u ts ih =>
    simp only [sizes]
    rcases List.mem_cons.mp h with rfl | h
    · omega
    · have := ih h
      omega

end Tree

namespace Routine

open StackTree.Tree (forestNodes effectsAll subtreesAll)

variable {r s : Routine}

/-! ## What lies under a node -/

theorem Shows.id_eq {n : NodeId} {t : Tree} (h : r.Shows n t) : t.id = n := by
  cases h
  rfl

theorem Shows.isLive {n : NodeId} {t : Tree} (h : r.Shows n t) : r.isLive n = true := by
  cases h with
  | node at_n _ => exact isLive_iff.mpr ⟨_, at_n⟩

theorem kind_of_shows {n : NodeId} {t : Tree} (h : r.Shows n t) : r.kind n = .ok t.kind := by
  cases h with
  | node at_n _ =>
    rw [Routine.kind, node_of_get? at_n]
    rfl

theorem effects_of_shows {n : NodeId} {t : Tree} (h : r.Shows n t) :
    r.effects n = .ok t.effects := by
  cases h with
  | node at_n _ => exact effects_of_get? at_n

theorem ShowsAll.map_id {ns : List NodeId} {ts : List Tree} (h : r.ShowsAll ns ts) :
    ts.map Tree.id = ns := by
  induction ns generalizing ts with
  | nil =>
    cases h
    rfl
  | cons n ns ih =>
    cases h with
    | cons head tail => simp [head.id_eq, ih tail]

theorem ShowsAll.length_eq {ns : List NodeId} {ts : List Tree} (h : r.ShowsAll ns ts) :
    ns.length = ts.length := by
  rw [← h.map_id, List.length_map]

theorem ShowsAll.shows {ns : List NodeId} {ts : List Tree} (h : r.ShowsAll ns ts) :
    ∀ t ∈ ts, r.Shows t.id t := by
  induction ns generalizing ts with
  | nil =>
    cases h
    simp
  | cons n ns ih =>
    cases h with
    | cons head tail =>
      intro t ht
      rcases List.mem_cons.mp ht with rfl | ht
      · rw [head.id_eq]
        exact head
      · exact ih tail t ht

theorem showsAll_of_shows {ts : List Tree} (h : ∀ t ∈ ts, r.Shows t.id t) :
    r.ShowsAll (ts.map Tree.id) ts := by
  induction ts with
  | nil => exact .nil
  | cons t ts ih =>
    exact .cons (h t (List.mem_cons_self ..)) (ih fun u hu => h u (List.mem_cons_of_mem t hu))

mutual

/-- The trees under the nodes of a tree are the ones that it shows there. -/
theorem Shows.of_mem_subtrees {n : NodeId} {t : Tree} (h : r.Shows n t) :
    ∀ u ∈ t.subtrees, r.Shows u.id u := by
  intro u hu
  have hid := h.id_eq
  cases h with
  | node at_n below =>
    rw [Tree.subtrees] at hu
    rcases List.mem_append.mp hu with hu | hu
    · exact ShowsAll.of_mem_subtrees below u hu
    · rw [List.mem_singleton.mp hu]
      exact .node at_n below

theorem ShowsAll.of_mem_subtrees {ns : List NodeId} {ts : List Tree} (h : r.ShowsAll ns ts) :
    ∀ u ∈ subtreesAll ts, r.Shows u.id u := by
  intro u hu
  cases h with
  | nil => cases hu
  | cons head tail =>
    rcases List.mem_append.mp hu with hu | hu
    · exact Shows.of_mem_subtrees head u hu
    · exact ShowsAll.of_mem_subtrees tail u hu

end

theorem exists_showsAll {ns : List NodeId} (h : ∀ n ∈ ns, ∃ t, r.Shows n t) :
    ∃ ts, r.ShowsAll ns ts := by
  induction ns with
  | nil => exact ⟨[], .nil⟩
  | cons n ns ih =>
    obtain ⟨t, ht⟩ := h n (List.mem_cons_self ..)
    obtain ⟨ts, hts⟩ := ih fun m hm => h m (List.mem_cons_of_mem n hm)
    exact ⟨t :: ts, .cons ht hts⟩

/-- Under every live node lies a tree: a way down gets deeper with every step, and depths are
bounded by the number of live nodes. -/
theorem Structured.exists_shows (h : r.Structured) {n : NodeId} (hn : r.isLive n = true) :
    ∃ t, r.Shows n t := by
  obtain ⟨d, hd⟩ := h.grounded n hn
  have hlt := h.depth_lt_live hd
  obtain ⟨k, hk⟩ : ∃ k, d + k = r.live := ⟨r.live - d, by omega⟩
  induction k generalizing n d with
  | zero => omega
  | succ k ih =>
    obtain ⟨node, hget⟩ := isLive_iff.mp hn
    obtain ⟨ts, hts⟩ : ∃ ts, r.ShowsAll node.children ts := exists_showsAll fun c hc => by
      obtain ⟨slot, hslot⟩ := hasChild_of_mem hget hc
      have hlink := h.down n slot c hslot
      have hdepth : r.DepthIs c (d + 1) := .up hlink hd
      exact ih hlink.isLive (d + 1) hdepth (h.depth_lt_live hdepth) (by omega)
    exact ⟨_, .node hget hts⟩

mutual

theorem Shows.child_mem {p c : NodeId} {slot : Nat} {n : NodeId} {t : Tree} (h : r.Shows n t)
    (hp : p ∈ t.nodes) (hc : r.HasChild p slot c) : c ∈ t.nodes := by
  cases h with
  | @node _ node ts at_n below =>
    simp only [Tree.nodes, List.mem_append, List.mem_singleton] at hp ⊢
    rcases hp with hp | rfl
    · exact Or.inl (ShowsAll.child_mem below hp hc)
    · left
      obtain ⟨t, ht, hid⟩ : ∃ t ∈ ts, t.id = c := by
        rw [← List.mem_map, below.map_id]
        exact List.mem_of_getElem? (hc.mem at_n)
      exact Tree.mem_forestNodes.mpr ⟨t, ht, hid ▸ t.id_mem_nodes⟩

theorem ShowsAll.child_mem {p c : NodeId} {slot : Nat} {ns : List NodeId} {ts : List Tree}
    (h : r.ShowsAll ns ts) (hp : p ∈ forestNodes ts) (hc : r.HasChild p slot c) :
    c ∈ forestNodes ts := by
  cases h with
  | nil => simp [forestNodes] at hp
  | cons head tail =>
    simp only [forestNodes, List.mem_append] at hp ⊢
    rcases hp with hp | hp
    · exact Or.inl (Shows.child_mem head hp hc)
    · exact Or.inr (ShowsAll.child_mem tail hp hc)

end

theorem Under.trans {a b c : NodeId} (hab : r.Under a b) (hbc : r.Under b c) : r.Under a c := by
  induction hbc with
  | self => exact hab
  | child _ sits ih => exact .child ih sits

mutual

theorem Shows.under {m n : NodeId} {t : Tree} (h : r.Shows n t) (hm : m ∈ t.nodes) :
    r.Under n m := by
  cases h with
  | @node _ node ts at_n below =>
    simp only [Tree.nodes, List.mem_append, List.mem_singleton] at hm
    rcases hm with hm | rfl
    · obtain ⟨c, hc, hcm⟩ := ShowsAll.under below hm
      obtain ⟨slot, hslot⟩ := hasChild_of_mem at_n hc
      exact (Under.child .self hslot).trans hcm
    · exact .self

theorem ShowsAll.under {m : NodeId} {ns : List NodeId} {ts : List Tree} (h : r.ShowsAll ns ts)
    (hm : m ∈ forestNodes ts) : ∃ c ∈ ns, r.Under c m := by
  cases h with
  | nil => simp [forestNodes] at hm
  | cons head tail =>
    simp only [forestNodes, List.mem_append] at hm
    rcases hm with hm | hm
    · exact ⟨_, List.mem_cons_self .., Shows.under head hm⟩
    · obtain ⟨c, hc, hcm⟩ := ShowsAll.under tail hm
      exact ⟨c, List.mem_cons_of_mem _ hc, hcm⟩

end

/-- The nodes of a tree are those under its topmost one. -/
theorem Shows.mem_nodes_iff {m n : NodeId} {t : Tree} (h : r.Shows n t) :
    m ∈ t.nodes ↔ r.Under n m := by
  constructor
  · exact h.under
  · intro hm
    induction hm with
    | self => exact h.id_eq ▸ t.id_mem_nodes
    | child _ sits ih => exact h.child_mem ih sits

mutual

theorem Shows.live_of_mem {m n : NodeId} {t : Tree} (h : r.Shows n t) (hm : m ∈ t.nodes) :
    r.isLive m = true := by
  cases h with
  | node at_n below =>
    simp only [Tree.nodes, List.mem_append, List.mem_singleton] at hm
    rcases hm with hm | rfl
    · exact ShowsAll.live_of_mem below hm
    · exact isLive_iff.mpr ⟨_, at_n⟩

theorem ShowsAll.live_of_mem {m : NodeId} {ns : List NodeId} {ts : List Tree}
    (h : r.ShowsAll ns ts) (hm : m ∈ forestNodes ts) : r.isLive m = true := by
  cases h with
  | nil => simp [forestNodes] at hm
  | cons head tail =>
    simp only [forestNodes, List.mem_append] at hm
    rcases hm with hm | hm
    · exact Shows.live_of_mem head hm
    · exact ShowsAll.live_of_mem tail hm

end

/-! ## No node occurs twice -/

/-- A node under another is as deep or deeper. -/
theorem Structured.depth_under (h : r.Structured) {n m : NodeId} {d : Nat} (hm : r.Under n m)
    (hd : r.DepthIs n d) : ∃ k, r.DepthIs m (d + k) := by
  induction hm with
  | self => exact ⟨0, hd⟩
  | child _ sits ih =>
    obtain ⟨k, hk⟩ := ih
    exact ⟨k + 1, .up (h.down _ _ _ sits) hk⟩

/-- Nothing lies under its own operand, which is one deeper. -/
theorem Structured.not_under_child (h : r.Structured) {p c : NodeId} {slot : Nat}
    (hc : r.HasChild p slot c) : ¬ r.Under c p := by
  intro hunder
  have hlink := h.down p slot c hc
  obtain ⟨d, hd⟩ := h.grounded p (h.parent_live hlink)
  obtain ⟨k, hk⟩ := h.depth_under hunder (.up hlink hd)
  have := hk.unique hd
  omega

/-- Nothing lies under its own operand. -/
def Acyclic (r : Routine) : Prop := ∀ p slot c, r.HasChild p slot c → ¬ r.Under c p

theorem Structured.acyclic (h : r.Structured) : r.Acyclic := fun _ _ _ => h.not_under_child

/-- Nodes that share no operand, neither do those under them: each sits in one slot only. -/
structure Unshared (r : Routine) (among : NodeId → Prop) : Prop where
  /-- Whatever sits in a slot of one of them is one of them. -/
  closed : ∀ p slot c, among p → r.HasChild p slot c → among c
  /-- Whatever sits in slots of theirs sits in one only. -/
  slot_unique : ∀ p q i j c, among p → among q → r.HasChild p i c → r.HasChild q j c →
    p = q ∧ i = j

theorem Structured.unshared (h : r.Structured) : r.Unshared fun _ => True where
  closed := fun _ _ _ _ _ => trivial
  slot_unique := fun _ _ _ _ _ _ _ hp hq => h.slot_unique hp hq

section Unshared

variable {among : NodeId → Prop}

theorem Unshared.of_under (h : r.Unshared among) {n m : NodeId} (hn : among n)
    (hm : r.Under n m) : among m := by
  induction hm with
  | self => exact hn
  | child _ sits ih => exact h.closed _ _ _ ih sits

/-- Of two nodes above a third, one is above the other. -/
theorem Unshared.under_total (h : r.Unshared among) {a b m : NodeId} (hamong : among a)
    (hamong' : among b) (ha : r.Under a m) (hb : r.Under b m) : r.Under a b ∨ r.Under b a := by
  induction ha with
  | self => exact Or.inr hb
  | @child p c slot above sits ih =>
    cases hb with
    | self => exact Or.inl (above.child sits)
    | child above' sits' =>
      obtain ⟨rfl, -⟩ := h.slot_unique _ _ _ _ _ (h.of_under hamong above)
        (h.of_under hamong' above') sits sits'
      exact ih above'

/-- No node of the list lies under another. -/
def Apart (r : Routine) (ns : List NodeId) : Prop :=
  ns.Nodup ∧ ∀ a ∈ ns, ∀ b ∈ ns, r.Under a b → b = a

theorem Apart.tail {n : NodeId} {ns : List NodeId} (h : r.Apart (n :: ns)) : r.Apart ns :=
  ⟨(List.nodup_cons.mp h.1).2, fun a ha b hb =>
    h.2 a (List.mem_cons_of_mem n ha) b (List.mem_cons_of_mem n hb)⟩

/-- The operands of a node are apart. -/
theorem Unshared.apart_children (h : r.Unshared among) (hacyclic : r.Acyclic) {p : NodeId}
    {node : Node} (hamong : among p) (hp : r.get? p = some node) : r.Apart node.children := by
  refine ⟨children_nodup_of_slots hp fun i j c hi hj =>
    (h.slot_unique p p i j c hamong hamong hi hj).2, fun a ha b hb hu => ?_⟩
  obtain ⟨i, hi⟩ := hasChild_of_mem hp ha
  obtain ⟨j, hj⟩ := hasChild_of_mem hp hb
  cases hu with
  | self => rfl
  | child above sits =>
    have habove := h.of_under (h.closed p i a hamong hi) above
    obtain ⟨rfl, -⟩ := h.slot_unique _ _ _ _ _ hamong habove hj sits
    exact absurd above (hacyclic _ i a hi)

mutual

/-- No node of a tree occurs twice in it. -/
theorem Unshared.nodes_nodup (h : r.Unshared among) (hacyclic : r.Acyclic) {n : NodeId} {t : Tree}
    (hamong : among n) (ht : r.Shows n t) : t.nodes.Nodup := by
  cases ht with
  | @node _ node ts at_n below =>
    have hchildren : ∀ c ∈ node.children, among c := by
      intro c hc
      obtain ⟨slot, hslot⟩ := hasChild_of_mem at_n hc
      exact h.closed n slot c hamong hslot
    have hbelow := Unshared.forestNodes_nodup h hacyclic hchildren
      (h.apart_children hacyclic hamong at_n) below
    simp only [Tree.nodes]
    refine List.nodup_append.mpr ⟨hbelow, List.nodup_singleton n, ?_⟩
    rintro a ha b hb rfl
    rw [List.mem_singleton.mp hb] at ha
    obtain ⟨c, hc, hu⟩ := below.under ha
    obtain ⟨slot, hslot⟩ := hasChild_of_mem at_n hc
    exact hacyclic n slot c hslot hu

/-- No node of trees that are apart occurs twice in them. -/
theorem Unshared.forestNodes_nodup (h : r.Unshared among) (hacyclic : r.Acyclic)
    {ns : List NodeId} {ts : List Tree} (hamong : ∀ n ∈ ns, among n) (ha : r.Apart ns)
    (hts : r.ShowsAll ns ts) : (forestNodes ts).Nodup := by
  cases hts with
  | nil => exact List.nodup_nil
  | @cons n t ns ts head tail =>
    have hn := hamong n (List.mem_cons_self ..)
    have hrest : ∀ m ∈ ns, among m := fun m hm => hamong m (List.mem_cons_of_mem n hm)
    simp only [forestNodes]
    refine List.nodup_append.mpr ⟨Unshared.nodes_nodup h hacyclic hn head,
      Unshared.forestNodes_nodup h hacyclic hrest ha.tail tail, ?_⟩
    rintro a hmem b hmem' rfl
    obtain ⟨c, hc, hcu⟩ := tail.under hmem'
    have hne : c ≠ n := fun heq => (List.nodup_cons.mp ha.1).1 (heq ▸ hc)
    have hc' := List.mem_cons_of_mem n hc
    rcases h.under_total hn (hrest c hc) (head.under hmem) hcu with hu | hu
    · exact hne (ha.2 n (List.mem_cons_self ..) c hc' hu)
    · exact hne (ha.2 c hc' n (List.mem_cons_self ..) hu).symm

end

end Unshared

theorem Structured.under_total (h : r.Structured) {a b m : NodeId} (ha : r.Under a m)
    (hb : r.Under b m) : r.Under a b ∨ r.Under b a :=
  h.unshared.under_total trivial trivial ha hb

theorem Structured.under_of_free (h : r.Structured) {n m : NodeId} (hm : r.Free m)
    (hu : r.Under n m) : m = n := by
  cases hu with
  | self => rfl
  | child _ sits => exact absurd (h.down _ _ _ sits) hm.not_linksTo

theorem Structured.nodes_nodup (h : r.Structured) {n : NodeId} {t : Tree} (ht : r.Shows n t) :
    t.nodes.Nodup :=
  h.unshared.nodes_nodup h.acyclic trivial ht

theorem Structured.forestNodes_nodup (h : r.Structured) {ns : List NodeId} {ts : List Tree}
    (ha : r.Apart ns) (hts : r.ShowsAll ns ts) : (forestNodes ts).Nodup :=
  h.unshared.forestNodes_nodup h.acyclic (fun _ _ => trivial) ha hts

/-- A tree has no more nodes than the routine. -/
theorem Structured.size_le_live (h : r.Structured) {n : NodeId} {t : Tree} (ht : r.Shows n t) :
    t.size ≤ r.live := by
  rw [h.live_eq, ← t.length_nodes]
  exact length_le_liveNodes (h.nodes_nodup ht) fun m hm => ht.live_of_mem hm

theorem Structured.size_lt_pathBound (h : r.Structured) {n : NodeId} {t : Tree}
    (ht : r.Shows n t) : t.size < r.pathBound := by
  have hle := h.size_le_live ht
  have hsize := r.liveNodes_le_size
  rw [h.live_eq] at hle
  rw [pathBound]
  omega

/-! ## Reading trees out -/

theorem mapM_of_showsAll {read : NodeId → Except Fault Tree} {ns : List NodeId} {ts : List Tree}
    (h : r.ShowsAll ns ts) (hread : ∀ t ∈ ts, r.Shows t.id t → read t.id = .ok t) :
    ns.mapM read = .ok ts := by
  induction ns generalizing ts with
  | nil =>
    cases h
    rfl
  | cons n ns ih =>
    cases h with
    | @cons _ t _ ts head tail =>
      have hn : read n = .ok t := by
        rw [← head.id_eq]
        exact hread t (List.mem_cons_self ..) (head.id_eq.symm ▸ head)
      have hns := ih tail fun u hu => hread u (List.mem_cons_of_mem t hu)
      simp [List.mapM_cons, hn, hns]

/-- A walk that may go as deep as the tree has nodes reads it out. -/
theorem Shows.treeWithin_eq {bound : Nat} {n : NodeId} {t : Tree} (h : r.Shows n t)
    (hb : t.size ≤ bound) : r.treeWithin bound n = .ok t := by
  induction bound generalizing n t with
  | zero =>
    have := t.size_pos
    omega
  | succ bound ih =>
    cases h with
    | @node _ node ts at_n below =>
      have hchildren : node.children.mapM (r.treeWithin bound) = .ok ts := by
        refine mapM_of_showsAll below fun t ht hshows => ih hshows ?_
        have := Tree.size_le_sizes ht
        simp only [Tree.size] at hb
        omega
      simp [treeWithin, node_of_get? at_n, hchildren]

/-- What is read out of a structured routine is the tree under the node. -/
theorem Structured.tree_eq (h : r.Structured) {n : NodeId} {t : Tree} (ht : r.Shows n t) :
    r.tree n = .ok t :=
  ht.treeWithin_eq (Nat.le_of_lt (h.size_lt_pathBound ht))

theorem Structured.mapM_tree (h : r.Structured) {ns : List NodeId} {ts : List Tree}
    (hts : r.ShowsAll ns ts) : ns.mapM r.tree = .ok ts :=
  mapM_of_showsAll hts fun _ _ ht => h.tree_eq ht

/-! ## Stored effects -/

theorem storedEffects_of_shows {n : NodeId} {t : Tree} (h : r.Shows n t) :
    r.storedEffects n = t.effects := by
  cases h with
  | node at_n _ => exact storedEffects_of_get? at_n

theorem ShowsAll.joinEffects_eq {ns : List NodeId} {ts : List Tree} (h : r.ShowsAll ns ts) :
    r.joinEffects ns = effectsAll ts := by
  induction ns generalizing ts with
  | nil =>
    cases h
    rfl
  | cons n ns ih =>
    cases h with
    | cons head tail => rw [joinEffects, effectsAll, storedEffects_of_shows head, ih tail]

/-- In a sound routine a tree carries the effects that its operands give it. -/
theorem Sound.shows_atop (h : r.Sound) {n : NodeId} {node : Node} {ts : List Tree}
    (hn : r.get? n = some node) (hts : r.ShowsAll node.children ts) :
    r.Shows n (.atop n node.kind ts) := by
  have := Shows.node hn hts
  rwa [h.effectsRight n node hn, hts.joinEffects_eq] at this

/-- The same read backwards: the tree under a node is the one over the trees of its operands. -/
theorem Sound.shows_cases (h : r.Sound) {n : NodeId} {t : Tree} (ht : r.Shows n t) :
    ∃ node ts, r.get? n = some node ∧ r.ShowsAll node.children ts ∧ t = .atop n node.kind ts := by
  cases ht with
  | @node _ node ts at_n below =>
    exact ⟨node, ts, at_n, below, (Shows.node at_n below).unique (h.shows_atop at_n below)⟩

mutual

/-- The stored effects of a sound routine are those of the whole trees. -/
theorem Sound.effects_eq (h : r.Sound) {n : NodeId} {t : Tree} (ht : r.Shows n t) :
    t.effects = t.ownEffects := by
  cases ht with
  | @node _ node ts at_n below =>
    rw [Tree.effects, Tree.ownEffects, h.effectsRight n node at_n, below.joinEffects_eq,
      Sound.effectsAll_eq h below]

theorem Sound.effectsAll_eq (h : r.Sound) {ns : List NodeId} {ts : List Tree}
    (hts : r.ShowsAll ns ts) : effectsAll ts = Tree.ownEffectsAll ts := by
  cases hts with
  | nil => rfl
  | cons head tail =>
    rw [effectsAll, Tree.ownEffectsAll, Sound.effects_eq h head, Sound.effectsAll_eq h tail]

end

theorem Sound.coherent (h : r.Sound) : r.Coherent := fun _ _ ht => h.effects_eq ht

/-! ## The view without stored effects -/

end Routine

/-- The node without its stored effects. -/
def Node.bare (node : Node) : Node := { node with effects := ∅ }

namespace Routine

open StackTree.Tree (forestNodes)

variable {r s : Routine}

/-- The node of that name without its stored effects. -/
def bare (r : Routine) (n : NodeId) : Option Node := (r.get? n).map Node.bare

/-- The routines differ in stored effects at most. -/
structure Alike (r s : Routine) : Prop where
  size_eq : s.nodes.size = r.nodes.size
  live_eq : s.live = r.live
  name_eq : s.name = r.name
  body_eq : s.body = r.body
  bare_eq : ∀ n, s.bare n = r.bare n

theorem Alike.refl (r : Routine) : r.Alike r := ⟨rfl, rfl, rfl, rfl, fun _ => rfl⟩

theorem Alike.trans {t : Routine} (h : r.Alike s) (h' : s.Alike t) : r.Alike t where
  size_eq := h'.size_eq.trans h.size_eq
  live_eq := h'.live_eq.trans h.live_eq
  name_eq := h'.name_eq.trans h.name_eq
  body_eq := h'.body_eq.trans h.body_eq
  bare_eq := fun n => (h'.bare_eq n).trans (h.bare_eq n)

theorem bare_of_get? {n : NodeId} {node : Node} (h : r.get? n = some node) :
    r.bare n = some node.bare := by
  rw [bare, h]
  rfl

theorem bare_eq_none_iff {n : NodeId} : r.bare n = none ↔ r.get? n = none := by
  rw [bare, Option.map_eq_none_iff]

/-- Nodes with the same bare view are the same but for their stored effects. -/
theorem get?_of_bare_eq {n : NodeId} {node : Node} (hn : r.get? n = some node)
    (h : s.bare n = r.bare n) : ∃ effects, s.get? n = some { node with effects := effects } := by
  rw [bare_of_get? hn] at h
  obtain ⟨⟨kind, children, effects, parent⟩, hs, heq⟩ := Option.map_eq_some_iff.mp h
  cases node
  simp only [Node.bare, Node.mk.injEq] at heq
  obtain ⟨rfl, rfl, -, rfl⟩ := heq
  exact ⟨effects, hs⟩

theorem isLive_of_bare_eq {n : NodeId} (h : s.bare n = r.bare n) : s.isLive n = r.isLive n := by
  have := congrArg Option.isSome h
  simpa only [isLive, bare, Option.isSome_map] using this

theorem free_of_bare_eq {n : NodeId} (h : s.bare n = r.bare n) (hf : r.Free n) : s.Free n := by
  obtain ⟨node, hn, hp⟩ := hf
  obtain ⟨effects, hs⟩ := get?_of_bare_eq hn h
  exact ⟨_, hs, hp⟩

theorem linksTo_of_bare_eq {c : NodeId} {link : Link} (h : s.bare c = r.bare c)
    (hl : r.LinksTo c link) : s.LinksTo c link := by
  obtain ⟨node, hc, hp⟩ := hl
  obtain ⟨effects, hs⟩ := get?_of_bare_eq hc h
  exact ⟨_, hs, hp⟩

theorem hasChild_of_bare_eq {p c : NodeId} {slot : Nat} (h : s.bare p = r.bare p)
    (hc : r.HasChild p slot c) : s.HasChild p slot c := by
  obtain ⟨node, hp, hslot⟩ := hc
  obtain ⟨effects, hs⟩ := get?_of_bare_eq hp h
  exact ⟨_, hs, hslot⟩

/-! ## Trees of two routines -/

/-- What the node does and its operands. -/
def shape (r : Routine) (n : NodeId) : Option (Kind × List NodeId) :=
  (r.get? n).map fun node => (node.kind, node.children)

theorem get?_of_shape_eq {n : NodeId} {node : Node} (hn : r.get? n = some node)
    (h : s.shape n = r.shape n) :
    ∃ node', s.get? n = some node' ∧ node'.kind = node.kind ∧ node'.children = node.children := by
  rw [shape, shape, hn, Option.map_some] at h
  obtain ⟨node', hs, heq⟩ := Option.map_eq_some_iff.mp h
  exact ⟨node', hs, congrArg Prod.fst heq, congrArg Prod.snd heq⟩

theorem shape_of_bare_eq {n : NodeId} (h : s.bare n = r.bare n) : s.shape n = r.shape n := by
  have := congrArg (Option.map fun node : Node => (node.kind, node.children)) h
  rwa [bare, bare, Option.map_map, Option.map_map] at this

mutual

/-- Where two sound routines agree on what a tree's nodes do and on their operands, they hold the
same tree; the links of its nodes do not matter. -/
theorem Sound.shows_of_shape (hs : s.Sound) (hr : r.Sound) {n : NodeId} {t : Tree}
    (ht : r.Shows n t) (h : ∀ m ∈ t.nodes, s.shape m = r.shape m) : s.Shows n t := by
  cases ht with
  | @node _ node ts at_n below =>
    have heq := hr.effectsRight n node at_n
    rw [below.joinEffects_eq] at heq
    obtain ⟨node', hget, hkind, hchildren⟩ := get?_of_shape_eq at_n (h n (by simp [Tree.nodes]))
    have hbelow := Sound.showsAll_of_shape hs hr below fun m hm => h m (by simp [Tree.nodes, hm])
    rw [heq, ← hkind]
    exact hs.shows_atop hget (hchildren ▸ hbelow)

theorem Sound.showsAll_of_shape (hs : s.Sound) (hr : r.Sound) {ns : List NodeId} {ts : List Tree}
    (hts : r.ShowsAll ns ts) (h : ∀ m ∈ forestNodes ts, s.shape m = r.shape m) :
    s.ShowsAll ns ts := by
  cases hts with
  | nil => exact .nil
  | cons head tail =>
    exact .cons
      (Sound.shows_of_shape hs hr head fun m hm => h m (by simp [forestNodes, hm]))
      (Sound.showsAll_of_shape hs hr tail fun m hm => h m (by simp [forestNodes, hm]))

end

/-- Where two sound routines agree on what the nodes under a node do and on their operands, they
store the same effects at it. -/
theorem Sound.storedEffects_eq_of_shape (hs : s.Sound) (hr : r.Sound) {n : NodeId}
    (h : ∀ m, r.Under n m → s.shape m = r.shape m) : s.storedEffects n = r.storedEffects n := by
  cases hn : r.get? n with
  | none =>
    have hnone := h n .self
    rw [shape, shape, hn, Option.map_none, Option.map_eq_none_iff] at hnone
    rw [storedEffects, storedEffects, hn, hnone]
  | some node =>
    obtain ⟨t, ht⟩ := hr.exists_shows (isLive_iff.mpr ⟨node, hn⟩)
    rw [storedEffects_of_shows ht,
      storedEffects_of_shows (hs.shows_of_shape hr ht fun m hm => h m (ht.under hm))]

/-- Two sound routines that agree on the nodes under a node but for stored effects agree on it. -/
theorem Sound.get?_eq_of_bare (hs : s.Sound) (hr : r.Sound) {n : NodeId}
    (h : ∀ m, r.Under n m → s.bare m = r.bare m) : s.get? n = r.get? n := by
  have hself := h n .self
  cases hn : r.get? n with
  | none => exact bare_eq_none_iff.mp (hself.trans (bare_eq_none_iff.mpr hn))
  | some node =>
    obtain ⟨effects, hget⟩ := get?_of_bare_eq hn hself
    have heffects := hs.storedEffects_eq_of_shape hr fun m hm => shape_of_bare_eq (h m hm)
    rw [storedEffects_of_get? hn, storedEffects_of_get? hget] at heffects
    rw [hget, show effects = node.effects from heffects]

theorem hasChild_of_shape_eq {p c : NodeId} {slot : Nat} (h : s.shape p = r.shape p)
    (hc : r.HasChild p slot c) : s.HasChild p slot c := by
  obtain ⟨node, hp, hslot⟩ := hc
  obtain ⟨node', hs, -, hchildren⟩ := get?_of_shape_eq hp h
  exact ⟨node', hs, by rw [hchildren, hslot]⟩

/-- The links of a structured routine follow from the operands. -/
theorem Structured.linksTo_of_shape (hs : s.Structured) (hr : r.Structured)
    (h : ∀ m, s.shape m = r.shape m) {c : NodeId} {link : Link} (hl : r.LinksTo c link) :
    s.LinksTo c link :=
  hs.down _ _ c (hasChild_of_shape_eq (h link.parent) (hr.up c link hl))

/-- Two sound routines that agree on all shapes have the same nodes. -/
theorem Sound.get?_of_shape (hs : s.Sound) (hr : r.Sound) (h : ∀ m, s.shape m = r.shape m)
    (n : NodeId) : s.get? n = r.get? n := by
  cases hn : r.get? n with
  | none =>
    have hnone := h n
    rw [shape, shape, hn, Option.map_none, Option.map_eq_none_iff] at hnone
    exact hnone
  | some node =>
    obtain ⟨node', hn', hkind, hchildren⟩ := get?_of_shape_eq hn (h n)
    have heffects : node'.effects = node.effects := by
      rw [← storedEffects_of_get? hn, ← storedEffects_of_get? hn',
        hs.storedEffects_eq_of_shape hr fun m _ => h m]
    have hparent : node'.parent = node.parent := by
      apply Option.ext
      intro link
      constructor
      · intro hl
        obtain ⟨other, hother, hl⟩ :=
          hr.linksTo_of_shape hs.toStructured (fun m => (h m).symm) ⟨node', hn', hl⟩
        obtain rfl := Option.some.inj (hn.symm.trans hother)
        exact hl
      · intro hl
        obtain ⟨other, hother, hl⟩ := hs.linksTo_of_shape hr.toStructured h ⟨node, hn, hl⟩
        obtain rfl := Option.some.inj (hn'.symm.trans hother)
        exact hl
    rw [hn']
    obtain ⟨kind, children, effects, parent⟩ := node
    obtain ⟨kind', children', effects', parent'⟩ := node'
    obtain rfl : kind' = kind := hkind
    obtain rfl : children' = children := hchildren
    obtain rfl : effects' = effects := heffects
    obtain rfl : parent' = parent := hparent
    rfl

/-- A sound routine is known once it is known what its nodes do and what their operands are. -/
theorem Sound.eq_of_shape (hs : s.Sound) (hr : r.Sound) (hsize : s.nodes.size = r.nodes.size)
    (hname : s.name = r.name) (hbody : s.body = r.body) (h : ∀ m, s.shape m = r.shape m) :
    s = r := by
  have hget := hs.get?_of_shape hr h
  have hlive : s.live = r.live := by
    rw [hs.live_eq, hr.live_eq]
    exact liveNodes_congr hsize fun n => by rw [isLive, isLive, hget]
  have hnodes : s.nodes = r.nodes := by
    apply Array.ext hsize
    intro i hi hj
    have := hget ⟨i⟩
    rwa [get?, get?, Array.getElem?_eq_getElem hi, Array.getElem?_eq_getElem hj] at this
  obtain ⟨name, nodes, live, body⟩ := r
  obtain ⟨name', nodes', live', body'⟩ := s
  simp only [mk.injEq]
  exact ⟨hname, hnodes, hlive, hbody⟩

/-- The tree under a node says what the node does and what its operands are. -/
theorem Shows.shape_eq {n : NodeId} {t : Tree} (h : r.Shows n t) :
    r.shape n = some (t.kind, t.children.map Tree.id) := by
  cases h with
  | node at_n below =>
    rw [shape, at_n, Tree.children, below.map_id]
    rfl

/-- Routines that hold the same trees agree on what the nodes do and on their operands. -/
theorem ShowsAll.shape_agree {ns ms : List NodeId} {ts : List Tree} (hr : r.ShowsAll ns ts)
    (hs : s.ShowsAll ms ts) : ∀ m ∈ forestNodes ts, s.shape m = r.shape m := by
  intro m hm
  rw [← Tree.map_id_subtreesAll] at hm
  obtain ⟨u, hu, rfl⟩ := List.mem_map.mp hm
  exact (hs.of_mem_subtrees u hu).shape_eq.trans (hr.of_mem_subtrees u hu).shape_eq.symm

mutual

/-- Routines with the same nodes hold the same tree. -/
theorem Shows.of_get?_eq {n : NodeId} {t : Tree} (ht : r.Shows n t)
    (h : ∀ m ∈ t.nodes, s.get? m = r.get? m) : s.Shows n t := by
  cases ht with
  | node at_n below =>
    have hbelow := ShowsAll.of_get?_eq below fun m hm => h m (by simp [Tree.nodes, hm])
    exact .node ((h n (by simp [Tree.nodes])).trans at_n) hbelow

theorem ShowsAll.of_get?_eq {ns : List NodeId} {ts : List Tree} (hts : r.ShowsAll ns ts)
    (h : ∀ m ∈ forestNodes ts, s.get? m = r.get? m) : s.ShowsAll ns ts := by
  cases hts with
  | nil => exact .nil
  | cons head tail =>
    exact .cons (Shows.of_get?_eq head fun m hm => h m (by simp [forestNodes, hm]))
      (ShowsAll.of_get?_eq tail fun m hm => h m (by simp [forestNodes, hm]))

end

/-! ## Routines that differ in stored effects -/

theorem DepthIs.of_bare_eq {n : NodeId} {depth : Nat} (h : r.DepthIs n depth)
    (hbare : ∀ m, s.bare m = r.bare m) : s.DepthIs n depth := by
  induction h with
  | root free => exact .root (free_of_bare_eq (hbare _) free)
  | up linked _ ih => exact .up (linksTo_of_bare_eq (hbare _) linked) ih

/-- Whether a routine is structured does not depend on its stored effects. -/
theorem Structured.of_bare_eq (h : r.Structured) (hsize : s.nodes.size = r.nodes.size)
    (hlive : s.live = r.live) (hbare : ∀ m, s.bare m = r.bare m) : s.Structured where
  down := fun p slot c hc =>
    linksTo_of_bare_eq (hbare c) (h.down p slot c (hasChild_of_bare_eq (hbare p).symm hc))
  up := fun c link hl =>
    hasChild_of_bare_eq (hbare _) (h.up c link (linksTo_of_bare_eq (hbare c).symm hl))
  arity := by
    intro n node hn
    obtain ⟨effects, hr⟩ := get?_of_bare_eq hn (hbare n).symm
    exact h.arity n { node with effects := effects } hr
  grounded := by
    intro n hn
    rw [isLive_of_bare_eq (hbare n)] at hn
    obtain ⟨depth, hdepth⟩ := h.grounded n hn
    exact ⟨depth, hdepth.of_bare_eq hbare⟩
  live_eq := by
    rw [hlive, h.live_eq]
    exact (liveNodes_congr hsize fun n => isLive_of_bare_eq (hbare n)).symm

theorem DepthIs.of_alike {n : NodeId} {depth : Nat} (h : r.DepthIs n depth) (ha : r.Alike s) :
    s.DepthIs n depth :=
  h.of_bare_eq ha.bare_eq

theorem Structured.of_alike (h : r.Structured) (ha : r.Alike s) : s.Structured :=
  h.of_bare_eq ha.size_eq ha.live_eq ha.bare_eq

/-- Whether a routine is sound does not depend on its body. -/
theorem Sound.with_body (h : r.Sound) (body : List NodeId) :
    Sound { r with body := body } where
  toStructured := h.toStructured.of_bare_eq rfl rfl fun _ => rfl
  effectsRight := by
    intro n node hn
    have heq : joinEffects { r with body := body } node.children = r.joinEffects node.children :=
      joinEffects_congr fun _ _ => rfl
    rw [heq]
    exact h.effectsRight n node hn

/-! ## Lists of free trees -/

/-- Trees that hang nowhere: they are shown, free and listed once. -/
structure Supplies (r : Routine) (stack : List Tree) : Prop where
  shows : ∀ q ∈ stack, r.Shows q.id q
  free : r.AllFree (stack.map Tree.id)

theorem Supplies.showsAll {stack : List Tree} (h : r.Supplies stack) :
    r.ShowsAll (stack.map Tree.id) stack :=
  showsAll_of_shows h.shows

theorem ShowsAll.supplies {ns : List NodeId} {stack : List Tree} (h : r.ShowsAll ns stack)
    (hfree : r.AllFree ns) : r.Supplies stack :=
  ⟨h.shows, h.map_id.symm ▸ hfree⟩

/-- Over free nodes that are listed once lie trees. -/
theorem Structured.exists_showsAll (h : r.Structured) {ns : List NodeId} (hfree : r.AllFree ns) :
    ∃ ts, r.ShowsAll ns ts :=
  Routine.exists_showsAll fun n hn => h.exists_shows (hfree.2 n hn).isLive

theorem Supplies.free_of_mem {stack : List Tree} (h : r.Supplies stack) {q : Tree}
    (hq : q ∈ stack) : r.Free q.id :=
  h.free.2 q.id (List.mem_map_of_mem hq)

/-- One more tree that hangs nowhere. -/
theorem Supplies.cons {t : Tree} {ts : List Tree} (h : r.Supplies ts) (ht : r.Shows t.id t)
    (hfree : r.Free t.id) (hne : t.id ∉ ts.map Tree.id) : r.Supplies (t :: ts) where
  shows := List.forall_mem_cons.mpr ⟨ht, h.shows⟩
  free := ⟨List.nodup_cons.mpr ⟨hne, h.free.1⟩, List.forall_mem_cons.mpr ⟨hfree, h.free.2⟩⟩

/-- Trees that hang nowhere stay so where none of their nodes changed, but for stored effects. -/
theorem Supplies.of_bare_eq (hr : r.Sound) (hs : s.Sound) {ts : List Tree} (h : r.Supplies ts)
    (hbare : ∀ t ∈ ts, ∀ m ∈ t.nodes, s.bare m = r.bare m) : s.Supplies ts where
  shows := by
    intro t ht
    apply hs.shows_of_shape hr (h.shows t ht)
    intro m hm
    exact shape_of_bare_eq (hbare t ht m hm)
  free := by
    refine ⟨h.free.1, fun m hm => ?_⟩
    obtain ⟨t, ht, rfl⟩ := List.mem_map.mp hm
    exact free_of_bare_eq (hbare t ht t.id t.id_mem_nodes) (h.free_of_mem ht)

theorem Supplies.perm {ts us : List Tree} (h : r.Supplies ts) (hp : ts.Perm us) :
    r.Supplies us where
  shows := fun q hq => h.shows q (hp.mem_iff.mpr hq)
  free := ⟨(hp.map Tree.id).nodup_iff.mp h.free.1,
    fun m hm => h.free.2 m ((hp.map Tree.id).mem_iff.mpr hm)⟩

theorem Supplies.sublist {ts us : List Tree} (h : r.Supplies us) (hs : ts.Sublist us) :
    r.Supplies ts where
  shows := fun q hq => h.shows q (hs.subset hq)
  free := h.free.sublist (hs.map Tree.id)

/-- In a free tree only the topmost node is free. -/
theorem Structured.eq_id_of_free (h : r.Structured) {m : NodeId} {q : Tree}
    (hq : r.Shows q.id q) (hm : m ∈ q.nodes) (hf : r.Free m) : m = q.id :=
  h.under_of_free hf (hq.under hm)

/-- A free tree that the node does not lie in shares no node with the tree under it. -/
theorem Structured.disjoint_of_free (h : r.Structured) {n : NodeId} {t q : Tree}
    (ht : r.Shows n t) (hq : r.Shows q.id q) (hf : r.Free q.id) (hn : n ∉ q.nodes) :
    ∀ m ∈ q.nodes, m ∉ t.nodes := by
  intro m hmq hmt
  rcases h.under_total (ht.under hmt) (hq.under hmq) with hu | hu
  · obtain heq := h.under_of_free hf hu
    exact hn (heq ▸ q.id_mem_nodes)
  · exact hn (hq.mem_nodes_iff.mpr hu)

/-- In a list of free trees a node of one tree is no node of another. -/
theorem Supplies.notMem_of_ne (hr : r.Sound) {ts : List Tree} (h : r.Supplies ts) {t u : Tree}
    (ht : t ∈ ts) (hu : u ∈ ts) (hne : u.id ≠ t.id) : t.id ∉ u.nodes := fun hm =>
  hne (hr.eq_id_of_free (h.shows u hu) hm (h.free_of_mem ht)).symm

/-- A tree of a list has a name of its own. -/
theorem Supplies.id_ne {t u : Tree} {others : List Tree} (h : r.Supplies (t :: others))
    (hu : u ∈ others) : u.id ≠ t.id := by
  intro heq
  exact (List.nodup_cons.mp h.free.1).1 (heq ▸ List.mem_map_of_mem hu)

/-- The first tree of a list is under none of the others. -/
theorem Supplies.notMem_forestNodes (hr : r.Sound) {t : Tree} {others : List Tree}
    (h : r.Supplies (t :: others)) : t.id ∉ forestNodes others := by
  intro hm
  obtain ⟨u, hu, hin⟩ := Tree.mem_forestNodes.mp hm
  exact h.notMem_of_ne hr (List.mem_cons_self ..) (List.mem_cons_of_mem t hu) (h.id_ne hu) hin

/-- Two trees of a list share no node. -/
theorem Supplies.disjoint (hr : r.Sound) {ts : List Tree} (h : r.Supplies ts) {t u : Tree}
    (ht : t ∈ ts) (hu : u ∈ ts) (hne : u.id ≠ t.id) : ∀ m ∈ u.nodes, m ∉ t.nodes :=
  hr.disjoint_of_free (h.shows t ht) (h.shows u hu) (h.free_of_mem hu)
    (h.notMem_of_ne hr ht hu hne)

/-- No node occurs twice in trees that hang nowhere. -/
theorem Supplies.forestNodes_nodup (hr : r.Sound) {ts : List Tree} (h : r.Supplies ts) :
    (forestNodes ts).Nodup := by
  refine hr.toStructured.forestNodes_nodup ⟨h.free.1, fun a _ b hb hu => ?_⟩ h.showsAll
  exact hr.under_of_free (h.free.2 b hb) hu

/-- The names of the trees before another one are not in its tree. -/
theorem Supplies.notMem_ids_of_mem (hr : r.Sound) {stack others : List Tree}
    (h : r.Supplies (stack ++ others)) {u : Tree} (hu : u ∈ others) :
    ∀ m ∈ u.nodes, m ∉ stack.map Tree.id := by
  intro m hm hin
  have hmem : m ∈ (stack ++ others).map Tree.id := by
    rw [List.map_append]
    exact List.mem_append_left _ hin
  have hnodup := h.free.1
  rw [List.map_append, List.nodup_append] at hnodup
  rw [hr.eq_id_of_free (h.shows u (List.mem_append_right _ hu)) hm (h.free.2 m hmem)] at hin
  exact hnodup.2.2 u.id hin u.id (List.mem_map_of_mem hu) rfl

/-- Which trees are free does not depend on the body. -/
theorem Supplies.with_body {ts : List Tree} (h : r.Supplies ts) (body : List NodeId) :
    Supplies { r with body := body } ts where
  shows := fun q hq => (h.shows q hq).of_get?_eq fun _ _ => rfl
  free := ⟨h.free.1, fun m hm => by
    obtain ⟨node, hget, hp⟩ := h.free.2 m hm
    exact ⟨node, hget, hp⟩⟩

end Routine

end StackTree
