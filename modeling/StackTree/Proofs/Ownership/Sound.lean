import StackTree.Routine.Forest
import StackTree.Proofs.Runs
import Mathlib.Data.List.Basic
import Mathlib.Data.List.Nodup
import Mathlib.Data.List.Perm.Subperm

/-!
# Sound routines

`Routine.Sound` is the invariant that every operation keeps. It says the same as `Routine.Owned` and
`Routine.Coherent` together, in the form that is easiest to keep: the two directions of ownership
apart, a path to a free node without a bound on its length, and the stored effects of a node
compared with those of its operands only.

The bounds are consequences. A path upward names no node twice, and every node on it is live, so it
is shorter than the number of live nodes (`Structured.depth_lt_live`).

## Main definitions

* `Routine.DepthIs`: how many links lead from a node to a free one.
* `Routine.Structured`, `Routine.EffectsRight`, `Routine.Sound`: the invariant.
* `Routine.liveIds`: the live nodes in the order of their allocation.

## Main results

* `Structured.depth_lt_live`: every path upward is shorter than the number of live nodes.
* `Structured.owned`: a structured routine is owned in the sense of `Routine.Owned`.
-/

namespace StackTree.Routine

open Runs

variable {r : Routine}

/-! ## Live nodes -/

theorem isLive_iff {n : NodeId} : r.isLive n = true ↔ ∃ node, r.get? n = some node := by
  rw [isLive, Option.isSome_iff_exists]

theorem node_of_get? {n : NodeId} {node : Node} (h : r.get? n = some node) :
    r.node n = .ok node := by
  rw [Routine.node, h]

theorem node_of_none {n : NodeId} (h : r.get? n = none) : r.node n = .error (.released n) := by
  rw [Routine.node, h]

theorem LinksTo.isLive {n : NodeId} {link : Link} (h : r.LinksTo n link) : r.isLive n = true := by
  obtain ⟨node, hn, -⟩ := h
  exact isLive_iff.mpr ⟨node, hn⟩

theorem LinksTo.unique {n : NodeId} {link other : Link} (h : r.LinksTo n link)
    (h' : r.LinksTo n other) : link = other := by
  obtain ⟨node, hn, hl⟩ := h
  obtain ⟨node', hn', hl'⟩ := h'
  obtain rfl := Option.some.inj (hn.symm.trans hn')
  exact Option.some.inj (hl.symm.trans hl')

/-- The node exists and hangs nowhere. -/
def Free (r : Routine) (n : NodeId) : Prop := ∃ node, r.get? n = some node ∧ node.parent = none

theorem Free.isLive {n : NodeId} (h : r.Free n) : r.isLive n = true := by
  obtain ⟨node, hn, -⟩ := h
  exact isLive_iff.mpr ⟨node, hn⟩

theorem Free.not_linksTo {n : NodeId} {link : Link} (h : r.Free n) : ¬ r.LinksTo n link := by
  obtain ⟨node, hn, hfree⟩ := h
  rintro ⟨node', hn', hl⟩
  obtain rfl := Option.some.inj (hn.symm.trans hn')
  rw [hfree] at hl
  cases hl

/-- The nodes are free and listed once. -/
def AllFree (r : Routine) (ns : List NodeId) : Prop := ns.Nodup ∧ ∀ n ∈ ns, r.Free n

theorem AllFree.sublist {ns ms : List NodeId} (h : r.AllFree ms) (hs : ns.Sublist ms) :
    r.AllFree ns :=
  ⟨h.1.sublist hs, fun n hn => h.2 n (hs.subset hn)⟩

theorem index_lt_of_isLive {n : NodeId} (h : r.isLive n = true) : n.index < r.nodes.size := by
  obtain ⟨node, hn⟩ := isLive_iff.mp h
  by_contra hge
  rw [get?, Array.getElem?_eq_none (by omega)] at hn
  simp at hn

/-- The live nodes in the order of their allocation. -/
def liveIds (r : Routine) : List NodeId :=
  ((List.range r.nodes.size).map NodeId.mk).filter r.isLive

theorem mem_liveIds {n : NodeId} : n ∈ r.liveIds ↔ r.isLive n = true := by
  simp only [liveIds, List.mem_filter, List.mem_map, List.mem_range]
  constructor
  · rintro ⟨-, h⟩
    exact h
  · intro h
    exact ⟨⟨n.index, index_lt_of_isLive h, rfl⟩, h⟩

theorem nodup_liveIds : r.liveIds.Nodup := by
  refine List.Nodup.filter _ (List.Nodup.map ?_ List.nodup_range)
  intro i j h
  exact (NodeId.mk.injEq i j).mp h

/-- The count of live nodes counts `liveIds`. -/
theorem liveNodes_eq_length : r.liveNodes = r.liveIds.length := by
  have hlist : r.nodes.toList = (List.range r.nodes.size).map fun i => r.nodes[i]?.join := by
    apply List.ext_getElem
    · simp
    · intro i h _
      simp only [Array.length_toList] at h
      simp [Array.getElem?_eq_getElem h]
  rw [liveNodes, liveIds, hlist, List.countP_map, List.countP_eq_length_filter, List.filter_map,
    List.length_map]
  rfl

/-- Live nodes without repetition are no more than the count says. -/
theorem length_le_liveNodes {ns : List NodeId} (hd : ns.Nodup)
    (hl : ∀ n ∈ ns, r.isLive n = true) : ns.length ≤ r.liveNodes := by
  rw [liveNodes_eq_length]
  exact (hd.subperm fun n hn => mem_liveIds.mpr (hl n hn)).length_le

theorem liveNodes_le_size (r : Routine) : r.liveNodes ≤ r.nodes.size := by
  rw [liveNodes, ← Array.length_toList]
  exact List.countP_le_length

/-- Routines of equal length with the same live nodes count the same. -/
theorem liveNodes_congr {s : Routine} (hsize : s.nodes.size = r.nodes.size)
    (hlive : ∀ n, s.isLive n = r.isLive n) : s.liveNodes = r.liveNodes := by
  rw [liveNodes_eq_length, liveNodes_eq_length, liveIds, liveIds, hsize,
    List.filter_congr fun n _ => hlive n]

/-! ## Depth -/

/-- So many links lead from the node to one that hangs nowhere. -/
inductive DepthIs (r : Routine) : NodeId → Nat → Prop where
  | root {n : NodeId} (free : r.Free n) : DepthIs r n 0
  | up {n : NodeId} {link : Link} {depth : Nat} (linked : r.LinksTo n link)
      (above : DepthIs r link.parent depth) : DepthIs r n (depth + 1)

theorem DepthIs.isLive {n : NodeId} {depth : Nat} (h : r.DepthIs n depth) : r.isLive n = true := by
  cases h with
  | root free => exact free.isLive
  | up linked _ => exact linked.isLive

/-- A node has one depth. -/
theorem DepthIs.unique {n : NodeId} {d e : Nat} (hd : r.DepthIs n d) (he : r.DepthIs n e) :
    d = e := by
  induction hd generalizing e with
  | root free =>
    cases he with
    | root => rfl
    | up linked _ => exact absurd linked free.not_linksTo
  | up linked above ih =>
    cases he with
    | root free => exact absurd linked free.not_linksTo
    | up linked' above' =>
      obtain rfl := linked.unique linked'
      rw [ih above']

/-- The node below a link is one deeper. -/
theorem LinksTo.depth {n : NodeId} {link : Link} {d : Nat} (hl : r.LinksTo n link)
    (hd : r.DepthIs n d) : ∃ e, d = e + 1 ∧ r.DepthIs link.parent e := by
  cases hd with
  | root free => exact absurd hl free.not_linksTo
  | up linked above =>
    obtain rfl := hl.unique linked
    exact ⟨_, rfl, above⟩

/-- The nodes on the way up are as many as the links and one more, all live and none twice. -/
theorem DepthIs.exists_path {n : NodeId} {d : Nat} (h : r.DepthIs n d) :
    ∃ path : List NodeId, path.length = d + 1 ∧ path.Nodup ∧
      ∀ m ∈ path, ∃ e, e ≤ d ∧ r.DepthIs m e := by
  induction h with
  | @root n free =>
    refine ⟨[n], rfl, List.nodup_singleton n, ?_⟩
    intro m hm
    rw [List.mem_singleton.mp hm]
    exact ⟨0, Nat.le_refl 0, .root free⟩
  | @up n link d linked above ih =>
    obtain ⟨path, hlength, hnodup, hdepth⟩ := ih
    refine ⟨n :: path, by simp [hlength], List.nodup_cons.mpr ⟨?_, hnodup⟩, ?_⟩
    · intro hmem
      obtain ⟨e, hle, he⟩ := hdepth n hmem
      have := he.unique (.up linked above)
      omega
    · intro m hm
      rcases List.mem_cons.mp hm with rfl | hm
      · exact ⟨d + 1, Nat.le_refl _, .up linked above⟩
      · obtain ⟨e, hle, he⟩ := hdepth m hm
        exact ⟨e, by omega, he⟩

/-- A path upward is shorter than the number of live nodes. -/
theorem DepthIs.lt_liveNodes {n : NodeId} {d : Nat} (h : r.DepthIs n d) : d < r.liveNodes := by
  obtain ⟨path, hlength, hnodup, hdepth⟩ := h.exists_path
  have hle := length_le_liveNodes hnodup fun m hm => by
    obtain ⟨e, -, he⟩ := hdepth m hm
    exact he.isLive
  omega

theorem DepthIs.rootWithin {n : NodeId} {d : Nat} (h : r.DepthIs n d) : r.RootWithin d n := by
  induction h with
  | root free =>
    obtain ⟨node, hn, hfree⟩ := free
    exact .root hn hfree
  | up linked _ ih => exact .up linked ih

/-! ## Stored effects -/

/-- The stored effects of a node, none if it does not exist. -/
def storedEffects (r : Routine) (n : NodeId) : Effects := ((r.get? n).map Node.effects).getD ∅

/-- The union of the stored effects of some nodes. -/
def joinEffects (r : Routine) : List NodeId → Effects
  | [] => ∅
  | n :: rest => r.storedEffects n ∪ r.joinEffects rest

theorem storedEffects_of_get? {n : NodeId} {node : Node} (h : r.get? n = some node) :
    r.storedEffects n = node.effects := by
  rw [storedEffects, h]
  rfl

theorem effects_of_get? {n : NodeId} {node : Node} (h : r.get? n = some node) :
    r.effects n = .ok node.effects := by
  rw [effects, node_of_get? h]
  rfl

theorem exists_node_of_kind {n : NodeId} {k : Kind} (h : r.kind n = .ok k) :
    ∃ node, r.get? n = some node ∧ node.kind = k := by
  rw [kind] at h
  cases hn : r.get? n with
  | none => simp [node_of_none hn, Functor.map, Except.map] at h
  | some node =>
    rw [node_of_get? hn] at h
    exact ⟨node, rfl, Except.ok.inj h⟩

/-- Over live nodes the union of effects is always found. -/
theorem unionEffects_eq {ns : List NodeId} (hl : ∀ n ∈ ns, r.isLive n = true) (start : Effects) :
    r.unionEffects start ns = .ok (start ∪ r.joinEffects ns) := by
  induction ns generalizing start with
  | nil => simp [unionEffects, joinEffects]
  | cons n rest ih =>
    obtain ⟨node, hn⟩ := isLive_iff.mp (hl n (List.mem_cons_self ..))
    have hrest := ih (fun m hm => hl m (List.mem_cons_of_mem n hm)) (start ∪ node.effects)
    rw [joinEffects, storedEffects_of_get? hn, ← Effects.union_assoc, ← hrest]
    simp [unionEffects, effects_of_get? hn]

theorem child_of_hasChild {n c : NodeId} {slot : Nat} (h : r.HasChild n slot c) :
    r.child n slot = .ok c := by
  obtain ⟨node, hn, hslot⟩ := h
  simp [Routine.child, node_of_get? hn, hslot]

theorem hasChild_of_child {n c : NodeId} {slot : Nat} (h : r.child n slot = .ok c) :
    r.HasChild n slot c := by
  rw [Routine.child] at h
  cases hn : r.get? n with
  | none => simp [node_of_none hn] at h
  | some node =>
    refine ⟨node, hn, ?_⟩
    cases hslot : node.children[slot]? with
    | none => simp [node_of_get? hn, hslot] at h
    | some child => simpa [node_of_get? hn, hslot] using h

theorem hasChild_of_children {n c : NodeId} {slot : Nat} {ns : List NodeId}
    (h : r.children n = .ok ns) (hc : ns[slot]? = some c) : r.HasChild n slot c := by
  rw [Routine.children] at h
  cases hn : r.get? n with
  | none => simp [node_of_none hn, Functor.map, Except.map] at h
  | some node =>
    rw [node_of_get? hn] at h
    obtain rfl : node.children = ns := Except.ok.inj h
    exact ⟨node, hn, hc⟩

/-- Both ways of computing the effects of a node find the union over its operands. -/
theorem computeEffects_of_get? {n : NodeId} {node : Node} (hn : r.get? n = some node)
    (ha : node.kind.accepts node.children.length = true)
    (hl : ∀ c ∈ node.children, r.isLive c = true) :
    r.computeEffects n = .ok (node.kind.intrinsic ∪ r.joinEffects node.children) := by
  have hunion := unionEffects_eq hl node.kind.intrinsic
  rw [computeEffects, node_of_get? hn, except_bind_ok]
  cases hk : node.kind with
  | binary op =>
    rw [hk] at ha
    obtain ⟨left, right, hc⟩ := List.length_eq_two.mp (eq_of_beq ha)
    have hleft := child_of_hasChild ⟨node, hn, show node.children[0]? = some left by rw [hc]; rfl⟩
    have hright := child_of_hasChild ⟨node, hn, show node.children[1]? = some right by rw [hc]; rfl⟩
    obtain ⟨leftNode, hl0⟩ := isLive_iff.mp (hl left (by simp [hc]))
    obtain ⟨rightNode, hl1⟩ := isLive_iff.mp (hl right (by simp [hc]))
    simp only [binaryEffects, hleft, hright, effects_of_get? hl0, effects_of_get? hl1,
      except_bind_ok, except_pure, hc, joinEffects, storedEffects_of_get? hl0,
      storedEffects_of_get? hl1, Effects.union_empty, Except.ok.injEq]
    exact Effects.union_comm _ _
  | _ =>
    rw [hk] at hunion
    exact hunion

theorem joinEffects_congr {s : Routine} {ns : List NodeId}
    (h : ∀ n ∈ ns, s.storedEffects n = r.storedEffects n) : s.joinEffects ns = r.joinEffects ns := by
  induction ns with
  | nil => rfl
  | cons n rest ih =>
    rw [joinEffects, joinEffects, h n (List.mem_cons_self ..),
      ih fun m hm => h m (List.mem_cons_of_mem n hm)]

/-! ## The invariant -/

/-- The nodes form a forest, and the links and the count are right. -/
structure Structured (r : Routine) : Prop where
  /-- Whatever sits in a slot is linked to it. -/
  down : ∀ p slot c, r.HasChild p slot c → r.LinksTo c ⟨p, slot⟩
  /-- Whatever is linked to a slot sits in it. -/
  up : ∀ c link, r.LinksTo c link → r.HasChild link.parent link.slot c
  /-- Every node has as many operands as its kind takes. -/
  arity : ∀ n node, r.get? n = some node → node.kind.accepts node.children.length = true
  /-- Every way up ends at a free node. -/
  grounded : ∀ n, r.isLive n = true → ∃ depth, r.DepthIs n depth
  /-- The count of nodes is right. -/
  live_eq : r.live = r.liveNodes

/-- The stored effects of the node are those of its kind and of its operands. -/
def EffectsRight (r : Routine) (n : NodeId) : Prop :=
  ∀ node, r.get? n = some node → node.effects = node.kind.intrinsic ∪ r.joinEffects node.children

/-- The forest and the stored effects are right. -/
structure Sound (r : Routine) : Prop extends Structured r where
  /-- Every node stores the effects of its kind and of its operands. -/
  effectsRight : ∀ n, r.EffectsRight n

theorem HasChild.mem {p c : NodeId} {slot : Nat} {node : Node} (h : r.HasChild p slot c)
    (hp : r.get? p = some node) : node.children[slot]? = some c := by
  obtain ⟨node', hp', hc⟩ := h
  obtain rfl := Option.some.inj (hp.symm.trans hp')
  exact hc

theorem hasChild_of_mem {p c : NodeId} {node : Node} (hp : r.get? p = some node)
    (hc : c ∈ node.children) : ∃ slot, r.HasChild p slot c := by
  obtain ⟨slot, hslot⟩ := List.mem_iff_getElem?.mp hc
  exact ⟨slot, node, hp, hslot⟩

/-- Operands that sit in one slot each are all different. -/
theorem children_nodup_of_slots {p : NodeId} {node : Node} (hp : r.get? p = some node)
    (hslots : ∀ i j c, r.HasChild p i c → r.HasChild p j c → i = j) : node.children.Nodup := by
  rw [List.nodup_iff_injective_getElem]
  rintro ⟨i, hi⟩ ⟨j, hj⟩ hij
  have hsits : r.HasChild p i node.children[i] := ⟨node, hp, List.getElem?_eq_getElem hi⟩
  have hsits' : r.HasChild p j node.children[i] := by
    simp only at hij
    rw [hij]
    exact ⟨node, hp, List.getElem?_eq_getElem hj⟩
  exact Fin.ext (hslots i j _ hsits hsits')

namespace Structured

theorem hasChild_iff (h : r.Structured) {p c : NodeId} {slot : Nat} :
    r.HasChild p slot c ↔ r.LinksTo c ⟨p, slot⟩ :=
  ⟨h.down p slot c, h.up c ⟨p, slot⟩⟩

theorem children_live (h : r.Structured) {p : NodeId} {node : Node} (hp : r.get? p = some node) :
    ∀ c ∈ node.children, r.isLive c = true := by
  intro c hc
  obtain ⟨slot, hslot⟩ := hasChild_of_mem hp hc
  exact (h.down p slot c hslot).isLive

theorem parent_live (h : r.Structured) {c : NodeId} {link : Link} (hc : r.LinksTo c link) :
    r.isLive link.parent = true := by
  obtain ⟨node, hp, -⟩ := h.up c link hc
  exact isLive_iff.mpr ⟨node, hp⟩

/-- A path upward is shorter than the count of nodes. -/
theorem depth_lt_live (h : r.Structured) {n : NodeId} {d : Nat} (hd : r.DepthIs n d) :
    d < r.live := by
  rw [h.live_eq]
  exact hd.lt_liveNodes

theorem depth_lt_pathBound (h : r.Structured) {n : NodeId} {d : Nat} (hd : r.DepthIs n d) :
    d < r.pathBound := by
  have hlive := h.depth_lt_live hd
  have hsize := r.liveNodes_le_size
  rw [h.live_eq] at hlive
  rw [pathBound]
  omega

/-- A node sits in one slot only. -/
theorem slot_unique (h : r.Structured) {p q c : NodeId} {i j : Nat} (hp : r.HasChild p i c)
    (hq : r.HasChild q j c) : p = q ∧ i = j := by
  have := (h.down p i c hp).unique (h.down q j c hq)
  exact ⟨congrArg Link.parent this, congrArg Link.slot this⟩

/-- The operands of a node are all different. -/
theorem children_nodup (h : r.Structured) {p : NodeId} {node : Node}
    (hp : r.get? p = some node) : node.children.Nodup :=
  children_nodup_of_slots hp fun _ _ _ hi hj => (h.slot_unique hi hj).2

/-- What the fields of the invariant say in the form of `Routine.Owned`. -/
theorem owned (h : r.Structured) : r.Owned where
  children_live := fun p slot c hc => (h.down p slot c hc).isLive
  hasChild_iff_linksTo := fun _ _ _ _ => h.hasChild_iff
  arity := h.arity
  rooted := by
    intro n hn
    obtain ⟨d, hd⟩ := h.grounded n hn
    exact ⟨d, h.depth_lt_live hd, hd.rootWithin⟩
  live_eq := h.live_eq

end Structured

/-- A new routine is sound. -/
theorem Sound.new (name : String) (body : List NodeId) :
    Sound { name := name, body := body } where
  down := by
    rintro p slot c ⟨node, hp, -⟩
    simp at hp
  up := by
    rintro c link ⟨node, hc, -⟩
    simp at hc
  arity := by
    intro n node hn
    simp at hn
  grounded := by
    intro n hn
    simp [isLive] at hn
  live_eq := by simp [liveNodes]
  effectsRight := by
    intro n node hn
    simp at hn

end StackTree.Routine
