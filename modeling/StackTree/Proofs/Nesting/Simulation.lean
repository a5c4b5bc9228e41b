import StackTree.Proofs.Nesting.OnTrees
import StackTree.Proofs.Ownership.Release
import Mathlib.Data.List.Induction

/-!
# Nesting a routine computes nesting on trees

On a sound routine, with a working stack of free nodes that are not around the node to be filled,
filling never fails, and it does to the trees what `Tree.fill` does (`fill_eq`). Outside the filled
tree and the producers that it takes, the routine keeps its nodes; only the stored effects of the
nodes above change, and those follow from the rest.

A filler calls itself on the operands, so each step is proved for any filler that is right on trees
of a smaller depth (`Computes`).

## Main definitions

* `Routine.Fills`: what filling a node leaves alone.
* `FillsAs`, `Computes`: a filler does what `Tree.fill` does.

## Main results

* `pendingPops_eq`, `operandBlocked_eq`: the questions about stored effects.
* `fillSlot_eq`, `fillOperandsFrom_eq`, `fillBinary_eq`: filling operands.
* `fill_eq`: filling a node.
-/

namespace StackTree

namespace Routine

open Runs
open StackTree.Tree (forestNodes effectsAll SoundAll)

variable {r s : Routine}

/-! ## Sound trees -/

mutual

/-- The trees of a sound routine are sound. -/
theorem Sound.tree_sound (h : r.Sound) {n : NodeId} {t : Tree} (ht : r.Shows n t) : t.Sound := by
  cases ht with
  | @node _ node ts at_n below =>
    refine ⟨?_, ?_, Sound.trees_sound h below⟩
    · rw [← below.length_eq]
      exact h.arity n node at_n
    · rw [h.effectsRight n node at_n, below.joinEffects_eq]

theorem Sound.trees_sound (h : r.Sound) {ns : List NodeId} {ts : List Tree}
    (hts : r.ShowsAll ns ts) : SoundAll ts := by
  cases hts with
  | nil => trivial
  | cons head tail => exact ⟨Sound.tree_sound h head, Sound.trees_sound h tail⟩

end

/-! ## Questions about stored effects -/

/-- A kind is found under a node if it is found in its tree. -/
theorem Shows.exists_kind_iff {n : NodeId} {t : Tree} {k : Kind} (ht : r.Shows n t) :
    (∃ m, r.Under n m ∧ r.kind m = .ok k) ↔ ∃ u ∈ t.subtrees, u.kind = k := by
  constructor
  · rintro ⟨m, hm, hk⟩
    rw [← ht.mem_nodes_iff, ← Tree.map_id_subtrees] at hm
    obtain ⟨u, hu, rfl⟩ := List.mem_map.mp hm
    rw [kind_of_shows (ht.of_mem_subtrees u hu)] at hk
    exact ⟨u, hu, Except.ok.inj hk⟩
  · rintro ⟨u, hu, rfl⟩
    refine ⟨u.id, ht.under ?_, kind_of_shows (ht.of_mem_subtrees u hu)⟩
    rw [← Tree.map_id_subtrees]
    exact List.mem_map_of_mem hu

theorem unionEffects_of_showsAll {ns : List NodeId} {ts : List Tree} (h : r.ShowsAll ns ts)
    (start : Effects) : r.unionEffects start ns = .ok (start ∪ effectsAll ts) := by
  rw [← h.joinEffects_eq]
  refine unionEffects_eq (fun n hn => ?_) start
  rw [← h.map_id] at hn
  obtain ⟨t, ht, rfl⟩ := List.mem_map.mp hn
  exact (h.shows t ht).isLive

theorem foldlM_pendingPops {count : NodeId → Except Fault Nat} {ns : List NodeId} {ts : List Tree}
    (h : r.ShowsAll ns ts) (hcount : ∀ t ∈ ts, count t.id = .ok t.popCount) (start : Nat) :
    ns.foldlM (fun acc n => do return acc + (← count n)) start =
      .ok (start + Tree.popCounts ts) := by
  induction ns generalizing ts start with
  | nil =>
    cases h
    rfl
  | cons n ns ih =>
    cases h with
    | @cons _ t _ ts head tail =>
      have hn := hcount t (List.mem_cons_self ..)
      rw [head.id_eq] at hn
      rw [List.foldlM_cons, hn, Tree.popCounts, ← Nat.add_assoc]
      exact ih tail (fun u hu => hcount u (List.mem_cons_of_mem t hu)) _

theorem pendingPopsWithin_eq (h : r.Sound) {bound : Nat} {n : NodeId} {t : Tree}
    (ht : r.Shows n t) (hb : t.size ≤ bound) : r.pendingPopsWithin bound n = .ok t.popCount := by
  induction bound generalizing n t with
  | zero =>
    have := t.size_pos
    omega
  | succ bound ih =>
    have hsound := h.tree_sound ht
    cases ht with
    | @node _ node ts at_n below =>
      rw [pendingPopsWithin, node_of_get? at_n, except_bind_ok]
      by_cases hp : node.effects.pops = true
      · rw [if_pos hp, Tree.popCount]
        refine foldlM_pendingPops below (fun u hu => ih (below.shows u hu) ?_) _
        have := Tree.size_le_sizes hu
        simp only [Tree.size] at hb
        omega
      · rw [Bool.not_eq_true] at hp
        rw [if_neg (by simp [hp]), hsound.popCount_eq_zero hp]
        rfl

/-- The count of pops that skips what the stored effects rule out misses none. -/
theorem Sound.pendingPops_eq (h : r.Sound) {n : NodeId} {t : Tree} (ht : r.Shows n t) :
    r.pendingPops n = .ok t.popCount :=
  pendingPopsWithin_eq h ht (Nat.le_of_lt (h.size_lt_pathBound ht))

theorem anyStackAccess_eq {ts : List Tree} (h : ∀ t ∈ ts, r.Shows t.id t) :
    r.anyStackAccess (ts.map Tree.id) = .ok (ts.any (·.effects.hasStackAccess)) := by
  induction ts with
  | nil => rfl
  | cons t ts ih =>
    have hrest := ih fun u hu => h u (List.mem_cons_of_mem t hu)
    rw [List.map_cons, anyStackAccess, effects_of_shows (h t (List.mem_cons_self ..)), List.any_cons]
    cases ha : t.effects.hasStackAccess with
    | true => simp [ha]
    | false => simpa [ha] using hrest

/-- Whether an operand has to wait is decided as on trees. -/
theorem operandBlocked_eq (h : r.Sound) {stack : List Tree} (hstack : ∀ q ∈ stack, r.Shows q.id q)
    {n : NodeId} {t : Tree} (ht : r.Shows n t) (earlier : Effects) :
    operandBlocked { code := r, stack := stack.map Tree.id } earlier n =
      .ok (Tree.blocked earlier stack t) := by
  have hany : r.anyStackAccess ((stack.take t.popCount).map Tree.id) = _ :=
    anyStackAccess_eq fun q hq => hstack q (List.mem_of_mem_take hq)
  rw [List.map_take] at hany
  rw [operandBlocked, effects_of_shows ht, except_bind_ok, Tree.blocked]
  cases t.effects.pops with
  | false => simp
  | true =>
    cases earlier.peeks with
    | true => simp
    | false =>
      cases earlier.pops with
      | false => simp
      | true => simp [h.pendingPops_eq ht, hany]

/-! ## What filling leaves alone -/

/-- Where the node hangs, if it does. -/
def link (r : Routine) (n : NodeId) : Option Link := (r.bare n).bind Node.parent

theorem link_eq_of_bare_eq {n : NodeId} (h : s.bare n = r.bare n) : s.link n = r.link n := by
  rw [link, link, h]

theorem link_of_get? {n : NodeId} {node : Node} (h : r.get? n = some node) :
    r.link n = node.parent := by
  rw [link, bare_of_get? h]
  rfl

theorem linksTo_iff_link {n : NodeId} {link : Link} : r.LinksTo n link ↔ r.link n = some link := by
  constructor
  · rintro ⟨node, hn, hp⟩
    rw [link_of_get? hn, hp]
  · intro h
    cases hn : r.get? n with
    | none => simp [Routine.link, Routine.bare, hn] at h
    | some node => exact ⟨node, hn, by rw [← link_of_get? hn, h]⟩

theorem free_iff_link {n : NodeId} : r.Free n ↔ r.isLive n = true ∧ r.link n = none := by
  constructor
  · rintro ⟨node, hn, hp⟩
    exact ⟨isLive_iff.mpr ⟨node, hn⟩, (link_of_get? hn).trans hp⟩
  · rintro ⟨hl, hp⟩
    obtain ⟨node, hn⟩ := isLive_iff.mp hl
    exact ⟨node, hn, (link_of_get? hn).symm.trans hp⟩

theorem Free.of_link_eq {n : NodeId} (h : r.Free n) (hlink : s.link n = r.link n)
    (hlive : s.isLive n = true) : s.Free n :=
  free_iff_link.mpr ⟨hlive, hlink.trans (free_iff_link.mp h).2⟩

/-- Filling under a node changed its tree and took producers off the stack; everything else is as
it was, but for stored effects. -/
structure Fills (r s : Routine) (n : NodeId) (nodes : List NodeId) (stack left : List Tree) :
    Prop where
  sound : s.Sound
  size_eq : s.nodes.size = r.nodes.size
  name_eq : s.name = r.name
  body_eq : s.body = r.body
  live_eq : s.live + stack.length = r.live + left.length
  link_eq : s.link n = r.link n
  suffix : left <:+ stack
  bare_eq : ∀ m, m ∉ nodes → (m ∈ stack.map Tree.id → m ∈ left.map Tree.id) → s.bare m = r.bare m

namespace Fills

variable {n : NodeId} {nodes : List NodeId} {stack left : List Tree}

theorem refl (h : r.Sound) : r.Fills r n nodes stack stack :=
  ⟨h, rfl, rfl, rfl, rfl, rfl, List.suffix_refl _, fun _ _ _ => rfl⟩

theorem trans {t : Routine} {more : List NodeId} {mid : List Tree}
    (h : r.Fills s n nodes stack mid) (h' : s.Fills t n more mid left) :
    r.Fills t n (nodes ++ more) stack left where
  sound := h'.sound
  size_eq := h'.size_eq.trans h.size_eq
  name_eq := h'.name_eq.trans h.name_eq
  body_eq := h'.body_eq.trans h.body_eq
  live_eq := by
    have := h.live_eq
    have := h'.live_eq
    omega
  link_eq := h'.link_eq.trans h.link_eq
  suffix := h'.suffix.trans h.suffix
  bare_eq := by
    intro m hm hleft
    rw [List.mem_append, not_or] at hm
    have hmid : m ∈ left.map Tree.id → m ∈ mid.map Tree.id := fun hmem =>
      (h'.suffix.map Tree.id).subset hmem
    have hstack : m ∈ mid.map Tree.id → m ∈ stack.map Tree.id := fun hmem =>
      (h.suffix.map Tree.id).subset hmem
    rw [h'.bare_eq m hm.2 fun hmem => hleft (hstack hmem),
      h.bare_eq m hm.1 fun hmem => hmid (hleft hmem)]

theorem mono {more : List NodeId} (h : r.Fills s n nodes stack left)
    (hsub : ∀ m ∈ nodes, m ∈ more) : r.Fills s n more stack left :=
  { h with bare_eq := fun m hm hleft => h.bare_eq m (fun hmem => hm (hsub m hmem)) hleft }

end Fills

theorem Supplies.notMem_of_notMem {stack : List Tree} {n : NodeId} {q : Tree}
    (hn : n ∉ forestNodes stack) (hq : q ∈ stack) : n ∉ q.nodes :=
  fun hmem => hn (Tree.mem_forestNodes.mpr ⟨q, hq, hmem⟩)

theorem Supplies.notMem_ids {stack : List Tree} {n : NodeId} (hn : n ∉ forestNodes stack) :
    n ∉ stack.map Tree.id := by
  intro hmem
  obtain ⟨q, hq, rfl⟩ := List.mem_map.mp hmem
  exact Supplies.notMem_of_notMem hn hq q.id_mem_nodes

/-- The producers that are left are still there. -/
theorem Supplies.of_fills {stack left : List Tree} {n : NodeId} {t : Tree} {nodes : List NodeId}
    (hr : r.Sound) (hsup : r.Supplies stack) (ht : r.Shows n t) (hn : n ∉ forestNodes stack)
    (h : r.Fills s n nodes stack left) (hnodes : ∀ m ∈ nodes, m ∈ t.nodes) :
    s.Supplies left := by
  have hmem : ∀ q ∈ left, q ∈ stack := fun q hq => h.suffix.subset hq
  have hout : ∀ q ∈ left, ∀ m ∈ q.nodes, m ∉ nodes := fun q hq m hm hin =>
    hr.disjoint_of_free ht (hsup.shows q (hmem q hq)) (hsup.free_of_mem (hmem q hq))
      (notMem_of_notMem hn (hmem q hq)) m hm (hnodes m hin)
  have hleft : ∀ q ∈ left, ∀ m ∈ q.nodes, m ∈ stack.map Tree.id → m ∈ left.map Tree.id :=
    fun q hq m hm hin => by
      rw [hr.eq_id_of_free (hsup.shows q (hmem q hq)) hm (hsup.free.2 m hin)]
      exact List.mem_map_of_mem hq
  exact (hsup.sublist h.suffix.sublist).of_bare_eq hr h.sound fun q hq m hm =>
    h.bare_eq m (hout q hq m hm) (hleft q hq m hm)

/-! ## Filling one operand -/

/-- An edit that goes well leaves the working stack as it is. -/
theorem lift_of_ok {α : Type} {edit : Edit α} {a : α} (h : edit r = .ok a s)
    (stack : List NodeId) : (liftM edit : Fill α) ⟨r, stack⟩ = .ok a ⟨s, stack⟩ := by
  simp [liftM, monadLift, MonadLift.monadLift, h]

theorem lift_ask_of_ok {α : Type} {question : Routine → Except Fault α} {a : α}
    (h : question r = .ok a) (stack : List NodeId) :
    (liftM (ask question) : Fill α) ⟨r, stack⟩ = .ok a ⟨r, stack⟩ :=
  lift_of_ok (ask_of_ok h) stack

/-- The computation fills the node as its tree is filled; a producer that takes the place of a bare
pop is not put anywhere. -/
def FillsAs (r : Routine) (n : NodeId) (t : Tree) (stack : List Tree) (before : Effects)
    (computation : Fill Filled) : Prop :=
  ∃ s, computation ⟨r, stack.map Tree.id⟩ =
      .ok ⟨(t.fill before stack).result.id, (t.fill before stack).finished⟩
        ⟨s, (t.fill before stack).stack.map Tree.id⟩ ∧
    (t.kind = .pop → s = r) ∧
    (t.kind ≠ .pop → r.Fills s n t.nodes stack (t.fill before stack).stack ∧
      s.Shows n (t.fill before stack).result)

/-- Filling single nodes with trees of up to so many nodes is done as on trees. -/
def Computes (filler : Filler) (limit : Nat) : Prop :=
  ∀ (r : Routine) (n : NodeId) (t : Tree) (stack : List Tree) (before : Effects),
    r.Sound → r.Shows n t → r.Supplies stack → n ∉ forestNodes stack → t.size ≤ limit →
    r.FillsAs n t stack before (filler n before)

/-- A node of given operand trees in a sound routine. -/
structure Stands (r : Routine) (n : NodeId) (kind : Kind) (operands : List Tree) : Prop where
  exists_node : ∃ node, r.get? n = some node ∧ node.kind = kind ∧
    node.children = operands.map Tree.id
  shows : ∀ u ∈ operands, r.Shows u.id u

theorem Sound.stands_iff (h : r.Sound) {n : NodeId} {kind : Kind} {operands : List Tree} :
    r.Stands n kind operands ↔ r.Shows n (.atop n kind operands) := by
  constructor
  · rintro ⟨⟨node, hn, rfl, hchildren⟩, hshows⟩
    exact h.shows_atop hn (hchildren ▸ showsAll_of_shows hshows)
  · intro ht
    obtain ⟨node, ts, hn, hts, heq⟩ := h.shows_cases ht
    simp only [Tree.atop, Tree.node.injEq, true_and] at heq
    obtain ⟨rfl, -, rfl⟩ := heq
    exact ⟨⟨node, hn, rfl, hts.map_id.symm⟩, hts.shows⟩

theorem mem_of_sibling {pre post : List Tree} {u c : Tree} (hu : u ∈ pre ++ post) :
    u ∈ pre ++ c :: post :=
  ((List.sublist_cons_self c post).append_left pre).subset hu

theorem forall_mem_splice {p : Tree → Prop} {pre post : List Tree} {c : Tree}
    (hothers : ∀ u ∈ pre ++ post, p u) (hc : p c) : ∀ u ∈ pre ++ c :: post, p u := by
  rw [List.forall_mem_append] at hothers ⊢
  exact ⟨hothers.1, List.forall_mem_cons.mpr ⟨hc, hothers.2⟩⟩

namespace Stands

variable {n : NodeId} {kind : Kind} {pre post : List Tree} {c : Tree}

theorem hasChild (h : r.Stands n kind (pre ++ c :: post)) : r.HasChild n pre.length c.id := by
  obtain ⟨node, hn, -, hchildren⟩ := h.exists_node
  refine ⟨node, hn, ?_⟩
  rw [hchildren]
  simp

/-- The node itself is under none of its operands. -/
theorem notMem_nodes (hr : r.Sound) {operands : List Tree} (h : r.Stands n kind operands)
    {u : Tree} (hu : u ∈ operands) : n ∉ u.nodes := by
  intro hmem
  obtain ⟨pre, post, rfl⟩ := List.append_of_mem hu
  exact hr.not_under_child h.hasChild ((h.shows u hu).under hmem)

/-- No node under an operand is free. -/
theorem not_free (hr : r.Sound) {operands : List Tree} (h : r.Stands n kind operands) {u : Tree}
    (hu : u ∈ operands) {m : NodeId} (hm : m ∈ u.nodes) : ¬ r.Free m := by
  intro hf
  obtain ⟨pre, post, rfl⟩ := List.append_of_mem hu
  obtain rfl := hr.eq_id_of_free (h.shows u hu) hm hf
  exact hf.not_linksTo (hr.down n _ _ h.hasChild)

/-- The trees of different operands share no node. -/
theorem disjoint (hr : r.Sound) (h : r.Stands n kind (pre ++ c :: post)) {u : Tree}
    (hu : u ∈ pre ++ post) : ∀ m ∈ u.nodes, m ∉ c.nodes := by
  have hnodup := hr.nodes_nodup (hr.stands_iff.mp h)
  have hforest : (forestNodes (pre ++ c :: post)).Nodup := by
    rw [Tree.atop, Tree.nodes] at hnodup
    exact (List.nodup_append.mp hnodup).1
  rw [Tree.forestNodes_append, forestNodes, List.nodup_append, List.nodup_append] at hforest
  obtain ⟨-, ⟨-, -, hlater⟩, hearlier⟩ := hforest
  intro m hm hmc
  rcases List.mem_append.mp hu with hu | hu
  · exact hearlier m (Tree.mem_forestNodes.mpr ⟨u, hu, hm⟩) m (List.mem_append_left _ hmc) rfl
  · exact hlater m hmc m (Tree.mem_forestNodes.mpr ⟨u, hu, hm⟩) rfl

/-- A node outside the producers has its operands outside them too. -/
theorem notMem_supplies (hr : r.Sound) (h : r.Stands n kind (pre ++ c :: post))
    {stack : List Tree} (hsup : r.Supplies stack) (hn : n ∉ forestNodes stack) :
    c.id ∉ forestNodes stack := by
  intro hmem
  obtain ⟨q, hq, hin⟩ := Tree.mem_forestNodes.mp hmem
  have hl := hr.down n _ _ h.hasChild
  have := (hr.mem_nodes_iff_of_linksTo (hsup.shows q hq) (hsup.free_of_mem hq) hl).mp hin
  exact hn (Tree.mem_forestNodes.mpr ⟨q, hq, this⟩)

end Stands

/-- Another tree at an operand makes the node stand over that tree, if the node itself and the trees
beside it are as they were. -/
theorem Stands.of_operand (hr : r.Sound) (hs : s.Sound) {n : NodeId} {kind : Kind}
    {pre post : List Tree} {c c' : Tree} (h : r.Stands n kind (pre ++ c :: post))
    (hid : c'.id = c.id) (hc : s.Shows c.id c') (hn : s.bare n = r.bare n)
    (hbeside : ∀ u ∈ pre ++ post, ∀ m ∈ u.nodes, s.bare m = r.bare m) :
    s.Stands n kind (pre ++ c' :: post) := by
  obtain ⟨node, hget, hkind, hchildren⟩ := h.exists_node
  obtain ⟨effects, hs'⟩ := get?_of_bare_eq hget hn
  refine ⟨⟨_, hs', hkind, ?_⟩, forall_mem_splice (fun u hu => ?_) (hid ▸ hc)⟩
  · rw [hchildren]
    simp [hid]
  · exact hs.shows_of_shape hr (h.shows u (mem_of_sibling hu)) fun m hm =>
      shape_of_bare_eq (hbeside u hu m hm)

/-- Filling an operand that is not a bare pop leaves it in its slot. -/
theorem stands_of_fills (hr : r.Sound) {n : NodeId} {kind : Kind} {pre post : List Tree} {c c' : Tree}
    {stack left : List Tree} (h : r.Stands n kind (pre ++ c :: post)) (hsup : r.Supplies stack)
    (hn : n ∉ forestNodes stack) (hid : c'.id = c.id)
    (hf : r.Fills s c.id c.nodes stack left) (hc : s.Shows c.id c') :
    r.Fills s n (n :: c.nodes) stack left ∧ s.Stands n kind (pre ++ c' :: post) := by
  have hbare : s.bare n = r.bare n := by
    refine hf.bare_eq n (h.notMem_nodes hr (by simp)) fun hmem => ?_
    exact absurd hmem (Supplies.notMem_ids hn)
  have hbeside : ∀ u ∈ pre ++ post, ∀ m ∈ u.nodes, s.bare m = r.bare m := by
    intro u hu m hm
    refine hf.bare_eq m (h.disjoint hr hu m hm) fun hin => ?_
    exact absurd (hsup.free.2 m hin) (h.not_free hr (mem_of_sibling hu) hm)
  exact ⟨⟨hf.sound, hf.size_eq, hf.name_eq, hf.body_eq, hf.live_eq, link_eq_of_bare_eq hbare,
    hf.suffix, fun m hm hleft => hf.bare_eq m (fun hmem => hm (List.mem_cons_of_mem n hmem)) hleft⟩,
    h.of_operand hr hf.sound hid hc hbare hbeside⟩

/-- A free node has taken the place of an operand, whose tree is gone; besides that tree and the
free node only the node above them changed. -/
structure Swapped (r s : Routine) (n : NodeId) (slot : Nat) (old : Tree) (c : NodeId) : Prop where
  sound : s.Sound
  size_eq : s.nodes.size = r.nodes.size
  name_eq : s.name = r.name
  body_eq : s.body = r.body
  live_eq : s.live + old.size = r.live
  parent_eq : ∀ node, r.get? n = some node →
    s.bare n = some ({ node with children := node.children.set slot c } : Node).bare
  bare_eq : ∀ m, m ≠ n → m ∉ old.nodes → m ≠ c → s.bare m = r.bare m
  shape_eq : ∀ m, m ≠ n → m ∉ old.nodes → s.shape m = r.shape m

/-- Putting a free node into a slot swaps it for the tree that was there. -/
theorem setChild_swapped (hr : r.Sound) {n c : NodeId} {slot : Nat} {t : Tree}
    (hfits : r.Fits n slot t.id c) (ht : r.Shows t.id t) :
    ∃ s, setChild n slot c r = .ok () s ∧ r.Swapped s n slot t c := by
  have hview := hfits.get?_relink hr.toStructured
  obtain ⟨s, hrun, hsound, hbare, hsize, hlive, hname, hbody⟩ := setChild_ok hr hfits ht
  have hout : n ∉ t.nodes := fun hm => hr.not_under_child hfits.sits (ht.under hm)
  have hold : n ≠ t.id := hfits.parent_ne_old hr.toStructured
  have hnew : n ≠ c := hfits.parent_ne_child
  have hrelink : ∀ m, m ∉ t.nodes → s.bare m = (r.relink n slot t.id c).bare m := by
    intro m hm
    rw [hbare, if_neg hm]
  have hne : ∀ m, m ∉ t.nodes → m ≠ t.id := fun m hm heq => hm (heq ▸ t.id_mem_nodes)
  refine ⟨s, hrun, hsound, hsize, hname, hbody, ?_, ?_, ?_, ?_⟩
  · have hle := hr.size_le_live ht
    rw [hlive, t.length_nodes]
    omega
  · intro node hget
    rw [hrelink n hout, bare, hview, hget]
    simp [hold, hnew, Node.bare]
  · intro m hmn hmt hmc
    rw [hrelink m hmt, bare, hview, Option.map_map, bare]
    simp [Function.comp_def, hmn, hne m hmt, hmc]
  · intro m hmn hmt
    rw [shape_of_bare_eq (hrelink m hmt), shape, hview, Option.map_map, shape]
    simp [Function.comp_def, hmn]

namespace Swapped

variable {n : NodeId} {kind : Kind} {pre post : List Tree} {c top : Tree}

theorem link_eq (h : r.Stands n kind (pre ++ c :: post))
    (hs : r.Swapped s n pre.length c top.id) : s.link n = r.link n := by
  obtain ⟨node, hget, -⟩ := h.exists_node
  rw [link, hs.parent_eq node hget, link_of_get? hget]
  rfl

/-- The node above stands over the tree that was put there. -/
theorem stands (hr : r.Sound) (h : r.Stands n kind (pre ++ c :: post))
    (hs : r.Swapped s n pre.length c top.id) (htop : r.Shows top.id top) (hn : n ∉ top.nodes)
    (hapart : ∀ m ∈ top.nodes, m ∉ c.nodes) : s.Stands n kind (pre ++ top :: post) := by
  obtain ⟨node, hget, hkind, hchildren⟩ := h.exists_node
  obtain ⟨node', hget', hnode'⟩ := Option.map_eq_some_iff.mp (hs.parent_eq node hget)
  have hkept : ∀ u, r.Shows u.id u → n ∉ u.nodes → (∀ m ∈ u.nodes, m ∉ c.nodes) →
      s.Shows u.id u := by
    intro u hu hnu hcu
    refine hs.sound.shows_of_shape hr hu fun m hm => hs.shape_eq m ?_ (hcu m hm)
    rintro rfl
    exact hnu hm
  refine ⟨⟨node', hget', (congrArg Node.kind hnode').trans hkind, ?_⟩,
    forall_mem_splice (fun u hu => ?_) (hkept top htop hn hapart)⟩
  · refine (congrArg Node.children hnode').trans ?_
    show node.children.set pre.length top.id = _
    rw [hchildren]
    simp
  · have hmem : u ∈ pre ++ c :: post := mem_of_sibling hu
    exact hkept u (h.shows u hmem) (h.notMem_nodes hr hmem) (h.disjoint hr hu)

end Swapped

/-- A producer takes the place of a bare pop. -/
theorem stands_of_set (hr : r.Sound) {n : NodeId} {kind : Kind} {pre post left : List Tree}
    {c top : Tree} (h : r.Stands n kind (pre ++ c :: post)) (hsup : r.Supplies (top :: left))
    (hn : n ∉ forestNodes (top :: left)) (hc : c.children = []) :
    ∃ s, setChild n pre.length top.id r = .ok () s ∧
      r.Fills s n (n :: c.nodes) (top :: left) left ∧ s.Stands n kind (pre ++ top :: post) := by
  have htop : r.Free top.id := hsup.free_of_mem (List.mem_cons_self ..)
  have hshows : r.Shows top.id top := hsup.shows top (List.mem_cons_self ..)
  have hout : n ∉ top.nodes := Supplies.notMem_of_notMem hn (List.mem_cons_self ..)
  have hcout := h.notMem_supplies hr hsup hn
  have hfits : r.Fits n pre.length c.id top.id :=
    ⟨h.hasChild, htop, fun hu => hout (hshows.mem_nodes_iff.mpr hu)⟩
  have hnodes : c.nodes = [c.id] := Tree.nodes_of_leaf hc
  have hsize : c.size = 1 := by
    rw [← c.length_nodes, hnodes]
    rfl
  obtain ⟨s, hrun, hs⟩ := setChild_swapped hr hfits (h.shows c (by simp))
  refine ⟨s, hrun, ⟨hs.sound, hs.size_eq, hs.name_eq, hs.body_eq, ?_, hs.link_eq h,
    List.suffix_cons top left, ?_⟩, hs.stands hr h hshows hout ?_⟩
  · have hlive := hs.live_eq
    rw [List.length_cons]
    omega
  · intro m hm hleft
    rw [List.mem_cons, not_or] at hm
    refine hs.bare_eq m hm.1 hm.2 ?_
    rintro rfl
    exact (List.nodup_cons.mp hsup.free.1).1 (hleft (List.mem_cons_self ..))
  · intro m hm hmc
    rw [hnodes, List.mem_singleton] at hmc
    exact hcout (Tree.mem_forestNodes.mpr ⟨top, List.mem_cons_self .., hmc ▸ hm⟩)

/-- Filling one operand of a node puts into its slot what filling makes of its tree. -/
theorem fillSlot_eq {filler : Filler} {limit : Nat} (hfiller : Computes filler limit)
    (hr : r.Sound) {n : NodeId} {kind : Kind} {pre post stack : List Tree} {c : Tree}
    (h : r.Stands n kind (pre ++ c :: post)) (hsup : r.Supplies stack)
    (hn : n ∉ forestNodes stack) (hc : c.size ≤ limit) (before : Effects) :
    ∃ s, fillSlot filler n pre.length c.id before ⟨r, stack.map Tree.id⟩ =
        .ok (c.fill before stack).finished ⟨s, (c.fill before stack).stack.map Tree.id⟩ ∧
      r.Fills s n (n :: c.nodes) stack (c.fill before stack).stack ∧
      s.Stands n kind (pre ++ (c.fill before stack).result :: post) := by
  have hcshows : r.Shows c.id c := h.shows c (by simp)
  obtain ⟨q, hrun, hpop, hfill⟩ := hfiller r c.id c stack before hr hcshows hsup
    (h.notMem_supplies hr hsup hn) hc
  by_cases hk : c.kind = .pop
  · obtain rfl := hpop hk
    rcases Tree.fill_pop_cases before stack hk with
      ⟨hresult, hstack, hfinished⟩ | ⟨top, hstack, hresult, hfinished, -⟩
    · rw [hresult, hstack, hfinished] at hrun ⊢
      refine ⟨q, ?_, .refl hr, h⟩
      have hsame := setChild_same hr.toStructured h.hasChild
      rw [fillSlot, run_bind_of_ok hrun, run_bind_of_ok (lift_of_ok hsame _)]
      rfl
    · rw [hresult, hfinished] at hrun ⊢
      generalize (c.fill before stack).stack = left at hrun hstack ⊢
      subst hstack
      have hnil : c.children = [] := (hr.tree_sound hcshows).children_eq_nil (Or.inl hk)
      obtain ⟨s, hset, hfills, hstands⟩ := stands_of_set hr h hsup hn hnil
      refine ⟨s, ?_, hfills, hstands⟩
      rw [fillSlot, run_bind_of_ok hrun, run_bind_of_ok (lift_of_ok hset _)]
      rfl
  · obtain ⟨hfills, hresult⟩ := hfill hk
    have hid : (c.fill before stack).result.id = c.id := Tree.id_fill hk
    obtain ⟨hfills', hstands⟩ := stands_of_fills hr h hsup hn hid hfills hresult
    refine ⟨q, ?_, hfills', hstands⟩
    have hsame := setChild_same hfills'.sound.toStructured hstands.hasChild
    rw [fillSlot, run_bind_of_ok hrun, run_bind_of_ok (lift_of_ok hsame _)]
    rfl

/-! ## Filling the operands -/

theorem askWorkspace_of_ok {α : Type} {question : Workspace → Except Fault α} {w : Workspace}
    {a : α} (h : question w = .ok a) : askWorkspace question w = .ok a w := by
  simp [askWorkspace, h]

/-- What filling the last of some operands makes of them all. -/
theorem fillAll_concat (before : Effects) (stack : List Tree) (ts : List Tree) (t : Tree) :
    Tree.fillAll ∅ before stack (ts ++ [t]) =
      let later := Tree.fillFirst (effectsAll ts) before t ⟨[], stack, true⟩
      if later.finished then
        let first := Tree.fillAll ∅ before later.stack ts
        ⟨first.result ++ later.result, first.stack, first.finished⟩
      else ⟨ts ++ later.result, later.stack, false⟩ := by
  rw [Tree.fillAll_append, Effects.empty_union, Tree.fillAll_cons, Tree.fillAll_nil]

/-- The trees that one operand took are no longer there, and the rest may go on from what is left. -/
theorem Supplies.next (hr : r.Sound) {n : NodeId} {kind : Kind} {operands stack left : List Tree}
    {nodes : List NodeId} (h : r.Stands n kind operands) (hsup : r.Supplies stack)
    (hn : n ∉ forestNodes stack) (hf : r.Fills s n nodes stack left)
    (hnodes : ∀ m ∈ nodes, m = n ∨ m ∈ forestNodes operands) :
    s.Supplies left ∧ n ∉ forestNodes left := by
  refine ⟨hsup.of_fills hr (hr.stands_iff.mp h) hn hf fun m hm => ?_, fun hmem => ?_⟩
  · simp only [Tree.atop, Tree.nodes, List.mem_append, List.mem_singleton]
    exact (hnodes m hm).symm
  · obtain ⟨q, hq, hin⟩ := Tree.mem_forestNodes.mp hmem
    exact hn (Tree.mem_forestNodes.mpr ⟨q, hf.suffix.subset hq, hin⟩)

/-- Operands are filled from the last to the first, as on trees. -/
theorem fillOperandsFrom_eq {filler : Filler} {limit : Nat} (hfiller : Computes filler limit)
    {n : NodeId} {kind : Kind} (before : Effects) {pre : List Tree}
    (hpre : ∀ c ∈ pre, c.size ≤ limit) {r : Routine} {post stack : List Tree} (hr : r.Sound)
    (h : r.Stands n kind (pre ++ post)) (hsup : r.Supplies stack) (hn : n ∉ forestNodes stack) :
    ∃ s, fillOperandsFrom filler n before (pre.map Tree.id).reverse ⟨r, stack.map Tree.id⟩ =
        .ok ⟨n, (Tree.fillAll ∅ before stack pre).finished⟩
          ⟨s, (Tree.fillAll ∅ before stack pre).stack.map Tree.id⟩ ∧
      r.Fills s n (n :: forestNodes pre) stack (Tree.fillAll ∅ before stack pre).stack ∧
      s.Stands n kind ((Tree.fillAll ∅ before stack pre).result ++ post) := by
  induction pre using List.reverseRecOn generalizing r post stack with
  | nil => exact ⟨r, by simp [fillOperandsFrom], .refl hr, h⟩
  | append_singleton pre c ih =>
    rw [List.append_assoc, List.singleton_append] at h
    have hc : r.Shows c.id c := h.shows c (by simp)
    have hpre' : ∀ u ∈ pre, u.size ≤ limit := fun u hu => hpre u (by simp [hu])
    have hsummary : r.unionEffects ∅ (pre.map Tree.id) = .ok (effectsAll pre) := by
      rw [unionEffects_of_showsAll (showsAll_of_shows fun u hu => h.shows u (by simp [hu])),
        Effects.empty_union]
    have hnodes : ∀ m, m ∈ n :: forestNodes (pre ++ [c]) ↔
        m ∈ n :: c.nodes ∨ m ∈ n :: forestNodes pre := by
      intro m
      simp only [Tree.forestNodes_append, forestNodes, List.mem_cons, List.mem_append,
        List.append_nil]
      tauto
    have hown := effects_of_shows hc
    have hblock := operandBlocked_eq hr hsup.shows hc (effectsAll pre)
    rw [List.map_append, List.reverse_append, List.map_singleton, List.reverse_singleton,
      List.singleton_append, fillOperandsFrom, run_bind_of_ok (lift_ask_of_ok hown _),
      fillAll_concat]
    rcases Tree.fillFirst_cases (effectsAll pre) before c ⟨[], stack, true⟩ with
      ⟨hlater, -⟩ | ⟨-, haccess, heq⟩ | ⟨-, haccess, hblocked, heq⟩ | ⟨-, haccess, hblocked, heq⟩
    · cases hlater
    · obtain ⟨s, hrun, hfills, hstands⟩ := ih hpre' hr h hsup hn
      rw [heq]
      refine ⟨s, by simpa [haccess] using hrun,
        hfills.mono fun m hm => (hnodes m).mpr (Or.inr hm), ?_⟩
      simpa using hstands
    · rw [heq]
      rw [hblocked] at hblock
      refine ⟨r, ?_, .refl hr, by simpa using h⟩
      rw [if_pos haccess, List.reverse_reverse, run_bind_of_ok (lift_ask_of_ok hsummary _),
        run_bind_of_ok (askWorkspace_of_ok hblock)]
      rfl
    · rw [heq]
      rw [hblocked] at hblock
      obtain ⟨q, hrun, hfills, hstands⟩ := fillSlot_eq hfiller hr h hsup hn (hpre c (by simp))
        (before ∪ (effectsAll pre).withoutStackAccess)
      rw [if_pos haccess, List.reverse_reverse, run_bind_of_ok (lift_ask_of_ok hsummary _),
        run_bind_of_ok (askWorkspace_of_ok hblock)]
      have hlength : (pre.map Tree.id).reverse.length = pre.length := by simp
      rw [← hlength] at hrun
      simp only [Bool.false_eq_true, if_false]
      rw [run_bind_of_ok hrun]
      obtain ⟨hleft, hout⟩ := hsup.next hr h hn hfills fun m hm => by
        rcases List.mem_cons.mp hm with rfl | hm
        · exact Or.inl rfl
        · exact Or.inr (Tree.mem_forestNodes.mpr ⟨c, by simp, hm⟩)
      cases hfinished : (c.fill (before ∪ (effectsAll pre).withoutStackAccess) stack).finished with
      | false =>
        refine ⟨q, rfl, hfills.mono fun m hm => (hnodes m).mpr (Or.inl hm), ?_⟩
        simpa using hstands
      | true =>
        obtain ⟨s, hrest, hfills', hstands'⟩ := ih hpre' hfills.sound hstands hleft hout
        refine ⟨s, hrest, (hfills.trans hfills').mono fun m hm => ?_, ?_⟩
        · exact (hnodes m).mpr (List.mem_append.mp hm)
        · simpa using hstands'

/-! ## Filling two operands -/

/-- The first of two operands is filled like the last one that is left. -/
theorem fillLeft_eq {filler : Filler} {limit : Nat} (hfiller : Computes filler limit)
    (hr : r.Sound) {n : NodeId} {kind : Kind} {a : Tree} {post stack : List Tree}
    (before : Effects) (ha : a.size ≤ limit) (h : r.Stands n kind (a :: post))
    (hsup : r.Supplies stack) (hn : n ∉ forestNodes stack) :
    ∃ s, fillLeft filler n a.id a.effects before ⟨r, stack.map Tree.id⟩ =
        .ok ⟨n, (Tree.fillAll ∅ before stack [a]).finished⟩
          ⟨s, (Tree.fillAll ∅ before stack [a]).stack.map Tree.id⟩ ∧
      r.Fills s n (n :: a.nodes) stack (Tree.fillAll ∅ before stack [a]).stack ∧
      s.Stands n kind ((Tree.fillAll ∅ before stack [a]).result ++ post) := by
  rw [fillLeft, Tree.fillAll_cons, Tree.fillAll_nil]
  cases haccess : a.effects.hasStackAccess with
  | false =>
    have heq : Tree.fillFirst ∅ before a ⟨[], stack, true⟩ = ⟨[a], stack, true⟩ := by
      simp [Tree.fillFirst, haccess]
    rw [heq]
    exact ⟨r, rfl, .refl hr, h⟩
  | true =>
    have heq : Tree.fillFirst ∅ before a ⟨[], stack, true⟩ =
        ⟨[(a.fill before stack).result], (a.fill before stack).stack,
          (a.fill before stack).finished⟩ := by
      simp [Tree.fillFirst, haccess, Tree.blocked]
    rw [heq]
    have hfirst : r.Stands n kind ([] ++ a :: post) := h
    obtain ⟨s, hrun, hfills, hstands⟩ := fillSlot_eq hfiller hr hfirst hsup hn ha before
    refine ⟨s, ?_, hfills, hstands⟩
    rw [if_pos rfl]
    simp only [List.length_nil] at hrun
    rw [run_bind_of_ok hrun]
    rfl

/-- A node with two operands is filled like any other one. -/
theorem fillBinary_eq {filler : Filler} {limit : Nat} (hfiller : Computes filler limit)
    (hr : r.Sound) {n : NodeId} {kind : Kind} {a b : Tree} {stack : List Tree} (before : Effects)
    (ha : a.size ≤ limit) (hb : b.size ≤ limit) (h : r.Stands n kind [a, b])
    (hsup : r.Supplies stack) (hn : n ∉ forestNodes stack) :
    ∃ s, fillBinary filler n before ⟨r, stack.map Tree.id⟩ =
        .ok ⟨n, (Tree.fillAll ∅ before stack [a, b]).finished⟩
          ⟨s, (Tree.fillAll ∅ before stack [a, b]).stack.map Tree.id⟩ ∧
      r.Fills s n (n :: forestNodes [a, b]) stack (Tree.fillAll ∅ before stack [a, b]).stack ∧
      s.Stands n kind (Tree.fillAll ∅ before stack [a, b]).result := by
  have hfirst : r.Stands n kind ([] ++ a :: [b]) := h
  have hsecond : r.Stands n kind ([a] ++ b :: []) := h
  have hleft := child_of_hasChild hfirst.hasChild
  have hright := child_of_hasChild hsecond.hasChild
  have heffectsLeft := effects_of_shows (h.shows a (by simp))
  have hbshows := h.shows b (by simp)
  have hblock := operandBlocked_eq hr hsup.shows hbshows a.effects
  have hnodes : ∀ m, m ∈ n :: forestNodes [a, b] ↔ m ∈ n :: b.nodes ∨ m ∈ n :: a.nodes := by
    intro m
    simp only [forestNodes, List.mem_cons, List.mem_append, List.append_nil]
    tauto
  have hconcat := fillAll_concat before stack [a] b
  simp only [List.singleton_append, effectsAll, Effects.union_empty] at hconcat
  rw [fillBinary, run_bind_of_ok (lift_ask_of_ok hleft _),
    run_bind_of_ok (lift_ask_of_ok hright _), run_bind_of_ok (lift_ask_of_ok heffectsLeft _),
    run_bind_of_ok (lift_ask_of_ok (effects_of_shows hbshows) _), hconcat]
  rcases Tree.fillFirst_cases a.effects before b ⟨[], stack, true⟩ with
    ⟨hlater, -⟩ | ⟨-, haccess, heq⟩ | ⟨-, haccess, hblocked, heq⟩ | ⟨-, haccess, hblocked, heq⟩
  · cases hlater
  · rw [heq, haccess]
    obtain ⟨s, hrun, hfills, hstands⟩ := fillLeft_eq hfiller hr before ha h hsup hn
    exact ⟨s, hrun, hfills.mono fun m hm => (hnodes m).mpr (Or.inr hm), hstands⟩
  · rw [hblocked] at hblock
    rw [heq, if_pos haccess, run_bind_of_ok (askWorkspace_of_ok hblock)]
    exact ⟨r, rfl, .refl hr, h⟩
  · rw [hblocked] at hblock
    obtain ⟨q, hrun, hfills, hstands⟩ := fillSlot_eq hfiller hr hsecond hsup hn hb
      (before ∪ a.effects.withoutStackAccess)
    simp only [List.length_singleton] at hrun
    rw [heq, if_pos haccess, run_bind_of_ok (askWorkspace_of_ok hblock)]
    simp only [Bool.false_eq_true, if_false]
    rw [run_bind_of_ok hrun]
    obtain ⟨hleft, hout⟩ := hsup.next hr h hn hfills fun m hm => by
      rcases List.mem_cons.mp hm with rfl | hm
      · exact Or.inl rfl
      · exact Or.inr (Tree.mem_forestNodes.mpr ⟨b, by simp, hm⟩)
    cases hfinished : (b.fill (before ∪ a.effects.withoutStackAccess) stack).finished with
    | false => exact ⟨q, rfl, hfills.mono fun m hm => (hnodes m).mpr (Or.inl hm), hstands⟩
    | true =>
      obtain ⟨s, hrest, hfills', hstands'⟩ :=
        fillLeft_eq hfiller hfills.sound before ha hstands hleft hout
      refine ⟨s, hrest, (hfills.trans hfills').mono fun m hm => ?_, hstands'⟩
      exact (hnodes m).mpr (List.mem_append.mp hm)

/-! ## Filling a node -/

theorem fillPop_eq {n : NodeId} {t : Tree} {stack : List Tree} (before : Effects)
    (ht : r.Shows n t) (hk : t.kind = .pop) (hstack : ∀ q ∈ stack, r.Shows q.id q) :
    fillPop n before ⟨r, stack.map Tree.id⟩ =
      .ok ⟨(t.fill before stack).result.id, (t.fill before stack).finished⟩
        ⟨r, (t.fill before stack).stack.map Tree.id⟩ := by
  have hid := ht.id_eq
  obtain ⟨id, kind, e, cs⟩ := t
  obtain rfl : kind = .pop := hk
  obtain rfl : id = n := hid
  cases stack with
  | nil => rfl
  | cons top rest =>
    have htop := effects_of_shows (hstack top (List.mem_cons_self ..))
    rw [Tree.fill_pop_cons, fillPop, run_bind, run_get]
    simp only [List.map_cons]
    rw [run_bind_of_ok (lift_ask_of_ok htop _)]
    cases hm : mayReorder before top.effects with
    | true => rfl
    | false => rfl

/-- All operands are filled, whatever their number. -/
theorem fillOperands_eq {filler : Filler} {limit : Nat} (hfiller : Computes filler limit)
    (hr : r.Sound) {n : NodeId} {kind : Kind} {operands stack : List Tree} (before : Effects)
    (hsize : ∀ c ∈ operands, c.size ≤ limit) (h : r.Stands n kind operands)
    (hsup : r.Supplies stack) (hn : n ∉ forestNodes stack) :
    ∃ s, fillOperands filler n before ⟨r, stack.map Tree.id⟩ =
        .ok ⟨n, (Tree.fillAll ∅ before stack operands).finished⟩
          ⟨s, (Tree.fillAll ∅ before stack operands).stack.map Tree.id⟩ ∧
      r.Fills s n (n :: forestNodes operands) stack
        (Tree.fillAll ∅ before stack operands).stack ∧
      s.Stands n kind (Tree.fillAll ∅ before stack operands).result := by
  have hall : r.Stands n kind (operands ++ []) := by rwa [List.append_nil]
  obtain ⟨node, hget, -, hchildren⟩ := h.exists_node
  have hask : r.children n = .ok (operands.map Tree.id) := by
    rw [Routine.children, node_of_get? hget, ← hchildren]
    rfl
  obtain ⟨s, hrun, hfills, hstands⟩ :=
    fillOperandsFrom_eq hfiller before hsize hr hall hsup hn
  refine ⟨s, ?_, hfills, by simpa using hstands⟩
  rw [fillOperands, run_bind_of_ok (lift_ask_of_ok hask _), hrun]

theorem FillsAs.congr {n : NodeId} {t : Tree} {stack : List Tree} {before : Effects}
    {computation other : Fill Filled} (h : r.FillsAs n t stack before computation)
    (heq : other ⟨r, stack.map Tree.id⟩ = computation ⟨r, stack.map Tree.id⟩) :
    r.FillsAs n t stack before other := by
  rw [FillsAs, heq]
  exact h

/-- A node whose operands are filled is filled. -/
theorem fillsAs_of_operands {n : NodeId} {kind : Kind} {operands stack : List Tree}
    {before : Effects} {computation : Fill Filled} (hk : kind.isComposite = true)
    (h : ∃ s, computation ⟨r, stack.map Tree.id⟩ =
        .ok ⟨n, (Tree.fillAll ∅ before stack operands).finished⟩
          ⟨s, (Tree.fillAll ∅ before stack operands).stack.map Tree.id⟩ ∧
      r.Fills s n (n :: forestNodes operands) stack
        (Tree.fillAll ∅ before stack operands).stack ∧
      s.Stands n kind (Tree.fillAll ∅ before stack operands).result) :
    r.FillsAs n (.atop n kind operands) stack before computation := by
  obtain ⟨s, hrun, hfills, hstands⟩ := h
  have hfill : (Tree.atop n kind operands).fill before stack = _ := Tree.fill_composite hk
  refine ⟨s, ?_, fun hpop => ?_, fun _ => ?_⟩
  · rw [hfill]
    exact hrun
  · obtain rfl : kind = .pop := hpop
    cases hk
  · rw [hfill]
    refine ⟨hfills.mono fun m hm => ?_, hfills.sound.stands_iff.mp hstands⟩
    simp only [Tree.atop, Tree.nodes, List.mem_append, List.mem_singleton]
    exact (List.mem_cons.mp hm).symm

/-- A node that nothing is done about is filled if its tree stays as it is. -/
theorem fillsAs_of_same (hr : r.Sound) {n : NodeId} {t : Tree} {stack : List Tree}
    {before : Effects} {computation : Fill Filled} (ht : r.Shows n t) {finished : Bool}
    (hfill : t.fill before stack = ⟨t, stack, finished⟩)
    (hrun : computation ⟨r, stack.map Tree.id⟩ = .ok ⟨n, finished⟩ ⟨r, stack.map Tree.id⟩) :
    r.FillsAs n t stack before computation := by
  refine ⟨r, ?_, fun _ => rfl, fun _ => ?_⟩
  · rw [hfill, ht.id_eq]
    exact hrun
  · rw [hfill]
    exact ⟨.refl hr, ht⟩

/-- Every kind of node is filled as on trees. -/
theorem computes_fillWithin (bound : Nat) : Computes (fillWithin bound) bound := by
  induction bound with
  | zero =>
    intro r n t stack before hr ht hsup hn hb
    have := t.size_pos
    omega
  | succ bound ih =>
    intro r n t stack before hr ht hsup hn hb
    have hask : (liftM (ask (·.kind n)) : Fill Kind) ⟨r, stack.map Tree.id⟩ = _ :=
      lift_ask_of_ok (kind_of_shows ht) _
    have hsound := hr.tree_sound ht
    have harity := hsound.arity
    obtain ⟨id, kind, e, operands⟩ := t
    obtain rfl : id = n := ht.id_eq
    have heq : Tree.node id kind e operands = .atop id kind operands := hsound.eq_atop
    have hstands := hr.stands_iff.mpr (heq ▸ ht)
    have hsize : ∀ c ∈ operands, c.size ≤ bound := by
      intro c hc
      have := Tree.size_le_sizes hc
      simp only [Tree.size] at hb
      omega
    refine FillsAs.congr ?_ (by rw [fillWithin, run_bind_of_ok hask])
    cases kind with
    | pop => exact ⟨r, fillPop_eq before ht rfl hsup.shows, fun _ => rfl, fun h => absurd rfl h⟩
    | peek =>
      refine fillsAs_of_same hr ht Tree.fill_peek ?_
      cases stack <;> rfl
    | const v => exact fillsAs_of_same hr ht (Tree.fill_leaf rfl nofun nofun) rfl
    | load slot => exact fillsAs_of_same hr ht (Tree.fill_leaf rfl nofun nofun) rfl
    | binary op =>
      obtain ⟨a, b, rfl⟩ : ∃ a b, operands = [a, b] :=
        List.length_eq_two.mp (by simpa [Tree.kind, Tree.children, Kind.accepts] using harity)
      rw [heq]
      exact fillsAs_of_operands rfl
        (fillBinary_eq ih hr before (hsize a (by simp)) (hsize b (by simp)) hstands hsup hn)
    | unary | store | call | ret =>
      rw [heq]
      exact fillsAs_of_operands rfl (fillOperands_eq ih hr before hsize hstands hsup hn)

/-- Filling a node of a sound routine does not fail, and it does what filling its tree does. -/
theorem fill_eq (hr : r.Sound) {n : NodeId} {t : Tree} {stack : List Tree} (ht : r.Shows n t)
    (hsup : r.Supplies stack) (hn : n ∉ forestNodes stack) (before : Effects) :
    r.FillsAs n t stack before (fill n before) :=
  computes_fillWithin r.pathBound r n t stack before hr ht hsup hn
    (Nat.le_of_lt (hr.size_lt_pathBound ht))

end Routine

end StackTree
