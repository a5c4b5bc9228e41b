import StackTree.Proofs.Folding.OnTrees
import StackTree.Proofs.Nesting.Simulation

/-!
# Folding a routine computes folding on trees

On a sound routine with room for the constants that are made, folding never fails, and it does to
the tree under a node what `Tree.fold` does (`fold_eq`). A node whose operands are folded is
still in its place; if it computes a constant, that constant is a new node that hangs nowhere, and
the caller puts it into the slot of the node, whose tree is released.

The folder calls itself on the operands, so the walk over the operands is proved for any visitor
that is right on trees of a smaller size (`FoldsUpTo`).

## Main definitions

* `Routine.Revises`: what folding below a node leaves alone, and how the counts change.
* `Routine.Fresh`: a new node without operands that hangs nowhere.
* `Routine.FoldsAs`, `FoldsUpTo`: a visitor does what `Tree.fold` does.

## Main results

* `foldTo_eq`: a new constant.
* `visitSlot_eq`, `mapChildren_eq`: folding operands.
* `foldsUpTo_foldWithin`, `fold_eq`: folding a node.
-/

namespace StackTree

namespace Routine

open Runs
open StackTree.Tree (forestNodes sizes computed? collapse foldAll atop)

variable {r s : Routine} {n : NodeId}

/-! ## What folding leaves alone -/

/-- Below a node some trees were exchanged, `before` nodes for `after` ones, and `added` nodes were
allocated; of the nodes that there were, only the given ones changed. -/
structure Revises (r s : Routine) (n : NodeId) (nodes : List NodeId) (added before after : Nat) :
    Prop where
  sound : s.Sound
  size_eq : s.nodes.size = r.nodes.size + added
  live_eq : s.live + before = r.live + after
  name_eq : s.name = r.name
  body_eq : s.body = r.body
  link_eq : s.link n = r.link n
  bare_eq : ∀ m, m ∉ nodes → m.index < r.nodes.size → s.bare m = r.bare m

namespace Revises

variable {nodes more : List NodeId} {added added' before before' after after' : Nat}

theorem refl (h : r.Sound) (nodes : List NodeId) : r.Revises r n nodes 0 after after :=
  ⟨h, rfl, rfl, rfl, rfl, rfl, fun _ _ _ => rfl⟩

theorem trans {t : Routine} (h : r.Revises s n nodes added before after)
    (h' : s.Revises t n more added' before' after') :
    r.Revises t n (nodes ++ more) (added + added') (before + before') (after + after') where
  sound := h'.sound
  size_eq := by rw [h'.size_eq, h.size_eq, Nat.add_assoc]
  live_eq := by
    have := h.live_eq
    have := h'.live_eq
    omega
  name_eq := h'.name_eq.trans h.name_eq
  body_eq := h'.body_eq.trans h.body_eq
  link_eq := h'.link_eq.trans h.link_eq
  bare_eq := by
    intro m hm hlt
    rw [List.mem_append, not_or] at hm
    have hlt' : m.index < s.nodes.size := by
      rw [h.size_eq]
      omega
    rw [h'.bare_eq m hm.2 hlt', h.bare_eq m hm.1 hlt]

/-- Nodes that were not there before need not be listed. -/
theorem mono (h : r.Revises s n nodes added before after)
    (hsub : ∀ m ∈ nodes, m ∈ more ∨ r.nodes.size ≤ m.index) :
    r.Revises s n more added before after := by
  refine { h with bare_eq := fun m hm hlt => h.bare_eq m (fun hmem => ?_) hlt }
  rcases hsub m hmem with hold | hnew
  · exact hm hold
  · omega

/-- The same change with other counts of the same difference. -/
theorem recount (h : r.Revises s n nodes added before after)
    (hcount : before + after' = before' + after) : r.Revises s n nodes added before' after' := by
  refine { h with live_eq := ?_ }
  have := h.live_eq
  omega

/-- Live nodes that are not listed are what they were. -/
theorem bare_of_live (h : r.Revises s n nodes added before after) {m : NodeId}
    (hm : m ∉ nodes) (hlive : r.isLive m = true) : s.bare m = r.bare m :=
  h.bare_eq m hm (index_lt_of_isLive hlive)

/-- A change below an operand is a change below the node. -/
theorem stands {kind : Kind} {pre post : List Tree} {c c' : Tree} (hr : r.Sound)
    (h : r.Stands n kind (pre ++ c :: post)) (hid : c'.id = c.id)
    (hf : r.Revises s c.id c.nodes added before after) (hc : s.Shows c.id c') :
    r.Revises s n (n :: c.nodes) added before after ∧ s.Stands n kind (pre ++ c' :: post) := by
  have hbare : s.bare n = r.bare n :=
    hf.bare_of_live (h.notMem_nodes hr (by simp)) (hr.stands_iff.mp h).isLive
  have hbeside : ∀ u ∈ pre ++ post, ∀ m ∈ u.nodes, s.bare m = r.bare m := fun u hu m hm =>
    hf.bare_of_live (h.disjoint hr hu m hm) ((h.shows u (mem_of_sibling hu)).live_of_mem hm)
  refine ⟨{ hf with link_eq := link_eq_of_bare_eq hbare, bare_eq := fun m hm => ?_ },
    h.of_operand hr hf.sound hid hc hbare hbeside⟩
  exact hf.bare_eq m fun hmem => hm (List.mem_cons_of_mem n hmem)

end Revises

/-- A new node without operands that hangs nowhere. -/
structure Fresh (r s : Routine) (t : Tree) : Prop where
  shows : s.Shows t.id t
  free : s.Free t.id
  leaf : t.children = []
  isNew : r.nodes.size ≤ t.id.index

theorem Fresh.nodes_eq {t : Tree} (h : r.Fresh s t) : t.nodes = [t.id] := Tree.nodes_of_leaf h.leaf

theorem Fresh.size_eq {t : Tree} (h : r.Fresh s t) : t.size = 1 := by
  rw [← t.length_nodes, h.nodes_eq]
  rfl

/-! ## Making a constant -/

/-- An edit that goes well leaves the count as it is. -/
theorem fold_lift_of_ok {α : Type} {edit : Edit α} {a : α} (h : edit r = .ok a s) (count : Nat) :
    (liftM edit : Fold α) ⟨r, count⟩ = .ok a ⟨s, count⟩ := by
  simp [liftM, monadLift, MonadLift.monadLift, h]

theorem fold_ask_of_ok {α : Type} {question : Routine → Except Fault α} {a : α}
    (h : question r = .ok a) (count : Nat) :
    (liftM (ask question) : Fold α) ⟨r, count⟩ = .ok a ⟨r, count⟩ :=
  fold_lift_of_ok (ask_of_ok h) count

/-- A constant is allocated while there is room. -/
theorem foldTo_eq (hr : r.Sound) (hn : r.isLive n = true) (value : Int32)
    (hroom : r.nodes.size < Routine.capacity) :
    ∃ s, (∀ count, foldTo value ⟨r, count⟩ = .ok r.nextId ⟨s, count + 1⟩) ∧
      r.Revises s n [] 1 0 1 ∧ r.Fresh s (atop r.nextId (.const value) []) ∧
      ∀ u, r.Shows u.id u → s.Shows u.id u := by
  have hnone : r.AllFree [] := ⟨List.nodup_nil, nofun⟩
  have harity : (Kind.const value).accepts ([] : List NodeId).length = true := rfl
  obtain ⟨e, he⟩ : ∃ e, e = (Kind.const value).intrinsic ∪ r.joinEffects [] := ⟨_, rfl⟩
  have halloc : alloc (.const value) [] r = .ok r.nextId (r.graft (.const value) [] e) := by
    rw [he]
    exact alloc_ok harity hnone hroom
  have hsound : (r.graft (.const value) [] e).Sound := hr.graft harity hnone he
  have hnew : (r.graft (.const value) [] e).get? r.nextId = some ⟨.const value, [], e, none⟩ :=
    get?_graft_nextId
  have hold : ∀ m, m ≠ r.nextId → (r.graft (.const value) [] e).get? m = r.get? m := fun m hm =>
    get?_graft_of_ne hm List.not_mem_nil
  have hbare : ∀ m, m ≠ r.nextId → (r.graft (.const value) [] e).bare m = r.bare m := by
    intro m hm
    rw [bare, bare, hold m hm]
  refine ⟨_, fun count => ?_, ⟨hsound, size_graft, ?_, name_graft, body_graft, ?_, fun m _ hlt => ?_⟩,
    ⟨hsound.shows_atop hnew .nil, ⟨_, hnew, rfl⟩, rfl, Nat.le_refl _⟩, fun u hu => ?_⟩
  · unfold foldTo
    rw [run_bind, run_modify]
    exact fold_lift_of_ok halloc (count + 1)
  · rw [live_graft, Nat.add_zero]
  · exact link_eq_of_bare_eq (hbare n (nextId_ne_of_isLive hn))
  · refine hbare m ?_
    rintro rfl
    exact Nat.lt_irrefl _ hlt
  · exact hu.of_get?_eq fun m hm => hold m (nextId_ne_of_isLive (hu.live_of_mem hm))

/-! ## The node over folded operands -/

/-- What the folder does with a node once its operands are folded. -/
def conclude (n : NodeId) : Option Int32 → Fold NodeId
  | some value => foldTo value
  | none => pure n

theorem constant?_of_shows {t : Tree} (h : r.Shows n t) : r.constant? n = .ok t.constant? := by
  rw [Routine.constant?, kind_of_shows h, except_bind_ok, Tree.constant?]
  cases t.kind <;> rfl

theorem foldUnary_eq {op : UnaryOp} {c : Tree} (h : r.Stands n (.unary op) [c]) (count : Nat) :
    foldUnary op n ⟨r, count⟩ = conclude n (computed? (.unary op) [c]) ⟨r, count⟩ := by
  have hfirst : r.Stands n (.unary op) ([] ++ c :: []) := h
  have hask := child_of_hasChild hfirst.hasChild
  have hvalue := constant?_of_shows (h.shows c (List.mem_singleton.mpr rfl))
  unfold foldUnary
  rw [run_bind_of_ok (fold_ask_of_ok hask count), run_bind_of_ok (fold_ask_of_ok hvalue count)]
  cases hc : c.constant? with
  | none => simp [computed?, hc, conclude]
  | some value => simp [computed?, hc, conclude]

theorem foldBinary_eq {op : BinaryOp} {a b : Tree} (h : r.Stands n (.binary op) [a, b])
    (count : Nat) :
    foldBinary op n ⟨r, count⟩ = conclude n (computed? (.binary op) [a, b]) ⟨r, count⟩ := by
  have hfirst : r.Stands n (.binary op) ([] ++ a :: [b]) := h
  have hsecond : r.Stands n (.binary op) ([a] ++ b :: []) := h
  have hleft := child_of_hasChild hfirst.hasChild
  have hright := child_of_hasChild hsecond.hasChild
  have hvalue := constant?_of_shows (h.shows a (by simp))
  have hvalue' := constant?_of_shows (h.shows b (by simp))
  unfold foldBinary
  rw [run_bind_of_ok (fold_ask_of_ok hleft count), run_bind_of_ok (fold_ask_of_ok hright count),
    run_bind_of_ok (fold_ask_of_ok hvalue count), run_bind_of_ok (fold_ask_of_ok hvalue' count)]
  cases ha : a.constant? with
  | none => simp [computed?, ha, conclude]
  | some x =>
    cases hb : b.constant? with
    | none => simp [computed?, ha, hb, conclude]
    | some y =>
      cases hv : op.apply? x y with
      | none => simp [computed?, ha, hb, hv, conclude]
      | some value => simp [computed?, ha, hb, hv, conclude]

/-! ## Folding as on trees -/

/-- The computation folds the node as its tree is folded: the operands are folded in place, and the
answer is the node itself or a new constant. -/
def FoldsAs (r : Routine) (n : NodeId) (t : Tree) (computation : Fold NodeId) : Prop :=
  let below := t.foldOperands r.nodes.size
  let folded := t.fold r.nodes.size
  ∃ s, (∀ count, computation ⟨r, count⟩ = .ok folded.result.id ⟨s, count + folded.count⟩) ∧
    r.Revises s n t.nodes folded.count (t.size + below.count) (below.result.size + folded.count) ∧
    s.Shows n below.result ∧
    (folded = below ∨ folded.count = below.count + 1 ∧ r.Fresh s folded.result)

theorem FoldsAs.congr {t : Tree} {computation other : Fold NodeId} (h : r.FoldsAs n t computation)
    (heq : ∀ count, other ⟨r, count⟩ = computation ⟨r, count⟩) : r.FoldsAs n t other := by
  obtain ⟨s, hrun, hrest⟩ := h
  exact ⟨s, fun count => (heq count).trans (hrun count), hrest⟩

/-- Trees of up to so many nodes are folded as on trees, while there is room for the constants. -/
def FoldsUpTo (visit : NodeId → Fold NodeId) (limit : Nat) : Prop :=
  ∀ (r : Routine) (n : NodeId) (t : Tree), r.Sound → r.Shows n t → t.size ≤ limit →
    r.nodes.size + (t.fold r.nodes.size).count ≤ Routine.capacity → r.FoldsAs n t (visit n)

/-- Once the operands are folded, the node collapses as on trees. -/
theorem foldsAs_of_conclude {t : Tree} {computation : Fold NodeId}
    (hs : r.Revises s n t.nodes (t.foldOperands r.nodes.size).count t.size
      (t.foldOperands r.nodes.size).result.size)
    (hshows : s.Shows n (t.foldOperands r.nodes.size).result)
    (hroom : r.nodes.size + (t.fold r.nodes.size).count ≤ Routine.capacity)
    (hrun : ∀ count, computation ⟨r, count⟩ = conclude n
      (computed? (t.foldOperands r.nodes.size).result.kind
        (t.foldOperands r.nodes.size).result.children)
      ⟨s, count + (t.foldOperands r.nodes.size).count⟩) : r.FoldsAs n t computation := by
  have hid := hshows.id_eq
  unfold FoldsAs
  unfold Tree.fold at hroom ⊢
  generalize t.foldOperands r.nodes.size = below at *
  rcases Tree.collapse_cases r.nodes.size below with ⟨hnone, heq⟩ | ⟨value, hvalue, heq⟩
  · rw [heq]
    refine ⟨s, fun count => ?_, hs.recount (by omega), hshows, Or.inl rfl⟩
    rw [hrun, hnone, hid]
    rfl
  · rw [heq] at hroom ⊢
    have hsize := hs.size_eq
    have hfits : s.nodes.size < Routine.capacity := by
      simp only at hroom
      omega
    obtain ⟨q, hmake, hq, hfresh, hkept⟩ := foldTo_eq hs.sound hshows.isLive value hfits
    have hname : s.nextId = ⟨r.nodes.size + below.count⟩ := congrArg NodeId.mk hsize
    rw [hname] at hmake hfresh
    have hboth := hs.trans hq
    rw [List.append_nil] at hboth
    refine ⟨q, fun count => ?_, hboth.recount (by simp only; omega), ?_, Or.inr ⟨rfl, ?_⟩⟩
    · rw [hrun, hvalue]
      exact hmake _
    · rw [← hid] at hshows ⊢
      exact hkept _ hshows
    · exact ⟨hfresh.shows, hfresh.free, hfresh.leaf, Nat.le_add_right _ _⟩

/-! ## Folding the operands -/

/-- A new constant takes the place of an operand, whose tree is released. -/
theorem stands_of_fresh {q : Routine} {kind : Kind} {pre post : List Tree} {below c : Tree}
    (hq : q.Sound) (h : q.Stands n kind (pre ++ below :: post)) (hc : r.Fresh q c) :
    ∃ s, setChild n pre.length c.id q = .ok () s ∧
      q.Revises s n (n :: c.id :: below.nodes) 0 below.size 0 ∧
      s.Stands n kind (pre ++ c :: post) := by
  have hself : q.Shows n _ := hq.stands_iff.mp h
  have hout : n ∉ c.nodes := by
    rw [hc.nodes_eq, List.mem_singleton]
    rintro rfl
    have hempty := hself.shape_eq
    rw [hc.shows.shape_eq, hc.leaf] at hempty
    simp at hempty
  have hfits : q.Fits n pre.length below.id c.id :=
    ⟨h.hasChild, hc.free, fun hu => hout (hc.shows.mem_nodes_iff.mpr hu)⟩
  have hapart : ∀ m ∈ c.nodes, m ∉ below.nodes := by
    intro m hm hin
    rw [hc.nodes_eq, List.mem_singleton] at hm
    exact h.not_free hq (by simp) hin (hm ▸ hc.free)
  obtain ⟨s, hrun, hs⟩ := setChild_swapped hq hfits (h.shows below (by simp))
  refine ⟨s, hrun, ⟨hs.sound, hs.size_eq, hs.live_eq, hs.name_eq, hs.body_eq, hs.link_eq h,
    fun m hm _ => ?_⟩, hs.stands hq h hc.shows hout hapart⟩
  simp only [List.mem_cons, not_or] at hm
  exact hs.bare_eq m hm.1 hm.2.2 hm.2.1

/-- What happens at one slot of a node whose operands are mapped. -/
def visitSlot (visit : NodeId → Fold NodeId) (n : NodeId) (slot : Nat) : Fold Unit := do
  let child ← (ask (·.child n slot) : Edit NodeId)
  let _ ← (ask (·.node child) : Edit Node)
  let replacement ← visit child
  (setChild n slot replacement : Edit Unit)

theorem mapChildren_eq_forM (visit : NodeId → Fold NodeId) (n : NodeId) :
    mapChildren visit n = (do
      let count ← (ask (·.childCount n) : Edit Nat)
      (List.range count).forM (visitSlot visit n)) := rfl

/-- Folding one operand of a node puts into its slot what folding makes of its tree. -/
theorem visitSlot_eq {visit : NodeId → Fold NodeId} {limit : Nat} (hvisit : FoldsUpTo visit limit)
    (hr : r.Sound) {kind : Kind} {pre post : List Tree} {c : Tree}
    (h : r.Stands n kind (pre ++ c :: post)) (hc : c.size ≤ limit)
    (hroom : r.nodes.size + (c.fold r.nodes.size).count ≤ Routine.capacity) :
    ∃ s, (∀ count, visitSlot visit n pre.length ⟨r, count⟩ =
        .ok () ⟨s, count + (c.fold r.nodes.size).count⟩) ∧
      r.Revises s n (n :: c.nodes) (c.fold r.nodes.size).count c.size
        (c.fold r.nodes.size).result.size ∧
      s.Stands n kind (pre ++ (c.fold r.nodes.size).result :: post) := by
  have hshows : r.Shows c.id c := h.shows c (by simp)
  obtain ⟨node, hnode⟩ := isLive_iff.mp hshows.isLive
  have hchild := child_of_hasChild h.hasChild
  obtain ⟨q, hrun, hrevises, hbelow, hanswer⟩ := hvisit r c.id c hr hshows hc hroom
  have hid := Tree.id_foldOperands r.nodes.size c
  have hnodes := Tree.foldOperands_nodes r.nodes.size c
  obtain ⟨hmid, hstands⟩ := hrevises.stands hr h hid hbelow
  have hvisited : ∀ count, visitSlot visit n pre.length ⟨r, count⟩ =
      (liftM (setChild n pre.length (c.fold r.nodes.size).result.id) : Fold Unit)
        ⟨q, count + (c.fold r.nodes.size).count⟩ := by
    intro count
    unfold visitSlot
    rw [run_bind_of_ok (fold_ask_of_ok hchild count),
      run_bind_of_ok (fold_ask_of_ok (node_of_get? hnode) count), run_bind_of_ok (hrun count)]
  generalize c.fold r.nodes.size = folded at *
  generalize c.foldOperands r.nodes.size = below at *
  rcases hanswer with rfl | ⟨hcount, hfresh⟩
  · have hsame := setChild_same hmid.sound.toStructured hstands.hasChild
    refine ⟨q, fun count => ?_, hmid.recount (by omega), hstands⟩
    rw [hvisited]
    exact fold_lift_of_ok hsame _
  · obtain ⟨s, hset, hswap, hdone⟩ := stands_of_fresh hmid.sound hstands hfresh
    refine ⟨s, fun count => ?_, ?_, hdone⟩
    · rw [hvisited]
      exact fold_lift_of_ok hset _
    · have hsize := hfresh.size_eq
      refine ((hmid.trans hswap).mono fun m hm => ?_).recount (by omega)
      simp only [List.mem_append, List.mem_cons] at hm ⊢
      rcases hm with hm | rfl | rfl | hm
      · exact Or.inl hm
      · exact Or.inl (Or.inl rfl)
      · exact Or.inr hfresh.isNew
      · rcases hnodes m hm with hold | hnew
        · exact Or.inl (Or.inr hold)
        · exact Or.inr hnew

/-- The operands from some slot on are folded first to last, as on trees. -/
theorem visitSlots_eq {visit : NodeId → Fold NodeId} {limit : Nat} (hvisit : FoldsUpTo visit limit)
    {kind : Kind} {ts : List Tree} (hts : ∀ c ∈ ts, c.size ≤ limit) {r : Routine}
    {pre : List Tree} (hr : r.Sound) (h : r.Stands n kind (pre ++ ts))
    (hroom : r.nodes.size + (foldAll r.nodes.size ts).count ≤ Routine.capacity) :
    ∃ s, (∀ count, (List.range' pre.length ts.length).forM (visitSlot visit n) ⟨r, count⟩ =
        .ok () ⟨s, count + (foldAll r.nodes.size ts).count⟩) ∧
      r.Revises s n (n :: forestNodes ts) (foldAll r.nodes.size ts).count (sizes ts)
        (sizes (foldAll r.nodes.size ts).result) ∧
      s.Stands n kind (pre ++ (foldAll r.nodes.size ts).result) := by
  induction ts generalizing r pre with
  | nil =>
    rw [Tree.foldAll_nil]
    exact ⟨r, fun count => rfl, .refl hr _, h⟩
  | cons c ts ih =>
    rw [List.forall_mem_cons] at hts
    rw [Tree.foldAll_cons] at hroom ⊢
    simp only at hroom ⊢
    obtain ⟨q, hfirst, hrevises, hstands⟩ := visitSlot_eq hvisit hr h hts.1 (by omega)
    generalize c.fold r.nodes.size = folded at *
    have hnext : r.nodes.size + folded.count = q.nodes.size := hrevises.size_eq.symm
    have hsplit : pre ++ folded.result :: ts = (pre ++ [folded.result]) ++ ts := by simp
    rw [hsplit] at hstands
    rw [hnext] at hroom ⊢
    obtain ⟨s, hlater, hrevises', hstands'⟩ := ih hts.2 hrevises.sound hstands (by omega)
    refine ⟨s, fun count => ?_, ?_, by simpa using hstands'⟩
    · have hslot : (pre ++ [folded.result]).length = pre.length + 1 := by simp
      rw [hslot] at hlater
      rw [List.length_cons, List.range'_succ, List.forM_eq_forM, List.forM_cons,
        run_bind_of_ok (hfirst count), ← Nat.add_assoc]
      exact hlater _
    · refine (hrevises.trans hrevises').mono fun m hm => Or.inl ?_
      simp only [forestNodes, List.mem_append, List.mem_cons] at hm ⊢
      tauto

/-- The operands of a node are folded as on trees. -/
theorem mapChildren_eq {visit : NodeId → Fold NodeId} {limit : Nat}
    (hvisit : FoldsUpTo visit limit) (hr : r.Sound) {kind : Kind} {ts : List Tree}
    (hts : ∀ c ∈ ts, c.size ≤ limit) (h : r.Stands n kind ts)
    (hroom : r.nodes.size + (foldAll r.nodes.size ts).count ≤ Routine.capacity) :
    ∃ s, (∀ count, mapChildren visit n ⟨r, count⟩ =
        .ok () ⟨s, count + (foldAll r.nodes.size ts).count⟩) ∧
      r.Revises s n (n :: forestNodes ts) (foldAll r.nodes.size ts).count (sizes ts)
        (sizes (foldAll r.nodes.size ts).result) ∧
      s.Stands n kind (foldAll r.nodes.size ts).result := by
  have hall : r.Stands n kind ([] ++ ts) := h
  obtain ⟨node, hget, -, hchildren⟩ := h.exists_node
  have hcount : r.childCount n = .ok ts.length := by
    rw [Routine.childCount, node_of_get? hget, except_map_ok, hchildren, List.length_map]
  obtain ⟨s, hrun, hrevises, hstands⟩ := visitSlots_eq hvisit hts hr hall hroom
  refine ⟨s, fun count => ?_, hrevises, hstands⟩
  rw [mapChildren_eq_forM, run_bind_of_ok (fold_ask_of_ok hcount count), List.range_eq_range']
  exact hrun count

/-! ## Folding a node -/

/-- A node without operands is answered as it is. -/
theorem foldsAs_of_leaf (hr : r.Sound) {t : Tree} {computation : Fold NodeId} (ht : r.Shows n t)
    (hleaf : t.children = []) (hnone : computed? t.kind [] = none)
    (hrun : ∀ count, computation ⟨r, count⟩ = .ok n ⟨r, count⟩)
    (hroom : r.nodes.size + (t.fold r.nodes.size).count ≤ Routine.capacity) :
    r.FoldsAs n t computation := by
  have hbelow := Tree.foldOperands_leaf (hr.tree_sound ht) hleaf r.nodes.size
  refine foldsAs_of_conclude (s := r) ?_ ?_ hroom fun count => ?_
  · rw [hbelow]
    exact .refl hr _
  · rw [hbelow]
    exact ht
  · rw [hbelow]
    simp only [hleaf, hnone]
    exact hrun count

/-- A node over operands collapses once these are folded. -/
theorem foldsAs_of_operands {visit : NodeId → Fold NodeId} {limit : Nat}
    (hvisit : FoldsUpTo visit limit) (hr : r.Sound) {kind : Kind} {ts : List Tree}
    (hts : ∀ c ∈ ts, c.size ≤ limit) (ht : r.Shows n (atop n kind ts))
    (hroom : r.nodes.size + ((atop n kind ts).fold r.nodes.size).count ≤ Routine.capacity)
    {finish : Fold NodeId}
    (hfinish : ∀ {s : Routine} {us : List Tree}, s.Stands n kind us →
      kind.accepts us.length = true →
      ∀ count, finish ⟨s, count⟩ = conclude n (computed? kind us) ⟨s, count⟩) :
    r.FoldsAs n (atop n kind ts) (do mapChildren visit n; finish) := by
  have hcount := Tree.count_foldOperands_le r.nodes.size (atop n kind ts)
  have hbelow : (atop n kind ts).foldOperands r.nodes.size =
      ⟨atop n kind (foldAll r.nodes.size ts).result, (foldAll r.nodes.size ts).count⟩ :=
    Tree.foldOperands_node ..
  rw [hbelow] at hcount
  simp only at hcount
  obtain ⟨s, hrun, hrevises, hstands⟩ :=
    mapChildren_eq hvisit hr hts (hr.stands_iff.mpr ht) (by omega)
  have hshows := hrevises.sound.stands_iff.mp hstands
  refine foldsAs_of_conclude (s := s) ?_ ?_ hroom fun count => ?_
  · rw [hbelow]
    refine (hrevises.mono fun m hm => Or.inl ?_).recount ?_
    · simp only [atop, Tree.nodes, List.mem_append, List.mem_singleton]
      exact (List.mem_cons.mp hm).symm
    · simp only [atop, Tree.size]
      omega
  · rw [hbelow]
    exact hshows
  · rw [run_bind_of_ok (hrun count), hbelow]
    exact hfinish hstands (hrevises.sound.tree_sound hshows).arity _

/-- Every kind of node is folded as on trees. -/
theorem foldsUpTo_foldWithin (bound : Nat) : FoldsUpTo (foldWithin bound) bound := by
  induction bound with
  | zero =>
    intro r n t hr ht hb
    have := t.size_pos
    omega
  | succ bound ih =>
    intro r n t hr ht hb hroom
    have hask := kind_of_shows ht
    have hsound := hr.tree_sound ht
    have harity := hsound.arity
    obtain ⟨id, kind, e, operands⟩ := t
    obtain rfl : id = n := ht.id_eq
    have hsize : ∀ c ∈ operands, c.size ≤ bound := by
      intro c hc
      have := Tree.size_le_sizes hc
      simp only [Tree.size] at hb
      omega
    have heq : Tree.node id kind e operands = atop id kind operands := hsound.eq_atop
    have hrun : ∀ count, foldWithin (bound + 1) id ⟨r, count⟩ = (match kind with
        | .const _ | .load _ | .pop | .peek => pure id
        | .unary op => do mapChildren (foldWithin bound) id; foldUnary op id
        | .binary op => do mapChildren (foldWithin bound) id; foldBinary op id
        | .store _ | .call _ _ | .ret => do mapChildren (foldWithin bound) id; pure id :
          Fold NodeId) ⟨r, count⟩ := by
      intro count
      rw [foldWithin, run_bind_of_ok (fold_ask_of_ok hask count)]
      cases kind <;> rfl
    refine FoldsAs.congr ?_ hrun
    rw [heq] at ht hroom ⊢
    cases kind with
    | const | load | pop | peek =>
      obtain rfl : operands = [] := by simpa [Tree.kind, Tree.children, Kind.accepts] using harity
      exact foldsAs_of_leaf hr ht rfl rfl (fun _ => rfl) hroom
    | unary op =>
      refine foldsAs_of_operands ih hr hsize ht hroom fun {s us} hstands haccepts count => ?_
      obtain ⟨c, rfl⟩ := List.length_eq_one_iff.mp (eq_of_beq haccepts)
      exact foldUnary_eq hstands count
    | binary op =>
      refine foldsAs_of_operands ih hr hsize ht hroom fun {s us} hstands haccepts count => ?_
      obtain ⟨a, b, rfl⟩ := List.length_eq_two.mp (eq_of_beq haccepts)
      exact foldBinary_eq hstands count
    | store | call | ret =>
      exact foldsAs_of_operands ih hr hsize ht hroom fun _ _ _ => rfl

/-- Folding a node of a sound routine with room does not fail, and it does what folding its tree
does. -/
theorem fold_eq (hr : r.Sound) {t : Tree} (ht : r.Shows n t)
    (hroom : r.nodes.size + (t.fold r.nodes.size).count ≤ Routine.capacity) :
    r.FoldsAs n t (fold n) :=
  (foldsUpTo_foldWithin r.pathBound r n t hr ht (Nat.le_of_lt (hr.size_lt_pathBound ht)) hroom).congr
    fun _ => rfl

end Routine

end StackTree
