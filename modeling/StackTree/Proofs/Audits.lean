import StackTree.Routine.Audit
import StackTree.Proofs.Ownership.Trees

/-!
# What audits find

An audit compares what a routine stores twice. It is only worth something on a routine that may be
wrong, so nothing is assumed here of the links, of the stored effects or of the count of nodes. All
that the statements ask for is that nothing lies under its own operand.

The audit of the links stops at the first link that is wrong, so when it goes well every link under
the node is right, no node sits in two slots, and there is a tree under the node. The audit of the
effects works its way up from the leaves. When it comes to a node, everything under it was found
right, so what it recomputes there are the effects of the whole tree. It goes on to later siblings
after a fault but keeps the fault that it met first, which is the one of the first stale node in the
order of evaluation.

## Main definitions

* `Tree.firstStale?`: the first part of a tree whose stored effects are wrong.
* `Routine.EntryRight`: what the audit of an entry is to establish.

## Main results

* `Acyclic.exists_shows`: there is a tree under a node when everything under it exists.
* `linksTo_of_auditLinksWithin`, `auditLinksWithin_eq`: the audit of the links succeeds when every
  link under the node is right.
* `auditEffectsWithin_eq`: the audit of the effects reports the first stale node, if there is one.
* `Acyclic.audits_exact`: both, for every routine whose operands form no cycle.
-/

namespace StackTree

namespace Tree

/-- The stored effects of the topmost node are not those of the tree. -/
def stale (t : Tree) : Bool := decide (t.effects ≠ t.ownEffects)

/-- The first part of the tree, in the order of evaluation, that is stale. -/
def firstStale? (t : Tree) : Option Tree := t.subtrees.find? stale

/-- The first part of several trees that is stale. -/
def firstStaleAll? (ts : List Tree) : Option Tree := (subtreesAll ts).find? stale

/-- How many nodes an audit of the tree counts: those with nothing stale under them. -/
def counted (t : Tree) : Nat := t.subtrees.countP fun u => (firstStaleAll? u.children).isNone

/-- How many nodes an audit of several trees counts. -/
def countedAll (ts : List Tree) : Nat :=
  (subtreesAll ts).countP fun u => (firstStaleAll? u.children).isNone

theorem firstStaleAll?_cons (t : Tree) (ts : List Tree) :
    firstStaleAll? (t :: ts) = t.firstStale?.or (firstStaleAll? ts) := by
  rw [firstStaleAll?, subtreesAll, List.find?_append]
  rfl

theorem countedAll_cons (t : Tree) (ts : List Tree) :
    countedAll (t :: ts) = t.counted + countedAll ts := by
  rw [countedAll, subtreesAll, List.countP_append]
  rfl

/-- The operands come before the node. -/
theorem firstStale?_node (id : NodeId) (kind : Kind) (effects : Effects) (children : List Tree) :
    (node id kind effects children).firstStale? = (firstStaleAll? children).or
      (if (node id kind effects children).stale then some (node id kind effects children)
        else none) := by
  rw [firstStale?, subtrees, List.find?_append, List.find?_singleton]
  rfl

theorem counted_node (id : NodeId) (kind : Kind) (effects : Effects) (children : List Tree) :
    (node id kind effects children).counted =
      countedAll children + if (firstStaleAll? children).isNone then 1 else 0 := by
  rw [counted, subtrees, List.countP_append, List.countP_singleton]
  rfl

theorem firstStale?_eq_none_iff {t : Tree} :
    t.firstStale? = none ↔ ∀ u ∈ t.subtrees, u.effects = u.ownEffects := by
  simp [firstStale?, stale]

theorem exists_firstStale? {t : Tree} (h : ∃ u ∈ t.subtrees, u.effects ≠ u.ownEffects) :
    ∃ u, t.firstStale? = some u := by
  rw [← Option.ne_none_iff_exists', Ne, firstStale?_eq_none_iff]
  obtain ⟨u, hu, hne⟩ := h
  exact fun hright => hne (hright u hu)

theorem split_of_firstStale? {t u : Tree} (h : t.firstStale? = some u) :
    ∃ earlier later, t.subtrees = earlier ++ u :: later ∧
      (∀ v ∈ earlier, v.effects = v.ownEffects) ∧ u.effects ≠ u.ownEffects := by
  rw [firstStale?, List.find?_eq_some_iff_append] at h
  obtain ⟨hu, earlier, later, hsplit, hearlier⟩ := h
  exact ⟨earlier, later, hsplit, by simpa [stale] using hearlier, by simpa [stale] using hu⟩

theorem firstStaleAll?_eq_none_iff {ts : List Tree} :
    firstStaleAll? ts = none ↔ ∀ u ∈ subtreesAll ts, u.effects = u.ownEffects := by
  simp [firstStaleAll?, stale]

theorem subtreesAll_children_subset {t : Tree} : subtreesAll t.children ⊆ t.subtrees := by
  obtain ⟨id, kind, effects, children⟩ := t
  rw [subtrees]
  exact List.subset_append_left _ _

/-- Where nothing is stale every node is counted. -/
theorem counted_of_fresh {t : Tree} (h : t.firstStale? = none) : t.counted = t.size := by
  rw [firstStale?_eq_none_iff] at h
  rw [← length_nodes, ← map_id_subtrees, List.length_map, counted, List.countP_eq_length]
  intro u hu
  rw [Option.isNone_iff_eq_none, firstStaleAll?_eq_none_iff]
  exact fun v hv => h v (subtrees_subset t u hu (subtreesAll_children_subset hv))

end Tree

/-- The outcome of an audit of effects: a fault if something is stale, otherwise what was found. -/
def auditOutcome (stale? : Option Tree) (found : Effects) : Except Fault Effects :=
  match stale? with
  | some u => .error (.staleEffects u.id u.effects u.ownEffects)
  | none => .ok found

namespace Routine

open Runs
open StackTree.Tree (sizes ownEffectsAll firstStaleAll? countedAll)

variable {r : Routine}

/-! ## Trees of acyclic routines -/

/-- The way down to a node starts at the node or goes on from one of its operands. -/
theorem Under.head_cases {n m : NodeId} (h : r.Under n m) :
    m = n ∨ ∃ slot c, r.HasChild n slot c ∧ r.Under c m := by
  induction h with
  | self => exact Or.inl rfl
  | @child p c slot _ sits ih =>
    right
    rcases ih with rfl | ⟨first, d, hd, hunder⟩
    · exact ⟨slot, c, sits, .self⟩
    · exact ⟨first, d, hd, hunder.child sits⟩

/-- The same below nodes that lie one under the other. They are all different, so no way down is
longer than there are nodes. -/
theorem Acyclic.exists_shows_below (h : r.Acyclic) (steps : Nat) {way : List NodeId} {n : NodeId}
    (hnodup : way.Nodup) (habove : ∀ m ∈ way, ∃ slot c, r.HasChild m slot c ∧ r.Under c n)
    (hlong : r.liveNodes < way.length + steps) (hlive : ∀ m, r.Under n m → r.isLive m = true) :
    ∃ t, r.Shows n t := by
  induction steps generalizing way n with
  | zero =>
    have hle := length_le_liveNodes hnodup fun m hm => by
      obtain ⟨_, _, ⟨node, hm, _⟩, _⟩ := habove m hm
      exact isLive_iff.mpr ⟨node, hm⟩
    omega
  | succ steps ih =>
    obtain ⟨node, hn⟩ := isLive_iff.mp (hlive n .self)
    have hfresh : n ∉ way := by
      intro hmem
      obtain ⟨slot, c, hc, hunder⟩ := habove n hmem
      exact h n slot c hc hunder
    have hbelow : ∀ c ∈ node.children, ∃ t, r.Shows c t := by
      intro c hc
      obtain ⟨slot, hslot⟩ := hasChild_of_mem hn hc
      have hdown : (n :: way).Nodup := List.nodup_cons.mpr ⟨hfresh, hnodup⟩
      apply ih hdown
      · intro m hm
        rcases List.mem_cons.mp hm with rfl | hm
        · exact ⟨slot, c, hslot, .self⟩
        · obtain ⟨first, d, hd, hunder⟩ := habove m hm
          exact ⟨first, d, hd, hunder.child hslot⟩
      · simp only [List.length_cons]
        omega
      · exact fun m hm => hlive m ((Under.child .self hslot).trans hm)
    obtain ⟨ts, hts⟩ := exists_showsAll hbelow
    exact ⟨_, .node hn hts⟩

/-- There is a tree under a node when everything under it exists. -/
theorem Acyclic.exists_shows (h : r.Acyclic) {n : NodeId}
    (hlive : ∀ m, r.Under n m → r.isLive m = true) : ∃ t, r.Shows n t :=
  h.exists_shows_below (r.liveNodes + 1) List.nodup_nil (by simp) (by simp) hlive

/-- A tree without repetition is smaller than any walk is allowed to be deep. -/
theorem Shows.size_lt_pathBound {n : NodeId} {t : Tree} (h : r.Shows n t) (hd : t.nodes.Nodup) :
    t.size < r.pathBound := by
  have hle := length_le_liveNodes hd fun m hm => h.live_of_mem hm
  have hsize := r.liveNodes_le_size
  rw [t.length_nodes] at hle
  rw [pathBound]
  omega

/-! ## Audits of the links -/

theorem forM_ok_iff {f : NodeId → Except Fault Unit} {ns : List NodeId} :
    ns.forM f = .ok () ↔ ∀ n ∈ ns, f n = .ok () := by
  induction ns with
  | nil => simp
  | cons n ns ih =>
    rw [List.forM_eq_forM, List.forM_cons, List.forall_mem_cons, ← ih]
    cases f n with
    | ok _ => simp
    | error fault => simp

theorem checkLinks_ok_iff {n : NodeId} {slot : Nat} {ns : List NodeId} :
    r.checkLinks n slot ns = .ok () ↔ ∀ i c, ns[i]? = some c → r.LinksTo c ⟨n, slot + i⟩ := by
  induction ns generalizing slot with
  | nil => simp [checkLinks]
  | cons child rest ih =>
    have hsplit : (∀ i c, (child :: rest)[i]? = some c → r.LinksTo c ⟨n, slot + i⟩) ↔
        r.LinksTo child ⟨n, slot⟩ ∧ ∀ i c, rest[i]? = some c → r.LinksTo c ⟨n, slot + 1 + i⟩ := by
      constructor
      · intro h
        exact ⟨h 0 child rfl, fun i c hc => Nat.add_right_comm slot i 1 ▸ h (i + 1) c hc⟩
      · rintro ⟨hfirst, hrest⟩ i c hc
        cases i with
        | zero =>
          obtain rfl := Option.some.inj hc
          exact hfirst
        | succ i => exact Nat.add_right_comm slot 1 i ▸ hrest i c hc
    rw [hsplit, ← ih, checkLinks]
    cases hchild : r.get? child with
    | none =>
      rw [node_of_none hchild]
      simp [LinksTo, hchild]
    | some node =>
      rw [node_of_get? hchild, except_bind_ok]
      cases hparent : node.parent with
      | none => simp [LinksTo, hchild, hparent]
      | some link =>
        by_cases hlink : link = ⟨n, slot⟩
        · simp [LinksTo, hchild, hparent, hlink]
        · simp [LinksTo, hchild, hparent, hlink]

/-- An audit of links that goes well has seen every link under the node. -/
theorem linksTo_of_auditLinksWithin {bound : Nat} {n : NodeId}
    (h : r.auditLinksWithin bound n = .ok ()) :
    ∀ p slot c, r.Under n p → r.HasChild p slot c → r.LinksTo c ⟨p, slot⟩ := by
  induction bound generalizing n with
  | zero => cases h
  | succ bound ih =>
    intro p slot c hp hc
    rw [auditLinksWithin] at h
    cases hn : r.get? n with
    | none =>
      rw [node_of_none hn] at h
      cases h
    | some node =>
      rw [node_of_get? hn, except_bind_ok] at h
      cases hlinks : r.checkLinks n 0 node.children with
      | error fault =>
        rw [hlinks] at h
        cases h
      | ok _ =>
        rw [hlinks, except_bind_ok, forM_ok_iff] at h
        rcases hp.head_cases with rfl | ⟨first, d, hd, hunder⟩
        · have hlink := checkLinks_ok_iff.mp hlinks slot c (hc.mem hn)
          rwa [Nat.zero_add] at hlink
        · have hmem := List.mem_reverse.mpr (List.mem_of_getElem? (hd.mem hn))
          exact ih (h d hmem) p slot c hunder hc

/-- An audit of links that may go as deep as the tree has nodes succeeds when they are right. -/
theorem auditLinksWithin_eq {bound : Nat} {n : NodeId} {t : Tree} (ht : r.Shows n t)
    (hb : t.size ≤ bound)
    (hlinks : ∀ p slot c, r.Under n p → r.HasChild p slot c → r.LinksTo c ⟨p, slot⟩) :
    r.auditLinksWithin bound n = .ok () := by
  induction bound generalizing n t with
  | zero =>
    have := t.size_pos
    omega
  | succ bound ih =>
    cases ht with
    | @node _ node ts hn below =>
      have hdirect : r.checkLinks n 0 node.children = .ok () := by
        rw [checkLinks_ok_iff]
        intro i c hc
        rw [Nat.zero_add]
        exact hlinks n i c .self ⟨node, hn, hc⟩
      rw [auditLinksWithin, node_of_get? hn, except_bind_ok, hdirect, except_bind_ok, forM_ok_iff]
      intro c hc
      have hmem := List.mem_reverse.mp hc
      obtain ⟨slot, hslot⟩ := hasChild_of_mem hn hmem
      obtain ⟨u, hu, rfl⟩ := List.mem_map.mp (below.map_id ▸ hmem)
      have hsize := Tree.size_le_sizes hu
      simp only [Tree.size] at hb
      exact ih (below.shows u hu) (by omega) fun p i d hp hd =>
        hlinks p i d ((Under.child .self hslot).trans hp) hd

/-! ## Audits of the effects -/

/-- A step of an audit that finds something hands it on. -/
theorem audit_bind_of_ok {α β : Type} {x : ExceptT Fault (StateM Nat) α} {a : α} {count count' : Nat}
    (h : x.run count = (.ok a, count')) (f : α → ExceptT Fault (StateM Nat) β) :
    (x >>= f).run count = (f a).run count' := by
  show (ExceptT.bindCont f (x.run count).1) (x.run count).2 = _
  rw [h]
  rfl

theorem audit_answer {α : Type} (a : α) (count : Nat) :
    (liftM (.ok a : Except Fault α) : ExceptT Fault (StateM Nat) α).run count = (.ok a, count) :=
  rfl

/-- The outcome of an audit can be looked at without failing with it. -/
theorem audit_outcome {α : Type} {x : ExceptT Fault (StateM Nat) α} {outcome : Except Fault α}
    {count count' : Nat} (h : x.run count = (outcome, count')) :
    (ExceptT.lift x.run : ExceptT Fault (StateM Nat) (Except Fault α)).run count =
      (.ok outcome, count') := by
  show (Except.ok (x.run count).1, (x.run count).2) = _
  rw [h]

/-- Both of two outcomes: the first fault, or the union of what was found. -/
def bothFound (acc found : Except Fault Effects) : Except Fault Effects := do
  return (← acc) ∪ (← found)

theorem bothFound_cons (acc : Except Fault Effects) (t : Tree) (ts : List Tree) :
    bothFound (bothFound acc (auditOutcome t.firstStale? t.ownEffects))
        (auditOutcome (firstStaleAll? ts) (ownEffectsAll ts)) =
      bothFound acc
        (auditOutcome (firstStaleAll? (t :: ts)) (ownEffectsAll (t :: ts))) := by
  rw [Tree.firstStaleAll?_cons]
  cases acc with
  | error fault => rfl
  | ok found =>
    cases t.firstStale? with
    | some u => rfl
    | none =>
      cases firstStaleAll? ts with
      | some u => rfl
      | none =>
        show Except.ok _ = Except.ok _
        rw [Effects.union_assoc]
        rfl

/-- Operands are audited one after the other, also after a fault of one of them. -/
theorem audit_operands
    {visit : Except Fault Effects → NodeId → ExceptT Fault (StateM Nat) (Except Fault Effects)}
    {ns : List NodeId} {ts : List Tree} (hts : r.ShowsAll ns ts)
    (hvisit : ∀ t ∈ ts, r.Shows t.id t → ∀ acc count, (visit acc t.id).run count =
      (.ok (bothFound acc (auditOutcome t.firstStale? t.ownEffects)), count + t.counted))
    (acc : Except Fault Effects) (count : Nat) :
    (ns.foldlM visit acc).run count =
      (.ok (bothFound acc (auditOutcome (firstStaleAll? ts) (ownEffectsAll ts))),
        count + countedAll ts) := by
  induction ns generalizing ts acc count with
  | nil =>
    cases hts
    cases acc with
    | error fault => rfl
    | ok found =>
      show _ = (Except.ok (Except.ok (found ∪ ∅)), count)
      rw [Effects.union_empty]
      rfl
  | cons n ns ih =>
    cases hts with
    | @cons _ t _ ts head tail =>
      have hfirst := hvisit t (List.mem_cons_self ..) (head.id_eq.symm ▸ head) acc count
      rw [head.id_eq] at hfirst
      rw [List.foldlM_cons, audit_bind_of_ok hfirst,
        ih tail (fun u hu => hvisit u (List.mem_cons_of_mem t hu)), bothFound_cons,
        Tree.countedAll_cons, Nat.add_assoc]

/--
An audit of effects that may go as deep as the tree has nodes reports the first stale node in the
order of evaluation. If there is none it finds the effects of the tree.
-/
theorem auditEffectsWithin_eq {bound : Nat} {n : NodeId} {t : Tree} (ht : r.Shows n t)
    (hb : t.size ≤ bound) (count : Nat) :
    (r.auditEffectsWithin bound n).run count =
      (auditOutcome t.firstStale? t.ownEffects, count + t.counted) := by
  induction bound generalizing n t count with
  | zero =>
    have := t.size_pos
    omega
  | succ bound ih =>
    cases ht with
    | @node _ node ts hn below =>
      rw [auditEffectsWithin, node_of_get? hn, audit_bind_of_ok (audit_answer node count),
        audit_bind_of_ok (audit_operands below ?_ (.ok node.kind.intrinsic) count),
        Tree.firstStale?_node, Tree.counted_node, ← Nat.add_assoc]
      · cases firstStaleAll? ts with
        | some u => rfl
        | none =>
          -- Nothing below is stale, so the union over the operands is that of the whole tree.
          show (if node.effects = node.kind.intrinsic ∪ ownEffectsAll ts then
            pure (node.kind.intrinsic ∪ ownEffectsAll ts)
            else throw (.staleEffects n node.effects (node.kind.intrinsic ∪ ownEffectsAll ts)) :
            ExceptT Fault (StateM Nat) Effects).run (count + countedAll ts + 1) = _
          by_cases hright : node.effects = node.kind.intrinsic ∪ ownEffectsAll ts
          · have hfresh : (Tree.node n node.kind node.effects ts).stale = false := by
              simp [Tree.stale, Tree.effects, Tree.ownEffects, hright]
            rw [if_pos hright, hfresh]
            rfl
          · have hstale : (Tree.node n node.kind node.effects ts).stale = true := by
              simp [Tree.stale, Tree.effects, Tree.ownEffects, hright]
            rw [if_neg hright, hstale]
            rfl
      · intro u hu hshows acc count
        obtain ⟨child, hchild⟩ := isLive_iff.mp hshows.isLive
        have hsize : u.size ≤ bound := by
          have := Tree.size_le_sizes hu
          simp only [Tree.size] at hb
          omega
        rw [node_of_get? hchild, audit_bind_of_ok (audit_answer child count),
          audit_bind_of_ok (audit_outcome (ih hshows hsize count))]
        rfl

/-- The audit of a tree without repetition, as a value. -/
theorem countAudited_eq {n : NodeId} {t : Tree} (ht : r.Shows n t) (hd : t.nodes.Nodup) :
    r.countAudited n =
      (auditOutcome t.firstStale? t.ownEffects).map fun found => (found, t.counted) := by
  rw [countAudited, auditEffectsWithin_eq ht (Nat.le_of_lt (ht.size_lt_pathBound hd)),
    Nat.zero_add]
  cases auditOutcome t.firstStale? t.ownEffects with
  | error fault => rfl
  | ok found => rfl

theorem auditEffects_eq {n : NodeId} {t : Tree} (ht : r.Shows n t) (hd : t.nodes.Nodup) :
    r.auditEffects n = auditOutcome t.firstStale? t.ownEffects := by
  rw [auditEffects, countAudited_eq ht hd]
  cases auditOutcome t.firstStale? t.ownEffects with
  | error fault => rfl
  | ok found => rfl

theorem auditEffects_ok_iff {n : NodeId} {t : Tree} (ht : r.Shows n t) (hd : t.nodes.Nodup) :
    (∃ found, r.auditEffects n = .ok found) ↔
      ∀ m, r.Under n m → ∃ u, r.Shows m u ∧ u.effects = u.ownEffects := by
  rw [auditEffects_eq ht hd]
  have hparts : t.firstStale? = none ↔
      ∀ m, r.Under n m → ∃ u, r.Shows m u ∧ u.effects = u.ownEffects := by
    rw [Tree.firstStale?_eq_none_iff]
    constructor
    · intro h m hm
      rw [← ht.mem_nodes_iff, ← Tree.map_id_subtrees, List.mem_map] at hm
      obtain ⟨u, hu, rfl⟩ := hm
      exact ⟨u, ht.of_mem_subtrees u hu, h u hu⟩
    · intro h u hu
      have hshows := ht.of_mem_subtrees u hu
      have hunder : r.Under n u.id := by
        rw [← ht.mem_nodes_iff, ← Tree.map_id_subtrees]
        exact List.mem_map_of_mem hu
      obtain ⟨v, hv, hright⟩ := h u.id hunder
      rwa [hshows.unique hv]
  rw [← hparts]
  cases t.firstStale? with
  | none => simp [auditOutcome]
  | some u => simp [auditOutcome]

/-! ## Audits of a routine -/

/-- Links that are right leave no node in two slots. -/
theorem unshared_of_links {n : NodeId}
    (hlinks : ∀ p slot c, r.Under n p → r.HasChild p slot c → r.LinksTo c ⟨p, slot⟩) :
    r.Unshared (r.Under n) where
  closed := fun _ _ _ hp hc => hp.child hc
  slot_unique := by
    intro p q i j c hp hq hi hj
    have heq := (hlinks p i c hp hi).unique (hlinks q j c hq hj)
    exact ⟨congrArg Link.parent heq, congrArg Link.slot heq⟩

theorem live_of_links {n : NodeId} (hn : r.isLive n = true)
    (hlinks : ∀ p slot c, r.Under n p → r.HasChild p slot c → r.LinksTo c ⟨p, slot⟩) :
    ∀ m, r.Under n m → r.isLive m = true := by
  intro m hm
  cases hm with
  | self => exact hn
  | child above sits => exact (hlinks _ _ _ above sits).isLive

/-- What an audit of an entry is to establish: the entry hangs nowhere, every operand under it is
linked to the slot that it sits in, and every node stores the effects of its whole tree. -/
structure EntryRight (r : Routine) (n : NodeId) : Prop where
  /-- The entry exists and hangs nowhere. -/
  free : r.Free n
  /-- Every operand under it exists and is linked to its slot. -/
  links : ∀ p slot c, r.Under n p → r.HasChild p slot c → r.LinksTo c ⟨p, slot⟩
  /-- Every node under it stores the effects of its tree. -/
  effects : ∀ m, r.Under n m → ∃ t, r.Shows m t ∧ t.effects = t.ownEffects

/-- The audit of a free entry is the audit of its links, then of its effects. -/
theorem auditEntry_of_free {n : NodeId} (hf : r.Free n) :
    r.auditEntry n = (do r.auditLinks n; let _ ← r.auditEffects n) := by
  obtain ⟨node, hn, hp⟩ := hf
  have hparent : r.parent n = .ok none := by rw [parent, node_of_get? hn, except_map_ok, hp]
  rw [auditEntry, hparent, except_bind_ok]

theorem free_of_auditEntry {n : NodeId} (h : r.auditEntry n = .ok ()) : r.Free n := by
  rw [auditEntry, parent] at h
  cases hn : r.get? n with
  | none =>
    rw [node_of_none hn] at h
    cases h
  | some node =>
    rw [node_of_get? hn, except_map_ok, except_bind_ok] at h
    cases hp : node.parent with
    | none => exact ⟨node, hn, hp⟩
    | some link =>
      rw [hp] at h
      cases h

theorem Acyclic.auditEntry_ok_iff (h : r.Acyclic) {n : NodeId} :
    r.auditEntry n = .ok () ↔ r.EntryRight n := by
  constructor
  · intro hok
    have hf := free_of_auditEntry hok
    rw [auditEntry_of_free hf] at hok
    cases haudit : r.auditLinks n with
    | error fault =>
      rw [haudit] at hok
      cases hok
    | ok _ =>
      have hlinks := linksTo_of_auditLinksWithin haudit
      obtain ⟨t, ht⟩ := h.exists_shows (live_of_links hf.isLive hlinks)
      have hd := (unshared_of_links hlinks).nodes_nodup h .self ht
      refine ⟨hf, hlinks, (auditEffects_ok_iff ht hd).mp ?_⟩
      rw [haudit, except_bind_ok] at hok
      cases heffects : r.auditEffects n with
      | error fault =>
        rw [heffects] at hok
        cases hok
      | ok found => exact ⟨found, rfl⟩
  · rintro ⟨hf, hlinks, heffects⟩
    obtain ⟨t, ht⟩ := h.exists_shows (live_of_links hf.isLive hlinks)
    have hd := (unshared_of_links hlinks).nodes_nodup h .self ht
    have haudit : r.auditLinks n = .ok () :=
      auditLinksWithin_eq ht (Nat.le_of_lt (ht.size_lt_pathBound hd)) hlinks
    obtain ⟨found, hfound⟩ := (auditEffects_ok_iff ht hd).mpr heffects
    rw [auditEntry_of_free hf, haudit, except_bind_ok, hfound]
    rfl

/--
Audits are exact wherever the operands form no cycle, however wrong everything else is. The audit of
the routine succeeds when every entry of its body is free, every operand under an entry exists and is
linked to the slot that it sits in, and every node under an entry stores the union of the effects
that the kinds of the nodes of its tree add.

Where everything under a node exists and sits in one slot only, those nodes are the ones of a tree,
none of them twice. If nothing in it is stale, the audit of effects finds its effects and counts its
nodes; otherwise it reports the first stale node in the order of evaluation, with the effects that it
stores and those that it should.
-/
theorem Acyclic.audits_exact (h : r.Acyclic) :
    (r.audit = .ok () ↔ ∀ n ∈ r.body, r.EntryRight n) ∧
    ∀ n, (∀ m, r.Under n m → r.isLive m = true) →
      (∀ p q i j c, r.Under n p → r.Under n q → r.HasChild p i c → r.HasChild q j c →
        p = q ∧ i = j) →
      ∃ t, r.tree n = .ok t ∧ t.nodes.Nodup ∧ (∀ m, m ∈ t.nodes ↔ r.Under n m) ∧
        ((∀ u ∈ t.subtrees, u.effects = u.ownEffects) →
          r.auditEffects n = .ok t.ownEffects ∧
          r.countAudited n = .ok (t.ownEffects, t.nodes.length)) ∧
        ((∃ u ∈ t.subtrees, u.effects ≠ u.ownEffects) →
          ∃ earlier u later, t.subtrees = earlier ++ u :: later ∧
            (∀ v ∈ earlier, v.effects = v.ownEffects) ∧ u.effects ≠ u.ownEffects ∧
            r.effects u.id = .ok u.effects ∧
            r.auditEffects n = .error (.staleEffects u.id u.effects u.ownEffects)) := by
  refine ⟨?_, fun n hlive hslots => ?_⟩
  · rw [audit, forM_ok_iff]
    exact forall₂_congr fun n _ => h.auditEntry_ok_iff
  · obtain ⟨t, ht⟩ := h.exists_shows hlive
    have hunshared : r.Unshared (r.Under n) := ⟨fun _ _ _ hp hc => hp.child hc, hslots⟩
    have hd := hunshared.nodes_nodup h .self ht
    have htree : r.tree n = .ok t := ht.treeWithin_eq (Nat.le_of_lt (ht.size_lt_pathBound hd))
    refine ⟨t, htree, hd, fun m => ht.mem_nodes_iff, fun hright => ?_, fun hwrong => ?_⟩
    · have hnone := Tree.firstStale?_eq_none_iff.mpr hright
      rw [auditEffects_eq ht hd, countAudited_eq ht hd, hnone, Tree.counted_of_fresh hnone,
        t.length_nodes]
      exact ⟨rfl, rfl⟩
    · obtain ⟨u, hfirst⟩ := Tree.exists_firstStale? hwrong
      obtain ⟨earlier, later, hsplit, hearlier, hu⟩ := Tree.split_of_firstStale? hfirst
      have hmem : u ∈ t.subtrees := hsplit ▸ List.mem_append_right _ (List.mem_cons_self ..)
      refine ⟨earlier, u, later, hsplit, hearlier, hu,
        effects_of_shows (ht.of_mem_subtrees u hmem), ?_⟩
      rw [auditEffects_eq ht hd, hfirst]
      rfl

/-- Where operands are allocated before the nodes that they sit in there is no cycle. -/
theorem acyclic_of_older (h : ∀ p slot c, r.HasChild p slot c → c.index < p.index) :
    r.Acyclic := by
  intro p slot c hc hunder
  have hle : p.index ≤ c.index := by
    clear hc
    induction hunder with
    | self => exact Nat.le_refl _
    | child _ sits ih => exact Nat.le_trans (Nat.le_of_lt (h _ _ _ sits)) ih
  have hlt := h p slot c hc
  omega

/-- Of two stale operands of a sum the audit reports the first, and the audit of the routine fails. -/
theorem audits_exact_at_stale_operands :
    let r : Routine :=
      { name := "main"
        nodes := #[some ⟨.load 0, [], .read, some ⟨⟨1⟩, 0⟩⟩,
          some ⟨.unary .neg, [⟨0⟩], ∅, some ⟨⟨3⟩, 0⟩⟩, some ⟨.load 1, [], ∅, some ⟨⟨3⟩, 1⟩⟩,
          some ⟨.binary .add, [⟨1⟩, ⟨2⟩], .read, none⟩]
        live := 4
        body := [⟨3⟩] }
    r.Acyclic ∧ r.auditEffects ⟨3⟩ = .error (.staleEffects ⟨1⟩ ∅ .read) ∧ r.audit ≠ .ok () := by
  intro r
  have hsits : ∀ p i c, r.HasChild p i c →
      (p, i, c) = (⟨1⟩, 0, ⟨0⟩) ∨ (p, i, c) = (⟨3⟩, 0, ⟨1⟩) ∨ (p, i, c) = (⟨3⟩, 1, ⟨2⟩) := by
    rintro ⟨p⟩ i c ⟨node, hp, hc⟩
    match p, hp with
    | 0, rfl => cases hc
    | 1, rfl =>
      match i, hc with
      | 0, rfl => exact Or.inl rfl
    | 2, rfl => cases hc
    | 3, rfl =>
      match i, hc with
      | 0, rfl => exact Or.inr (Or.inl rfl)
      | 1, rfl => exact Or.inr (Or.inr rfl)
  have hacyclic : r.Acyclic := by
    apply acyclic_of_older
    intro p i c hc
    rcases hsits p i c hc with h | h | h <;> cases h <;> decide
  have hlive : ∀ m, r.Under ⟨3⟩ m → r.isLive m = true := by
    intro m hm
    cases hm with
    | self => rfl
    | child _ sits => rcases hsits _ _ _ sits with h | h | h <;> cases h <;> rfl
  have hslots : ∀ p q i j c, r.Under ⟨3⟩ p → r.Under ⟨3⟩ q → r.HasChild p i c →
      r.HasChild q j c → p = q ∧ i = j := by
    intro p q i j c _ _ hp hq
    rcases hsits p i c hp with h | h | h <;> rcases hsits q j c hq with h' | h' | h' <;>
      cases h <;> cases h' <;> exact ⟨rfl, rfl⟩
  obtain ⟨haudit, htrees⟩ := Acyclic.audits_exact hacyclic
  obtain ⟨t, htree, -, -, -, hstale⟩ := htrees ⟨3⟩ hlive hslots
  let load : Tree := .node ⟨0⟩ (.load 0) .read []
  let first : Tree := .node ⟨1⟩ (.unary .neg) ∅ [load]
  let second : Tree := .node ⟨2⟩ (.load 1) ∅ []
  let sum : Tree := .node ⟨3⟩ (.binary .add) .read [first, second]
  obtain rfl : t = sum := Except.ok.inj (htree.symm.trans (by rfl))
  have hparts : sum.subtrees = [load, first, second, sum] := rfl
  have hmem : first ∈ sum.subtrees := hparts ▸ .tail _ (.head _)
  have hfirst : first.effects ≠ first.ownEffects := by decide
  refine ⟨hacyclic, ?_, fun hok => ?_⟩
  · obtain ⟨earlier, u, later, hsplit, hearlier, hu, -, haudit⟩ := hstale ⟨first, hmem, hfirst⟩
    rw [hparts] at hsplit
    match earlier, hsplit, hearlier with
    | [], hsplit, _ =>
      obtain rfl : load = u := (List.cons.inj hsplit).1
      exact absurd rfl hu
    | [_], hsplit, _ =>
      obtain rfl : first = u := (List.cons.inj (List.cons.inj hsplit).2).1
      exact haudit
    | _ :: v :: _, hsplit, hearlier =>
      obtain rfl : first = v := (List.cons.inj (List.cons.inj hsplit).2).1
      exact absurd (hearlier first (.tail _ (.head _))) hfirst
  · have hsits : r.HasChild ⟨3⟩ 0 ⟨1⟩ := ⟨_, rfl, rfl⟩
    obtain ⟨u, hu, hright⟩ := (haudit.mp hok ⟨3⟩ (by decide)).effects ⟨1⟩ (.child .self hsits)
    obtain rfl := hu.unique ((shows_of_tree htree).of_mem_subtrees first hmem)
    exact hfirst hright

end Routine

end StackTree
