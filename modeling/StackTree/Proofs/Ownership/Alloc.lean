import StackTree.Proofs.Ownership.Trees
import Mathlib.Data.List.Induction

/-!
# Allocation keeps a routine sound

An allocation either changes nothing and fails, or adds one node over free operands
(`alloc_cases`). The new node is `Routine.nextId`; besides it only the links of the operands change
(`get?_graft_of_mem`, `get?_graft_of_ne`).

## Main definitions

* `Routine.Ages`: what every operation does to names: there are no fewer, and one whose node is
  gone stays without a node.
* `Routine.Refused`, `Routine.Rejects`: why a node of a list is refused, and which one is first.
* `Routine.RefusesAlloc`: why an allocation is refused.

## Main results

* `checkFree_nil_ok_iff`, `checkFree_of_rejects`: the check of a list accepts exactly free nodes
  that are listed once, and otherwise reports the first node that is gone, attached or repeated.
* `alloc_ok`, `alloc_of_refuses`, `alloc_cases`: what an allocation does.
* `Sound.graft`: the routine with the new node is sound.
-/

namespace StackTree.Routine

open Runs

variable {r s : Routine}

/-! ## Names -/

/-- The node was allocated and is released. -/
def Released (r : Routine) (n : NodeId) : Prop := n.index < r.nodes.size ∧ r.get? n = none

/-- Later there are no fewer names, and whatever was released stays so. -/
structure Ages (r s : Routine) : Prop where
  size_le : r.nodes.size ≤ s.nodes.size
  released : ∀ n, r.Released n → s.get? n = none

theorem Ages.refl (r : Routine) : r.Ages r := ⟨Nat.le_refl _, fun _ h => h.2⟩

theorem Ages.trans {t : Routine} (h : r.Ages s) (h' : s.Ages t) : r.Ages t where
  size_le := Nat.le_trans h.size_le h'.size_le
  released := fun n hn => h'.released n ⟨Nat.lt_of_lt_of_le hn.1 h.size_le, h.released n hn⟩

theorem Alike.ages (h : r.Alike s) : r.Ages s where
  size_le := Nat.le_of_eq h.size_eq.symm
  released := by
    intro n hn
    rw [← bare_eq_none_iff, h.bare_eq n, bare_eq_none_iff]
    exact hn.2

theorem nextId_ne_of_isLive {n : NodeId} (h : r.isLive n = true) : n ≠ r.nextId := by
  rintro rfl
  exact Nat.lt_irrefl _ (index_lt_of_isLive h)

/-! ## The check of a list of free nodes -/

/-- Why the check refuses a node, given the nodes that were listed before it. -/
inductive Refused (r : Routine) (attached : NodeId → Link → Fault) (earlier : List NodeId)
    (n : NodeId) : Fault → Prop where
  /-- The node does not exist. -/
  | released (gone : r.get? n = none) : Refused r attached earlier n (.released n)
  /-- The node hangs somewhere. -/
  | attached {link : Link} (linked : r.LinksTo n link) :
      Refused r attached earlier n (attached n link)
  /-- The node hangs nowhere, but it was listed before. -/
  | repeated (free : r.Free n) (again : n ∈ earlier) : Refused r attached earlier n (.repeated n)

/-- The first node of a list that is gone, attached or repeated is refused with the fault. -/
def Rejects (r : Routine) (attached : NodeId → Link → Fault) (ns : List NodeId) (fault : Fault) :
    Prop :=
  ∃ earlier n later, ns = earlier ++ n :: later ∧ r.AllFree earlier ∧
    r.Refused attached earlier n fault

section Check

variable {attached : NodeId → Link → Fault} {seen earlier ns : List NodeId} {n : NodeId}
  {fault : Fault}

/-- What was listed before matters only as a set. -/
theorem Refused.congr (h : r.Refused attached seen n fault) (hmem : n ∈ seen → n ∈ earlier) :
    r.Refused attached earlier n fault := by
  cases h with
  | released gone => exact .released gone
  | attached linked => exact .attached linked
  | repeated free again => exact .repeated free (hmem again)

/-- The refusal depends only on the nodes. -/
theorem Refused.of_get?_eq (h : r.Refused attached seen n fault)
    (heq : ∀ m, s.get? m = r.get? m) : s.Refused attached seen n fault := by
  cases h with
  | released gone => exact .released ((heq n).trans gone)
  | attached linked =>
    obtain ⟨node, hn, hp⟩ := linked
    exact .attached ⟨node, (heq n).trans hn, hp⟩
  | repeated free again =>
    obtain ⟨node, hn, hp⟩ := free
    exact .repeated ⟨node, (heq n).trans hn, hp⟩ again

theorem Rejects.of_get?_eq (h : r.Rejects attached ns fault)
    (heq : ∀ m, s.get? m = r.get? m) : s.Rejects attached ns fault := by
  obtain ⟨earlier, n, later, hsplit, ⟨hd, hfree⟩, hr⟩ := h
  refine ⟨earlier, n, later, hsplit, ⟨hd, fun m hm => ?_⟩, hr.of_get?_eq heq⟩
  obtain ⟨node, hget, hp⟩ := hfree m hm
  exact ⟨node, (heq m).trans hget, hp⟩

theorem refused_or_free (r : Routine) (attached : NodeId → Link → Fault) (seen : List NodeId)
    (n : NodeId) : (∃ fault, r.Refused attached seen n fault) ∨ (r.Free n ∧ n ∉ seen) := by
  cases hn : r.get? n with
  | none => exact Or.inl ⟨_, .released hn⟩
  | some node =>
    cases hp : node.parent with
    | some link => exact Or.inl ⟨_, .attached ⟨node, hn, hp⟩⟩
    | none =>
      by_cases hmem : n ∈ seen
      · exact Or.inl ⟨_, .repeated ⟨node, hn, hp⟩ hmem⟩
      · exact Or.inr ⟨⟨node, hn, hp⟩, hmem⟩

theorem checkFree_cons_of_refused (h : r.Refused attached seen n fault) (rest : List NodeId) :
    r.checkFree attached seen (n :: rest) = .error fault := by
  cases h with
  | released gone => rw [checkFree, node_of_none gone, except_bind_error]
  | attached linked =>
    obtain ⟨node, hn, hp⟩ := linked
    simp only [checkFree, node_of_get? hn, except_bind_ok, hp]
  | repeated free again =>
    obtain ⟨node, hn, hp⟩ := free
    simp only [checkFree, node_of_get? hn, except_bind_ok, hp, again, if_true]

theorem checkFree_cons_of_free (hf : r.Free n) (hn : n ∉ seen) (rest : List NodeId) :
    r.checkFree attached seen (n :: rest) = r.checkFree attached (n :: seen) rest := by
  obtain ⟨node, hget, hp⟩ := hf
  simp only [checkFree, node_of_get? hget, except_bind_ok, hp, hn, if_false]

/-- The check passes over free nodes that are listed once and not seen before. -/
theorem checkFree_append_of_free (hfree : ∀ m ∈ earlier, r.Free m ∧ m ∉ seen)
    (hd : earlier.Nodup) (rest : List NodeId) :
    r.checkFree attached seen (earlier ++ rest) =
      r.checkFree attached (earlier.reverse ++ seen) rest := by
  induction earlier generalizing seen with
  | nil => rfl
  | cons m earlier ih =>
    obtain ⟨hm, hd⟩ := List.nodup_cons.mp hd
    obtain ⟨hf, hnew⟩ := hfree m (List.mem_cons_self ..)
    rw [List.cons_append, checkFree_cons_of_free hf hnew, ih _ hd, List.reverse_cons,
      List.append_assoc, List.singleton_append]
    intro k hk
    obtain ⟨hkf, hknew⟩ := hfree k (List.mem_cons_of_mem m hk)
    refine ⟨hkf, fun hmem => ?_⟩
    rcases List.mem_cons.mp hmem with rfl | hmem
    · exact hm hk
    · exact hknew hmem

theorem checkFree_of_free (h : r.AllFree ns) : r.checkFree attached [] ns = .ok () := by
  have hfree : ∀ m ∈ ns, r.Free m ∧ m ∉ [] := fun m hm => ⟨h.2 m hm, List.not_mem_nil⟩
  rw [← List.append_nil ns, checkFree_append_of_free hfree h.1]
  rfl

theorem checkFree_of_rejects (h : r.Rejects attached ns fault) :
    r.checkFree attached [] ns = .error fault := by
  obtain ⟨earlier, n, later, rfl, ⟨hd, hfree⟩, hr⟩ := h
  rw [checkFree_append_of_free (fun m hm => ⟨hfree m hm, List.not_mem_nil⟩) hd]
  exact checkFree_cons_of_refused (hr.congr (by simp)) later

/-- Either all nodes of a list are free, or a first one of it is refused. -/
theorem allFree_or_rejects (r : Routine) (attached : NodeId → Link → Fault) (ns : List NodeId) :
    r.AllFree ns ∨ ∃ fault, r.Rejects attached ns fault := by
  induction ns using List.reverseRecOn with
  | nil => exact Or.inl ⟨List.nodup_nil, by simp⟩
  | append_singleton ns n ih =>
    rcases ih with hall | ⟨fault, earlier, m, later, rfl, hfree, hr⟩
    · rcases refused_or_free r attached ns n with ⟨fault, hr⟩ | ⟨hf, hnew⟩
      · exact Or.inr ⟨fault, ns, n, [], rfl, hall, hr⟩
      · left
        refine ⟨List.concat_eq_append ▸ hall.1.concat hnew, fun m hm => ?_⟩
        rcases List.mem_append.mp hm with hm | hm
        · exact hall.2 m hm
        · rw [List.mem_singleton.mp hm]
          exact hf
    · exact Or.inr ⟨fault, earlier, m, later ++ [n], by simp, hfree, hr⟩

/-- A list passes the check when its nodes are free and listed once. -/
theorem checkFree_nil_ok_iff : r.checkFree attached [] ns = .ok () ↔ r.AllFree ns := by
  refine ⟨fun h => ?_, checkFree_of_free⟩
  rcases allFree_or_rejects r attached ns with hfree | ⟨fault, hrejects⟩
  · exact hfree
  · rw [checkFree_of_rejects hrejects] at h
    cases h

/-- A list is refused exactly when some node of it is gone, attached or listed before. -/
theorem exists_rejects_iff :
    (∃ fault, r.Rejects attached ns fault) ↔
      ∃ earlier n later, ns = earlier ++ n :: later ∧
        (r.isLive n = false ∨ (∃ link, r.LinksTo n link) ∨ n ∈ earlier) := by
  constructor
  · rintro ⟨fault, earlier, n, later, hsplit, -, hr⟩
    refine ⟨earlier, n, later, hsplit, ?_⟩
    cases hr with
    | released gone => exact Or.inl (by rw [isLive, gone]; rfl)
    | @attached link linked => exact Or.inr (Or.inl ⟨link, linked⟩)
    | repeated _ again => exact Or.inr (Or.inr again)
  · rintro ⟨earlier, n, later, rfl, hbad⟩
    rcases allFree_or_rejects r attached (earlier ++ n :: later) with ⟨hd, hfree⟩ | hrejects
    · exfalso
      have hf : r.Free n := hfree n (by simp)
      rcases hbad with hgone | ⟨link, hlink⟩ | hagain
      · rw [hf.isLive] at hgone
        cases hgone
      · exact hf.not_linksTo hlink
      · exact (List.nodup_append.mp hd).2.2 n hagain n (List.mem_cons_self ..) rfl
    · exact hrejects

end Check

/-! ## Linking the operands -/

theorem get?_attachAll_of_notMem {p : NodeId} {slot : Nat} {ns : List NodeId} {m : NodeId}
    (h : m ∉ ns) : (r.attachAll p slot ns).get? m = r.get? m := by
  induction ns generalizing r slot with
  | nil => rfl
  | cons n rest ih =>
    have hne : m ≠ n := fun heq => h (heq ▸ List.mem_cons_self ..)
    rw [attachAll, ih fun hm => h (List.mem_cons_of_mem n hm), get?_update, if_neg hne]

theorem get?_attachAll_of_getElem? {p : NodeId} {slot i : Nat} {ns : List NodeId} {m : NodeId}
    (hd : ns.Nodup) (h : ns[i]? = some m) :
    (r.attachAll p slot ns).get? m =
      (r.get? m).map fun node => { node with parent := some ⟨p, slot + i⟩ } := by
  induction ns generalizing r slot i with
  | nil => simp at h
  | cons n rest ih =>
    obtain ⟨hn, hrest⟩ := List.nodup_cons.mp hd
    rw [attachAll]
    cases i with
    | zero =>
      simp only [List.getElem?_cons_zero, Option.some.injEq] at h
      subst h
      rw [get?_attachAll_of_notMem hn, get?_update, if_pos rfl, Nat.add_zero]
    | succ i =>
      simp only [List.getElem?_cons_succ] at h
      have hne : m ≠ n := fun heq => hn (heq ▸ List.mem_of_getElem? h)
      rw [ih hrest h, get?_update, if_neg hne, show slot + 1 + i = slot + (i + 1) by omega]

@[simp] theorem size_attachAll (p : NodeId) (slot : Nat) (ns : List NodeId) :
    (r.attachAll p slot ns).nodes.size = r.nodes.size := by
  induction ns generalizing r slot with
  | nil => rfl
  | cons n rest ih => rw [attachAll, ih, size_update]

/-- Linking operands changes nothing besides the nodes. -/
theorem attachAll_with_nodes (p : NodeId) (slot : Nat) (ns : List NodeId) :
    r.attachAll p slot ns = { r with nodes := (r.attachAll p slot ns).nodes } := by
  induction ns generalizing r slot with
  | nil => rfl
  | cons n rest ih =>
    rw [attachAll]
    exact ih (slot + 1)

@[simp] theorem live_attachAll (p : NodeId) (slot : Nat) (ns : List NodeId) :
    (r.attachAll p slot ns).live = r.live := by
  rw [attachAll_with_nodes]

@[simp] theorem name_attachAll (p : NodeId) (slot : Nat) (ns : List NodeId) :
    (r.attachAll p slot ns).name = r.name := by
  rw [attachAll_with_nodes]

@[simp] theorem body_attachAll (p : NodeId) (slot : Nat) (ns : List NodeId) :
    (r.attachAll p slot ns).body = r.body := by
  rw [attachAll_with_nodes]

/-! ## The routine with a new node -/

section Graft

variable {kind : Kind} {operands : List NodeId} {effects : Effects}

@[simp] theorem size_graft : (r.graft kind operands effects).nodes.size = r.nodes.size + 1 := by
  simp [graft, insert]

@[simp] theorem name_graft : (r.graft kind operands effects).name = r.name := by
  simp [graft, insert]

@[simp] theorem body_graft : (r.graft kind operands effects).body = r.body := by
  simp [graft, insert]

@[simp] theorem live_graft : (r.graft kind operands effects).live = r.live + 1 := by
  simp [graft, insert]

theorem nextId_attachAll (p : NodeId) (slot : Nat) (ns : List NodeId) :
    (r.attachAll p slot ns).nextId = r.nextId := by
  simp [nextId]

theorem get?_graft_nextId : (r.graft kind operands effects).get? r.nextId =
    some { kind := kind, children := operands, effects := effects, parent := none } := by
  rw [graft, get?_insert, nextId_attachAll, if_pos rfl]

/-- Other stored effects can be given to the new node later. -/
theorem graft_setEffects (effects' : Effects) :
    (r.graft kind operands effects).update r.nextId (fun node => { node with effects := effects' }) =
      r.graft kind operands effects' := by
  have hupdate := (r.attachAll r.nextId 0 operands).update_insert_nextId
    { kind := kind, children := operands, effects := effects, parent := none }
    fun node => { node with effects := effects' }
  rw [nextId_attachAll] at hupdate
  exact hupdate

theorem get?_graft_of_mem {i : Nat} {m : NodeId} (hf : r.AllFree operands)
    (h : operands[i]? = some m) : (r.graft kind operands effects).get? m =
      (r.get? m).map fun node => { node with parent := some ⟨r.nextId, i⟩ } := by
  have hne := nextId_ne_of_isLive (hf.2 m (List.mem_of_getElem? h)).isLive
  rw [graft, get?_insert, nextId_attachAll, if_neg hne, get?_attachAll_of_getElem? hf.1 h,
    Nat.zero_add]

theorem get?_graft_of_ne {m : NodeId} (hne : m ≠ r.nextId) (hm : m ∉ operands) :
    (r.graft kind operands effects).get? m = r.get? m := by
  rw [graft, get?_insert, nextId_attachAll, if_neg hne, get?_attachAll_of_notMem hm]

/-- An older node is what it was, but for its link. -/
theorem get?_graft_older (kind : Kind) (effects : Effects) {m : NodeId}
    (hf : r.AllFree operands) (hne : m ≠ r.nextId) :
    ∃ link : Node → Option Link, (r.graft kind operands effects).get? m =
      (r.get? m).map fun node => { node with parent := link node } := by
  by_cases hm : m ∈ operands
  · obtain ⟨i, hi⟩ := List.mem_iff_getElem?.mp hm
    exact ⟨_, get?_graft_of_mem hf hi⟩
  · exact ⟨Node.parent, by simp [get?_graft_of_ne hne hm]⟩

theorem isLive_graft_older {m : NodeId} (hf : r.AllFree operands) (hne : m ≠ r.nextId) :
    (r.graft kind operands effects).isLive m = r.isLive m := by
  obtain ⟨link, hget⟩ := get?_graft_older kind effects hf hne
  rw [isLive, hget, Option.isSome_map, isLive]

theorem storedEffects_graft_older {m : NodeId} (hf : r.AllFree operands) (hne : m ≠ r.nextId) :
    (r.graft kind operands effects).storedEffects m = r.storedEffects m := by
  obtain ⟨link, hget⟩ := get?_graft_older kind effects hf hne
  rw [storedEffects, storedEffects, hget, Option.map_map]
  rfl

theorem joinEffects_graft {ns : List NodeId} (hf : r.AllFree operands)
    (hl : ∀ n ∈ ns, r.isLive n = true) :
    (r.graft kind operands effects).joinEffects ns = r.joinEffects ns :=
  joinEffects_congr fun n hn => storedEffects_graft_older hf (nextId_ne_of_isLive (hl n hn))

theorem linksTo_graft_of_linksTo {m : NodeId} {link : Link} (hf : r.AllFree operands)
    (h : r.LinksTo m link) : (r.graft kind operands effects).LinksTo m link := by
  have hm : m ∉ operands := fun hmem => (hf.2 m hmem).not_linksTo h
  obtain ⟨node, hn, hp⟩ := h
  refine ⟨node, ?_, hp⟩
  rw [get?_graft_of_ne (nextId_ne_of_isLive (isLive_iff.mpr ⟨node, hn⟩)) hm, hn]

theorem linksTo_graft_of_getElem? {m : NodeId} {i : Nat} (hf : r.AllFree operands)
    (h : operands[i]? = some m) :
    (r.graft kind operands effects).LinksTo m ⟨r.nextId, i⟩ := by
  obtain ⟨node, hn, -⟩ := hf.2 m (List.mem_of_getElem? h)
  exact ⟨_, by rw [get?_graft_of_mem hf h, hn]; rfl, rfl⟩

theorem hasChild_graft_of_hasChild {p c : NodeId} {slot : Nat} (hf : r.AllFree operands)
    (h : r.HasChild p slot c) : (r.graft kind operands effects).HasChild p slot c := by
  obtain ⟨node, hp, hc⟩ := h
  have hne := nextId_ne_of_isLive (isLive_iff.mpr ⟨node, hp⟩)
  obtain ⟨link, hget⟩ := get?_graft_older kind effects hf hne
  exact ⟨{ node with parent := link node }, by rw [hget, hp]; rfl, hc⟩

/-- What sits under a node of the new routine sits there in the old one, or under the new node. -/
theorem hasChild_graft_cases {p c : NodeId} {slot : Nat} (hf : r.AllFree operands)
    (h : (r.graft kind operands effects).HasChild p slot c) :
    (p = r.nextId ∧ operands[slot]? = some c) ∨ r.HasChild p slot c := by
  obtain ⟨node, hp, hc⟩ := h
  by_cases hne : p = r.nextId
  · left
    subst hne
    rw [get?_graft_nextId, Option.some.injEq] at hp
    subst hp
    exact ⟨rfl, hc⟩
  · right
    obtain ⟨link, hget⟩ := get?_graft_older kind effects hf hne
    rw [hget] at hp
    obtain ⟨old, hold, rfl⟩ := Option.map_eq_some_iff.mp hp
    exact ⟨old, hold, hc⟩

/-- A link of the new routine is a link of the old one, or leads from an operand to the new node. -/
theorem linksTo_graft_cases {c : NodeId} {link : Link} (hf : r.AllFree operands)
    (h : (r.graft kind operands effects).LinksTo c link) :
    (link.parent = r.nextId ∧ operands[link.slot]? = some c) ∨ r.LinksTo c link := by
  obtain ⟨node, hc, hl⟩ := h
  by_cases hne : c = r.nextId
  · subst hne
    rw [get?_graft_nextId, Option.some.injEq] at hc
    subst hc
    cases hl
  · by_cases hm : c ∈ operands
    · left
      obtain ⟨i, hi⟩ := List.mem_iff_getElem?.mp hm
      rw [get?_graft_of_mem hf hi] at hc
      obtain ⟨old, -, rfl⟩ := Option.map_eq_some_iff.mp hc
      obtain rfl := Option.some.inj hl
      exact ⟨rfl, hi⟩
    · right
      rw [get?_graft_of_ne hne hm] at hc
      exact ⟨node, hc, hl⟩

theorem depthIs_graft_nextId :
    (r.graft kind operands effects).DepthIs r.nextId 0 :=
  .root ⟨_, get?_graft_nextId, rfl⟩

theorem DepthIs.graft {m : NodeId} {depth : Nat} (h : r.DepthIs m depth)
    (hf : r.AllFree operands) : ∃ depth, (r.graft kind operands effects).DepthIs m depth := by
  induction h with
  | @root m free =>
    by_cases hm : m ∈ operands
    · obtain ⟨i, hi⟩ := List.mem_iff_getElem?.mp hm
      exact ⟨1, .up (linksTo_graft_of_getElem? hf hi) depthIs_graft_nextId⟩
    · obtain ⟨node, hn, hp⟩ := free
      refine ⟨0, .root ⟨node, ?_, hp⟩⟩
      rw [get?_graft_of_ne (nextId_ne_of_isLive (isLive_iff.mpr ⟨node, hn⟩)) hm, hn]
  | up linked _ ih =>
    obtain ⟨depth, hdepth⟩ := ih
    exact ⟨depth + 1, .up (linksTo_graft_of_linksTo hf linked) hdepth⟩

theorem liveNodes_insert (node : Node) : (r.insert node).liveNodes = r.liveNodes + 1 := by
  simp [liveNodes, insert]

theorem liveNodes_attachAll (p : NodeId) (slot : Nat) (ns : List NodeId) :
    (r.attachAll p slot ns).liveNodes = r.liveNodes := by
  induction ns generalizing r slot with
  | nil => rfl
  | cons n rest ih =>
    rw [attachAll, ih]
    refine liveNodes_congr (size_update r n _) fun m => ?_
    rw [isLive, get?_update]
    split
    · next heq => rw [heq, Option.isSome_map, isLive]
    · rfl

/-- The effects of the new node are those of its kind and of the operands before it was added. -/
theorem computeEffects_graft (ha : kind.accepts operands.length = true) (hf : r.AllFree operands) :
    (r.graft kind operands effects).computeEffects r.nextId =
      .ok (kind.intrinsic ∪ r.joinEffects operands) := by
  have hlive : ∀ n ∈ operands, r.isLive n = true := fun n hn => (hf.2 n hn).isLive
  have hjoin : (r.graft kind operands effects).joinEffects operands = r.joinEffects operands :=
    joinEffects_graft hf hlive
  rw [← hjoin]
  refine computeEffects_of_get? get?_graft_nextId ha fun n hn => ?_
  rw [isLive_graft_older hf (nextId_ne_of_isLive (hlive n hn)), hlive n hn]

/-- The routine with a new node over free operands is sound. -/
theorem Sound.graft (h : r.Sound) (ha : kind.accepts operands.length = true)
    (hf : r.AllFree operands) (he : effects = kind.intrinsic ∪ r.joinEffects operands) :
    (r.graft kind operands effects).Sound where
  down := by
    intro p slot c hc
    rcases hasChild_graft_cases hf hc with ⟨rfl, hi⟩ | hc
    · exact linksTo_graft_of_getElem? hf hi
    · exact linksTo_graft_of_linksTo hf (h.down p slot c hc)
  up := by
    rintro c ⟨p, slot⟩ hl
    rcases linksTo_graft_cases hf hl with ⟨rfl, hi⟩ | hl
    · exact ⟨_, get?_graft_nextId, hi⟩
    · exact hasChild_graft_of_hasChild hf (h.up c ⟨p, slot⟩ hl)
  arity := by
    intro n node hn
    by_cases hne : n = r.nextId
    · subst hne
      rw [get?_graft_nextId, Option.some.injEq] at hn
      subst hn
      exact ha
    · obtain ⟨link, hget⟩ := get?_graft_older kind effects hf hne
      rw [hget] at hn
      obtain ⟨old, hold, rfl⟩ := Option.map_eq_some_iff.mp hn
      exact h.arity n old hold
  grounded := by
    intro n hn
    by_cases hne : n = r.nextId
    · subst hne
      exact ⟨0, depthIs_graft_nextId⟩
    · rw [isLive_graft_older hf hne] at hn
      obtain ⟨depth, hdepth⟩ := h.grounded n hn
      exact hdepth.graft hf
  live_eq := by
    rw [live_graft, Routine.graft, liveNodes_insert, liveNodes_attachAll, h.live_eq]
  effectsRight := by
    intro n node hn
    by_cases hne : n = r.nextId
    · subst hne
      rw [get?_graft_nextId, Option.some.injEq] at hn
      subst hn
      rw [he, joinEffects_graft hf fun m hm => (hf.2 m hm).isLive]
    · obtain ⟨link, hget⟩ := get?_graft_older kind effects hf hne
      rw [hget] at hn
      obtain ⟨old, hold, rfl⟩ := Option.map_eq_some_iff.mp hn
      rw [joinEffects_graft hf (h.children_live hold)]
      exact h.effectsRight n old hold

theorem ages_graft (hf : r.AllFree operands) : r.Ages (r.graft kind operands effects) where
  size_le := by
    rw [size_graft]
    omega
  released := by
    intro n hn
    have hne : n ≠ r.nextId := by
      rintro rfl
      exact Nat.lt_irrefl _ hn.1
    obtain ⟨link, hget⟩ := get?_graft_older kind effects hf hne
    rw [hget, hn.2]
    rfl

end Graft

end StackTree.Routine

namespace StackTree

open Runs

variable {r : Routine} {kind : Kind} {operands : List NodeId}

/-- An allocation over free operands that fit goes well while there is room. -/
theorem alloc_ok (ha : kind.accepts operands.length = true) (hf : r.AllFree operands)
    (hroom : r.nodes.size < Routine.capacity) :
    alloc kind operands r =
      .ok r.nextId (r.graft kind operands (kind.intrinsic ∪ r.joinEffects operands)) := by
  have harity : kind.checkArity operands.length = .ok () := by simp [Kind.checkArity, ha]
  have hfree : r.checkFree (fun n link => .alreadyAttached n link.parent link.slot) [] operands
      = .ok () := Routine.checkFree_nil_ok_iff.mpr hf
  have hcheck : r.checkRoom = .ok () := by simp [Routine.checkRoom, hroom]
  have heffects : (r.graft kind operands ∅).computeEffects r.nextId =
      .ok (kind.intrinsic ∪ r.joinEffects operands) := Routine.computeEffects_graft ha hf
  simp [alloc, run_bind, run_map, harity, hfree, hcheck, heffects, Routine.graft_setEffects]

/-! ## Refused allocations -/

/-- How an allocation words the refusal of an operand that hangs somewhere. -/
def attachedOperand (n : NodeId) (link : Link) : Fault := .alreadyAttached n link.parent link.slot

/-- Why an allocation is refused; each reason counts only where those before it do not apply. -/
inductive Routine.RefusesAlloc (r : Routine) (kind : Kind) (operands : List NodeId) :
    Fault → Prop where
  /-- A node of the kind cannot have so many operands. -/
  | arity (misfit : kind.accepts operands.length = false) :
      RefusesAlloc r kind operands (.arity kind kind.arity operands.length)
  /-- An operand is gone, attached or repeated; the first such one is named. -/
  | operand {fault : Fault} (fits : kind.accepts operands.length = true)
      (rejects : r.Rejects attachedOperand operands fault) : RefusesAlloc r kind operands fault
  /-- No name is left for the new node. -/
  | full (fits : kind.accepts operands.length = true) (free : r.AllFree operands)
      (full : Routine.capacity ≤ r.nodes.size) :
      RefusesAlloc r kind operands (.internal "instruction arena is full")

/-- An allocation is refused, or it goes well. -/
theorem Routine.refusesAlloc_or (r : Routine) (kind : Kind) (operands : List NodeId) :
    (∃ fault, r.RefusesAlloc kind operands fault) ∨
      (kind.accepts operands.length = true ∧ r.AllFree operands ∧
        r.nodes.size < Routine.capacity) := by
  by_cases ha : kind.accepts operands.length = true
  · rcases r.allFree_or_rejects attachedOperand operands with hfree | ⟨fault, hrejects⟩
    · by_cases hroom : r.nodes.size < Routine.capacity
      · exact Or.inr ⟨ha, hfree, hroom⟩
      · exact Or.inl ⟨_, .full ha hfree (Nat.le_of_not_lt hroom)⟩
    · exact Or.inl ⟨fault, .operand ha hrejects⟩
  · exact Or.inl ⟨_, .arity (Bool.not_eq_true _ ▸ ha)⟩

/-- A refused allocation changes nothing. -/
theorem alloc_of_refuses {fault : Fault} (h : r.RefusesAlloc kind operands fault) :
    alloc kind operands r = .error fault r := by
  unfold alloc
  cases h with
  | arity misfit => simp [run_bind, Kind.checkArity, misfit]
  | operand fits rejects =>
    have hcheck : r.checkFree (fun n link => .alreadyAttached n link.parent link.slot) [] operands =
        .error fault := Routine.checkFree_of_rejects rejects
    simp [run_bind, Kind.checkArity, fits, hcheck]
  | full fits free full =>
    have hcheck : r.checkFree (fun n link => .alreadyAttached n link.parent link.slot) [] operands =
        .ok () := Routine.checkFree_of_free free
    simp [run_bind, Kind.checkArity, fits, hcheck, Routine.checkRoom, Nat.not_lt.mpr full]

/-- An allocation either fails and changes nothing, or adds one node over free operands. -/
theorem alloc_cases (kind : Kind) (operands : List NodeId) (r : Routine) :
    (∃ fault, alloc kind operands r = .error fault r) ∨
      (kind.accepts operands.length = true ∧ r.AllFree operands ∧
        r.nodes.size < Routine.capacity ∧
        alloc kind operands r =
          .ok r.nextId (r.graft kind operands (kind.intrinsic ∪ r.joinEffects operands))) := by
  rcases r.refusesAlloc_or kind operands with ⟨fault, hrefuses⟩ | ⟨ha, hf, hroom⟩
  · exact Or.inl ⟨fault, alloc_of_refuses hrefuses⟩
  · exact Or.inr ⟨ha, hf, hroom, alloc_ok ha hf hroom⟩

end StackTree
