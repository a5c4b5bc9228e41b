import StackTree.Proofs.Nesting.Order

/-!
# Nesting neither loses nor duplicates instructions

A pull puts a producer into the place of a pop, so the sequence gets shorter by the producer and the
routine smaller by the pop. Whatever is no pop is work, and pulls move work without adding or
dropping any (`Moves.perm`): every such node is afterwards under one of the entries again, and under
no other, since free trees share no nodes. What disappears is therefore pops only, one for each
entry that was taken off the sequence.

## Main definitions

* `Routine.releasedBy`: the nodes that a change of the routine has released.
* `Routine.Conserves`: what a change of a sequence leaves of the nodes under its entries and of the
  other nodes.

## Main results

* `keptByPulls_entries`: the new entries are some of the old ones, in their order.
* `Nests.get?_eq`: nodes under no entry are untouched.
* `Nests.conserves`: moving work conserves the instructions.
* `Routine.Reachable.nestBlock_conserves`: nesting conserves the instructions, and three counts of
  what it has taken agree.
-/

namespace StackTree

open StackTree.Tree (forestNodes subtreesAll work SoundAll plug atop)

/-! ## Entries -/

/-- A pull takes the most recent producer off the sequence. Where it takes the place of a pop that
was an entry itself, that pop goes instead. -/
theorem sublist_of_pull {stack left : List Tree} {t u : Tree}
    (h : Tree.Pull (stack, t) (left, u)) :
    ((left.reverse ++ [u]).map Tree.id).Sublist ((stack.reverse ++ [t]).map Tree.id) := by
  cases h with
  | @take fs id top rest reorder noPeek noWait noAfter =>
    rw [List.reverse_cons]
    cases fs with
    | nil => exact (List.sublist_append_left (left.reverse ++ [top]) _).map Tree.id
    | cons f fs =>
      have hless : left.reverse.Sublist (left.reverse ++ [top]) := List.sublist_append_left ..
      rw [List.map_append, List.map_append]
      exact (hless.map Tree.id).append_right [f.id]

/-- The entries after nesting are some of those before, in the same order. -/
theorem keptByPulls_entries :
    Nest.KeptByPulls fun ts us => (us.map Tree.id).Sublist (ts.map Tree.id) where
  refl := fun _ => .refl _
  trans := fun h h' => h'.trans h
  around := by
    intro xs ts us ys _ h
    simp only [List.map_append]
    exact (h.append_left _).append_right _
  pull := fun _ hp => sublist_of_pull hp

namespace Routine

variable {r s : Routine}

/-! ## Nodes that are under no entry -/

/-- No node lies under a node above free trees and in one of them. -/
theorem Supplies.notMem_of_outside (hr : r.Sound) {ts : List Tree} (hsup : r.Supplies ts)
    {n m : NodeId} (hn : n ∉ forestNodes ts) (hm : r.Under n m) : m ∉ forestNodes ts := by
  intro hmem
  obtain ⟨t, ht, hmt⟩ := Tree.mem_forestNodes.mp hmem
  have hunder : r.Under t.id m := (hsup.shows t ht).under hmt
  rcases hr.under_total hm hunder with hu | hu
  · obtain heq := hr.under_of_free (hsup.free_of_mem ht) hu
    exact hn (Tree.mem_forestNodes.mpr ⟨t, ht, heq ▸ t.id_mem_nodes⟩)
  · exact hn (Tree.mem_forestNodes.mpr ⟨t, ht, (hsup.shows t ht).mem_nodes_iff.mpr hu⟩)

namespace Nests

variable {before after : List Tree}

/-- The nodes outside the trees are what they were, stored effects and all. -/
theorem get?_eq (hr : r.Sound) (hsup : r.Supplies before) (h : r.Nests s before after) {n : NodeId}
    (hn : n ∉ forestNodes before) : s.get? n = r.get? n :=
  h.sound.get?_eq_of_bare hr fun m hm => h.bare_eq m (hsup.notMem_of_outside hr hn hm)

/-- No node comes back to life. -/
theorem isLive_of_isLive (hr : r.Sound) (hsup : r.Supplies before) (h : r.Nests s before after)
    {n : NodeId} (hn : s.isLive n = true) : r.isLive n = true := by
  by_cases hmem : n ∈ forestNodes before
  · exact hsup.showsAll.live_of_mem hmem
  · rwa [isLive, h.get?_eq hr hsup hmem] at hn

end Nests

/-! ## Nodes that are released -/

/-- The nodes that were live in the first routine and are so no longer in the second. -/
def releasedBy (r s : Routine) : List NodeId := r.liveIds.filter fun n => !s.isLive n

theorem mem_releasedBy {n : NodeId} :
    n ∈ r.releasedBy s ↔ r.isLive n = true ∧ s.isLive n = false := by
  rw [releasedBy, List.mem_filter, mem_liveIds, Bool.not_eq_true']

/-- Where nothing is allocated, what was live is still live or has been released. -/
theorem length_releasedBy (hsize : s.nodes.size = r.nodes.size)
    (hlive : ∀ n, s.isLive n = true → r.isLive n = true) :
    s.liveNodes + (r.releasedBy s).length = r.liveNodes := by
  have hstill : r.liveIds.filter s.isLive = s.liveIds := by
    rw [liveIds, liveIds, hsize, List.filter_filter]
    refine List.filter_congr fun n _ => ?_
    cases hn : s.isLive n with
    | false => rfl
    | true => rw [hlive n hn, Bool.true_and]
  have hsplit := r.liveIds.length_eq_length_filter_add s.isLive
  rw [hstill] at hsplit
  rw [liveNodes_eq_length, liveNodes_eq_length, hsplit, releasedBy]

/-! ## What is conserved -/

/-- The node is there in both routines, with the same kind and as many operands. -/
def KeepsNode (r s : Routine) (n : NodeId) : Prop :=
  ∃ node node', r.get? n = some node ∧ s.get? n = some node' ∧ node'.kind = node.kind ∧
    node'.children.length = node.children.length

/-- A sequence of free nodes was changed without losing or duplicating what is under its entries,
and nothing but pops under them is gone. -/
structure Conserves (r s : Routine) (before after : List NodeId) : Prop where
  /-- The new entries are some of the old ones, in their order. -/
  entries : after.Sublist before
  /-- They are live, hang nowhere and are listed once. -/
  free : s.AllFree after
  /-- What was under an entry and is no pop is what it was and under one entry. -/
  kept : ∀ n k, (∃ e ∈ before, r.Under e n) → r.kind n = .ok k → k ≠ .pop →
    r.KeepsNode s n ∧ ∃! e, e ∈ after ∧ s.Under e n
  /-- Whatever is gone was a pop without operands under an entry. -/
  gone : ∀ n ∈ r.releasedBy s, (∃ e ∈ before, r.Under e n) ∧
    ∃ node, r.get? n = some node ∧ node.kind = .pop ∧ node.children = []
  /-- No node was allocated. -/
  size_eq : s.nodes.size = r.nodes.size
  /-- No released name is in use again. -/
  still : ∀ n, s.isLive n = true → r.isLive n = true
  /-- What was under no entry is what it was. -/
  outside : ∀ n, (∀ e ∈ before, ¬ r.Under e n) → s.get? n = r.get? n
  /-- The name of the routine is what it was. -/
  name_eq : s.name = r.name
  /-- The body of the routine is what it was. -/
  body_eq : s.body = r.body

/-- The label of a tree says what the routine holds at its node. -/
theorem Shows.node_of_label {u : Tree} (h : r.Shows u.id u) :
    ∃ node, r.get? u.id = some node ∧ node.kind = u.label.2.1 ∧
      node.children.length = u.label.2.2 := by
  obtain ⟨id, kind, effects, cs⟩ := u
  cases h with
  | @node _ node ts at_n below => exact ⟨node, at_n, rfl, below.length_eq⟩

/-- Trees with the same label sit at a node that was kept. -/
theorem keepsNode_of_label {t u : Tree} (ht : r.Shows t.id t) (hu : s.Shows u.id u)
    (hlabel : u.label = t.label) : r.KeepsNode s t.id := by
  obtain ⟨node, hnode, hkind, hlength⟩ := ht.node_of_label
  obtain ⟨node', hnode', hkind', hlength'⟩ := hu.node_of_label
  rw [hlabel] at hkind' hlength'
  rw [show u.id = t.id from congrArg Prod.fst hlabel] at hnode'
  exact ⟨node, node', hnode, hnode', hkind'.trans hkind.symm, hlength'.trans hlength.symm⟩

/-- A free node is above the nodes of its own tree only. -/
theorem Supplies.existsUnique_entry (hr : r.Sound) {ts : List Tree} (h : r.Supplies ts) {m : NodeId}
    (hm : m ∈ forestNodes ts) : ∃! e, e ∈ ts.map Tree.id ∧ r.Under e m := by
  obtain ⟨t, ht, hmt⟩ := Tree.mem_forestNodes.mp hm
  have hunder : r.Under t.id m := (h.shows t ht).under hmt
  refine ⟨t.id, ⟨List.mem_map_of_mem ht, hunder⟩, ?_⟩
  rintro e ⟨he, heunder⟩
  have hfree := h.free.2 e he
  rcases hr.under_total heunder hunder with hu | hu
  · exact (hr.under_of_free (h.free_of_mem ht) hu).symm
  · exact hr.under_of_free hfree hu

/-- Where the work after is a rearrangement of the work before, every node that does work is kept
and is under one entry. -/
theorem Nests.keeps_work {before after : List Tree} {block : List NodeId}
    (hshows : r.ShowsAll block before) (h : r.Nests s before after)
    (hperm : (work before).Perm (work after)) {n : NodeId} {k : Kind}
    (hn : ∃ e ∈ block, r.Under e n) (hk : r.kind n = .ok k) (hpop : k ≠ .pop) :
    r.KeepsNode s n ∧ ∃! e, e ∈ after.map Tree.id ∧ s.Under e n := by
  obtain ⟨x, hx, rfl, rfl⟩ := hshows.exists_work hn hk hpop
  obtain ⟨t, ht, -, rfl⟩ := Tree.mem_work_iff.mp hx
  obtain ⟨u, hu, -, hlabel⟩ := Tree.mem_work_iff.mp (hperm.mem_iff.mp hx)
  have hafter : s.ShowsAll (after.map Tree.id) after := h.supplies.showsAll
  have hid : u.id = t.id := congrArg Prod.fst hlabel
  have hmem : t.id ∈ forestNodes after := by
    rw [← hid, ← Tree.map_id_subtreesAll]
    exact List.mem_map_of_mem hu
  exact ⟨keepsNode_of_label (hshows.of_mem_subtrees t ht) (hafter.of_mem_subtrees u hu) hlabel,
    h.supplies.existsUnique_entry h.sound hmem⟩

/-- A change of free trees that keeps some of the entries and rearranges the work conserves the
instructions. -/
theorem Nests.conserves (hr : r.Sound) {before after : List Tree} {block : List NodeId}
    (hshows : r.ShowsAll block before) (hsup : r.Supplies before) (h : r.Nests s before after)
    (hentries : (after.map Tree.id).Sublist (before.map Tree.id))
    (hperm : (work before).Perm (work after)) : r.Conserves s block (after.map Tree.id) where
  entries := hshows.map_id ▸ hentries
  free := h.supplies.free
  kept := fun _ _ hn hk hpop => h.keeps_work hshows hperm hn hk hpop
  gone := by
    intro n hn
    obtain ⟨hlive, hgone⟩ := mem_releasedBy.mp hn
    obtain ⟨node, hnode⟩ := isLive_iff.mp hlive
    have hmem : n ∈ forestNodes before := by
      by_contra hout
      rw [isLive, h.get?_eq hr hsup hout, ← isLive, hlive] at hgone
      cases hgone
    have hunder := hshows.under hmem
    have hkind : r.kind n = .ok node.kind := by
      rw [Routine.kind, node_of_get? hnode]
      rfl
    have hpop : node.kind = .pop := by
      by_contra hne
      obtain ⟨⟨_, node', -, hnode', -⟩, -⟩ := h.keeps_work hshows hperm hunder hkind hne
      rw [isLive_iff.mpr ⟨node', hnode'⟩] at hgone
      cases hgone
    have harity := hr.arity n node hnode
    rw [hpop] at harity
    exact ⟨hunder, node, hnode, hpop, List.length_eq_zero_iff.mp (eq_of_beq harity)⟩
  size_eq := h.size_eq
  still := fun _ hn => h.isLive_of_isLive hr hsup hn
  outside := by
    intro n hn
    refine h.get?_eq hr hsup fun hmem => ?_
    obtain ⟨e, he, hunder⟩ := hshows.under hmem
    exact hn e he hunder
  name_eq := h.name_eq
  body_eq := h.body_eq

/-- As many nodes are released as the count of live nodes goes down. -/
theorem Conserves.length_releasedBy {before after : List NodeId} (h : r.Conserves s before after) :
    s.liveNodes + (r.releasedBy s).length = r.liveNodes :=
  Routine.length_releasedBy h.size_eq h.still

/--
Nesting an accepted sequence of a reachable routine neither loses nor duplicates instructions: all
that goes are pops, everything else that was under an entry is under one entry afterwards, and what
was under none is untouched. The pops that are gone, the fall of the count of live nodes and the
entries that the sequence is shorter by are as many as the report says.
-/
theorem Reachable.nestBlock_conserves (h : r.Reachable) {block : List NodeId}
    {report : NestingReport} (hok : (nestBlock r block).result = .ok report) :
    let s := (nestBlock r block).code
    let after := (nestBlock r block).block
    r.Conserves s block after ∧
      report.entriesBefore = block.length ∧ report.entriesAfter = after.length ∧
      report.consumed + report.entriesAfter = report.entriesBefore ∧
      (r.releasedBy s).length = report.consumed ∧
      s.live + report.consumed = r.live ∧ r.live = r.liveNodes ∧ s.live = s.liveNodes := by
  have hr := h.sound
  obtain ⟨before, s, hshows, hsup, hrun, hreport, hnests⟩ := nestBlock_accepted hr hok
  have hsound := hr.trees_sound hshows
  have hentries := keptByPulls_entries.run Nest.ready_start hsound
  have hmoves : Moves (work before) (work (Nest.start.run before).output) :=
    keptByPulls_moves.run Nest.ready_start hsound
  have hconserves := hnests.conserves hr hshows hsup hentries hmoves.perm
  have hlength := hconserves.entries.length_le
  have hreleased := hconserves.length_releasedBy
  have hlive := hnests.live_eq
  have hbefore := hshows.length_eq
  rw [← hr.live_eq, ← hnests.sound.live_eq] at hreleased
  rw [List.length_map] at hlength
  rw [hrun, hreport]
  simp only [Nest.report, List.length_map]
  exact ⟨hconserves, hbefore.symm, trivial, by omega, by omega, by omega, hr.live_eq,
    hnests.sound.live_eq⟩

/-- A constant takes the place of a pop that is an entry, and then that of the operand of a
negation: two entries fewer, two pops gone, and the peek that is under no entry stays. -/
theorem nestBlock_conserves_at_bare_pop :
    let build : Edit Unit := do
      let _ ← alloc (.const 5) []
      let _ ← alloc .pop []
      let _ ← alloc (.unary .neg) [← alloc .pop []]
      let _ ← alloc .peek []
    let r := leftBy (build { name := "main" })
    let report : NestingReport := ⟨3, 1, 2, 0, true⟩
    let nested := nestBlock r [⟨0⟩, ⟨1⟩, ⟨3⟩]
    r.Reachable ∧ nested.result = .ok report ∧
      r.Conserves nested.code [⟨0⟩, ⟨1⟩, ⟨3⟩] nested.block ∧
      (r.releasedBy nested.code).length = report.consumed := by
  intro build r report nested
  have hreach : r.Reachable :=
    ⟨"main", Unit, build, .bind (.alloc _ _) fun _ => .bind (.alloc _ _) fun _ =>
      .bind (.alloc _ _) fun _ => .bind (.alloc _ _) fun _ => .bind (.alloc _ _) fun _ => .pure _,
      rfl⟩
  have hok : nested.result = .ok report := by decide +kernel
  obtain ⟨hconserves, -, -, -, hreleased, -⟩ := Reachable.nestBlock_conserves hreach hok
  exact ⟨hreach, hok, hconserves, hreleased⟩

end Routine

end StackTree
