import StackTree.Proofs.Nesting.Conservation
import StackTree.Proofs.Nesting.Exchange

/-!
# What filling does to a routine

Filling a node exchanges its last pops for the most recent producers (`Tree.fill_exchanges`). In the
routine each of these pops is gone afterwards, and the producer hangs where the pop was. Nothing
else in the routine has another kind, another operand or another place (`Routine.Exchanges`).

That the pops are gone is a matter of counting. A node that is not in a tree any more might still be
live, but as many nodes are released as producers are taken, and every other node is as live as it
was.

## Main definitions

* `Routine.Exchanges`: nodes were exchanged, each in its slot.
* `Routine.FillsBy`: a node was filled with so many producers.

## Main results

* `Routine.FillsBy.exchanges`: filling a node exchanges pops for producers.
* `Routine.Reachable.fill_exchanges_last_pops`: what filling a node answers, and what it does.
-/

namespace StackTree

namespace Routine

open StackTree.Tree (forestNodes popIds producerFor exchange)

variable {r s : Routine} {n m p q : NodeId} {t : Tree}

/-! ## Exchanging nodes -/

/-- The node that is exchanged for this one, or the node itself. -/
def swapped (swaps : List (NodeId × NodeId)) (n : NodeId) : NodeId := (swaps.lookup n).getD n

/-- Nodes were exchanged: the second one of each pair hung nowhere and is now where the first one
was, the first one is released, and nothing else has another kind, other operands or another
place. -/
structure Exchanges (r s : Routine) (swaps : List (NodeId × NodeId)) : Prop where
  moved : ∀ p q, (p, q) ∈ swaps → r.Free q ∧ ∃ link, r.LinksTo p link ∧ s.LinksTo q link
  gone : ∀ p ∈ swaps.map Prod.fst, s.isLive p = false
  shape_eq : ∀ m, m ∉ swaps.map Prod.fst → s.shape m =
    (r.shape m).map fun (kind, children) => (kind, children.map (swapped swaps))
  link_eq : ∀ m, m ∉ swaps.map Prod.fst → m ∉ swaps.map Prod.snd → s.link m = r.link m
  live_eq : s.live + swaps.length = r.live
  size_eq : s.nodes.size = r.nodes.size
  name_eq : s.name = r.name
  body_eq : s.body = r.body

/-! ## What filling exchanges -/

/-- The pops of a tree are pops in the routine. -/
theorem Shows.kind_of_mem_popIds (ht : r.Shows n t) (hp : p ∈ popIds [t]) :
    p ∈ t.nodes ∧ r.kind p = .ok .pop := by
  obtain ⟨u, hu, hk, rfl⟩ := Tree.mem_popIds_iff.mp hp
  have hkind := kind_of_shows (ht.of_mem_subtrees u hu)
  rw [hk] at hkind
  refine ⟨?_, hkind⟩
  rw [← Tree.map_id_subtrees]
  exact List.mem_map_of_mem hu

/-- A node of a sound routine was filled: its last pops were exchanged for the producers that were
taken. -/
structure FillsBy (r s : Routine) (n : NodeId) (t : Tree) (taken left : List Tree) : Prop where
  sound : r.Sound
  shows : r.Shows n t
  ne_pop : t.kind ≠ .pop
  supplies : r.Supplies (taken ++ left)
  le_pops : taken.length ≤ (popIds [t]).length
  fills : r.Fills s n t.nodes (taken ++ left) left
  result : s.Shows n (exchange (producerFor [t] taken) t)

/-- The pops of a tree that are exchanged for producers, the last one first. -/
def swaps (t : Tree) (taken : List Tree) : List (NodeId × NodeId) :=
  (popIds [t]).reverse.zip (taken.map Tree.id)

theorem lookup_swaps (t : Tree) (taken : List Tree) (m : NodeId) :
    (swaps t taken).lookup m = (producerFor [t] taken m).map Tree.id :=
  Tree.lookup_zip_map Tree.id

theorem popIds_of_swaps {taken : List Tree} (h : p ∈ (swaps t taken).map Prod.fst) :
    p ∈ popIds [t] :=
  List.mem_reverse.mp (Tree.mem_of_mem_zip h)

namespace FillsBy

variable {taken left : List Tree} (h : r.FillsBy s n t taken left)
include h

theorem nodup_pops : (popIds [t]).reverse.Nodup := by
  have hnodup := h.sound.nodes_nodup h.shows
  refine List.nodup_reverse.mpr (Tree.nodup_popIds ?_)
  rwa [Tree.forestNodes_singleton]

theorem length_swaps : (swaps t taken).length = taken.length := by
  rw [swaps, List.length_zip, List.length_reverse, List.length_map]
  exact Nat.min_eq_right h.le_pops

/-- Only pops are given producers. -/
theorem producerFor_of_kind (hm : r.kind m ≠ .ok .pop) : producerFor [t] taken m = none :=
  Tree.producerFor_of_notMem fun hmem => hm (h.shows.kind_of_mem_popIds hmem).2

/-- The operands of a node once the pops are exchanged. -/
theorem map_id_exchange {us : List Tree} (hus : ∀ u ∈ us, r.Shows u.id u) :
    (us.map (exchange (producerFor [t] taken))).map Tree.id =
      (us.map Tree.id).map (swapped (swaps t taken)) := by
  rw [List.map_map, List.map_map]
  refine List.map_congr_left fun u hu => ?_
  rw [Function.comp_apply, Function.comp_apply, swapped, lookup_swaps]
  refine Tree.id_exchange fun hkind => h.producerFor_of_kind ?_
  rw [kind_of_shows (hus u hu)]
  exact fun heq => hkind (Except.ok.inj heq)

/-- What a part of the tree is exchanged for is shown. -/
theorem shows_exchange {u : Tree} (hu : u ∈ t.subtrees) :
    s.Shows (exchange (producerFor [t] taken) u).id (exchange (producerFor [t] taken) u) :=
  h.result.of_mem_subtrees _ (Tree.exchange_mem_subtrees (h.sound.tree_sound h.shows) hu)

/-- A producer that is taken is shown where it hangs now. -/
theorem shows_taken {u : Tree} (hu : u ∈ taken) : s.Shows u.id u := by
  have hlength : taken.length ≤ (popIds [t]).reverse.length := by
    rw [List.length_reverse]
    exact h.le_pops
  rw [← List.map_snd_zip hlength] at hu
  obtain ⟨⟨p, u⟩, hmem, rfl⟩ := List.mem_map.mp hu
  obtain ⟨w, hw, hkind, rfl⟩ :=
    Tree.mem_popIds_iff.mp (List.mem_reverse.mp (List.of_mem_zip hmem).1)
  have hput : producerFor [t] taken w.id = some u := Tree.lookup_zip_of_mem h.nodup_pops hmem
  have hshows := h.shows_exchange hw
  rwa [Tree.exchange_of_pop hkind, hput] at hshows

/-- Outside the tree every node keeps its kind and its operands. -/
theorem shape_of_notMem (hm : m ∉ t.nodes) : s.shape m = r.shape m := by
  by_cases htaken : m ∈ taken.map Tree.id
  · obtain ⟨u, hu, rfl⟩ := List.mem_map.mp htaken
    have hbefore := h.supplies.shows u (List.mem_append_left left hu)
    exact (h.shows_taken hu).shape_eq.trans hbefore.shape_eq.symm
  · refine shape_of_bare_eq (h.fills.bare_eq m hm fun hmem => ?_)
    rw [List.map_append] at hmem
    exact (List.mem_append.mp hmem).resolve_left htaken

/-- The topmost node is no pop. -/
theorem ne_of_mem_popIds (hp : p ∈ popIds [t]) : p ≠ n := by
  rintro rfl
  have hkind := (h.shows.kind_of_mem_popIds hp).2
  rw [kind_of_shows h.shows] at hkind
  exact h.ne_pop (Except.ok.inj hkind)

/-- A pop of the tree hangs on a node of the tree. -/
theorem parent_mem {i : Nat} (hp : p ∈ popIds [t]) (hc : r.HasChild m i p) : m ∈ t.nodes := by
  have hmem := (h.shows.kind_of_mem_popIds hp).1
  have hl := h.sound.down m i p hc
  rw [h.shows.mem_nodes_iff] at hmem ⊢
  exact (under_iff_of_linksTo h.sound.toStructured hl (h.ne_of_mem_popIds hp)).mp hmem

/-- Every node that is not exchanged keeps its kind, and its operands but for those that are. -/
theorem shape_eq (hm : m ∉ (swaps t taken).map Prod.fst) : s.shape m =
    (r.shape m).map fun (kind, children) => (kind, children.map (swapped (swaps t taken))) := by
  by_cases hmem : m ∈ t.nodes
  · rw [← Tree.map_id_subtrees] at hmem
    obtain ⟨u, hu, rfl⟩ := List.mem_map.mp hmem
    have hshows := h.shows.of_mem_subtrees u hu
    have hsound := h.sound.tree_sound hshows
    have hput : producerFor [t] taken u.id = none := by
      rw [← Option.map_eq_none_iff, ← lookup_swaps]
      exact Tree.lookup_eq_none hm
    have hafter := h.shows_exchange hu
    rw [Tree.exchange_eq_atop hsound hput, Tree.id_atop] at hafter
    rw [hsound.eq_atop, Tree.id_atop] at hshows
    rw [hafter.shape_eq, hshows.shape_eq, Tree.kind_atop, Tree.children_atop,
      h.map_id_exchange (h.sound.stands_iff.mpr hshows).shows]
    rfl
  · have hsame : ∀ node, r.get? m = some node →
        node.children.map (swapped (swaps t taken)) = node.children := by
      intro node hnode
      rw [List.map_congr_left (g := id), List.map_id]
      intro c hc
      obtain ⟨i, hchild⟩ := hasChild_of_mem hnode hc
      rw [swapped, Tree.lookup_eq_none fun hin => hmem (h.parent_mem (popIds_of_swaps hin) hchild)]
      rfl
    rw [h.shape_of_notMem hmem, shape]
    cases hnode : r.get? m with
    | none => rfl
    | some node => simp [hsame node hnode]

/-- An operand of a node that is not exchanged stays in its slot, or what it is exchanged for is
put there. -/
theorem hasChild {i : Nat} (hm : m ∉ (swaps t taken).map Prod.fst) (hc : r.HasChild m i p) :
    s.HasChild m i (swapped (swaps t taken) p) := by
  obtain ⟨node, hnode, hslot⟩ := hc
  have hshape := h.shape_eq hm
  rw [shape, shape, hnode] at hshape
  obtain ⟨node', hnode', heq⟩ := Option.map_eq_some_iff.mp hshape
  have hchildren : node'.children = node.children.map (swapped (swaps t taken)) :=
    congrArg Prod.snd heq
  refine ⟨node', hnode', ?_⟩
  rw [hchildren, List.getElem?_map, hslot]
  rfl

/-- No pop has operands, so none is above an exchanged one. -/
theorem notMem_of_hasChild {i : Nat} (hc : r.HasChild m i p) :
    m ∉ (swaps t taken).map Prod.fst := by
  intro hm
  obtain ⟨node, hnode, hslot⟩ := hc
  obtain ⟨node', hnode', hkind⟩ :=
    exists_node_of_kind (h.shows.kind_of_mem_popIds (popIds_of_swaps hm)).2
  obtain rfl := Option.some.inj (hnode.symm.trans hnode')
  have harity := h.sound.arity m node hnode
  rw [hkind] at harity
  rw [List.length_eq_zero_iff.mp (eq_of_beq harity)] at hslot
  cases hslot

/-- Where an operand hung, it hangs now, or what it is exchanged for does. -/
theorem linksTo {link : Link} (hl : r.LinksTo p link) :
    s.LinksTo (swapped (swaps t taken) p) link := by
  have hc := h.sound.up p link hl
  exact h.fills.sound.down _ _ _ (h.hasChild (h.notMem_of_hasChild hc) hc)

/-- A node of the tree hangs on another one, unless it is the topmost. -/
theorem exists_linksTo (hm : m ∈ t.nodes) (hne : m ≠ n) : ∃ link, r.LinksTo m link := by
  rw [h.shows.mem_nodes_iff] at hm
  cases hm with
  | self => exact absurd rfl hne
  | @child parent _ i _ sits => exact ⟨⟨parent, i⟩, h.sound.down parent i m sits⟩

/-- What is neither exchanged nor put into a slot stays in its place. -/
theorem link_eq (hm : m ∉ (swaps t taken).map Prod.fst)
    (hq : m ∉ (swaps t taken).map Prod.snd) : s.link m = r.link m := by
  by_cases hmem : m ∈ t.nodes
  · by_cases hne : m = n
    · rw [hne, h.fills.link_eq]
    · obtain ⟨link, hl⟩ := h.exists_linksTo hmem hne
      have hafter := h.linksTo hl
      rw [swapped, Tree.lookup_eq_none hm, Option.getD_none] at hafter
      rw [linksTo_iff_link.mp hl, linksTo_iff_link.mp hafter]
  · refine link_eq_of_bare_eq (h.fills.bare_eq m hmem fun hstack => ?_)
    have hsecond : (swaps t taken).map Prod.snd = taken.map Tree.id := by
      refine List.map_snd_zip ?_
      rw [List.length_map, List.length_reverse]
      exact h.le_pops
    rw [hsecond] at hq
    rw [List.map_append] at hstack
    exact (List.mem_append.mp hstack).resolve_left hq

/-- What is not exchanged is as live as it was. -/
theorem isLive_eq (hm : m ∉ (swaps t taken).map Prod.fst) : s.isLive m = r.isLive m := by
  have hshape := congrArg Option.isSome (h.shape_eq hm)
  rwa [Option.isSome_map, shape, shape, Option.isSome_map, Option.isSome_map] at hshape

theorem isLive_of_swaps (hm : m ∈ (swaps t taken).map Prod.fst) : r.isLive m = true := by
  obtain ⟨node, hnode, -⟩ :=
    exists_node_of_kind (h.shows.kind_of_mem_popIds (popIds_of_swaps hm)).2
  exact isLive_iff.mpr ⟨node, hnode⟩

theorem live_eq : s.live + (swaps t taken).length = r.live := by
  have hlive := h.fills.live_eq
  rw [List.length_append] at hlive
  rw [h.length_swaps]
  omega

/-- The exchanged pops are released: so many nodes are, and no others can be. -/
theorem gone (hp : p ∈ (swaps t taken).map Prod.fst) : s.isLive p = false := by
  have hstill : ∀ m, s.isLive m = true → r.isLive m = true := by
    intro m hm
    by_cases hmem : m ∈ (swaps t taken).map Prod.fst
    · exact h.isLive_of_swaps hmem
    · rwa [← h.isLive_eq hmem]
  have hcount := length_releasedBy h.fills.size_eq hstill
  have hlive := h.live_eq
  rw [h.sound.live_eq, h.fills.sound.live_eq] at hlive
  have hsubset : r.releasedBy s ⊆ (swaps t taken).map Prod.fst := by
    intro m hm
    obtain ⟨hbefore, hafter⟩ := mem_releasedBy.mp hm
    by_contra hnot
    rw [h.isLive_eq hnot, hbefore] at hafter
    cases hafter
  have hnodup : (r.releasedBy s).Nodup := nodup_liveIds.filter _
  have hperm : (r.releasedBy s).Perm ((swaps t taken).map Prod.fst) := by
    refine (hnodup.subperm hsubset).perm_of_length_le ?_
    rw [List.length_map]
    omega
  exact (mem_releasedBy.mp (hperm.mem_iff.mpr hp)).2

/-- A producer that is taken hung nowhere and hangs where the pop did that it was exchanged for. -/
theorem moved (hpair : (p, q) ∈ swaps t taken) :
    r.Free q ∧ ∃ link, r.LinksTo p link ∧ s.LinksTo q link := by
  obtain ⟨hp, hq⟩ := List.of_mem_zip hpair
  rw [List.mem_reverse] at hp
  have hmem := (h.shows.kind_of_mem_popIds hp).1
  obtain ⟨link, hl⟩ := h.exists_linksTo hmem (h.ne_of_mem_popIds hp)
  have hafter := h.linksTo hl
  have hlookup : (swaps t taken).lookup p = some q := Tree.lookup_zip_of_mem h.nodup_pops hpair
  rw [swapped, hlookup, Option.getD_some] at hafter
  refine ⟨h.supplies.free.2 q ?_, link, hl, hafter⟩
  rw [List.map_append]
  exact List.mem_append_left _ hq

/-- Filling a node exchanges pops for producers. -/
theorem exchanges : r.Exchanges s (swaps t taken) where
  moved := fun _ _ => h.moved
  gone := fun _ => h.gone
  shape_eq := fun _ => h.shape_eq
  link_eq := fun _ => h.link_eq
  live_eq := h.live_eq
  size_eq := h.fills.size_eq
  name_eq := h.fills.name_eq
  body_eq := h.fills.body_eq

end FillsBy

/-! ## Filling a node -/

/-- A bare pop is exchanged for the most recent producer, if that may be evaluated after what comes
before the pop, and the routine is not changed. -/
theorem Sound.fill_pop (hr : r.Sound) (ht : r.Shows n t) (hk : t.kind = .pop) {trees : List Tree}
    (hsup : r.Supplies trees) (hn : n ∉ forestNodes trees) (before : Effects) :
    (∃ top rest, trees = top :: rest ∧ mayReorder before top.effects = true ∧
      fill n before ⟨r, trees.map Tree.id⟩ = .ok ⟨top.id, true⟩ ⟨r, rest.map Tree.id⟩) ∨
    ((∀ top, trees.head? = some top → mayReorder before top.effects = false) ∧
      fill n before ⟨r, trees.map Tree.id⟩ = .ok ⟨n, false⟩ ⟨r, trees.map Tree.id⟩) := by
  obtain ⟨s, hrun, hsame, -⟩ := fill_eq hr ht hsup hn before
  obtain rfl := hsame hk
  have hid := ht.id_eq
  obtain ⟨id, kind, e, cs⟩ := t
  obtain rfl : kind = .pop := hk
  obtain rfl : id = n := hid
  rw [hrun]
  cases trees with
  | nil => exact .inr ⟨nofun, rfl⟩
  | cons top rest =>
    rw [Tree.fill_pop_cons]
    cases hm : mayReorder before top.effects with
    | true => exact .inl ⟨top, rest, rfl, hm, rfl⟩
    | false =>
      refine .inr ⟨fun q hq => ?_, rfl⟩
      obtain rfl := Option.some.inj hq
      exact hm

/-- Any other node is filled from the last pop under it on. -/
theorem Sound.fill_node (hr : r.Sound) (ht : r.Shows n t) (hk : t.kind ≠ .pop) {trees : List Tree}
    (hsup : r.Supplies trees) (hn : n ∉ forestNodes trees) (before : Effects) :
    ∃ count s finished,
      fill n before ⟨r, trees.map Tree.id⟩ = .ok ⟨n, finished⟩ ⟨s, (trees.drop count).map Tree.id⟩ ∧
      Tree.Takes (popIds [t]) t.effects.peeks trees (trees.drop count) finished count ∧
      r.FillsBy s n t (trees.take count) (trees.drop count) := by
  obtain ⟨s, hrun, -, hother⟩ := fill_eq hr ht hsup hn before
  obtain ⟨hfills, hshows⟩ := hother hk
  obtain ⟨count, htakes, hresult⟩ :=
    Tree.fill_exchanges (hr.tree_sound ht) (hr.nodes_nodup ht) before trees
  have hid : (t.fill before trees).result.id = t.id := Tree.id_fill hk
  have hleft := htakes.left_eq
  have hle := htakes.le_pops
  rw [hid, ht.id_eq, hleft] at hrun
  rw [hleft] at htakes hfills
  rw [hresult] at hshows
  refine ⟨count, s, _, hrun, htakes, hr, ht, hk, ?_, ?_, ?_, hshows⟩
  · rwa [List.take_append_drop]
  · rw [List.length_take]
    omega
  · rwa [List.take_append_drop]

/--
What filling a node answers, and what it does. On a working stack of free nodes, none of them above
the node, it never fails. A bare pop is exchanged for the most recent producer, or it stays. Under
any other node the last pops are exchanged for the most recent producers in their order, and nothing
else changes. No pop is exchanged if the node peeks. The node is finished if all pops are exchanged
and it does not peek, or if they are and there never was a producer.
-/
theorem Reachable.fill_exchanges_last_pops (h : r.Reachable) (hn : r.isLive n = true)
    {stack : List NodeId} (hfree : r.AllFree stack) (hout : ∀ q ∈ stack, ¬ r.Under q n)
    (before : Effects) :
    (r.kind n = .ok .pop →
      (∃ top rest e, stack = top :: rest ∧ r.effects top = .ok e ∧ mayReorder before e = true ∧
        fill n before ⟨r, stack⟩ = .ok ⟨top, true⟩ ⟨r, rest⟩) ∨
      ((∀ top, stack.head? = some top → ∃ e, r.effects top = .ok e ∧ mayReorder before e = false) ∧
        fill n before ⟨r, stack⟩ = .ok ⟨n, false⟩ ⟨r, stack⟩)) ∧
    (r.kind n ≠ .ok .pop → ∃ t count s finished, r.tree n = .ok t ∧
      fill n before ⟨r, stack⟩ = .ok ⟨n, finished⟩ ⟨s, stack.drop count⟩ ∧
      count ≤ min (popIds [t]).length stack.length ∧
      r.Exchanges s ((popIds [t]).reverse.zip (stack.take count)) ∧
      ((∃ m, r.Under n m ∧ r.kind m = .ok .peek) → count = 0) ∧
      (finished = true ↔ count = (popIds [t]).length ∧
        ((∀ m, r.Under n m → r.kind m ≠ .ok .peek) ∨ stack = []))) := by
  have hr := h.sound
  obtain ⟨t, ht⟩ := hr.exists_shows hn
  obtain ⟨trees, htrees⟩ := hr.exists_showsAll hfree
  have hsup := htrees.supplies hfree
  have hapart : n ∉ forestNodes trees := by
    intro hmem
    obtain ⟨q, hq, hunder⟩ := htrees.under hmem
    exact hout q hq hunder
  obtain rfl := htrees.map_id
  have hkind := kind_of_shows ht
  constructor
  · intro hpop
    have hk : t.kind = .pop := Except.ok.inj (hkind.symm.trans hpop)
    rcases hr.fill_pop ht hk hsup hapart before with
      ⟨top, rest, rfl, hmay, hrun⟩ | ⟨hmay, hrun⟩
    · exact .inl ⟨top.id, rest.map Tree.id, top.effects, rfl,
        effects_of_shows (hsup.shows top (List.mem_cons_self ..)), hmay, hrun⟩
    · refine .inr ⟨?_, hrun⟩
      cases trees with
      | nil => exact nofun
      | cons top rest =>
        intro q hq
        obtain rfl := Option.some.inj hq
        exact ⟨top.effects, effects_of_shows (hsup.shows top (List.mem_cons_self ..)), hmay top rfl⟩
  · intro hother
    have hk : t.kind ≠ .pop := by
      rintro hk
      rw [hk] at hkind
      exact hother hkind
    obtain ⟨count, s, finished, hrun, htakes, hfills⟩ := hr.fill_node ht hk hsup hapart before
    have hpeeks : t.effects.peeks = true ↔ ∃ m, r.Under n m ∧ r.kind m = .ok .peek := by
      rw [(hr.tree_sound ht).peeks_iff_exists, ht.exists_kind_iff]
    have hnopeeks : t.effects.peeks = false ↔ ∀ m, r.Under n m → r.kind m ≠ .ok .peek := by
      rw [← Bool.not_eq_true, hpeeks, not_exists]
      simp only [not_and, ne_eq]
    have hexchanges := hfills.exchanges
    rw [swaps, List.map_take] at hexchanges
    rw [List.map_drop] at hrun
    refine ⟨t, count, s, finished, hr.tree_eq ht, hrun, ?_, hexchanges, ?_, ?_⟩
    · rw [List.length_map]
      exact Nat.le_min.mpr ⟨htakes.le_pops, htakes.le_stack⟩
    · rw [← hpeeks]
      exact htakes.peeks_zero
    · rw [← hnopeeks, List.map_eq_nil_iff]
      exact htakes.finished_iff

/-- A call with three pops, the second of them under a negation, finds two constants. The last pop
gets the most recent one, the second pop gets the other one, and the first pop stays. -/
theorem fill_exchanges_last_pops_of_call :
    let build : Edit Unit := do
      let first ← alloc .pop []
      let second ← alloc (.unary .neg) [← alloc .pop []]
      let _ ← alloc (.call "f" true) [first, second, ← alloc .pop []]
      let _ ← alloc (.const 5) []
      let _ ← alloc (.const 6) []
    let r := leftBy (build { name := "main" })
    r.Reachable ∧ ∃ s, fill ⟨4⟩ ∅ ⟨r, [⟨6⟩, ⟨5⟩]⟩ = .ok ⟨⟨4⟩, false⟩ ⟨s, []⟩ ∧
      r.Exchanges s [(⟨3⟩, ⟨6⟩), (⟨1⟩, ⟨5⟩)] := by
  intro build r
  have hreach : r.Reachable :=
    ⟨"main", Unit, build, .bind (.alloc _ _) fun _ => .bind (.alloc _ _) fun _ =>
      .bind (.alloc _ _) fun _ => .bind (.alloc _ _) fun _ => .bind (.alloc _ _) fun _ =>
        .bind (.alloc _ _) fun _ => .bind (.alloc _ _) fun _ => .pure _, rfl⟩
  have hcall : r.Free ⟨4⟩ := ⟨_, rfl, rfl⟩
  have hfive : r.Free ⟨5⟩ := ⟨_, rfl, rfl⟩
  have hsix : r.Free ⟨6⟩ := ⟨_, rfl, rfl⟩
  have hfree : r.AllFree [⟨6⟩, ⟨5⟩] := ⟨by decide, by simp [hfive, hsix]⟩
  have hout : ∀ q ∈ [(⟨6⟩ : NodeId), ⟨5⟩], ¬ r.Under q ⟨4⟩ := by
    intro q hq hu
    obtain rfl := hreach.sound.under_of_free hcall hu
    exact absurd hq (by decide)
  have hkind : r.kind ⟨4⟩ ≠ .ok .pop := by decide +kernel
  obtain ⟨-, hother⟩ := Reachable.fill_exchanges_last_pops hreach hcall.isLive hfree hout ∅
  obtain ⟨t, count, s, finished, htree, hrun, hle, hexchanges, -, hfinished⟩ := hother hkind
  have hread : (fun u => popIds [u]) <$> r.tree ⟨4⟩ = .ok [⟨0⟩, ⟨1⟩, ⟨3⟩] := by decide +kernel
  rw [htree] at hread
  have hpops : popIds [t] = [⟨0⟩, ⟨1⟩, ⟨3⟩] := Except.ok.inj hread
  have hleft : (stateAfter (fill ⟨4⟩ ∅ ⟨r, [⟨6⟩, ⟨5⟩]⟩)).stack = [] := by decide +kernel
  rw [hrun] at hleft
  have hcount : count = 2 :=
    Nat.le_antisymm (Nat.le_trans hle (Nat.min_le_right ..)) (List.drop_eq_nil_iff.mp hleft)
  subst hcount
  rw [hpops] at hexchanges hfinished
  have hstalls : finished = false := by
    rw [← Bool.not_eq_true, hfinished]
    exact fun hall => absurd hall.1 (by decide)
  rw [hstalls] at hrun
  exact ⟨hreach, s, hrun, hexchanges⟩

end Routine

end StackTree
