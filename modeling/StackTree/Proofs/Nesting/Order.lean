import StackTree.Proofs.Nesting.Acceptance
import StackTree.Proofs.Nesting.Flat

/-!
# Nesting keeps conflicting work in order

A pull moves the work of a producer past the work that is evaluated before the hole
(`move_of_pull`). The decision is made from summaries, the union of the effects of everything that
is passed, less its dealings with the stack; a summary contains the effects of every single node it
stands for, and of the nodes that deal with the stack pops do no work and peeks are not passed. So
whatever is passed may swap places with every node of the producer, and two nodes that may not swap
places are never passed by one another.

Nesting is therefore a series of moves on the list of all work. What filters conflicting work out of
that list gets the same before and after (`Moves.filter_eq`), and the order of two nodes is such a
filter.

## Main definitions

* `Tree.Precedes`: one node is evaluated before another.
* `Move`, `Moves`: neighbouring pieces of work that may swap places do so.

## Main results

* `keptByPulls_moves`: nesting moves work.
* `Moves.sublist_iff`: moves keep the order of work that may not swap places.
* `Routine.Reachable.nestBlock_keeps_order`: nesting keeps the order of conflicting nodes.
-/

namespace StackTree

open StackTree.Tree (forestNodes subtreesAll work work_append work_node label SoundAll effectsAll
  Layer plug before atop)

/-! ## The order of evaluation -/

namespace Tree

/-- The node `m` is evaluated before the node `n`. -/
def Precedes (ts : List Tree) (m n : NodeId) : Prop := [m, n].Sublist (forestNodes ts)

/-- The names of the nodes that do work are among those of all nodes, in the same order. -/
theorem map_fst_work (ts : List Tree) : ((work ts).map Prod.fst).Sublist (forestNodes ts) := by
  rw [← map_id_subtreesAll, work, List.map_map]
  exact List.filter_sublist.map Tree.id

theorem nodup_work {ts : List Tree} (hd : (forestNodes ts).Nodup) : (work ts).Nodup :=
  (hd.sublist (map_fst_work ts)).of_map Prod.fst

theorem mem_work_iff {ts : List Tree} {x : NodeId × Kind × Nat} :
    x ∈ work ts ↔ ∃ u ∈ subtreesAll ts, u.kind ≠ .pop ∧ u.label = x := by
  simp only [work_eq_labelsOf, mem_labelsOf, decide_eq_true_eq]

/-- Where no node occurs twice, the order of two nodes is that of their work. -/
theorem precedes_iff {ts : List Tree} (hd : (forestNodes ts).Nodup) {x y : NodeId × Kind × Nat}
    (hx : x ∈ work ts) (hy : y ∈ work ts) :
    Precedes ts x.1 y.1 ↔ [x, y].Sublist (work ts) := by
  constructor
  · intro h
    obtain ⟨s, hs, hsk, rfl⟩ := mem_work_iff.mp hx
    obtain ⟨t, ht, htk, rfl⟩ := mem_work_iff.mp hy
    rw [← map_id_subtreesAll] at hd
    rw [Precedes, ← map_id_subtreesAll] at h
    obtain ⟨pair, hpair, hids⟩ := List.sublist_map_iff.mp h
    -- A name determines its tree, so the two trees with these names are the ones of the labels.
    have hunique := List.inj_on_of_nodup_map hd
    obtain ⟨s', t', rfl⟩ : ∃ s' t', pair = [s', t'] := by
      apply List.length_eq_two.mp
      rw [← List.length_map Tree.id, ← hids]
      rfl
    simp only [List.map_cons, List.map_nil, List.cons.injEq, and_true] at hids
    obtain rfl := hunique hs (hpair.subset (by simp)) hids.1
    obtain rfl := hunique ht (hpair.subset (by simp)) hids.2
    have hkeep : [s, t].filter (·.kind ≠ .pop) = [s, t] := by simp [hsk, htk]
    have hfilter := (hpair.filter (·.kind ≠ .pop)).map label
    rw [hkeep] at hfilter
    exact hfilter
  · intro h
    exact (h.map Prod.fst).trans (map_fst_work ts)

end Tree

/-! ## Summaries -/

namespace Tree

mutual

/-- The trees under a sound tree are sound, and its effects contain theirs. -/
theorem effects_subset : (t : Tree) → t.Sound → ∀ u ∈ t.subtrees, u.Sound ∧ u.effects ⊆ t.effects
  | node id kind e cs, h, u, hu => by
    rw [subtrees] at hu
    rcases List.mem_append.mp hu with hu | hu
    · obtain ⟨hsound, hsubset⟩ := effects_subset_all cs h.2.2 u hu
      rw [Tree.effects, h.2.1]
      exact ⟨hsound, Effects.subset_trans hsubset (Effects.subset_union_right _ _)⟩
    · rw [List.mem_singleton.mp hu]
      exact ⟨h, Effects.subset_refl _⟩

theorem effects_subset_all : (ts : List Tree) → SoundAll ts → ∀ u ∈ subtreesAll ts,
    u.Sound ∧ u.effects ⊆ effectsAll ts
  | [], _, u, hu => by cases hu
  | t :: ts, h, u, hu => by
    rw [effectsAll]
    rcases List.mem_append.mp hu with hu | hu
    · obtain ⟨hsound, hsubset⟩ := effects_subset t h.1 u hu
      exact ⟨hsound, Effects.subset_trans hsubset (Effects.subset_union_left _ _)⟩
    · obtain ⟨hsound, hsubset⟩ := effects_subset_all ts h.2 u hu
      exact ⟨hsound, Effects.subset_trans hsubset (Effects.subset_union_right _ _)⟩

end

/-- The effects of a tree contain what its own node adds. -/
theorem Sound.intrinsic_subset {t : Tree} (h : t.Sound) : t.kind.intrinsic ⊆ t.effects := by
  rw [h.effects_eq]
  exact Effects.subset_union_left _ _

theorem intrinsic_subset_of_mem_work {ts : List Tree} (h : SoundAll ts) {x : NodeId × Kind × Nat}
    (hx : x ∈ work ts) : x.2.1.intrinsic ⊆ effectsAll ts := by
  obtain ⟨u, hu, -, rfl⟩ := mem_work_iff.mp hx
  obtain ⟨hsound, hsubset⟩ := effects_subset_all ts h u hu
  exact Effects.subset_trans hsound.intrinsic_subset hsubset

/-- Where nothing peeks, what does work has no dealings with the stack. -/
theorem intrinsic_subset_withoutStackAccess {ts : List Tree} (h : SoundAll ts)
    (hpeeks : (effectsAll ts).peeks = false) {x : NodeId × Kind × Nat} (hx : x ∈ work ts) :
    x.2.1.intrinsic ⊆ (effectsAll ts).withoutStackAccess := by
  have hsubset := intrinsic_subset_of_mem_work h hx
  obtain ⟨u, -, hpop, rfl⟩ := mem_work_iff.mp hx
  have hpeek : u.kind ≠ .peek := by
    intro hk
    have hsome := Effects.peeks_of_subset hsubset (u.kind.intrinsic_peeks.mpr hk)
    rw [hpeeks] at hsome
    cases hsome
  have hself := Effects.withoutStackAccess_eq_self (Kind.hasStackAccess_intrinsic hpop hpeek)
  have hless := Effects.withoutStackAccess_mono hsubset
  show u.kind.intrinsic ⊆ _
  rw [← hself]
  exact hless

/-- The work around a hole does not depend on what is in the hole. -/
theorem work_plug {fs : List Layer} (h : ∀ f ∈ fs, f.Sound) :
    ∃ later, ∀ t, work [plug fs t] = work (before fs) ++ work [t] ++ later := by
  induction fs with
  | nil => exact ⟨[], fun t => by simp⟩
  | cons f fs ih =>
    rw [List.forall_mem_cons] at h
    obtain ⟨later, hlater⟩ := ih h.2
    refine ⟨later ++ work f.right ++ [(f.id, f.kind, f.left.length + (f.right.length + 1))],
      fun t => ?_⟩
    rw [plug_cons, atop, work_node h.1.ne_pop, before_cons, work_append, work_append,
      ← List.singleton_append, work_append, hlater t, List.length_append, List.singleton_append,
      List.length_cons]
    simp only [List.append_assoc]

end Tree

/-! ## Moving work -/

/-- The node may swap places with the other one. -/
def MaySwap (x y : NodeId × Kind × Nat) : Prop :=
  mayReorder x.2.1.intrinsic y.2.1.intrinsic = true

theorem MaySwap.symm {x y : NodeId × Kind × Nat} (h : MaySwap x y) : MaySwap y x := by
  rw [MaySwap, mayReorder_comm]
  exact h

/-- Two neighbouring pieces of work swap places, where each part of one may swap places with each
part of the other. -/
inductive Move : List (NodeId × Kind × Nat) → List (NodeId × Kind × Nat) → Prop where
  | swap (earlier later : List (NodeId × Kind × Nat)) {xs ys : List (NodeId × Kind × Nat)}
      (legal : ∀ x ∈ xs, ∀ y ∈ ys, MaySwap x y) :
      Move (earlier ++ (xs ++ ys) ++ later) (earlier ++ (ys ++ xs) ++ later)

/-- A series of moves. -/
abbrev Moves : List (NodeId × Kind × Nat) → List (NodeId × Kind × Nat) → Prop :=
  Relation.ReflTransGen Move

section Moves

variable {ws vs : List (NodeId × Kind × Nat)}

theorem Move.around (h : Move ws vs) (earlier later : List (NodeId × Kind × Nat)) :
    Move (earlier ++ ws ++ later) (earlier ++ vs ++ later) := by
  cases h with
  | @swap first last xs ys legal =>
    have hmove := Move.swap (earlier ++ first) (last ++ later) legal
    simpa only [List.append_assoc] using hmove

theorem Moves.around (h : Moves ws vs) (earlier later : List (NodeId × Kind × Nat)) :
    Moves (earlier ++ ws ++ later) (earlier ++ vs ++ later) := by
  induction h with
  | refl => exact .refl
  | tail _ hmove ih => exact ih.tail (hmove.around earlier later)

theorem Move.perm (h : Move ws vs) : ws.Perm vs := by
  cases h with
  | swap earlier later _ => exact (List.perm_append_comm.append_left earlier).append_right later

theorem Moves.perm (h : Moves ws vs) : ws.Perm vs := by
  induction h with
  | refl => exact .refl _
  | tail _ hmove ih => exact ih.trans hmove.perm

/-- What a filter takes out of the two pieces is in one of them only, if it is all in conflict. -/
theorem Move.filter_eq (h : Move ws vs) (hd : ws.Nodup) {p : NodeId × Kind × Nat → Bool}
    (hp : ∀ x y, p x = true → p y = true → x ≠ y → ¬ MaySwap x y) :
    vs.filter p = ws.filter p := by
  cases h with
  | @swap earlier later xs ys legal =>
    have hpieces : (xs ++ ys).Nodup := (List.nodup_append.mp (List.nodup_append.mp hd).1).2.1
    have hone : xs.filter p = [] ∨ ys.filter p = [] := by
      by_contra hnot
      obtain ⟨hxs, hys⟩ := not_or.mp hnot
      obtain ⟨x, hx⟩ := List.exists_mem_of_ne_nil _ hxs
      obtain ⟨y, hy⟩ := List.exists_mem_of_ne_nil _ hys
      rw [List.mem_filter] at hx hy
      have hne : x ≠ y := (List.nodup_append.mp hpieces).2.2 x hx.1 y hy.1
      exact hp x y hx.2 hy.2 hne (legal x hx.1 y hy.1)
    simp only [List.filter_append]
    rcases hone with hnil | hnil
    · rw [hnil, List.nil_append, List.append_nil]
    · rw [hnil, List.nil_append, List.append_nil]

/-- What a filter takes out of the work stays in order, if it is all in conflict. -/
theorem Moves.filter_eq (h : Moves ws vs) (hd : ws.Nodup) {p : NodeId × Kind × Nat → Bool}
    (hp : ∀ x y, p x = true → p y = true → x ≠ y → ¬ MaySwap x y) :
    vs.filter p = ws.filter p := by
  induction h with
  | refl => rfl
  | tail hmoves hmove ih => rw [hmove.filter_eq ((Moves.perm hmoves).nodup_iff.mp hd) hp, ih]

/-- Moves keep the order of work that may not swap places. -/
theorem Moves.sublist_iff (h : Moves ws vs) (hd : ws.Nodup) {x y : NodeId × Kind × Nat}
    (hxy : ¬ MaySwap x y) : [x, y].Sublist vs ↔ [x, y].Sublist ws := by
  let p : NodeId × Kind × Nat → Bool := fun z => decide (z = x ∨ z = y)
  have hfilter : ∀ us : List (NodeId × Kind × Nat),
      [x, y].Sublist us ↔ [x, y].Sublist (us.filter p) := by
    intro us
    constructor
    · intro hsub
      simpa [p] using hsub.filter p
    · exact fun hsub => hsub.trans List.filter_sublist
  have hconflict : ∀ a b, p a = true → p b = true → a ≠ b → ¬ MaySwap a b := by
    intro a b ha hb hne
    simp only [p, decide_eq_true_eq] at ha hb
    rcases ha with rfl | rfl <;> rcases hb with rfl | rfl
    · exact absurd rfl hne
    · exact hxy
    · exact fun hswap => hxy hswap.symm
    · exact absurd rfl hne
  rw [hfilter vs, hfilter ws, h.filter_eq hd hconflict]

end Moves

/-! ## Nesting moves work -/

/-- A pull moves the work of the producer past the work before the hole. -/
theorem move_of_pull {stack left : List Tree} {t u : Tree} (h : Tree.Produced stack t)
    (hp : Tree.Pull (stack, t) (left, u)) :
    Move (work (stack.reverse ++ [t])) (work (left.reverse ++ [u])) := by
  cases hp with
  | @take fs id top _ reorder noPeek noWait noAfter =>
    obtain ⟨htop, -⟩ := h.sound
    obtain ⟨hfs, -⟩ := Tree.sound_plug_iff.mp h.entry
    have hbefore : SoundAll (before fs) := Tree.soundAll_before hfs
    obtain ⟨later, hlater⟩ := Tree.work_plug hfs
    have hpop : work [atop id .pop []] = [] := rfl
    have hlegal : ∀ x ∈ work [top], ∀ y ∈ work (before fs), MaySwap x y := by
      intro x hx y hy
      have hmoved : x.2.1.intrinsic ⊆ top.effects := by
        have hone : SoundAll [top] := ⟨htop, trivial⟩
        have hsubset := Tree.intrinsic_subset_of_mem_work hone hx
        rwa [effectsAll, effectsAll, Effects.union_empty] at hsubset
      have hpassed := Tree.intrinsic_subset_withoutStackAccess hbefore noPeek hy
      apply mayReorder_of_subset hmoved
      rw [mayReorder_comm]
      exact mayReorder_of_subset hpassed reorder
    have hmove := Move.swap (work left.reverse) later hlegal
    rw [List.reverse_cons, work_append, work_append, work_append, hlater, hlater, hpop]
    simpa only [List.append_assoc, List.nil_append] using hmove

/-- A pull moves work, wherever in a sequence it happens. -/
theorem keptByPulls_moves : Nest.KeptByPulls fun ts us => Moves (work ts) (work us) where
  refl := fun _ => .refl
  trans := fun h h' => h.trans h'
  around := by
    intro xs ts us ys _ h
    simp only [work_append]
    exact h.around (work xs) (work ys)
  pull := fun h hp => .single (move_of_pull h hp)

/-! ## Nesting a sequence -/

/-- What has a side effect, in the order of evaluation. -/
def Tree.sideEffects (ts : List Tree) : List (NodeId × Kind × Nat) :=
  (work ts).filter (·.2.1.intrinsic.hasSideEffect)

theorem Moves.sideEffects_eq {ts us : List Tree} (h : Moves (work ts) (work us))
    (hd : (work ts).Nodup) : Tree.sideEffects us = Tree.sideEffects ts := by
  apply h.filter_eq hd
  intro x y hx hy _ hswap
  rw [MaySwap, not_mayReorder_of_sideEffects hx hy] at hswap
  cases hswap

namespace Routine

variable {r : Routine}

/-- A node under the entries that is no pop does work. -/
theorem ShowsAll.exists_work {ns : List NodeId} {ts : List Tree} (h : r.ShowsAll ns ts)
    {m : NodeId} {k : Kind} (hm : ∃ n ∈ ns, r.Under n m) (hk : r.kind m = .ok k)
    (hpop : k ≠ .pop) : ∃ x ∈ work ts, x.1 = m ∧ x.2.1 = k := by
  obtain ⟨n, hn, hunder⟩ := hm
  rw [← h.map_id] at hn
  obtain ⟨t, ht, rfl⟩ := List.mem_map.mp hn
  have hmem : m ∈ forestNodes ts :=
    Tree.mem_forestNodes.mpr ⟨t, ht, (h.shows t ht).mem_nodes_iff.mpr hunder⟩
  rw [← Tree.map_id_subtreesAll] at hmem
  obtain ⟨u, hu, rfl⟩ := List.mem_map.mp hmem
  rw [kind_of_shows (h.of_mem_subtrees u hu)] at hk
  obtain rfl := Except.ok.inj hk
  exact ⟨u.label, Tree.mem_work_iff.mpr ⟨u, hu, hpop, rfl⟩, rfl, rfl⟩

/-- Two nodes under the entries of the sequence whose kinds are in the relation are evaluated in the
same order in the trees before and in the trees after. -/
def KeepsOrder (r : Routine) (block : List NodeId) (before after : List Tree)
    (R : Kind → Kind → Prop) : Prop :=
  ∀ m n j k, (∃ e ∈ block, r.Under e m) → (∃ e ∈ block, r.Under e n) → r.kind m = .ok j →
    r.kind n = .ok k → R j k → (Tree.Precedes after m n ↔ Tree.Precedes before m n)

/-- Fewer kinds stay in order as well. -/
theorem KeepsOrder.mono {block : List NodeId} {before after : List Tree} {R S : Kind → Kind → Prop}
    (h : r.KeepsOrder block before after R) (hRS : ∀ j k, S j k → R j k) :
    r.KeepsOrder block before after S :=
  fun m n j k hm hn hj hk hS => h m n j k hm hn hj hk (hRS j k hS)

/-- Moves of work keep the order of nodes that may not swap places. -/
theorem keepsOrder_of_moves {block : List NodeId} {before after : List Tree}
    (hshows : r.ShowsAll block before) (hbefore : (forestNodes before).Nodup)
    (hafter : (forestNodes after).Nodup) (h : Moves (work before) (work after)) :
    r.KeepsOrder block before after fun j k =>
      j ≠ .pop ∧ k ≠ .pop ∧ mayReorder j.intrinsic k.intrinsic = false := by
  rintro m n j k hm hn hj hk ⟨hjp, hkp, hconflict⟩
  obtain ⟨x, hx, rfl, rfl⟩ := hshows.exists_work hm hj hjp
  obtain ⟨y, hy, rfl, rfl⟩ := hshows.exists_work hn hk hkp
  have hnot : ¬ MaySwap x y := by
    rw [MaySwap, hconflict]
    exact Bool.false_ne_true
  rw [Tree.precedes_iff hbefore hx hy,
    Tree.precedes_iff hafter (h.perm.mem_iff.mp hx) (h.perm.mem_iff.mp hy)]
  exact h.sublist_iff (Tree.nodup_work hbefore) hnot

/--
Nesting an accepted sequence of a reachable routine keeps conflicting work in order: of two nodes
under the entries, neither a pop, that may not swap places, one is evaluated before the other
afterwards exactly if it was so before. So whatever has a side effect stays in sequence, no read
crosses a write, and no peek crosses a side effect.
-/
theorem Reachable.nestBlock_keeps_order (h : r.Reachable) {block : List NodeId}
    {report : NestingReport} (hok : (nestBlock r block).result = .ok report) :
    ∃ before after, block.mapM r.tree = .ok before ∧
      (nestBlock r block).block.mapM (nestBlock r block).code.tree = .ok after ∧
      r.KeepsOrder block before after (fun j k =>
        j ≠ .pop ∧ k ≠ .pop ∧ mayReorder j.intrinsic k.intrinsic = false) ∧
      Tree.sideEffects after = Tree.sideEffects before ∧
      r.KeepsOrder block before after (fun j k =>
        j.intrinsic.reads = true ∧ k.intrinsic.writes = true) ∧
      r.KeepsOrder block before after (fun j k =>
        j = .peek ∧ k.intrinsic.hasSideEffect = true) := by
  have hr := h.sound
  obtain ⟨before, s, hshows, hsup, hrun, -, hnests⟩ := nestBlock_accepted hr hok
  have hsound := hr.trees_sound hshows
  have hmoves : Moves (work before) (work (Nest.start.run before).output) :=
    keptByPulls_moves.run Nest.ready_start hsound
  have hbefore := hsup.forestNodes_nodup hr
  have hafter := hnests.supplies.forestNodes_nodup hnests.sound
  have hkeeps := keepsOrder_of_moves hshows hbefore hafter hmoves
  rw [hrun]
  refine ⟨before, (Nest.start.run before).output, ?_, ?_, hkeeps,
    hmoves.sideEffects_eq (Tree.nodup_work hbefore), hkeeps.mono ?_, hkeeps.mono ?_⟩
  · exact mapM_of_showsAll hshows fun t _ ht => hr.tree_eq ht
  · exact mapM_of_showsAll (showsAll_of_shows hnests.supplies.shows) fun t _ ht =>
      hnests.sound.tree_eq ht
  · rintro j k ⟨hread, hwrite⟩
    refine ⟨?_, ?_, not_mayReorder_of_read hread hwrite⟩
    · rintro rfl
      cases hread
    · rintro rfl
      cases hwrite
  · rintro j k ⟨rfl, hside⟩
    refine ⟨by decide, ?_, not_mayReorder_of_access rfl hside⟩
    rintro rfl
    cases hside

/-- A load does not become the second operand of a sum whose first operand is a call: it would be
read after the call. -/
theorem nestBlock_keeps_load_before_call :
    let build : Edit Unit := do
      let called ← alloc (.call "f" true) []
      let _ ← alloc (.binary .add) [called, ← alloc .pop []]
      let _ ← alloc (.load 0) []
    let r := leftBy (build { name := "main" })
    let report : NestingReport := ⟨2, 2, 0, 1, false⟩
    r.Reachable ∧ (nestBlock r [⟨3⟩, ⟨2⟩]).result = .ok report ∧
      ∃ after, (nestBlock r [⟨3⟩, ⟨2⟩]).block.mapM (nestBlock r [⟨3⟩, ⟨2⟩]).code.tree = .ok after ∧
        Tree.Precedes after ⟨3⟩ ⟨0⟩ := by
  intro build r report
  have hreach : r.Reachable :=
    ⟨"main", Unit, build, .bind (.alloc _ _) fun _ => .bind (.alloc _ _) fun _ =>
      .bind (.alloc _ _) fun _ => .bind (.alloc _ _) fun _ => .pure _, rfl⟩
  have hok : (nestBlock r [⟨3⟩, ⟨2⟩]).result = .ok report := by decide +kernel
  obtain ⟨before, after, hread, hafter, -, -, hreads, -⟩ :=
    Reachable.nestBlock_keeps_order hreach hok
  have hload : r.kind ⟨3⟩ = .ok (.load 0) := by decide +kernel
  have hcall : r.kind ⟨0⟩ = .ok (.call "f" true) := by decide +kernel
  have hunder : r.Under ⟨2⟩ ⟨0⟩ := by
    have hsits : r.HasChild ⟨2⟩ 0 ⟨0⟩ := ⟨_, rfl, rfl⟩
    exact .child .self hsits
  refine ⟨hreach, hok, after, hafter, (hreads ⟨3⟩ ⟨0⟩ _ _ ⟨⟨3⟩, by simp, .self⟩
    ⟨⟨2⟩, by simp, hunder⟩ hload hcall ⟨rfl, rfl⟩).mpr ?_⟩
  have hbefore : [(⟨3⟩ : NodeId), ⟨2⟩].mapM r.tree = .ok _ := rfl
  obtain rfl := Except.ok.inj (hbefore.symm.trans hread)
  show List.Sublist _ _
  decide

end Routine

end StackTree
