import StackTree.Proofs.Folding.Simulation

/-!
# Folding a body

The entries of a body are folded first to last. One that computes a constant is released, and the
constant takes its place in the body; every other entry stays where it is. As long as there is room
for the constants none of this fails (`foldBody_eq`), and a routine that could grow by as many nodes
as it has always has room (`roomToFold_of_live`).

## Main definitions

* `Routine.Refolds`: what folding does to a routine, given the trees before and after.
* `Routine.RoomToFold`: the arena has room for all constants.

## Main results

* `foldEntry_eq`: one entry.
* `foldBody_eq`: the trees of a body become those of `Tree.foldAll`.
-/

namespace StackTree

open Runs
open StackTree.Tree (forestNodes sizes foldAll)

/-! ## Counts -/

namespace Tree

/-- At most the node over the operands collapses. -/
theorem count_collapse_le (next : Nat) (f : Folding Tree) :
    (collapse next f).count ≤ f.count + 1 := by
  rcases collapse_cases next f with ⟨-, heq⟩ | ⟨value, -, heq⟩
  · rw [heq]
    exact Nat.le_succ _
  · exact Nat.le_of_eq (congrArg Folding.count heq)

mutual

/-- No more constants are made below a tree than it has nodes. -/
theorem count_fold_le : (next : Nat) → (t : Tree) → (t.fold next).count ≤ t.size
  | next, node id kind e cs => by
    have hcollapse := count_collapse_le next ((node id kind e cs).foldOperands next)
    have hbelow := count_foldAll_le next cs
    rw [foldOperands_node] at hcollapse
    unfold fold
    rw [foldOperands_node, size]
    simp only at hcollapse ⊢
    omega

theorem count_foldAll_le : (next : Nat) → (ts : List Tree) → (foldAll next ts).count ≤ sizes ts
  | _, [] => by simp [sizes]
  | next, t :: ts => by
    have hfirst := count_fold_le next t
    have hlater := count_foldAll_le (next + (t.fold next).count) ts
    rw [foldAll_cons, sizes]
    simp only
    omega

end

end Tree

namespace Routine

variable {r s : Routine}

/-! ## What folding leaves alone -/

/-- The trees before became the trees after with so many new nodes, and nothing else changed but for
the body. -/
structure Refolds (r s : Routine) (before after : List Tree) (added : Nat) : Prop where
  sound : s.Sound
  supplies : s.Supplies after
  size_eq : s.nodes.size = r.nodes.size + added
  live_eq : s.live + sizes before = r.live + sizes after
  name_eq : s.name = r.name
  nodes_subset : ∀ m ∈ forestNodes after, m ∈ forestNodes before ∨ r.nodes.size ≤ m.index
  bare_eq : ∀ m, m ∉ forestNodes before → m.index < r.nodes.size → s.bare m = r.bare m

namespace Refolds

variable {before mid after : List Tree} {added more : Nat}

theorem refl (h : r.Sound) (hsup : r.Supplies before) : r.Refolds r before before 0 :=
  ⟨h, hsup, rfl, rfl, rfl, fun _ hm => Or.inl hm, fun _ _ _ => rfl⟩

theorem trans {t : Routine} (h : r.Refolds s before mid added)
    (h' : s.Refolds t mid after more) : r.Refolds t before after (added + more) where
  sound := h'.sound
  supplies := h'.supplies
  size_eq := by rw [h'.size_eq, h.size_eq, Nat.add_assoc]
  live_eq := by
    have := h.live_eq
    have := h'.live_eq
    omega
  name_eq := h'.name_eq.trans h.name_eq
  nodes_subset := by
    have hsize := h.size_eq
    intro m hm
    rcases h'.nodes_subset m hm with hmid | hnew
    · exact h.nodes_subset m hmid
    · right
      omega
  bare_eq := by
    have hsize := h.size_eq
    intro m hm hlt
    have hmid : m ∉ forestNodes mid := by
      intro hmem
      rcases h.nodes_subset m hmem with hold | hnew
      · exact hm hold
      · omega
    rw [h'.bare_eq m hmid (by omega), h.bare_eq m hm hlt]

/-- The order of the trees does not matter. -/
theorem perm {before' after' : List Tree} (h : r.Refolds s before after added)
    (hb : before.Perm before') (ha : after.Perm after') : r.Refolds s before' after' added := by
  have hnodes := Tree.forestNodes_perm hb
  have hnodes' := Tree.forestNodes_perm ha
  refine ⟨h.sound, h.supplies.perm ha, h.size_eq, ?_, h.name_eq, fun m hm => ?_, fun m hm => ?_⟩
  · rw [← Tree.length_forestNodes, ← Tree.length_forestNodes, ← hnodes.length_eq,
      ← hnodes'.length_eq, Tree.length_forestNodes, Tree.length_forestNodes, h.live_eq]
  · rw [← hnodes.mem_iff]
    exact h.nodes_subset m (hnodes'.mem_iff.mpr hm)
  · exact h.bare_eq m (mt hnodes.mem_iff.mp hm)

end Refolds

/-! ## One entry -/

/-- Folding below one of several free trees leaves it and the others free. -/
theorem Revises.supplies (hr : r.Sound) {t below : Tree} {others : List Tree}
    {added before after : Nat} (hsup : r.Supplies (t :: others))
    (h : r.Revises s t.id t.nodes added before after) (hid : below.id = t.id)
    (hbelow : s.Shows t.id below) : s.Supplies (below :: others) := by
  have hmem : t ∈ t :: others := List.mem_cons_self ..
  have hbare : ∀ u ∈ others, ∀ m ∈ u.nodes, s.bare m = r.bare m := by
    intro u hu m hm
    have hin : u ∈ t :: others := List.mem_cons_of_mem t hu
    exact h.bare_of_live (hsup.disjoint hr hmem hin (hsup.id_ne hu) m hm)
      ((hsup.shows u hin).live_of_mem hm)
  have hkept : s.Supplies others :=
    (hsup.sublist (List.sublist_cons_self ..)).of_bare_eq hr h.sound hbare
  have hfree : s.Free t.id := (hsup.free_of_mem hmem).of_link_eq h.link_eq hbelow.isLive
  have hne := (List.nodup_cons.mp hsup.free.1).1
  rw [← hid] at hbelow hfree hne
  exact hkept.cons hbelow hfree hne

/-- A new node joins the free trees. -/
theorem Fresh.supplies {q : Routine} {c : Tree} {ts : List Tree} (hc : q.Fresh s c)
    (hts : s.Supplies ts) (hold : ∀ t ∈ ts, t.id.index < q.nodes.size) : s.Supplies (c :: ts) := by
  apply hts.cons hc.shows hc.free
  intro hmem
  obtain ⟨t, ht, hid⟩ := List.mem_map.mp hmem
  have hlt := hold t ht
  have hge := hc.isNew
  rw [hid] at hlt
  omega

/-- An entry that computes nothing stays in its place. -/
theorem Revises.refolds (hr : r.Sound) {t below : Tree} {others : List Tree} {added : Nat}
    (hsup : r.Supplies (t :: others)) (h : r.Revises s t.id t.nodes added t.size below.size)
    (hid : below.id = t.id) (hbelow : s.Shows t.id below)
    (hnodes : ∀ m ∈ below.nodes, m ∈ t.nodes ∨ r.nodes.size ≤ m.index) :
    r.Refolds s (t :: others) (below :: others) added where
  sound := h.sound
  supplies := h.supplies hr hsup hid hbelow
  size_eq := h.size_eq
  live_eq := by
    have := h.live_eq
    simp only [sizes]
    omega
  name_eq := h.name_eq
  nodes_subset := by
    intro m hm
    simp only [forestNodes, List.mem_append] at hm ⊢
    rcases hm with hm | hm
    · rcases hnodes m hm with hold | hnew
      · exact Or.inl (Or.inl hold)
      · exact Or.inr hnew
    · exact Or.inl (Or.inr hm)
  bare_eq := by
    intro m hm hlt
    rw [forestNodes, List.mem_append, not_or] at hm
    exact h.bare_eq m hm.1 hlt

/-- An entry that computes a constant is released, and the constant hangs nowhere. -/
theorem Revises.refolds_release (hr : r.Sound) {t below c : Tree} {others : List Tree}
    {added : Nat} (hsup : r.Supplies (t :: others))
    (h : r.Revises s t.id t.nodes added t.size (below.size + 1)) (hid : below.id = t.id)
    (hbelow : s.Shows t.id below)
    (hnodes : ∀ m ∈ below.nodes, m ∈ t.nodes ∨ r.nodes.size ≤ m.index) (hc : r.Fresh s c) :
    s.Free t.id ∧ r.Refolds (s.release t.id) (t :: others) (c :: others) added := by
  have hstay : s.Supplies (below :: others) := h.supplies hr hsup hid hbelow
  have hold : ∀ u ∈ below :: others, u.id.index < r.nodes.size := by
    intro u hu
    rcases List.mem_cons.mp hu with rfl | hu
    · rw [hid]
      exact index_lt_of_isLive (hsup.shows t (List.mem_cons_self ..)).isLive
    · exact index_lt_of_isLive (hsup.shows u (List.mem_cons_of_mem t hu)).isLive
  have hall : s.Supplies (below :: c :: others) :=
    (hc.supplies hstay hold).perm (List.Perm.swap below c others)
  have hfree : s.Free t.id := hid ▸ hstay.free_of_mem (List.mem_cons_self ..)
  have hrelease := h.sound.releases_release hbelow
  obtain ⟨hsound, hsupplies⟩ := hall.release h.sound
  rw [hid] at hsound hsupplies
  refine ⟨hfree, hsound, hsupplies, hrelease.size_eq.trans h.size_eq, ?_,
    hrelease.name_eq.trans h.name_eq, fun m hm => ?_, fun m hm hlt => ?_⟩
  · have hlive := h.live_eq
    have hle := h.sound.size_le_live hbelow
    have hone := hc.size_eq
    rw [hrelease.live_eq, below.length_nodes]
    simp only [sizes]
    omega
  · simp only [forestNodes, List.mem_append, hc.nodes_eq, List.mem_singleton] at hm ⊢
    rcases hm with rfl | hm
    · exact Or.inr hc.isNew
    · exact Or.inl (Or.inr hm)
  · rw [forestNodes, List.mem_append, not_or] at hm
    have hout : m ∉ below.nodes := by
      intro hmem
      rcases hnodes m hmem with hin | hnew
      · exact hm.1 hin
      · omega
    rw [bare, hrelease.get?_of_notMem hout]
    exact h.bare_eq m hm.1 hlt

/-- A body does not matter to what folding has done. -/
theorem Refolds.with_body {before after : List Tree} {added : Nat}
    (h : r.Refolds s before after added) (body : List NodeId) :
    r.Refolds { s with body := body } before after added where
  sound := h.sound.with_body body
  supplies := h.supplies.with_body body
  size_eq := h.size_eq
  live_eq := h.live_eq
  name_eq := h.name_eq
  nodes_subset := h.nodes_subset
  bare_eq := h.bare_eq

/-- One entry of a body is folded as its tree is. -/
theorem foldEntry_eq (hr : r.Sound) {done rest : List Tree} {t : Tree}
    (hsup : r.Supplies (done ++ t :: rest)) (hbody : r.body = (done ++ t :: rest).map Tree.id)
    (hroom : r.nodes.size + (t.fold r.nodes.size).count ≤ Routine.capacity) :
    ∃ s, (∀ count, foldEntry t.id done.length ⟨r, count⟩ =
        .ok () ⟨s, count + (t.fold r.nodes.size).count⟩) ∧
      r.Refolds s (done ++ t :: rest) (done ++ (t.fold r.nodes.size).result :: rest)
        (t.fold r.nodes.size).count ∧
      s.body = (done ++ (t.fold r.nodes.size).result :: rest).map Tree.id := by
  have hfirst : r.Supplies (t :: (done ++ rest)) := hsup.perm List.perm_middle
  have ht : r.Shows t.id t := hfirst.shows t (List.mem_cons_self ..)
  have hid := Tree.id_foldOperands r.nodes.size t
  have hnodes := Tree.foldOperands_nodes r.nodes.size t
  obtain ⟨q, hrun, hrevises, hbelow, hanswer⟩ := fold_eq hr ht hroom
  generalize t.fold r.nodes.size = folded at *
  generalize t.foldOperands r.nodes.size = below at *
  rcases hanswer with rfl | ⟨hcount, hfresh⟩
  · have hkept := (hrevises.recount (by omega)).refolds hr hfirst hid hbelow hnodes
    refine ⟨q, fun count => ?_, hkept.perm List.perm_middle.symm List.perm_middle.symm, ?_⟩
    · unfold foldEntry
      rw [run_bind_of_ok (hrun count), hid, if_pos rfl]
      rfl
    · rw [hrevises.body_eq, hbody]
      simp [hid]
  · obtain ⟨hfree, hreleased⟩ :=
      (hrevises.recount (by omega)).refolds_release hr hfirst hid hbelow hnodes hfresh
    have hne : folded.result.id ≠ t.id := by
      intro heq
      have hlt := index_lt_of_isLive ht.isLive
      have hge := hfresh.isNew
      rw [heq] at hge
      omega
    have hset : q.body.set done.length folded.result.id =
        (done ++ folded.result :: rest).map Tree.id := by
      rw [hrevises.body_eq, hbody]
      simp
    refine ⟨{ q.release t.id with body := q.body.set done.length folded.result.id },
      fun count => ?_,
      (hreleased.perm List.perm_middle.symm List.perm_middle.symm).with_body _, hset⟩
    have hbodyEq : (q.release t.id).body = q.body :=
      (hrevises.sound.releases_release hbelow).body_eq
    unfold foldEntry
    rw [run_bind_of_ok (hrun count), if_neg hne,
      run_bind_of_ok (fold_lift_of_ok (discard_ok hfree) _), run_modify, hbodyEq]

/-! ## All entries -/

/-- Entries are folded one after the other as their trees are. -/
theorem foldEntries_eq {rest : List Tree} {r : Routine} {done : List Tree} (hr : r.Sound)
    (hsup : r.Supplies (done ++ rest)) (hbody : r.body = (done ++ rest).map Tree.id)
    (hroom : r.nodes.size + (foldAll r.nodes.size rest).count ≤ Routine.capacity) :
    ∃ s, (∀ count, foldEntries ((rest.map Tree.id).zipIdx done.length) ⟨r, count⟩ =
        .ok () ⟨s, count + (foldAll r.nodes.size rest).count⟩) ∧
      r.Refolds s (done ++ rest) (done ++ (foldAll r.nodes.size rest).result)
        (foldAll r.nodes.size rest).count ∧
      s.body = (done ++ (foldAll r.nodes.size rest).result).map Tree.id := by
  induction rest generalizing r done with
  | nil =>
    rw [Tree.foldAll_nil]
    exact ⟨r, fun _ => rfl, .refl hr hsup, hbody⟩
  | cons t rest ih =>
    rw [Tree.foldAll_cons] at hroom ⊢
    simp only at hroom ⊢
    obtain ⟨q, hentry, hfirst, hbody'⟩ := foldEntry_eq hr hsup hbody (by omega)
    generalize t.fold r.nodes.size = folded at *
    have hnext : r.nodes.size + folded.count = q.nodes.size := hfirst.size_eq.symm
    have hsplit : ∀ us, done ++ folded.result :: us = (done ++ [folded.result]) ++ us := by simp
    rw [hsplit] at hfirst hbody'
    rw [hsplit, hnext]
    obtain ⟨s, hrest, hlater, hbody''⟩ := ih hfirst.sound hfirst.supplies hbody' (by
      rw [← hnext]
      omega)
    refine ⟨s, fun count => ?_, hfirst.trans hlater, hbody''⟩
    have hlength : (done ++ [folded.result]).length = done.length + 1 := by simp
    rw [hlength] at hrest
    rw [List.map_cons, List.zipIdx_cons, foldEntries, List.forM_eq_forM, List.forM_cons,
      run_bind_of_ok (hentry count), ← Nat.add_assoc]
    exact hrest _

/-- The arena has room for the constants that folding the body makes. -/
def RoomToFold (r : Routine) : Prop :=
  ∀ ts, r.body.mapM r.tree = .ok ts →
    r.nodes.size + (foldAll r.nodes.size ts).count ≤ Routine.capacity

/-- A routine that could grow by as many nodes as it has has room. -/
theorem roomToFold_of_live (hr : r.Sound) (hfree : r.AllFree r.body)
    (h : r.nodes.size + r.live ≤ Routine.capacity) : r.RoomToFold := by
  intro ts hread
  obtain ⟨us, hus⟩ := hr.exists_showsAll hfree
  obtain rfl := Except.ok.inj (hread.symm.trans (hr.mapM_tree hus))
  have hsup : r.Supplies ts := hus.supplies hfree
  have hcount := Tree.count_foldAll_le r.nodes.size ts
  have hlive : (forestNodes ts).length ≤ r.liveNodes :=
    length_le_liveNodes (hsup.forestNodes_nodup hr) fun m hm => hus.live_of_mem hm
  rw [Tree.length_forestNodes, ← hr.live_eq] at hlive
  omega

/-- The trees of a body of free nodes become those of `Tree.foldAll`. -/
theorem foldBody_eq (hr : r.Sound) {ts : List Tree} (hfree : r.AllFree r.body)
    (hts : r.ShowsAll r.body ts) (hroom : r.RoomToFold) :
    ∃ s, foldBody r = .ok (foldAll r.nodes.size ts).count s ∧
      r.Refolds s ts (foldAll r.nodes.size ts).result (foldAll r.nodes.size ts).count ∧
      s.body = (foldAll r.nodes.size ts).result.map Tree.id := by
  have hsup : r.Supplies ([] ++ ts) := hts.supplies hfree
  obtain ⟨s, hrun, hrefolds, hbody⟩ :=
    foldEntries_eq hr hsup hts.map_id.symm (hroom ts (hr.mapM_tree hts))
  refine ⟨s, ?_, hrefolds, hbody⟩
  have hall := hrun 0
  rw [hts.map_id, List.length_nil, Nat.zero_add] at hall
  unfold foldBody
  simp only [hall]

end Routine

end StackTree
