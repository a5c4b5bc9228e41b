import StackTree.Proofs.Ownership.Replace

/-!
# Release keeps a routine sound

Releasing a node removes its tree and nothing else (`Structured.releases_release`). When the node
was free, no link leads into the tree or out of it, so what is left is sound
(`Sound.of_releases`). Putting another operand into a slot is a replacement followed by such a
release, which cannot fail any more (`setChild_ok`).

## Main definitions

* `Routine.Releases`: the given nodes are gone and nothing else changed.
* `Routine.RefusesDiscard`: why a release is refused.

## Main results

* `Structured.releases_release`: a release removes the nodes of a tree.
* `Sound.of_releases`: without a free tree a sound routine is sound.
* `Supplies.release`: free trees stay when another one is released.
* `discard_ok`, `discard_of_refuses`, `setChild_ok`, `setChild_of_refuses`: what the operations do.
-/

namespace StackTree.Routine

open Runs
open StackTree.Tree (forestNodes)

variable {r s : Routine}

/-- The given nodes are gone and nothing else changed. -/
structure Releases (r s : Routine) (ns : List NodeId) : Prop where
  get?_eq : ∀ m, s.get? m = if m ∈ ns then none else r.get? m
  size_eq : s.nodes.size = r.nodes.size
  live_eq : s.live = r.live - ns.length
  name_eq : s.name = r.name
  body_eq : s.body = r.body

namespace Releases

theorem refl (r : Routine) : r.Releases r [] := ⟨by simp, rfl, rfl, rfl, rfl⟩

theorem trans {t : Routine} {ns ms : List NodeId} (h : r.Releases s ns) (h' : s.Releases t ms) :
    r.Releases t (ns ++ ms) where
  get?_eq := by
    intro m
    rw [h'.get?_eq, h.get?_eq]
    by_cases hn : m ∈ ns
    · simp [hn]
    · simp [hn]
  size_eq := h'.size_eq.trans h.size_eq
  live_eq := by
    rw [h'.live_eq, h.live_eq, List.length_append, Nat.sub_sub]
  name_eq := h'.name_eq.trans h.name_eq
  body_eq := h'.body_eq.trans h.body_eq

theorem congr {ns ms : List NodeId} (h : r.Releases s ns) (hp : ns.Perm ms) :
    r.Releases s ms where
  get?_eq := fun m => by rw [h.get?_eq]; simp only [hp.mem_iff]
  size_eq := h.size_eq
  live_eq := by rw [h.live_eq, hp.length_eq]
  name_eq := h.name_eq
  body_eq := h.body_eq

theorem of_erase (r : Routine) (n : NodeId) : r.Releases (r.erase n) [n] where
  get?_eq := by simp [get?_erase]
  size_eq := size_erase r n
  live_eq := rfl
  name_eq := rfl
  body_eq := rfl

theorem get?_of_notMem {ns : List NodeId} {m : NodeId} (h : r.Releases s ns) (hm : m ∉ ns) :
    s.get? m = r.get? m := by
  rw [h.get?_eq, if_neg hm]

theorem get?_eq_some_iff {ns : List NodeId} {m : NodeId} {node : Node} (h : r.Releases s ns) :
    s.get? m = some node ↔ m ∉ ns ∧ r.get? m = some node := by
  rw [h.get?_eq]
  split
  · next hm => simp [hm]
  · next hm => simp [hm]

theorem ages {ns : List NodeId} (h : r.Releases s ns) : r.Ages s :=
  ages_of_view h.size_eq fun n hn => by
    rw [h.get?_eq, hn]
    split <;> rfl

end Releases

/-! ## The tree is removed -/

/-- Releasing trees one after the other removes them all, if each release removes one. -/
theorem releases_foldl (release : Routine → NodeId → Routine) {ns : List NodeId} {ts : List Tree}
    (hts : r.ShowsAll ns ts) (hd : (forestNodes ts).Nodup)
    (hrelease : ∀ t ∈ ts, ∀ s : Routine, s.Shows t.id t → s.Releases (release s t.id) t.nodes) :
    r.Releases (ns.foldl release r) (forestNodes ts) := by
  induction ns generalizing r ts with
  | nil =>
    cases hts
    exact .refl r
  | cons n ns ih =>
    cases hts with
    | @cons _ t _ ts head tail =>
      obtain ⟨-, hrest, hdisjoint⟩ := List.nodup_append.mp hd
      obtain rfl := head.id_eq
      have hfirst := hrelease t (List.mem_cons_self ..) r head
      have htail : (release r t.id).ShowsAll ns ts := tail.of_get?_eq fun m hm =>
        hfirst.get?_of_notMem fun hmem => hdisjoint m hmem m hm rfl
      exact hfirst.trans (ih htail hrest fun u hu => hrelease u (List.mem_cons_of_mem t hu))

theorem releases_releaseWithin {bound : Nat} {n : NodeId} {t : Tree} (ht : r.Shows n t)
    (hd : t.nodes.Nodup) (hb : t.size ≤ bound) :
    r.Releases (r.releaseWithin bound n) t.nodes := by
  induction bound generalizing r n t with
  | zero =>
    have := t.size_pos
    omega
  | succ bound ih =>
    cases ht with
    | @node _ node ts at_n below =>
      obtain ⟨hbelow, -, hdisjoint⟩ := List.nodup_append.mp hd
      have hnot : n ∉ forestNodes ts := fun hm => hdisjoint n hm n (List.mem_singleton_self n) rfl
      have herase := Releases.of_erase r n
      have hshows : (r.erase n).ShowsAll node.children ts := below.of_get?_eq fun m hm =>
        herase.get?_of_notMem fun h => hnot (List.mem_singleton.mp h ▸ hm)
      have hsub : ∀ t ∈ ts, t.nodes.Nodup ∧ t.size ≤ bound := by
        intro t ht
        constructor
        · have := List.sublist_flatten_of_mem (List.mem_map_of_mem (f := Tree.nodes) ht)
          refine List.Nodup.sublist ?_ hbelow
          rwa [Tree.forestNodes_eq_flatten]
        · have := Tree.size_le_sizes ht
          simp only [Tree.size] at hb
          omega
      have hfold := releases_foldl (fun r child => r.releaseWithin bound child) hshows
        hbelow fun t ht s hs => ih hs (hsub t ht).1 (hsub t ht).2
      have hrun : r.releaseWithin (bound + 1) n =
          node.children.foldl (fun r child => r.releaseWithin bound child) (r.erase n) := by
        rw [releaseWithin, at_n]
      rw [hrun]
      exact (herase.trans hfold).congr List.perm_append_comm

/-- A release removes the nodes of a tree. -/
theorem Structured.releases_release (h : r.Structured) {n : NodeId} {t : Tree}
    (ht : r.Shows n t) : r.Releases (r.release n) t.nodes :=
  releases_releaseWithin ht (h.nodes_nodup ht) (Nat.le_of_lt (h.size_lt_pathBound ht))

/-! ## What is left is sound -/

/-- Under a free node, a node belongs to the tree exactly when the node above it does. -/
theorem Structured.mem_nodes_iff_of_linksTo (h : r.Structured) {n c : NodeId} {t : Tree}
    {link : Link} (ht : r.Shows n t) (hf : r.Free n) (hl : r.LinksTo c link) :
    c ∈ t.nodes ↔ link.parent ∈ t.nodes := by
  rw [ht.mem_nodes_iff, ht.mem_nodes_iff]
  exact under_iff_of_linksTo h hl fun heq => hf.not_linksTo (heq ▸ hl)

/-- Outside a free tree every way up stays outside. -/
theorem DepthIs.of_releases (h : r.Structured) {n m : NodeId} {t : Tree} {d : Nat}
    (hd : r.DepthIs m d) (ht : r.Shows n t) (hf : r.Free n) (hs : r.Releases s t.nodes)
    (hm : m ∉ t.nodes) : s.DepthIs m d := by
  induction hd with
  | root free =>
    obtain ⟨node, hget, hp⟩ := free
    exact .root ⟨node, hs.get?_eq_some_iff.mpr ⟨hm, hget⟩, hp⟩
  | up linked _ ih =>
    have hup := ih (mt (h.mem_nodes_iff_of_linksTo ht hf linked).mpr hm)
    obtain ⟨node, hget, hp⟩ := linked
    exact .up ⟨node, hs.get?_eq_some_iff.mpr ⟨hm, hget⟩, hp⟩ hup

/-- Without the tree under a free node a sound routine is sound. -/
theorem Sound.of_releases (h : r.Sound) {n : NodeId} {t : Tree} (ht : r.Shows n t)
    (hf : r.Free n) (hs : r.Releases s t.nodes) : s.Sound where
  down := by
    rintro p slot c ⟨node, hp, hc⟩
    obtain ⟨hnot, hp⟩ := hs.get?_eq_some_iff.mp hp
    have hl := h.down p slot c ⟨node, hp, hc⟩
    have hout := mt (h.mem_nodes_iff_of_linksTo ht hf hl).mp hnot
    obtain ⟨child, hget, hparent⟩ := hl
    exact ⟨child, hs.get?_eq_some_iff.mpr ⟨hout, hget⟩, hparent⟩
  up := by
    rintro c link ⟨child, hc, hparent⟩
    obtain ⟨hnot, hc⟩ := hs.get?_eq_some_iff.mp hc
    have hl : r.LinksTo c link := ⟨child, hc, hparent⟩
    have hout := mt (h.mem_nodes_iff_of_linksTo ht hf hl).mpr hnot
    obtain ⟨node, hget, hslot⟩ := h.up c link hl
    exact ⟨node, hs.get?_eq_some_iff.mpr ⟨hout, hget⟩, hslot⟩
  arity := fun m node hm => h.arity m node (hs.get?_eq_some_iff.mp hm).2
  grounded := by
    intro m hm
    obtain ⟨node, hget⟩ := isLive_iff.mp hm
    obtain ⟨hnot, hget⟩ := hs.get?_eq_some_iff.mp hget
    obtain ⟨d, hd⟩ := h.grounded m (isLive_iff.mpr ⟨node, hget⟩)
    exact ⟨d, hd.of_releases h.toStructured ht hf hs hnot⟩
  live_eq := by
    have hperm : r.liveIds.Perm (s.liveIds ++ t.nodes) := by
      have hlive : ∀ m, s.isLive m = true ↔ m ∉ t.nodes ∧ r.isLive m = true := by
        intro m
        simp only [isLive_iff, hs.get?_eq_some_iff, exists_and_left]
      refine (List.perm_ext_iff_of_nodup nodup_liveIds (List.nodup_append.mpr
        ⟨nodup_liveIds, h.nodes_nodup ht, ?_⟩)).mpr fun m => ?_
      · rintro a ha b hb rfl
        exact ((hlive a).mp (mem_liveIds.mp ha)).1 hb
      · rw [List.mem_append, mem_liveIds, mem_liveIds, hlive]
        by_cases hm : m ∈ t.nodes
        · simp [hm, ht.live_of_mem hm]
        · simp [hm]
    have hlength := hperm.length_eq
    rw [List.length_append] at hlength
    rw [hs.live_eq, h.live_eq, liveNodes_eq_length, liveNodes_eq_length]
    omega
  effectsRight := by
    intro m node hm
    obtain ⟨hnot, hm⟩ := hs.get?_eq_some_iff.mp hm
    have heq : s.joinEffects node.children = r.joinEffects node.children :=
      joinEffects_congr fun c hc => by
        obtain ⟨slot, hslot⟩ := hasChild_of_mem hm hc
        have hl := h.down m slot c hslot
        have hout := mt (h.mem_nodes_iff_of_linksTo ht hf hl).mp hnot
        rw [storedEffects, storedEffects, hs.get?_of_notMem hout]
    rw [heq]
    exact h.effectsRight m node hm

/-- Releasing one of several free trees leaves the others as they are. -/
theorem Supplies.release (hr : r.Sound) {t : Tree} {others : List Tree}
    (hsup : r.Supplies (t :: others)) :
    (r.release t.id).Sound ∧ (r.release t.id).Supplies others := by
  have hmem : t ∈ t :: others := List.mem_cons_self ..
  have ht : r.Shows t.id t := hsup.shows t hmem
  have hrelease := hr.releases_release ht
  have hout : ∀ u ∈ others, ∀ m ∈ u.nodes, m ∉ t.nodes := fun u hu =>
    hsup.disjoint hr hmem (List.mem_cons_of_mem t hu) (hsup.id_ne hu)
  have hsound := hr.of_releases ht (hsup.free_of_mem hmem) hrelease
  refine ⟨hsound, (hsup.sublist (List.sublist_cons_self t others)).of_bare_eq hr hsound ?_⟩
  intro u hu m hm
  rw [bare, hrelease.get?_of_notMem (hout u hu m hm), bare]

end StackTree.Routine

namespace StackTree

open Runs

variable {r : Routine}

/-- A free node goes with its tree. -/
theorem discard_ok {n : NodeId} (hf : r.Free n) : discard n r = .ok () (r.release n) := by
  obtain ⟨node, hn, hp⟩ := hf
  have hparent : r.parent n = .ok none := by simp [Routine.parent, Routine.node_of_get? hn, hp]
  simp [discard, run_bind, hparent]

/-- Why a release is refused; the second reason counts only where the first does not apply. -/
inductive Routine.RefusesDiscard (r : Routine) (n : NodeId) : Fault → Prop where
  /-- The node does not exist. -/
  | gone (gone : r.get? n = none) : RefusesDiscard r n (.released n)
  /-- The node hangs somewhere. -/
  | attached {link : Link} (linked : r.LinksTo n link) :
      RefusesDiscard r n (.stillAttached n link.parent)

/-- A release is refused, or the node is free. -/
theorem Routine.refusesDiscard_or (r : Routine) (n : NodeId) :
    (∃ fault, r.RefusesDiscard n fault) ∨ r.Free n := by
  cases hn : r.get? n with
  | none => exact Or.inl ⟨_, .gone hn⟩
  | some node =>
    cases hp : node.parent with
    | none => exact Or.inr ⟨node, hn, hp⟩
    | some link => exact Or.inl ⟨_, .attached ⟨node, hn, hp⟩⟩

/-- A refused release changes nothing. -/
theorem discard_of_refuses {n : NodeId} {fault : Fault} (h : r.RefusesDiscard n fault) :
    discard n r = .error fault r := by
  unfold discard
  cases h with
  | gone gone => simp [run_bind, Routine.parent, Routine.node_of_none gone, Functor.map, Except.map]
  | attached linked =>
    obtain ⟨node, hn, hp⟩ := linked
    simp [run_bind, Routine.parent, Routine.node_of_get? hn, hp]

/-- Discarding fails and changes nothing, or removes a free node with its tree. -/
theorem discard_cases (n : NodeId) (r : Routine) :
    (∃ fault, discard n r = .error fault r) ∨
      (r.Free n ∧ discard n r = .ok () (r.release n)) := by
  rcases r.refusesDiscard_or n with ⟨fault, hrefuses⟩ | hfree
  · exact Or.inl ⟨fault, discard_of_refuses hrefuses⟩
  · exact Or.inr ⟨hfree, discard_ok hfree⟩

variable {p old c : NodeId} {slot : Nat}

/-- Putting a free node into a slot goes well, and the tree that was there is gone. -/
theorem setChild_ok (h : r.Sound) (hf : r.Fits p slot old c) {t : Tree} (ht : r.Shows old t) :
    ∃ s, setChild p slot c r = .ok () s ∧ s.Sound ∧
      (∀ m, s.bare m = if m ∈ t.nodes then none else (r.relink p slot old c).bare m) ∧
      s.nodes.size = r.nodes.size ∧ s.live = r.live - t.nodes.length ∧ s.name = r.name ∧
      s.body = r.body := by
  obtain ⟨q, hrun, hsound, halike⟩ := replaceChild_ok h hf
  have hfree : q.Free old :=
    Routine.free_of_bare_eq (halike.bare_eq old) (hf.free_relink_old h.toStructured)
  have hshows : q.Shows old t := hf.shows_old h hsound halike ht
  have hrelease := hsound.releases_release hshows
  have hne := hf.old_ne_child h.toStructured
  refine ⟨q.release old, ?_, hsound.of_releases hshows hfree hrelease, fun m => ?_, ?_, ?_, ?_, ?_⟩
  · simp [setChild, run_bind, hrun, hne, discard_ok hfree]
  · rw [Routine.bare, hrelease.get?_eq]
    split
    · rfl
    · rw [← halike.bare_eq m, Routine.bare]
  · rw [hrelease.size_eq, halike.size_eq, Routine.Fits.size_relink]
  · rw [hrelease.live_eq, halike.live_eq]
    rfl
  · rw [hrelease.name_eq, halike.name_eq]
    rfl
  · rw [hrelease.body_eq, halike.body_eq]
    rfl

/-- What refuses a replacement refuses it before anything is released as well. -/
theorem setChild_of_refuses (h : r.Structured) {fault : Fault}
    (hrefuses : r.RefusesChild p slot c fault) : setChild p slot c r = .error fault r := by
  rw [setChild, run_bind, replaceChild_of_refuses h hrefuses]

/-- Putting the operand into the slot where it is changes nothing. -/
theorem setChild_same (h : r.Structured) (hc : r.HasChild p slot c) :
    setChild p slot c r = .ok () r := by
  simp [setChild, run_bind, replaceChild_same h hc]

end StackTree
