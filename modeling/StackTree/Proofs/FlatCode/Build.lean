import StackTree.FlatCode.Basic
import StackTree.Proofs.Ownership.Alloc
import Mathlib.Algebra.Ring.Nat

/-!
# Building flat code

Building valid flat code allocates, entry by entry, the pops that the entry needs and a node over
them. While the arena has room none of this fails, and the trees on the top level are the entries of
the code: a node of the entry's kind over as many pops as the entry takes values.

## Main definitions

* `FlatCode.nodeCount`: how many nodes the routine of some entries has.
* `FlatEntry.Makes`: the tree of an entry.

## Main results

* `alloc_grows`: an allocation over free trees makes one tree of them.
* `FlatCode.build_ok`: valid flat code that fits is built.
-/

namespace StackTree

open Runs
open StackTree.Tree (forestNodes atop)

variable {r s : Routine}

namespace Routine

/-- So many nodes were allocated, and the given trees hang nowhere now. -/
structure Grows (r s : Routine) (count : Nat) (trees : List Tree) : Prop where
  sound : s.Sound
  supplies : s.Supplies trees
  size_eq : s.nodes.size = r.nodes.size + count
  live_eq : s.live = r.live + count
  name_eq : s.name = r.name

theorem Grows.trans {t : Routine} {count more : Nat} {trees last : List Tree}
    (h : r.Grows s count trees) (h' : s.Grows t more last) : r.Grows t (count + more) last where
  sound := h'.sound
  supplies := h'.supplies
  size_eq := by rw [h'.size_eq, h.size_eq, Nat.add_assoc]
  live_eq := by rw [h'.live_eq, h.live_eq, Nat.add_assoc]
  name_eq := h'.name_eq.trans h.name_eq

theorem Grows.perm {count : Nat} {trees others : List Tree} (h : r.Grows s count trees)
    (hp : trees.Perm others) : r.Grows s count others :=
  { h with supplies := h.supplies.perm hp }

/-- A body does not matter to what was allocated. -/
theorem Grows.with_body {count : Nat} {trees : List Tree} (h : r.Grows s count trees)
    (body : List NodeId) : r.Grows { s with body := body } count trees where
  sound := h.sound.with_body body
  supplies := h.supplies.with_body body
  size_eq := h.size_eq
  live_eq := h.live_eq
  name_eq := h.name_eq

variable {kind : Kind} {operands others : List Tree}

/-- The trees that are not operands of a new node stay free. -/
theorem Supplies.graft (hr : r.Sound) {effects : Effects}
    (ha : kind.accepts operands.length = true) (hsup : r.Supplies (operands ++ others))
    (he : effects = kind.intrinsic ∪ r.joinEffects (operands.map Tree.id)) :
    (r.graft kind (operands.map Tree.id) effects).Supplies
      (atop r.nextId kind operands :: others) := by
  have hoperands : r.Supplies operands := hsup.sublist (List.sublist_append_left _ _)
  have hothers : r.Supplies others := hsup.sublist (List.sublist_append_right _ _)
  have hsound := hr.graft (by rwa [List.length_map]) hoperands.free he
  have hnext : ∀ m, r.isLive m = true → m ≠ r.nextId := fun m hm => nextId_ne_of_isLive hm
  have hshows : ∀ u ∈ operands, (r.graft kind (operands.map Tree.id) effects).Shows u.id u := by
    intro u hu
    refine hsound.shows_of_shape hr (hoperands.shows u hu) fun m hm => ?_
    have hne := hnext m ((hoperands.shows u hu).live_of_mem hm)
    obtain ⟨link, hget⟩ := get?_graft_older kind effects hoperands.free hne
    rw [shape, hget, Option.map_map, shape]
    rfl
  have hbare : ∀ u ∈ others, ∀ m ∈ u.nodes,
      (r.graft kind (operands.map Tree.id) effects).bare m = r.bare m := by
    intro u hu m hm
    have hne := hnext m ((hothers.shows u hu).live_of_mem hm)
    rw [bare, get?_graft_of_ne hne (hsup.notMem_ids_of_mem hr hu m hm), bare]
  apply (hothers.of_bare_eq hr hsound hbare).cons
  · exact hsound.shows_atop get?_graft_nextId (showsAll_of_shows hshows)
  · exact ⟨_, get?_graft_nextId, rfl⟩
  · intro hmem
    exact hnext r.nextId (hothers.free.2 r.nextId hmem).isLive rfl

end Routine

variable {kind : Kind} {operands others : List Tree}

/-- An allocation over free trees makes one tree of them. -/
theorem alloc_grows (hr : r.Sound) (ha : kind.accepts operands.length = true)
    (hsup : r.Supplies (operands ++ others)) (hroom : r.nodes.size < Routine.capacity) :
    ∃ n s, alloc kind (operands.map Tree.id) r = .ok n s ∧
      r.Grows s 1 (atop n kind operands :: others) := by
  have hoperands : r.Supplies operands := hsup.sublist (List.sublist_append_left _ _)
  have hlength : kind.accepts (operands.map Tree.id).length = true := by rwa [List.length_map]
  refine ⟨_, _, alloc_ok hlength hoperands.free hroom, hr.graft hlength hoperands.free rfl,
    hsup.graft hr ha rfl, Routine.size_graft, Routine.live_graft, Routine.name_graft⟩

/-- Pops are allocated one after the other. -/
theorem allocPops_grows (count : Nat) (hr : r.Sound) (hsup : r.Supplies others)
    (hroom : r.nodes.size + count ≤ Routine.capacity) :
    ∃ pops s, allocPops count r = .ok (pops.map Tree.id) s ∧ pops.length = count ∧
      (∀ p ∈ pops, p.kind = .pop) ∧ r.Grows s count (pops ++ others) := by
  induction count generalizing r others with
  | zero => exact ⟨[], r, rfl, rfl, nofun, hr, hsup, rfl, rfl, rfl⟩
  | succ count ih =>
    have hnone : Kind.pop.accepts ([] : List Tree).length = true := rfl
    obtain ⟨n, q, hfirst, hgrows⟩ := alloc_grows hr hnone hsup (by omega)
    obtain ⟨pops, s, hrest, hlength, hkind, hgrows'⟩ := ih hgrows.sound hgrows.supplies (by
      rw [hgrows.size_eq]
      omega)
    refine ⟨atop n .pop [] :: pops, s, ?_, ?_, ?_, ?_⟩
    · have hone : alloc .pop [] r = .ok n q := hfirst
      rw [allocPops, run_bind_of_ok hone, run_bind_of_ok hrest]
      rfl
    · rw [List.length_cons, hlength]
    · exact List.forall_mem_cons.mpr ⟨rfl, hkind⟩
    · rw [Nat.add_comm count 1]
      exact (hgrows.trans hgrows').perm List.perm_middle

/-! ## Entries -/

/-- The tree of an entry: its node over as many pops as it takes values. -/
structure FlatEntry.Makes (entry : FlatEntry) (t : Tree) : Prop where
  kind_eq : t.kind = entry.kind
  length_eq : t.children.length = entry.pops
  pops : ∀ c ∈ t.children, c.kind = .pop

theorem FlatEntry.accepts_pops (entry : FlatEntry) : entry.kind.accepts entry.pops = true := by
  cases entry with
  | ret value => cases value <;> rfl
  | _ => rfl

/-- How many nodes the routine of some entries has. -/
def FlatCode.nodeCount (entries : List FlatEntry) : Nat :=
  (entries.map fun entry => 1 + entry.pops).sum

theorem allocEntry_grows (entry : FlatEntry) (hr : r.Sound) (hsup : r.Supplies others)
    (hroom : r.nodes.size + (1 + entry.pops) ≤ Routine.capacity) :
    ∃ t s, allocPending entry.kind entry.pops r = .ok t.id s ∧ entry.Makes t ∧
      r.Grows s (1 + entry.pops) (t :: others) := by
  obtain ⟨pops, q, hpops, hlength, hkind, hgrows⟩ :=
    allocPops_grows entry.pops hr hsup (by omega)
  have haccepts : entry.kind.accepts pops.length = true := by
    rw [hlength]
    exact entry.accepts_pops
  obtain ⟨n, s, hnode, hgrows'⟩ := alloc_grows hgrows.sound haccepts hgrows.supplies (by
    rw [hgrows.size_eq]
    omega)
  refine ⟨atop n entry.kind pops, s, ?_, ⟨rfl, hlength, hkind⟩, ?_⟩
  · rw [allocPending, run_bind_of_ok hpops, hnode]
    rfl
  · rw [Nat.add_comm 1 entry.pops]
    exact hgrows.trans hgrows'

namespace FlatCode

/-- Entries are allocated one after the other. -/
theorem allocEntries_grows {entries : List FlatEntry} (hr : r.Sound) (hsup : r.Supplies others)
    (hroom : r.nodes.size + nodeCount entries ≤ Routine.capacity) :
    ∃ ts s, allocEntries entries r = .ok (ts.map Tree.id) s ∧
      List.Forall₂ FlatEntry.Makes entries ts ∧
      r.Grows s (nodeCount entries) (ts ++ others) := by
  induction entries generalizing r others with
  | nil => exact ⟨[], r, rfl, .nil, hr, hsup, rfl, rfl, rfl⟩
  | cons entry entries ih =>
    have hcount : nodeCount (entry :: entries) = 1 + entry.pops + nodeCount entries := by
      rw [nodeCount, List.map_cons, List.sum_cons]
      rfl
    rw [hcount] at hroom ⊢
    obtain ⟨t, q, hentry, hmakes, hgrows⟩ := allocEntry_grows entry hr hsup (by omega)
    obtain ⟨ts, s, hrest, hmake, hgrows'⟩ := ih hgrows.sound hgrows.supplies (by
      rw [hgrows.size_eq]
      omega)
    refine ⟨t :: ts, s, ?_, .cons hmakes hmake, (hgrows.trans hgrows').perm List.perm_middle⟩
    rw [allocEntries, run_bind_of_ok hentry, run_bind_of_ok hrest]
    rfl

/-- Valid flat code that fits is built, with one tree on the top level for each entry. -/
theorem build_ok {code : FlatCode} (hvalid : code.validate = .ok ())
    (hroom : nodeCount code.entries ≤ Routine.capacity) :
    ∃ r ts, code.build = .ok r ∧
      Routine.Grows { name := code.name } r (nodeCount code.entries) ts ∧
      r.body = ts.map Tree.id ∧ List.Forall₂ FlatEntry.Makes code.entries ts := by
  have hnew : Routine.Sound { name := code.name } := Routine.Sound.new code.name []
  have hnone : Routine.Supplies { name := code.name } [] := ⟨nofun, List.nodup_nil, nofun⟩
  have hfits : ({ name := code.name } : Routine).nodes.size + nodeCount code.entries ≤
      Routine.capacity := by
    show 0 + nodeCount code.entries ≤ _
    omega
  obtain ⟨ts, s, hrun, hmake, hgrows⟩ := allocEntries_grows hnew hnone hfits
  rw [List.append_nil] at hgrows
  refine ⟨{ s with body := ts.map Tree.id }, ts, ?_, hgrows.with_body _, rfl, hmake⟩
  rw [build, hvalid, except_bind_ok, hrun]

end FlatCode

end StackTree
