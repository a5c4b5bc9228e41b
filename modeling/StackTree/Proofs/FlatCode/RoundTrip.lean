import StackTree.Proofs.FlatCode.Build
import StackTree.Proofs.Nesting.Blocks
import StackTree.Proofs.Nesting.Flat

/-!
# Nested flat code is still that flat code

Nesting the routine of flat code changes where its nodes hang and nothing else: read in the order of
evaluation, the pops aside, the nodes of the nested body are the entries of the code. The pops that
are left come before everything that a node evaluates itself, so a machine with a stack that runs the
trees takes the steps of the flat code one by one.

## Main results

* `FlatCode.nestBody_build`: building and nesting valid flat code that fits goes well.
* `FlatCode.flattens_back`: the nested body is the flat code, and it runs like it.
-/

namespace StackTree

open Runs
open StackTree.Tree (work label subtreesAll SoundAll AllTidy Flat runWork)

/-! ## The trees of entries -/

theorem FlatEntry.Makes.label_eq {entry : FlatEntry} {t : Tree} (h : entry.Makes t) :
    t.label = (t.id, entry.kind, entry.pops) := by
  rw [label, h.kind_eq, h.length_eq]

theorem FlatEntry.Makes.flat {entry : FlatEntry} {t : Tree} (h : entry.Makes t) (ht : t.Sound) :
    t.Flat where
  sound := ht
  ne_pop := by
    rw [h.kind_eq]
    cases entry <;> exact nofun
  pops := h.pops

theorem flat_of_makes {entries : List FlatEntry} {ts : List Tree}
    (h : List.Forall₂ FlatEntry.Makes entries ts) (hts : SoundAll ts) : ∀ t ∈ ts, t.Flat := by
  induction h with
  | nil => exact nofun
  | cons hmakes _ ih => exact List.forall_mem_cons.mpr ⟨hmakes.flat hts.1, ih hts.2⟩

/-- The steps of trees that entries make are those of the entries. -/
theorem forM_label {m : Type → Type} [Monad m] [LawfulMonad m] (step : Kind → Nat → m Unit)
    {entries : List FlatEntry} {ts : List Tree} (h : List.Forall₂ FlatEntry.Makes entries ts) :
    ((ts.map label).forM fun (_, kind, operands) => step kind operands) =
      entries.forM fun entry => step entry.kind entry.pops := by
  induction h with
  | nil => rfl
  | cons hmakes _ ih =>
    rw [List.map_cons, hmakes.label_eq]
    simp only [List.forM_eq_forM, List.forM_cons] at ih ⊢
    rw [ih]

namespace FlatCode

variable {code : FlatCode}

/-- Building and nesting valid flat code that fits goes well. -/
theorem nestBody_build (hvalid : code.validate = .ok ())
    (hroom : nodeCount code.entries ≤ Routine.capacity) :
    ∃ r s ts, code.build = .ok r ∧ r.Sound ∧ r.Supplies ts ∧ r.body = ts.map Tree.id ∧
      List.Forall₂ FlatEntry.Makes code.entries ts ∧
      nestBody r = .ok ((Nest.start.run ts).report ts.length) s ∧
      s.body.mapM s.tree = .ok (Nest.start.run ts).output := by
  obtain ⟨r, ts, hbuild, hgrows, hbody, hmake⟩ := build_ok hvalid hroom
  have hr := hgrows.sound
  have hsup := hgrows.supplies
  have hfree : r.AllFree r.body := hbody ▸ hsup.free
  have hshows : r.ShowsAll r.body ts := hbody ▸ hsup.showsAll
  obtain ⟨s, hrun, hnests⟩ := nestBody_eq hr hfree hshows
  refine ⟨r, _, ts, hbuild, hr, hsup, hbody, hmake, hrun, ?_⟩
  have hafter := hnests.supplies.with_body ((Nest.start.run ts).output.map Tree.id)
  exact (hnests.sound.with_body _).mapM_tree hafter.showsAll

theorem childCount_of_shows {r : Routine} {n : NodeId} {t : Tree} (h : r.Shows n t) :
    r.childCount n = .ok t.children.length := by
  cases h with
  | node at_n below =>
    rw [Routine.childCount, Routine.node_of_get? at_n, except_map_ok, below.length_eq]
    rfl

/-- The nodes of a nested body, the pops aside, are in the order of evaluation those of the body
that was built, with their kinds and operand counts. In every node the pops come first and only the
first operand may otherwise have stack access; so a machine with a stack runs the trees as it runs
the flat code, step by step. -/
theorem flattens_back (hvalid : code.validate = .ok ())
    (hroom : nodeCount code.entries ≤ Routine.capacity) :
    ∃ r s report after, code.build = .ok r ∧ nestBody r = .ok report s ∧
      s.body.mapM s.tree = .ok after ∧
      ((subtreesAll after).filter (·.kind ≠ .pop)).map Tree.id = r.body ∧
      (∀ u ∈ subtreesAll after, u.kind ≠ .pop →
        r.kind u.id = .ok u.kind ∧ r.childCount u.id = .ok u.children.length) ∧
      AllTidy after ∧
      ∀ (m : Type → Type) [Monad m] [LawfulMonad m] (step : Kind → Nat → m Unit)
        (misplaced : m Unit), Machine.runAllOn step misplaced after =
          code.entries.forM fun entry => step entry.kind entry.pops := by
  obtain ⟨r, s, ts, hbuild, hr, hsup, hbody, hmake, hrun, hafter⟩ := nestBody_build hvalid hroom
  have hsound : SoundAll ts := hr.trees_sound (Routine.showsAll_of_shows hsup.shows)
  have hflat := flat_of_makes hmake hsound
  have hwork : work (Nest.start.run ts).output = ts.map label := Nest.work_output hflat
  have htidy := Nest.allTidy_output hflat
  refine ⟨r, s, _, _, hbuild, hrun, hafter, ?_, fun u hu hk => ?_, htidy,
    fun m _ _ step misplaced => ?_⟩
  · have hids : ((work (Nest.start.run ts).output).map Prod.fst) = ts.map Tree.id := by
      rw [hwork, List.map_map]
      rfl
    rw [hbody, ← hids, work, List.map_map]
    rfl
  · have hmem : u.label ∈ work (Nest.start.run ts).output :=
      List.mem_map_of_mem (List.mem_filter.mpr ⟨hu, decide_eq_true hk⟩)
    rw [hwork] at hmem
    obtain ⟨t, ht, hlabel⟩ := List.mem_map.mp hmem
    simp only [label, Prod.mk.injEq] at hlabel
    obtain ⟨hid, hkind, hcount⟩ := hlabel
    have hshows := hsup.shows t ht
    rw [← hid, ← hkind, ← hcount]
    exact ⟨Routine.kind_of_shows hshows, childCount_of_shows hshows⟩
  · rw [Tree.runAllOn_eq step misplaced (Nest.sound_output hsound) htidy, runWork, hwork]
    exact forM_label step hmake

/-- A square less three is stored by the same steps of a stack machine after nesting. -/
theorem flattens_back_square :
    let code : FlatCode :=
      ⟨"main", [.const 7, .peek, .binary .mul, .const 3, .binary .sub, .store 0]⟩
    code.validate = .ok () ∧ nodeCount code.entries ≤ Routine.capacity ∧
      ∃ r s report after, code.build = .ok r ∧ nestBody r = .ok report s ∧
        s.body.mapM s.tree = .ok after ∧ AllTidy after ∧
        ∀ host : Machine.Host,
          Machine.runAllOn (Machine.stackStep host) (throw .underflow) after =
            code.entries.forM fun entry => Machine.stackStep host entry.kind entry.pops := by
  intro code
  have hvalid : code.validate = .ok () := rfl
  have hroom : nodeCount code.entries ≤ Routine.capacity := by decide
  obtain ⟨r, s, report, after, hbuild, hrun, hafter, -, -, htidy, hsteps⟩ :=
    flattens_back hvalid hroom
  exact ⟨hvalid, hroom, r, s, report, after, hbuild, hrun, hafter, htidy, fun host =>
    hsteps _ (Machine.stackStep host) (throw .underflow)⟩

end FlatCode

end StackTree
