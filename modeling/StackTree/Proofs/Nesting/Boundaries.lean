import StackTree.Proofs.Nesting.Conservation
import StackTree.Proofs.Nesting.Repetition

/-!
# Nesting from statement to statement

An entry that leaves no value settles everything on the working stack, whether it is finished or
stalls. After it the walk has nothing in its hands but the entries that it has put behind it, and
those it never looks at again (`nestEntry_after`). So a sequence can be cut after such an entry, and
its two parts nested one after the other.

## Main definitions

* `Settled.after`: what two walks, one after the other, have put behind them.

## Main results

* `nestEntries_append`: a walk that comes to an empty working stack starts over.
* `Routine.Reachable.nestBlock_append`: nesting a sequence is nesting the part up to an entry
  without a value, and then the rest.
-/

namespace StackTree

open Runs

/-! ## What is settled stays as it is -/

/-- What a walk has put behind it, where another one has put something behind it before. -/
def Settled.after (later earlier : Settled) : Settled where
  entries := later.entries ++ earlier.entries
  stalled := later.stalled + earlier.stalled

theorem Settled.nil_after (done : Settled) : (⟨[], 0⟩ : Settled).after done = done := by
  simp [Settled.after]

/-- The counts of two walks add up, as long as neither settles more entries than it goes over. -/
theorem Settled.report_after {later earlier : Settled} {n m : Nat}
    (hn : earlier.entries.length ≤ n) (hm : later.entries.length ≤ m) :
    (later.after earlier).report (n + m) = {
      entriesBefore := (earlier.report n).entriesBefore + (later.report m).entriesBefore
      entriesAfter := (earlier.report n).entriesAfter + (later.report m).entriesAfter
      consumed := (earlier.report n).consumed + (later.report m).consumed
      stalled := (earlier.report n).stalled + (later.report m).stalled
      finished := (earlier.report n).finished && (later.report m).finished } := by
  have hfinished : (later.stalled + earlier.stalled == 0) =
      (earlier.stalled == 0 && later.stalled == 0) := by
    rw [Bool.eq_iff_iff]
    simp only [beq_iff_eq, Bool.and_eq_true]
    omega
  simp only [Settled.report, Settled.after, List.length_append, NestingReport.mk.injEq]
  exact ⟨trivial, Nat.add_comm .., by omega, Nat.add_comm .., hfinished⟩

theorem settleStack_after (done earlier : Settled) :
    settleStack (done.after earlier) = (·.after earlier) <$> settleStack done := by
  funext w
  simp [settleStack, Settled.after]

theorem settleStalled_after (done earlier : Settled) (finished : Bool) :
    settleStalled (done.after earlier) finished =
      (·.after earlier) <$> settleStalled done finished := by
  cases finished with
  | true => simp [settleStalled]
  | false =>
    have hcount : (⟨(done.after earlier).entries, (done.after earlier).stalled + 1⟩ : Settled) =
        Settled.after ⟨done.entries, done.stalled + 1⟩ earlier := by
      simp only [Settled.after, Settled.mk.injEq, true_and]
      omega
    simp only [settleStalled, Bool.false_eq_true, if_false]
    rw [hcount, settleStack_after]

theorem placeEntry_after (done earlier : Settled) (n : NodeId) :
    placeEntry (done.after earlier) n = (·.after earlier) <$> placeEntry done n := by
  rw [placeEntry, placeEntry, map_bind]
  congr 1
  funext produces
  cases produces with
  | true => simp
  | false =>
    simp only [Bool.false_eq_true, if_false]
    rw [settleStack_after]
    simp [Settled.after]

/-- What was settled before an entry makes no difference to it. -/
theorem nestEntry_after (done earlier : Settled) (n : NodeId) :
    nestEntry (done.after earlier) n = (·.after earlier) <$> nestEntry done n := by
  simp only [nestEntry, settleStalled_after, placeEntry_after, map_bind, bind_map_left]

theorem foldlM_nestEntry_after (entries : List NodeId) (done earlier : Settled) :
    entries.foldlM nestEntry (done.after earlier) =
      (·.after earlier) <$> entries.foldlM nestEntry done := by
  induction entries generalizing done with
  | nil => simp
  | cons n rest ih => simp only [List.foldlM_cons, nestEntry_after, bind_map_left, ih, map_bind]

/-- A walk that comes to an empty working stack starts over with the rest. -/
theorem nestEntries_append {first : List NodeId} {done : Settled} {v w : Workspace}
    (h : first.foldlM nestEntry ⟨[], 0⟩ v = .ok done w) (hempty : w.stack = [])
    (second : List NodeId) :
    nestEntries first v = .ok done w ∧
      nestEntries (first ++ second) v = ((·.after done) <$> nestEntries second) w := by
  obtain ⟨code, stack⟩ := w
  obtain rfl : stack = [] := hempty
  constructor
  · rw [nestEntries, run_bind_of_ok h]
    rfl
  · have hrest := foldlM_nestEntry_after second ⟨[], 0⟩ done
    rw [Settled.nil_after] at hrest
    rw [nestEntries, nestEntries, List.foldlM_append, bind_assoc, run_bind_of_ok h, hrest,
      bind_map_left, map_bind]
    simp only [settleStack_after]

/-! ## An entry without a value -/

/-- An entry without a value leaves nothing on the working stack. -/
theorem Nest.stack_step_of_void {t : Tree} (h : t.kind.producesValue = false) (w : Nest) :
    (w.step t).stack = [] := by
  have hpop : t.kind ≠ .pop := by
    intro hk
    rw [hk] at h
    cases h
  have hvalue : (t.fill ∅ w.stack).result.kind.producesValue = false := by
    rw [Tree.kind_fill hpop, h]
  rw [step_statement rfl hvalue]

namespace Routine

variable {r s : Routine}

/-- After free nodes of which the last leaves no value the working stack is empty, and free nodes
that come later are still free. -/
theorem nestEach_of_void (hr : r.Sound) {first second : List NodeId} {last : NodeId}
    (hfree : r.AllFree (first ++ [last] ++ second)) (hvoid : r.producesValue last = .ok false) :
    ∃ done s, (first ++ [last]).foldlM nestEntry ⟨[], 0⟩ ⟨r, []⟩ = .ok done ⟨s, []⟩ ∧ s.Sound ∧
      s.AllFree second := by
  obtain ⟨all, hshows⟩ := hr.exists_showsAll hfree
  have hsup := hshows.supplies hfree
  obtain ⟨upto, us, rfl, hupto, rfl⟩ := List.map_eq_append_iff.mp hshows.map_id
  obtain ⟨ts, ls, rfl, -, hlast⟩ := List.map_eq_append_iff.mp hupto
  obtain ⟨t, rfl, rfl⟩ := List.map_eq_singleton_iff.mp hlast
  have hkind : t.kind.producesValue = false := by
    rw [producesValue_of_shows (hsup.shows t (by simp))] at hvoid
    exact Except.ok.inj hvoid
  have hall : r.Supplies (Nest.start.trees ++ ((ts ++ [t]) ++ us)) := hsup
  obtain ⟨s, hrun, hnests⟩ := nestEach_eq hr hall
  have hempty : (Nest.start.run (ts ++ [t])).stack = [] := by
    rw [Nest.run_append]
    exact Nest.stack_step_of_void hkind _
  rw [hempty, hupto] at hrun
  exact ⟨_, s, hrun, hnests.sound,
    (hnests.supplies.sublist (List.sublist_append_right _ us)).free⟩

/-- Free nodes are nested without a fault, and they do not become more. -/
theorem nestEntries_of_free (hr : r.Sound) {block : List NodeId} (hfree : r.AllFree block) :
    ∃ done w, nestEntries block ⟨r, []⟩ = .ok done w ∧ done.entries.length ≤ block.length := by
  obtain ⟨ts, hts⟩ := hr.exists_showsAll hfree
  obtain ⟨s, hrun, -⟩ := nestEntries_eq hr (hts.supplies hfree)
  have hentries : ((Nest.start.run ts).output.map Tree.id).Sublist (ts.map Tree.id) :=
    keptByPulls_entries.run Nest.ready_start (hr.trees_sound hts)
  have hless := hentries.length_le
  rw [hts.map_id, Nest.output, List.map_reverse, List.length_reverse] at hless
  rw [hts.map_id] at hrun
  exact ⟨_, _, hrun, hless⟩

/-- What nesting comes to is what the walk over the entries comes to. -/
theorem nestBlock_of_run {block : List NodeId} {done : Settled} {w : Workspace}
    (hfree : r.AllFree block) (hrun : nestEntries block ⟨r, []⟩ = .ok done w) :
    nestBlock r block = ⟨w.code, done.entries.reverse, .ok (done.report block.length)⟩ := by
  rw [nestBlock, checkFree_of_free hfree]
  simp only [hrun]

/--
Nesting is modular at statements. Over a reachable routine, take an accepted sequence and cut it
after an entry that leaves no value. Nesting the first part and then, in the routine that this
leaves, the second part succeeds, and it comes to the same routine and the same new sequence as
nesting the whole. The counts of the two reports add up, and the whole is finished if both parts
are.
-/
theorem Reachable.nestBlock_append (h : r.Reachable) {first second : List NodeId} {last : NodeId}
    {report : NestingReport} (hvoid : r.producesValue last = .ok false)
    (hok : (nestBlock r (first ++ [last] ++ second)).result = .ok report) :
    let one := nestBlock r (first ++ [last])
    let two := nestBlock one.code second
    ∃ a b, one.result = .ok a ∧ two.result = .ok b ∧
      nestBlock r (first ++ [last] ++ second) = {
        code := two.code
        block := one.block ++ two.block
        result := .ok {
          entriesBefore := a.entriesBefore + b.entriesBefore
          entriesAfter := a.entriesAfter + b.entriesAfter
          consumed := a.consumed + b.consumed
          stalled := a.stalled + b.stalled
          finished := a.finished && b.finished } } := by
  have hr := h.sound
  obtain ⟨ts, -, hshows, hsup, -⟩ := nestBlock_accepted hr hok
  have hfree : r.AllFree (first ++ [last] ++ second) := hshows.map_id ▸ hsup.free
  obtain ⟨done, s, hfold, hs, hrest⟩ := nestEach_of_void hr hfree hvoid
  have hfreeFirst : r.AllFree (first ++ [last]) := hfree.sublist (List.sublist_append_left ..)
  obtain ⟨hfirst, hwhole⟩ := nestEntries_append hfold rfl second
  obtain ⟨_, _, hfirst', hless⟩ := nestEntries_of_free hr hfreeFirst
  obtain ⟨rfl, rfl⟩ := EStateM.Result.ok.inj (hfirst'.symm.trans hfirst)
  obtain ⟨done', w, hsecond, hless'⟩ := nestEntries_of_free hs hrest
  rw [run_map, hsecond] at hwhole
  have hone := nestBlock_of_run hfreeFirst hfirst
  have htwo := nestBlock_of_run hrest hsecond
  have hall := nestBlock_of_run hfree hwhole
  rw [List.length_append, Settled.report_after hless hless'] at hall
  simp only [hone, htwo, hall]
  refine ⟨_, _, rfl, rfl, ?_⟩
  rw [BlockOutcome.mk.injEq]
  exact ⟨rfl, List.reverse_append, rfl⟩

/-- A constant stays on the working stack under one that a statement takes, and is settled before
it. The negation that comes next finds nothing there and stalls, alone as well as in the whole. -/
theorem nestBlock_append_at_store :
    let build : Edit Unit := do
      let _ ← alloc (.const 5) []
      let _ ← alloc (.const 6) []
      let _ ← alloc (.store 0) [← alloc .pop []]
      let _ ← alloc (.unary .neg) [← alloc .pop []]
    let r := leftBy (build { name := "main" })
    let one := nestBlock r [⟨0⟩, ⟨1⟩, ⟨3⟩]
    let two := nestBlock one.code [⟨5⟩]
    r.Reachable ∧ one.result = .ok ⟨3, 2, 1, 0, true⟩ ∧ two.result = .ok ⟨1, 1, 0, 1, false⟩ ∧
      nestBlock r [⟨0⟩, ⟨1⟩, ⟨3⟩, ⟨5⟩] =
        ⟨two.code, one.block ++ two.block, .ok ⟨4, 3, 1, 1, false⟩⟩ := by
  intro build r one two
  have hreach : r.Reachable :=
    ⟨"main", Unit, build, .bind (.alloc _ _) fun _ => .bind (.alloc _ _) fun _ =>
      .bind (.alloc _ _) fun _ => .bind (.alloc _ _) fun _ => .bind (.alloc _ _) fun _ =>
        .bind (.alloc _ _) fun _ => .pure _, rfl⟩
  have hone : one.result = .ok ⟨3, 2, 1, 0, true⟩ := by decide +kernel
  have htwo : two.result = .ok ⟨1, 1, 0, 1, false⟩ := by decide +kernel
  have hok : (nestBlock r ([⟨0⟩, ⟨1⟩] ++ [⟨3⟩] ++ [⟨5⟩])).result = .ok ⟨4, 3, 1, 1, false⟩ := by
    decide +kernel
  have hvoid : r.producesValue ⟨3⟩ = .ok false := by decide +kernel
  obtain ⟨a, b, ha, hb, hwhole⟩ := Reachable.nestBlock_append hreach hvoid hok
  obtain rfl := Except.ok.inj (ha.symm.trans hone)
  obtain rfl := Except.ok.inj (hb.symm.trans htwo)
  exact ⟨hreach, hone, htwo, hwhole⟩

end Routine

end StackTree
