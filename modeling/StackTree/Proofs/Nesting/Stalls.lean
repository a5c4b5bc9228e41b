import StackTree.Proofs.Nesting.Conservation
import StackTree.Proofs.Nesting.Repetition
import Mathlib.Data.List.Forall2

/-!
# What the report says is what the trees show

An entry that stalls does not stay where it is. It may go back onto the working stack and become an
operand of a later entry, which is finished then although there are pops in it. The report counts
the entries that stalled, and its count is right at the end too: no pop that was left is filled
later on, and no two stalled entries get into one tree. The reason is once more that only the bottom
of the working stack has stack access. Whatever takes that producer is finished (`fill_absorbed`),
so an entry takes over a stalled one or stalls itself, and never does both.

## Main definitions

* `Nest.stalling`: the entries that stall.
* `Nest.Carried`: each of the entries is in a tree of its own that has stack access.
* `Routine.Stalls`: an entry of a sequence that stalls when its turn comes.
* `Routine.Accounts`: the report on a sequence agrees with the new sequence.

## Main results

* `Nest.Carried.step`, `Nest.carried_run`: every entry that stalled is carried by a tree.
* `Nest.no_pops_run`: where nothing stalls no pop is left.
* `Routine.Reachable.nestBlock_accounts`: the report on an accepted sequence is right.
-/

namespace StackTree

namespace Tree

variable {before : Effects} {stack : List Tree} {t : Tree}

/-! ## Where producers go -/

/-- What filling takes off the working stack becomes a part of the filled tree. -/
theorem fill_takes_cases : FillInduction
    (fun t => ∀ before stack, ∃ taken, stack = taken ++ (fill before stack t).stack ∧
      ∀ q ∈ taken, q ∈ (fill before stack t).result.subtrees)
    (fun ts => ∀ earlier before stack, ∃ taken,
      stack = taken ++ (fillAll earlier before stack ts).stack ∧
        ∀ q ∈ taken, q ∈ subtreesAll (fillAll earlier before stack ts).result) where
  pop := by
    intro id before stack
    rcases fill_atop_pop_cases before stack id with heq | ⟨top, rest, rfl, heq⟩
    · rw [heq]
      exact ⟨[], rfl, by simp⟩
    · rw [heq]
      refine ⟨[top], rfl, ?_⟩
      rw [List.forall_mem_singleton]
      exact top.mem_subtrees
  peek := by
    intro id before stack
    rw [fill_atop_peek]
    exact ⟨[], rfl, by simp⟩
  leaf := by
    intro id kind hk hpop hpeek before stack
    rw [fill_atop_leaf hk hpop hpeek]
    exact ⟨[], rfl, by simp⟩
  composite := by
    intro id kind cs hk _ ih before stack
    obtain ⟨taken, hstack, htaken⟩ := ih ∅ before stack
    rw [fill_atop hk]
    exact ⟨taken, hstack, fun q hq => List.mem_append_left _ (htaken q hq)⟩
  nil := by
    intro earlier before stack
    rw [fillAll_nil]
    exact ⟨[], rfl, by simp⟩
  cons := by
    intro t ts _ _ iht ihts earlier before stack
    obtain ⟨taken, hstack, htaken⟩ := ihts (earlier ∪ t.effects) before stack
    rw [fillAll_cons]
    generalize fillAll (earlier ∪ t.effects) before stack ts = later at *
    rcases fillFirst_stays_or_fills earlier before t later with ⟨_, heq, -⟩ | ⟨-, -, heq⟩
    · rw [heq]
      exact ⟨taken, hstack, fun q hq => List.mem_append_right _ (htaken q hq)⟩
    · obtain ⟨more, hmore, hfirst⟩ := iht (before ∪ earlier.withoutStackAccess) later.stack
      rw [heq]
      refine ⟨taken ++ more, ?_, fun q hq => ?_⟩
      · rw [List.append_assoc, ← hmore]
        exact hstack
      · rcases List.mem_append.mp hq with hq | hq
        · exact List.mem_append_right _ (htaken q hq)
        · exact List.mem_append_left _ (hfirst q hq)

/-- What filling takes off the working stack becomes a part of the filled tree. -/
theorem fill_takes (ht : t.Sound) (before : Effects) (stack : List Tree) :
    ∃ taken, stack = taken ++ (fill before stack t).stack ∧
      ∀ q ∈ taken, q ∈ (fill before stack t).result.subtrees :=
  fill_takes_cases.tree t ht before stack

/-- A tree that stalls keeps its name and still has stack access. -/
theorem fill_stalled (ht : t.Sound) (hstack : SoundAll stack) (hs : Shallow stack)
    (h : (fill before stack t).finished = false) :
    (fill before stack t).result.id = t.id ∧
      (fill before stack t).result.effects.hasStackAccess = true := by
  constructor
  · by_cases hk : t.kind = .pop
    · rcases fill_pop_cases before stack hk with ⟨hresult, -, -⟩ | ⟨top, -, -, hfinished, -⟩
      · rw [hresult]
      · rw [hfinished] at h
        cases h
    · exact id_fill hk
  · -- Without stack access it would be finished when it is filled again.
    by_contra haccess
    rw [Bool.not_eq_true] at haccess
    have hagain := fill_again ht hstack hs h
    rw [fill_of_quiet (Sound.fill before stack t hstack ht) haccess] at hagain
    rw [← hagain] at h
    cases h

/-- Nothing that filling takes has stack access, unless it is the bottom of the working stack, and
then the tree is finished. -/
theorem taken_quiet_or_last {taken : List Tree} (ht : t.Sound) (hstack : SoundAll stack)
    (hs : Shallow stack) (h : stack = taken ++ (fill before stack t).stack) :
    AllQuiet taken ∨ ∃ upper last, taken = upper ++ [last] ∧ AllQuiet upper ∧
      last.effects.hasStackAccess = true ∧ (fill before stack t).stack = [] ∧
      (fill before stack t).finished = true := by
  by_cases hleft : (fill before stack t).stack = []
  · rw [hleft, List.append_nil] at h
    subst h
    rcases hs.quiet_or_last with hquiet | ⟨last, hlast, haccess⟩
    · exact Or.inl hquiet
    · right
      have hfinished := (fill_absorbed ht hstack hs hlast haccess hleft).1
      obtain ⟨upper, rfl⟩ := List.getLast?_eq_some_iff.mp hlast
      rw [Shallow, List.dropLast_concat] at hs
      exact ⟨upper, last, rfl, hs, haccess, hleft, hfinished⟩
  · left
    intro q hq
    refine hs q ?_
    rw [h, List.dropLast_append_of_ne_nil hleft]
    exact List.mem_append_left _ hq

end Tree

namespace Nest

open StackTree.Tree (AllQuiet Shallow SoundAll forestNodes)

variable {w : Nest} {t u : Tree} {ts left : List Tree} {finished : Bool} {n : NodeId}
  {marks : List NodeId}

/-! ## The entries that stall -/

/-- The entries that stall, in their order. -/
def stalling (w : Nest) : List Tree → List NodeId
  | [] => []
  | t :: ts =>
    if (t.fill ∅ w.stack).finished then (w.step t).stalling ts
    else t.id :: (w.step t).stalling ts

theorem stalled_step (w : Nest) (t : Tree) :
    (w.step t).stalled = w.stalledAfter (t.fill ∅ w.stack).finished := by
  rw [step, stalled_place, stalledAfter, settleStalled]
  cases (t.fill ∅ w.stack).finished <;> rfl

/-- As many entries are counted as stall. -/
theorem stalled_run (w : Nest) (ts : List Tree) :
    (w.run ts).stalled = w.stalled + (w.stalling ts).length := by
  induction ts generalizing w with
  | nil => rfl
  | cons t ts ih =>
    rw [run_cons, ih, stalled_step, stalledAfter, stalling]
    cases (t.fill ∅ w.stack).finished with
    | true => rfl
    | false =>
      simp only [Bool.false_eq_true, if_false, List.length_cons]
      omega

theorem stalling_sublist (w : Nest) (ts : List Tree) :
    (w.stalling ts).Sublist (ts.map Tree.id) := by
  induction ts generalizing w with
  | nil => exact .refl _
  | cons t ts ih =>
    rw [stalling, List.map_cons]
    split
    · exact (ih _).cons _
    · exact (ih _).cons_cons _

theorem mem_stalling_cons : n ∈ w.stalling (t :: ts) ↔
    (t.id = n ∧ (t.fill ∅ w.stack).finished = false) ∨ n ∈ (w.step t).stalling ts := by
  rw [stalling]
  cases (t.fill ∅ w.stack).finished with
  | true => simp
  | false => simp [eq_comm]

/-- An entry stalls if it is left unfinished after those before it. -/
theorem mem_stalling_iff : n ∈ w.stalling ts ↔ ∃ earlier t later, ts = earlier ++ t :: later ∧
    t.id = n ∧ (t.fill ∅ (w.run earlier).stack).finished = false := by
  induction ts generalizing w with
  | nil => simp [stalling]
  | cons t ts ih =>
    rw [mem_stalling_cons, ih]
    constructor
    · rintro (h | ⟨earlier, u, later, rfl, h⟩)
      · exact ⟨[], t, ts, rfl, h⟩
      · exact ⟨t :: earlier, u, later, rfl, h⟩
    · rintro ⟨earlier, u, later, heq, h⟩
      cases earlier with
      | nil =>
        obtain ⟨rfl, rfl⟩ := List.cons.inj heq
        exact Or.inl h
      | cons first earlier =>
        obtain ⟨rfl, rfl⟩ := List.cons.inj heq
        exact Or.inr ⟨earlier, u, later, rfl, h⟩

/-! ## Where nothing stalls -/

/-- Where nothing stalls no pop is left. -/
theorem no_pops_run (hts : SoundAll ts) (hw : ∀ q ∈ w.trees, q.effects.pops = false)
    (h : w.stalling ts = []) : ∀ q ∈ (w.run ts).trees, q.effects.pops = false := by
  induction ts generalizing w with
  | nil => exact hw
  | cons t ts ih =>
    have hstack : ∀ q ∈ w.stack, q.effects.pops = false := fun q hq =>
      hw q (List.mem_append_left _ hq)
    rw [stalling] at h
    split at h
    · next hfinished =>
      refine ih hts.2 ?_ h
      rw [trees_step, List.forall_mem_cons, List.forall_mem_append]
      refine ⟨Tree.no_pops_cases.tree t hts.1 ∅ w.stack hstack hfinished, fun q hq => ?_,
        fun q hq => hw q (List.mem_append_right _ hq)⟩
      exact hstack q ((Tree.fill_suffix ∅ w.stack t).subset hq)
    · cases h

/-! ## Where stalled entries go -/

/-- The node is in the tree, and the tree has stack access. -/
def CarriedBy (n : NodeId) (t : Tree) : Prop := n ∈ t.nodes ∧ t.effects.hasStackAccess = true

/-- Each of the entries is in a tree of its own that has stack access, the most recent first. -/
def Carried (w : Nest) (marks : List NodeId) : Prop := List.SublistForall₂ CarriedBy marks w.trees

/-- Trees without stack access carry nothing. -/
theorem carried_of_append {taken rest : List Tree} (hquiet : AllQuiet taken)
    (h : List.SublistForall₂ CarriedBy marks (taken ++ rest)) :
    List.SublistForall₂ CarriedBy marks rest := by
  induction taken with
  | nil => exact h
  | cons q taken ih =>
    rw [AllQuiet, List.forall_mem_cons] at hquiet
    apply ih hquiet.2
    cases h with
    | nil => exact .nil
    | cons hq _ =>
      rw [CarriedBy, hquiet.1] at hq
      cases hq.2
    | cons_right h => exact h

/-- What takes over a producer carries what that carried. -/
theorem CarriedBy.of_mem_subtrees {q : Tree} (h : CarriedBy n q) (hu : u.Sound)
    (hq : q ∈ u.subtrees) : CarriedBy n u := by
  refine ⟨Tree.nodes_subset_of_mem_subtrees hq h.1, ?_⟩
  exact Effects.hasStackAccess_of_subset (Tree.effects_subset u hu q hq).2 h.2

/-- The entries that have stalled up to now, the most recent first, after one more. -/
theorem Carried.step (hw : w.Ready) (ht : t.Sound) (h : w.Carried marks) :
    (w.step t).Carried (if (t.fill ∅ w.stack).finished then marks else t.id :: marks) := by
  obtain ⟨taken, hstack, htaken⟩ := Tree.fill_takes ht ∅ w.stack
  have hu := Tree.Sound.fill ∅ w.stack t hw.stack_sound ht
  have hstalled : (t.fill ∅ w.stack).finished = false → _ :=
    Tree.fill_stalled ht hw.stack_sound hw.shallow
  have hcases := Tree.taken_quiet_or_last ht hw.stack_sound hw.shallow hstack
  rw [Carried, trees, hstack, List.append_assoc] at h
  rw [Carried, trees_step]
  generalize t.fill ∅ w.stack = filled at *
  rcases hcases with hquiet | ⟨upper, last, rfl, hquiet, haccess, hempty, hfinished⟩
  · have hrest := carried_of_append hquiet h
    cases hfinished : filled.finished with
    | true => exact .cons_right hrest
    | false =>
      obtain ⟨hid, haccess⟩ := hstalled hfinished
      refine .cons ⟨?_, haccess⟩ hrest
      rw [← hid]
      exact filled.result.id_mem_nodes
  · -- The tree that took the bottom takes its place as a carrier.
    rw [List.append_assoc] at h
    rw [hfinished, hempty]
    have hlast : last ∈ filled.result.subtrees := htaken last (by simp)
    cases carried_of_append hquiet h with
    | nil => exact .nil
    | cons hn hrest =>
      rw [hempty] at hrest
      exact .cons (hn.of_mem_subtrees hu hlast) hrest
    | cons_right hrest =>
      rw [hempty] at hrest
      exact .cons_right hrest

theorem carried_run (hw : w.Ready) (hts : SoundAll ts) (h : w.Carried marks) :
    (w.run ts).Carried ((w.stalling ts).reverse ++ marks) := by
  induction ts generalizing w marks with
  | nil => exact h
  | cons t ts ih =>
    have hstep := ih (hw.step hts.1) hts.2 (h.step hw hts.1)
    rw [run_cons, stalling]
    cases hf : (t.fill ∅ w.stack).finished with
    | true =>
      rw [hf] at hstep
      exact hstep
    | false =>
      rw [hf] at hstep
      simpa using hstep

section Carriers

variable {trees : List Tree}

theorem exists_carrier (h : List.SublistForall₂ CarriedBy marks trees) (hn : n ∈ marks) :
    ∃ t ∈ trees, CarriedBy n t := by
  induction h with
  | nil => cases hn
  | @cons m u marks trees hm _ ih =>
    rcases List.mem_cons.mp hn with rfl | hn
    · exact ⟨u, List.mem_cons_self .., hm⟩
    · obtain ⟨t, ht, hcarried⟩ := ih hn
      exact ⟨t, List.mem_cons_of_mem u ht, hcarried⟩
  | @cons_right u marks trees _ ih =>
    obtain ⟨t, ht, hcarried⟩ := ih hn
    exact ⟨t, List.mem_cons_of_mem u ht, hcarried⟩

/-- As many trees have stack access as carry an entry, or more. -/
theorem length_le_of_carried (h : List.SublistForall₂ CarriedBy marks trees) :
    marks.length ≤ (trees.filter (·.effects.hasStackAccess)).length := by
  induction h with
  | nil => exact Nat.zero_le _
  | cons hm _ ih =>
    rw [List.filter_cons, if_pos hm.2]
    exact Nat.succ_le_succ ih
  | @cons_right u _ trees _ ih =>
    exact Nat.le_trans ih ((List.sublist_cons_self u trees).filter _).length_le

/-- No tree holds two of the entries. -/
theorem eq_of_carried (h : List.SublistForall₂ CarriedBy marks trees)
    (hnodup : (forestNodes trees).Nodup) {m : NodeId} (hm : m ∈ marks) (hn : n ∈ marks)
    (ht : t ∈ trees) (hmt : m ∈ t.nodes) (hnt : n ∈ t.nodes) : m = n := by
  induction h with
  | nil => cases hm
  | @cons k u marks trees hk hrest ih =>
    obtain ⟨-, hlater, hapart⟩ := List.nodup_append.mp hnodup
    have hout : ∀ i ∈ marks, i ∈ forestNodes trees := fun i hi => by
      obtain ⟨v, hv, hiv, -⟩ := exists_carrier hrest hi
      exact Tree.mem_forestNodes.mpr ⟨v, hv, hiv⟩
    rcases List.mem_cons.mp ht with rfl | ht
    · -- The other entries are in other trees.
      have hfirst : ∀ i ∈ t.nodes, i ∈ k :: marks → i = k := by
        intro i hit hi
        rcases List.mem_cons.mp hi with rfl | hi
        · rfl
        · exact absurd rfl (hapart i hit i (hout i hi))
      rw [hfirst m hmt hm, hfirst n hnt hn]
    · have hne : ∀ i ∈ t.nodes, i ∈ k :: marks → i ∈ marks := by
        intro i hit hi
        rcases List.mem_cons.mp hi with rfl | hi
        · exact absurd rfl (hapart i hk.1 i (Tree.mem_forestNodes.mpr ⟨t, ht, hit⟩))
        · exact hi
      exact ih hlater (hne m hmt hm) (hne n hnt hn) ht
  | @cons_right u marks trees hrest ih =>
    obtain ⟨-, hlater, hapart⟩ := List.nodup_append.mp hnodup
    rcases List.mem_cons.mp ht with rfl | ht
    · obtain ⟨v, hv, hmv, -⟩ := exists_carrier hrest hm
      exact absurd rfl (hapart m hmt m (Tree.mem_forestNodes.mpr ⟨v, hv, hmv⟩))
    · exact ih hlater hm hn ht

end Carriers

end Nest

namespace Routine

open Runs
open StackTree.Tree (forestNodes)

variable {r s : Routine} {block : List NodeId} {ts : List Tree} {n : NodeId}

/-- The entry stalls when its turn comes: it is filled after those before it and not finished. -/
def Stalls (r : Routine) (block : List NodeId) (n : NodeId) : Prop :=
  ∃ earlier later done w filled w', block = earlier ++ n :: later ∧
    earlier.foldlM nestEntry ⟨[], 0⟩ ⟨r, []⟩ = .ok done w ∧ fill n ∅ w = .ok filled w' ∧
    filled.finished = false

/-- How an entry is filled after those before it. -/
theorem fill_after_earlier (hr : r.Sound) {earlier later : List Tree} {t : Tree}
    (hsup : r.Supplies (earlier ++ t :: later)) :
    ∃ done w filled w', (earlier.map Tree.id).foldlM nestEntry ⟨[], 0⟩ ⟨r, []⟩ = .ok done w ∧
      fill t.id ∅ w = .ok filled w' ∧
      filled.finished = (t.fill ∅ (Nest.start.run earlier).stack).finished := by
  have hall : r.Supplies (Nest.start.trees ++ (earlier ++ t :: later)) := hsup
  obtain ⟨s, hrun, hnests⟩ := nestEach_eq hr hall
  have horder : ((Nest.start.run earlier).trees ++ t :: later).Perm
      (t :: ((Nest.start.run earlier).stack ++ ((Nest.start.run earlier).settled ++ later))) := by
    rw [Nest.trees, ← List.append_assoc]
    exact List.perm_middle
  obtain ⟨w, -, hfill, -⟩ := fillEntry_eq hnests.sound (hnests.supplies.perm horder)
  exact ⟨_, _, _, _, hrun, hfill, rfl⟩

/-- The entries that stall are those whose trees do. -/
theorem stalls_iff (hr : r.Sound) (hshows : r.ShowsAll block ts) (hsup : r.Supplies ts) :
    r.Stalls block n ↔ n ∈ Nest.start.stalling ts := by
  rw [Nest.mem_stalling_iff]
  constructor
  · rintro ⟨earlier, later, done, w, filled, w', rfl, hrun, hfill, hstalled⟩
    obtain ⟨us, vs, rfl, rfl, hrest⟩ := List.map_eq_append_iff.mp hshows.map_id
    obtain ⟨t, vs, rfl, rfl, rfl⟩ := List.map_eq_cons_iff.mp hrest
    obtain ⟨done', v, filled', v', hrun', hfill', hfinished⟩ := fill_after_earlier hr hsup
    obtain ⟨rfl, rfl⟩ := EStateM.Result.ok.inj (hrun'.symm.trans hrun)
    obtain ⟨rfl, rfl⟩ := EStateM.Result.ok.inj (hfill'.symm.trans hfill)
    exact ⟨us, t, vs, rfl, rfl, hfinished.symm.trans hstalled⟩
  · rintro ⟨us, t, vs, rfl, rfl, hstalled⟩
    obtain ⟨done, w, filled, w', hrun, hfill, hfinished⟩ := fill_after_earlier hr hsup
    refine ⟨us.map Tree.id, vs.map Tree.id, done, w, filled, w', ?_, hrun, hfill,
      hfinished.trans hstalled⟩
    rw [← hshows.map_id, List.map_append, List.map_cons]

/-- The report on a sequence agrees with the new sequence. -/
structure Accounts (r s : Routine) (before after : List NodeId) (report : NestingReport) :
    Prop where
  /-- There is a list of the entries that stalled, and the report says how many they are. -/
  counted : ∃ stalled : List NodeId, stalled.Nodup ∧ stalled.length = report.stalled ∧
    ∀ n, n ∈ stalled ↔ r.Stalls before n
  /-- If the report says that nothing stalled, no pop is under a new entry. -/
  no_pops : report.finished = true → ∀ e ∈ after, ∀ n, s.Under e n → s.kind n ≠ .ok .pop
  /-- If no new entry has stack access, the report says that nothing stalled. -/
  finished : (∀ e ∈ after, (s.storedEffects e).hasStackAccess = false) → report.finished = true
  /-- An entry that stalled is under a new entry that has stack access. -/
  carried : ∀ n, r.Stalls before n →
    ∃ e ∈ after, s.Under e n ∧ (s.storedEffects e).hasStackAccess = true
  /-- No new entry is above two entries that stalled. -/
  apart : ∀ e ∈ after, ∀ m n, r.Stalls before m → r.Stalls before n → s.Under e m → s.Under e n →
    m = n
  /-- At least as many new entries have stack access as entries are said to have stalled. -/
  stalled_le : report.stalled ≤
    (after.filter fun e => (s.storedEffects e).hasStackAccess).length

/-- No pop is under a node that is said to have none. -/
theorem kind_ne_pop_of_under (hr : r.Sound) {t : Tree} (ht : r.Shows t.id t)
    (hpops : t.effects.pops = false) (hn : r.Under t.id n) : r.kind n ≠ .ok .pop := by
  intro hk
  have hsome := (hr.tree_sound ht).pops_iff_exists.mpr (ht.exists_kind_iff.mp ⟨n, hn, hk⟩)
  rw [hpops] at hsome
  cases hsome

/-- The trees of the walk account for its report. -/
theorem Nests.accounts (hr : r.Sound) (hshows : r.ShowsAll block ts) (hsup : r.Supplies ts)
    (h : r.Nests s ts (Nest.start.run ts).output) :
    r.Accounts s block ((Nest.start.run ts).output.map Tree.id)
      ((Nest.start.run ts).report ts.length) := by
  have hsound := hr.trees_sound hshows
  have hshown : ∀ u ∈ (Nest.start.run ts).output, s.Shows u.id u := h.supplies.shows
  have hstalls : ∀ n, n ∈ (Nest.start.stalling ts).reverse ↔ r.Stalls block n := by
    intro n
    rw [List.mem_reverse, stalls_iff hr hshows hsup]
  have hcount : (Nest.start.run ts).stalled = (Nest.start.stalling ts).length := by
    rw [Nest.stalled_run]
    exact Nat.zero_add _
  have hcarried : List.SublistForall₂ Nest.CarriedBy (Nest.start.stalling ts).reverse
      (Nest.start.run ts).trees := by
    have hrun := Nest.carried_run Nest.ready_start hsound List.SublistForall₂.nil
    rwa [List.append_nil] at hrun
  have hnodup : (forestNodes (Nest.start.run ts).trees).Nodup := by
    have hperm := Tree.forestNodes_perm (List.reverse_perm (Nest.start.run ts).trees)
    exact hperm.nodup_iff.mp (h.supplies.forestNodes_nodup h.sound)
  have hstored : ∀ u ∈ (Nest.start.run ts).output, s.storedEffects u.id = u.effects :=
    fun u hu => storedEffects_of_shows (hshown u hu)
  have hmem : ∀ u, u ∈ (Nest.start.run ts).trees ↔ u ∈ (Nest.start.run ts).output := fun u =>
    List.mem_reverse.symm
  have hfinished : ((Nest.start.run ts).report ts.length).finished = true ↔
      Nest.start.stalling ts = [] := by
    rw [← List.length_eq_zero_iff, ← hcount]
    exact beq_iff_eq
  have hdistinct : (Nest.start.stalling ts).reverse.Nodup :=
    List.nodup_reverse.mpr (hsup.free.1.sublist (Nest.stalling_sublist Nest.start ts))
  exact {
    counted := ⟨_, hdistinct, List.length_reverse.trans hcount.symm, hstalls⟩
    no_pops := by
      intro hreport e he n hn
      obtain ⟨u, hu, rfl⟩ := List.mem_map.mp he
      have hpops := Nest.no_pops_run hsound (by simp [Nest.trees, Nest.start])
        (hfinished.mp hreport) u ((hmem u).mpr hu)
      exact kind_ne_pop_of_under h.sound (hshown u hu) hpops hn
    finished := by
      intro hquiet
      rw [hfinished, List.eq_nil_iff_forall_not_mem]
      intro n hn
      obtain ⟨u, hu, -, haccess⟩ := Nest.exists_carrier hcarried (List.mem_reverse.mpr hn)
      have hout := (hmem u).mp hu
      rw [← hstored u hout, hquiet _ (List.mem_map_of_mem hout)] at haccess
      cases haccess
    carried := by
      intro n hn
      obtain ⟨u, hu, hnu, haccess⟩ := Nest.exists_carrier hcarried ((hstalls n).mpr hn)
      have hout := (hmem u).mp hu
      rw [← hstored u hout] at haccess
      exact ⟨u.id, List.mem_map_of_mem hout, (hshown u hout).under hnu, haccess⟩
    apart := by
      intro e he m n hm hn hem hen
      obtain ⟨u, hu, rfl⟩ := List.mem_map.mp he
      have hnodes : ∀ i, s.Under u.id i → i ∈ u.nodes := fun i => (hshown u hu).mem_nodes_iff.mpr
      exact Nest.eq_of_carried hcarried hnodup ((hstalls m).mpr hm) ((hstalls n).mpr hn)
        ((hmem u).mpr hu) (hnodes m hem) (hnodes n hen)
    stalled_le := by
      have hle := Nest.length_le_of_carried hcarried
      rw [List.length_reverse, ← hcount] at hle
      have hfilter : (Nest.start.run ts).output.filter
            ((fun e => (s.storedEffects e).hasStackAccess) ∘ Tree.id) =
          (Nest.start.run ts).output.filter (·.effects.hasStackAccess) :=
        List.filter_congr fun u hu => congrArg Effects.hasStackAccess (hstored u hu)
      rw [List.filter_map, List.length_map, hfilter, Nest.output, List.filter_reverse,
        List.length_reverse]
      exact hle }

/--
The report of nesting tells the truth. Over a reachable routine and an accepted sequence: if the
report says that nothing stalled, no pop is left under a new entry; if no new entry has stack
access, the report says so; and each new entry is above one entry at most that was counted as
stalled. So no more entries are counted than there are new entries with stack access.
-/
theorem Reachable.nestBlock_accounts (h : r.Reachable) {report : NestingReport}
    (hok : (nestBlock r block).result = .ok report) :
    r.Accounts (nestBlock r block).code block (nestBlock r block).block report := by
  have hr := h.sound
  obtain ⟨ts, s, hshows, hsup, hrun, rfl, hnests⟩ := nestBlock_accepted hr hok
  rw [hrun]
  exact hnests.accounts hr hshows hsup

/-- A sum that stalls on a load becomes the operand of a negation, which is finished. The sum is
counted all the same, and the negation is the one entry that has stack access because of it. -/
theorem nestBlock_accounts_after_stall :
    let build : Edit Unit := do
      let called ← alloc (.call "f" true) []
      let _ ← alloc (.binary .add) [called, ← alloc .pop []]
      let _ ← alloc (.load 0) []
      let _ ← alloc (.unary .neg) [← alloc .pop []]
    let r := leftBy (build { name := "main" })
    let nested := nestBlock r [⟨3⟩, ⟨2⟩, ⟨5⟩]
    r.Reachable ∧ nested.result = .ok ⟨3, 2, 1, 1, false⟩ ∧ nested.block = [⟨3⟩, ⟨5⟩] ∧
      r.Accounts nested.code [⟨3⟩, ⟨2⟩, ⟨5⟩] nested.block ⟨3, 2, 1, 1, false⟩ ∧
      ∃ stalled, r.Stalls [⟨3⟩, ⟨2⟩, ⟨5⟩] stalled := by
  intro build r nested
  have hreach : r.Reachable :=
    ⟨"main", Unit, build, .bind (.alloc _ _) fun _ => .bind (.alloc _ _) fun _ =>
      .bind (.alloc _ _) fun _ => .bind (.alloc _ _) fun _ => .bind (.alloc _ _) fun _ =>
        .bind (.alloc _ _) fun _ => .pure _, rfl⟩
  have hok : nested.result = .ok ⟨3, 2, 1, 1, false⟩ := by decide +kernel
  have haccounts := Reachable.nestBlock_accounts hreach hok
  obtain ⟨stalled, -, hlength, hstalls⟩ := haccounts.counted
  obtain ⟨n, rfl⟩ := List.length_eq_one_iff.mp hlength
  exact ⟨hreach, hok, by decide +kernel, haccounts, n, (hstalls n).mp (List.mem_singleton_self n)⟩

end Routine

end StackTree
