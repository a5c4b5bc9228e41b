import StackTree.Proofs.Nesting.Stalls

/-!
# What holds of the working stack

Between two entries of a sequence the working stack, the settled entries and the entries to come are
free nodes, each listed once; what is on the working stack leaves a value; and only its bottom may
have a pop or a peek under it. The last of these is what the rules for operands rely on. An operand
waits for the stack access of the producers within its reach, and what is evaluated before an
operand is summed up without its stack access; both would be wrong if a producer further up had a
pop left.

## Main definitions

* `Routine.Underway`: what holds between two entries.

## Main results

* `Routine.underway_of_ready`: it holds wherever the walk over the trees is ready for the next one.
* `Routine.Reachable.nestBlock_underway`: it holds all the way through an accepted sequence.
-/

namespace StackTree

namespace Routine

open StackTree.Tree (SoundAll)

variable {r s : Routine} {block : List NodeId}

/-- What holds between two entries of the working stack and of the settled entries, both with the
most recent first, and of the entries to come. -/
structure Underway (s : Routine) (stack settled rest : List NodeId) : Prop where
  /-- The nodes are live and hang nowhere, and none is listed twice. -/
  free : s.AllFree (stack ++ settled ++ rest)
  /-- What is on the working stack leaves a value. -/
  produces : ∀ n ∈ stack, s.producesValue n = .ok true
  /-- What is above the bottom of the working stack is said to have no stack access. -/
  quiet : ∀ n ∈ stack.dropLast, ∃ effects, s.effects n = .ok effects ∧
    effects.hasStackAccess = false
  /-- No pop and no peek is under what is above the bottom of the working stack. -/
  resolved : ∀ n ∈ stack.dropLast, ∀ m, s.Under n m → s.kind m ≠ .ok .pop ∧ s.kind m ≠ .ok .peek

/-- Neither a pop nor a peek is under a node that is said to have no stack access. -/
theorem kind_ne_of_quiet (hs : s.Sound) {t : Tree} (ht : s.Shows t.id t)
    (hquiet : t.effects.hasStackAccess = false) {m : NodeId} (hm : s.Under t.id m) :
    s.kind m ≠ .ok .pop ∧ s.kind m ≠ .ok .peek := by
  obtain ⟨hpeeks, hpops⟩ := Effects.hasStackAccess_eq_false_iff.mp hquiet
  refine ⟨kind_ne_pop_of_under hs ht hpops hm, fun hk => ?_⟩
  have hsome := (hs.tree_sound ht).peeks_iff_exists.mpr (ht.exists_kind_iff.mp ⟨m, hm, hk⟩)
  rw [hpeeks] at hsome
  cases hsome

/-- Where the walk over the trees is ready for the next one, the routine is underway. -/
theorem underway_of_ready (hs : s.Sound) {w : Nest} {rest : List Tree} (hw : w.Ready)
    (hsup : s.Supplies (w.trees ++ rest)) :
    s.Underway (w.stack.map Tree.id) (w.settled.map Tree.id) (rest.map Tree.id) := by
  have hshown : ∀ q ∈ w.stack, s.Shows q.id q := fun q hq =>
    hsup.shows q (List.mem_append_left _ (List.mem_append_left _ hq))
  have hupper : ∀ n ∈ (w.stack.map Tree.id).dropLast,
      ∃ q, s.Shows q.id q ∧ q.effects.hasStackAccess = false ∧ q.id = n := by
    intro n hn
    rw [← List.map_dropLast] at hn
    obtain ⟨q, hq, rfl⟩ := List.mem_map.mp hn
    exact ⟨q, hshown q (List.dropLast_subset _ hq), hw.shallow q hq, rfl⟩
  constructor
  · have hfree := hsup.free
    rwa [List.map_append, Nest.trees, List.map_append] at hfree
  · intro n hn
    obtain ⟨q, hq, rfl⟩ := List.mem_map.mp hn
    rw [producesValue_of_shows (hshown q hq), hw.produces q hq]
  · intro n hn
    obtain ⟨q, hq, hquiet, rfl⟩ := hupper n hn
    exact ⟨q.effects, effects_of_shows hq, hquiet⟩
  · intro n hn m hm
    obtain ⟨q, hq, hquiet, rfl⟩ := hupper n hn
    exact kind_ne_of_quiet hs hq hquiet hm

/--
All the way through an accepted sequence over a reachable routine, wherever the entries are parted
into those that were nested and those to come: the working stack, the settled entries and the
entries to come are live, hang nowhere and are listed once; what is on the working stack leaves a
value; and neither a pop nor a peek is left above its bottom.
-/
theorem Reachable.nestBlock_underway (h : r.Reachable) {report : NestingReport}
    (hok : (nestBlock r block).result = .ok report) :
    ∀ earlier later, block = earlier ++ later →
      ∃ done w, earlier.foldlM nestEntry ⟨[], 0⟩ ⟨r, []⟩ = .ok done w ∧
        w.code.Underway w.stack done.entries later := by
  have hr := h.sound
  obtain ⟨ts, -, hshows, hsup, -⟩ := nestBlock_accepted hr hok
  intro earlier later hsplit
  obtain ⟨us, vs, rfl, rfl, rfl⟩ := List.map_eq_append_iff.mp (hshows.map_id.trans hsplit)
  have hsound : SoundAll us := (Tree.soundAll_append.mp (hr.trees_sound hshows)).1
  obtain ⟨s, hrun, hnests⟩ := nestEach_eq hr (w := Nest.start) hsup
  exact ⟨_, _, hrun, underway_of_ready hnests.sound (Nest.ready_run Nest.ready_start hsound)
    hnests.supplies⟩

/-- A sum that stalls on a load stays at the bottom of the working stack with its pop, and a constant
comes on top of it; the load is settled, and a negation is still to come. -/
theorem nestBlock_underway_after_stall :
    let build : Edit Unit := do
      let called ← alloc (.call "f" true) []
      let _ ← alloc (.binary .add) [called, ← alloc .pop []]
      let _ ← alloc (.load 0) []
      let _ ← alloc (.const 7) []
      let _ ← alloc (.unary .neg) [← alloc .pop []]
    let r := leftBy (build { name := "main" })
    r.Reachable ∧ (nestBlock r [⟨3⟩, ⟨2⟩, ⟨4⟩, ⟨6⟩]).result = .ok ⟨4, 3, 1, 1, false⟩ ∧
      ∃ done w, [(⟨3⟩ : NodeId), ⟨2⟩, ⟨4⟩].foldlM nestEntry ⟨[], 0⟩ ⟨r, []⟩ = .ok done w ∧
        w.stack = [⟨4⟩, ⟨2⟩] ∧ done.entries = [⟨3⟩] ∧
        (w.code.storedEffects ⟨2⟩).hasStackAccess = true ∧
        w.code.Underway w.stack done.entries [⟨6⟩] := by
  intro build r
  have hreach : r.Reachable :=
    ⟨"main", Unit, build, .bind (.alloc _ _) fun _ => .bind (.alloc _ _) fun _ =>
      .bind (.alloc _ _) fun _ => .bind (.alloc _ _) fun _ => .bind (.alloc _ _) fun _ =>
        .bind (.alloc _ _) fun _ => .bind (.alloc _ _) fun _ => .pure _, rfl⟩
  have hok : (nestBlock r [⟨3⟩, ⟨2⟩, ⟨4⟩, ⟨6⟩]).result = .ok ⟨4, 3, 1, 1, false⟩ := by
    decide +kernel
  let run : Fill Settled := [⟨3⟩, ⟨2⟩, ⟨4⟩].foldlM nestEntry ⟨[], 0⟩
  obtain ⟨done, w, hrun, hunderway⟩ : ∃ done w, run ⟨r, []⟩ = .ok done w ∧
      w.code.Underway w.stack done.entries [⟨6⟩] :=
    Reachable.nestBlock_underway hreach hok [⟨3⟩, ⟨2⟩, ⟨4⟩] [⟨6⟩] rfl
  have hstack : (stateAfter (run ⟨r, []⟩)).stack = [⟨4⟩, ⟨2⟩] := by decide +kernel
  have hentries : (run.run' ⟨r, []⟩).map (·.entries) = some [⟨3⟩] := by decide +kernel
  have haccess : ((stateAfter (run ⟨r, []⟩)).code.storedEffects ⟨2⟩).hasStackAccess = true := by
    decide +kernel
  rw [hrun] at hstack haccess
  delta EStateM.run' EStateM.run at hentries
  rw [hrun] at hentries
  exact ⟨hreach, hok, done, w, hrun, hstack, Option.some.inj hentries, haccess,
    hunderway⟩

end Routine

end StackTree
