import StackTree.Proofs.Nesting.Acceptance
import StackTree.Proofs.Nesting.Pulls

/-!
# Nesting twice is nesting once

A second walk over the new sequence finds other working stacks than the first: what a stalled entry
settled is pushed again, and a tree that stalled may by then be part of a larger one that had
finished. Each reason to stall persists all the same.

* A tree that stalled stalls again on what it left (`Tree.fill_again`).
* A tree with stack access that went into a larger one was the last producer. Nothing else in the
  larger tree has stack access, so filling it comes down to filling the smaller one
  (`Tree.fill_absorbed`), and what stalls with nothing before it stalls with more before it
  (`Tree.inert_of_fill`).
* From an empty working stack nothing is filled, and a tree is finished if it has no pops
  (`Tree.fill_nil`).

So after every entry the second walk over what is settled has changed nothing, and the bottom of the
first walk's working stack waits in it (`Nest.Repeats`). A sound routine follows from what its nodes
do and from their operands, so an unchanged sequence of trees means an unchanged routine.

## Main definitions

* `Tree.Inert`, `Nest.Waits`: filling a tree changes nothing.
* `Nest.Repeats`: the second walk over what the first has settled changes nothing.

## Main results

* `Nest.run_output`: a second walk ends like the first.
* `Routine.Reachable.nestBlock_idempotent`: nesting an accepted sequence again changes nothing.
-/

namespace StackTree

namespace Tree

variable {before more earlier : Effects} {stack left : List Tree} {t : Tree} {ts : List Tree}

/-! ## Filling without stack access and without producers -/

/-- Operands without stack access are left as they are. -/
theorem fillAll_of_quiet (h : (effectsAll ts).hasStackAccess = false) :
    fillAll earlier before stack ts = ⟨ts, stack, true⟩ := by
  induction ts generalizing earlier with
  | nil => exact fillAll_nil
  | cons t ts ih =>
    rw [effectsAll, Effects.hasStackAccess_union, Bool.or_eq_false_iff] at h
    rw [fillAll_cons, ih h.2, fillFirst_of_quiet h.1]

/-- A tree without stack access is left as it is. -/
theorem fill_of_quiet (ht : t.Sound) (h : t.effects.hasStackAccess = false) :
    fill before stack t = ⟨t, stack, true⟩ := by
  suffices hcases : FillInduction
      (fun t => t.effects.hasStackAccess = false → fill before stack t = ⟨t, stack, true⟩)
      (fun _ => True) from hcases.tree t ht h
  constructor
  case pop =>
    intro id hquiet
    cases hquiet
  case peek =>
    intro id hquiet
    cases hquiet
  case leaf => exact fun id kind hk hpop hpeek _ => fill_atop_leaf hk hpop hpeek
  case composite =>
    intro id kind cs hk _ _ hquiet
    rw [effects_atop, Effects.hasStackAccess_union, Bool.or_eq_false_iff] at hquiet
    rw [fill_atop hk, fillAll_of_quiet hquiet.2]
  case nil => trivial
  case cons => exact fun _ _ _ _ _ _ => trivial

/-- From an empty working stack nothing is filled, and a tree is finished if it has no pops. -/
theorem fill_nil_cases : FillInduction
    (fun t => ∀ before, fill before [] t = ⟨t, [], !t.effects.pops⟩)
    (fun ts => ∀ earlier before, fillAll earlier before [] ts = ⟨ts, [], !(effectsAll ts).pops⟩) where
  pop := fun _ _ => rfl
  peek := fun _ _ => fill_atop_peek
  leaf := by
    intro id kind hk hpop hpeek before
    have hquiet := Effects.hasStackAccess_eq_false_iff.mp (Kind.hasStackAccess_intrinsic hpop hpeek)
    rw [fill_atop_leaf hk hpop hpeek, effects_atop, effectsAll, Effects.union_empty, hquiet.2,
      Bool.not_false]
  composite := by
    intro id kind cs hk _ ih before
    have hquiet := Effects.hasStackAccess_eq_false_iff.mp (Kind.hasStackAccess_of_isComposite hk)
    rw [fill_atop hk, ih, effects_atop, Effects.union_pops, hquiet.2, Bool.false_or]
  nil := fun _ _ => fillAll_nil
  cons := by
    intro t ts _ _ iht ihts earlier before
    rw [fillAll_cons, ihts, effectsAll, Effects.union_pops]
    cases hlater : (effectsAll ts).pops with
    | true =>
      rw [Bool.or_true]
      exact fillFirst_of_stalled rfl
    | false =>
      rw [Bool.or_false]
      cases ha : t.effects.hasStackAccess with
      | false =>
        rw [fillFirst_of_quiet ha, (Effects.hasStackAccess_eq_false_iff.mp ha).2]
      | true =>
        cases hb : blocked earlier [] t with
        | true => rw [fillFirst_of_blocked hb, pops_of_blocked hb, Bool.not_true]
        | false => rw [fillFirst_of_open rfl ha hb, iht]

theorem fill_nil (ht : t.Sound) : fill before [] t = ⟨t, [], !t.effects.pops⟩ :=
  fill_nil_cases.tree t ht before

theorem fillAll_nil_left (hts : SoundAll ts) :
    fillAll earlier before [] ts = ⟨ts, [], !(effectsAll ts).pops⟩ :=
  fill_nil_cases.trees ts hts earlier before

/-! ## Filling again what stalled -/

/-- Operands that were finished are left as they are from then on. -/
theorem fillAll_of_finished (earlier before : Effects) (hstack : SoundAll stack)
    (hts : SoundAll ts) (hs : Shallow stack)
    (hfinished : (fillAll earlier before stack ts).finished = true) :
    ∀ left, left <:+ (fillAll earlier before stack ts).stack → ∀ passed past, ∃ finished,
      fillAll passed past left (fillAll earlier before stack ts).result =
        ⟨(fillAll earlier before stack ts).result, left, finished⟩ := by
  intro left hleft passed past
  by_cases hne : left = []
  · subst hne
    exact ⟨_, fillAll_nil_left (SoundAll.fillAll earlier before stack ts hstack hts).2⟩
  · exact ⟨_, fillAll_of_quiet
      (fillAll_finished earlier before stack ts hts hs hfinished (hleft.ne_nil hne))⟩

/-- An operand that stalls stalls the list that it begins, whatever holds it up. -/
theorem fillFirst_of_waiting {later : Filling (List Tree)} (ht : t.Sound)
    (h : fill (before ∪ earlier.withoutStackAccess) later.stack t = ⟨t, later.stack, false⟩) :
    fillFirst earlier before t later = ⟨t :: later.result, later.stack, false⟩ := by
  rcases fillFirst_cases earlier before t later with
    ⟨-, heq⟩ | ⟨-, hquiet, -⟩ | ⟨-, -, -, heq⟩ | ⟨-, -, -, heq⟩
  · exact heq
  · rw [fill_of_quiet ht hquiet] at h
    cases h
  · exact heq
  · rw [heq]
    simp only [h]

/-- The induction behind `fill_again`. In a list whose later operands are finished it is the first
operand that stalls, and the later ones stay as they are. -/
theorem fill_again_cases : FillInduction
    (fun t => ∀ before stack, SoundAll stack → Shallow stack →
      (fill before stack t).finished = false →
      fill before (fill before stack t).stack (fill before stack t).result = fill before stack t)
    (fun ts => ∀ earlier before stack, SoundAll stack → Shallow stack →
      (fillAll earlier before stack ts).finished = false →
      fillAll earlier before (fillAll earlier before stack ts).stack
        (fillAll earlier before stack ts).result = fillAll earlier before stack ts) where
  pop := by
    intro id before stack _ _ hstalled
    rcases fill_atop_pop_cases before stack id with heq | ⟨top, rest, -, heq⟩
    · rw [heq]
      exact heq
    · rw [heq] at hstalled
      cases hstalled
  peek := by
    intro id before stack _ _ _
    rw [fill_atop_peek, fill_atop_peek]
  leaf := by
    intro id kind hk hpop hpeek before stack _ _ hstalled
    rw [fill_atop_leaf hk hpop hpeek] at hstalled
    cases hstalled
  composite := by
    intro id kind cs hk _ ih before stack hstack hs hstalled
    rw [fill_atop hk] at hstalled ⊢
    rw [fill_atop hk, ih ∅ before stack hstack hs hstalled]
  nil := by
    intro earlier before stack _ _ hstalled
    rw [fillAll_nil] at hstalled
    cases hstalled
  cons := by
    intro t ts ht hts iht ihts earlier before stack hstack hs hstalled
    have hagain := ihts (earlier ∪ t.effects) before stack hstack hs
    have hsuffix := fillAll_suffix (earlier ∪ t.effects) before stack ts
    have hdone := fillAll_of_finished (earlier ∪ t.effects) before hstack hts hs
    rw [fillAll_cons] at hstalled ⊢
    generalize fillAll (earlier ∪ t.effects) before stack ts = later at *
    rcases fillFirst_cases earlier before t later with
      ⟨hlater, heq⟩ | ⟨-, -, heq⟩ | ⟨hlater, -, hblocked, heq⟩ | ⟨hlater, -, -, heq⟩
    · rw [heq, fillAll_cons, hagain hlater, heq]
    · rw [heq] at hstalled
      cases hstalled
    · obtain ⟨finished, hrest⟩ :=
        hdone hlater later.stack (List.suffix_refl _) (earlier ∪ t.effects) before
      rw [heq, fillAll_cons, hrest]
      exact fillFirst_of_blocked hblocked
    · rw [heq] at hstalled ⊢
      have hfirst := iht (before ∪ earlier.withoutStackAccess) later.stack
        (soundAll_of_suffix hsuffix hstack) (hs.suffix hsuffix) hstalled
      have hu := Sound.fill (before ∪ earlier.withoutStackAccess) later.stack t
        (soundAll_of_suffix hsuffix hstack) ht
      have hleft := fill_suffix (before ∪ earlier.withoutStackAccess) later.stack t
      generalize fill (before ∪ earlier.withoutStackAccess) later.stack t = filled at *
      obtain ⟨u, left, finished⟩ := filled
      obtain rfl : finished = false := hstalled
      obtain ⟨finished, hrest⟩ := hdone hlater left hleft (earlier ∪ u.effects) before
      rw [fillAll_cons, hrest, fillFirst_of_waiting hu hfirst]

/-- A tree that stalled stalls again on what it left. -/
theorem fill_again (ht : t.Sound) (hstack : SoundAll stack) (hs : Shallow stack)
    (h : (fill before stack t).finished = false) :
    fill before (fill before stack t).stack (fill before stack t).result = fill before stack t :=
  fill_again_cases.tree t ht before stack hstack hs h

/-! ## Filling with more before the tree -/

/-- What stalls over producers and leaves them all stalls with more before it as well. -/
theorem fill_mono_cases : FillInduction
    (fun t => ∀ before more stack, Shallow stack → stack ≠ [] → before ⊆ more →
      fill before stack t = ⟨t, stack, false⟩ → fill more stack t = ⟨t, stack, false⟩)
    (fun ts => ∀ earlier before more stack, Shallow stack → stack ≠ [] → before ⊆ more →
      fillAll earlier before stack ts = ⟨ts, stack, false⟩ →
      fillAll earlier more stack ts = ⟨ts, stack, false⟩) where
  pop := by
    intro id before more stack _ hne hmore hstalled
    cases stack with
    | nil => exact absurd rfl hne
    | cons top rest =>
      rw [fill_atop_pop] at hstalled ⊢
      have hbefore : mayReorder before top.effects ≠ true := by
        intro hreorder
        rw [if_pos hreorder] at hstalled
        cases hstalled
      exact if_neg (mt (mayReorder_of_subset hmore) hbefore)
  peek := by
    intro id before more stack _ _ _ hstalled
    rw [fill_atop_peek] at hstalled ⊢
    exact hstalled
  leaf := by
    intro id kind hk hpop hpeek before more stack _ _ _ hstalled
    rw [fill_atop_leaf hk hpop hpeek] at hstalled
    cases hstalled
  composite := by
    intro id kind cs hk _ ih before more stack hs hne hmore hstalled
    rw [fill_atop hk] at hstalled ⊢
    have hbelow : fillAll ∅ before stack cs = ⟨cs, stack, false⟩ := by
      generalize fillAll ∅ before stack cs = filled at hstalled ⊢
      obtain ⟨result, left, finished⟩ := filled
      simp only [atop, Filling.mk.injEq, node.injEq, true_and] at hstalled
      obtain ⟨⟨-, rfl⟩, rfl, rfl⟩ := hstalled
      rfl
    rw [ih ∅ before more stack hs hne hmore hbelow]
  nil := by
    intro earlier before more stack _ _ _ hstalled
    rw [fillAll_nil] at hstalled
    cases hstalled
  cons := by
    intro t ts ht hts iht ihts earlier before more stack hs hne hmore hstalled
    have hmono := ihts (earlier ∪ t.effects) before more stack hs hne hmore
    have hsuffix := fillAll_suffix (earlier ∪ t.effects) before stack ts
    have hdone := fillAll_finished (earlier ∪ t.effects) before stack ts hts hs
    rw [fillAll_cons] at hstalled ⊢
    generalize fillAll (earlier ∪ t.effects) before stack ts = later at *
    obtain ⟨result, rest, finished⟩ := later
    rcases fillFirst_cases earlier before t ⟨result, rest, finished⟩ with
      ⟨hlater, heq⟩ | ⟨-, -, heq⟩ | ⟨hlater, -, hblocked, heq⟩ | ⟨hlater, -, -, heq⟩
    · simp only [heq, Filling.mk.injEq, List.cons.injEq, true_and, and_true] at hstalled
      obtain ⟨rfl, rfl⟩ := hstalled
      obtain rfl : finished = false := hlater
      rw [hmono rfl]
      exact fillFirst_of_stalled rfl
    · rw [heq] at hstalled
      cases hstalled
    · simp only [heq, Filling.mk.injEq, List.cons.injEq, true_and, and_true] at hstalled
      obtain ⟨rfl, rfl⟩ := hstalled
      rw [fillAll_of_quiet (hdone hlater hne)]
      exact fillFirst_of_blocked hblocked
    · have htaken := fill_suffix (before ∪ earlier.withoutStackAccess) rest t
      have hfirst := iht (before ∪ earlier.withoutStackAccess)
        (more ∪ earlier.withoutStackAccess) stack hs hne
        (Effects.union_subset_union_left hmore earlier.withoutStackAccess)
      rw [heq] at hstalled
      generalize hfill : fill (before ∪ earlier.withoutStackAccess) rest t = filled at *
      obtain ⟨u, left, stalled⟩ := filled
      simp only [Filling.mk.injEq, List.cons.injEq] at hstalled
      obtain ⟨⟨rfl, rfl⟩, rfl, rfl⟩ := hstalled
      -- Nothing was taken, so the operand was filled from the whole stack.
      obtain rfl : rest = left := hsuffix.sublist.antisymm htaken.sublist
      rw [fillAll_of_quiet (hdone hlater hne)]
      exact fillFirst_of_waiting ht (hfirst hfill)

/-- Filling the tree from the working stack changes nothing, whatever is evaluated before it. -/
def Inert (stack : List Tree) (finished : Bool) (t : Tree) : Prop :=
  ∀ before, fill before stack t = ⟨t, stack, finished⟩

/-- What filling with nothing before the tree leaves alone is left alone with more before it. -/
theorem inert_of_fill {finished : Bool} (ht : t.Sound) (hs : Shallow stack)
    (h : fill ∅ stack t = ⟨t, stack, finished⟩) (hempty : finished = true → stack = []) :
    Inert stack finished t := by
  intro before
  by_cases hne : stack = []
  · subst hne
    rw [fill_nil ht] at h ⊢
    exact h
  · obtain rfl : finished = false := Bool.eq_false_iff.mpr (mt hempty hne)
    exact fill_mono_cases.tree t ht ∅ before stack hs hne (Effects.empty_union before) h

/-- An operand that filling leaves alone is left alone in a list where nothing else has stack
access. -/
theorem Inert.fillFirst {finished : Bool} (h : Inert stack finished t) (ht : t.Sound)
    (hearlier : earlier.hasStackAccess = false) :
    fillFirst earlier before t ⟨ts, stack, true⟩ = ⟨t :: ts, stack, finished⟩ := by
  cases ha : t.effects.hasStackAccess with
  | false =>
    obtain rfl : true = finished :=
      congrArg Filling.finished ((fill_of_quiet ht ha).symm.trans (h ∅))
    exact fillFirst_of_quiet ha
  | true => rw [fillFirst_of_open rfl ha (not_blocked_of_quiet hearlier), h]

/-! ## Filling again what has taken the last producer -/

theorem getLast?_of_suffix (hs : left <:+ stack) (hne : left ≠ []) :
    left.getLast? = stack.getLast? := by
  obtain ⟨taken, rfl⟩ := hs
  exact (List.getLast?_append_of_ne_nil taken hne).symm

/-- Nothing evaluated before an operand has stack access, if the operand takes the last producer and
that one has. -/
theorem quiet_of_takes_last {last : Tree} (ht : t.Sound) (hopen : blocked earlier stack t = false)
    (hlast : stack.getLast? = some last) (haccess : last.effects.hasStackAccess = true)
    (hempty : (fill before stack t).stack = []) : earlier.hasStackAccess = false := by
  have hmem : last ∈ stack := List.mem_of_getLast? hlast
  have hlength : stack.length ≤ t.popCount := by
    have := length_fill before stack t
    rwa [hempty, List.length_nil, Nat.zero_add] at this
  have hpops : t.effects.pops = true :=
    ht.pops_iff.mpr (Nat.lt_of_lt_of_le (List.length_pos_of_mem hmem) hlength)
  rw [Effects.hasStackAccess_eq_false_iff]
  refine ⟨peeks_of_not_blocked hopen hpops, Bool.eq_false_iff.mpr fun hearlier => ?_⟩
  have hquiet := access_of_not_blocked hopen hpops hearlier
  rw [List.take_of_length_le hlength] at hquiet
  rw [hquiet last hmem] at haccess
  cases haccess

/-- The induction behind `fill_absorbed`. In a list the last producer goes into the one operand that
has stack access when it is taken. -/
theorem absorbed_cases : FillInduction
    (fun t => ∀ before stack last, SoundAll stack → Shallow stack → stack.getLast? = some last →
      last.effects.hasStackAccess = true → (fill before stack t).stack = [] →
      (fill before stack t).finished = true ∧
        ∀ other finished, Inert other finished last →
          Inert other finished (fill before stack t).result)
    (fun ts => ∀ earlier before stack last, SoundAll stack → Shallow stack →
      stack.getLast? = some last → last.effects.hasStackAccess = true →
      (fillAll earlier before stack ts).stack = [] →
      (fillAll earlier before stack ts).finished = true ∧ earlier.hasStackAccess = false ∧
        ∀ other finished, Inert other finished last →
          ∀ passed past, passed.hasStackAccess = false →
            fillAll passed past other (fillAll earlier before stack ts).result =
              ⟨(fillAll earlier before stack ts).result, other, finished⟩) where
  pop := by
    intro id before stack last _ _ hlast _ hempty
    rcases fill_atop_pop_cases before stack id with heq | ⟨top, rest, rfl, heq⟩
    · rw [heq] at hempty
      rw [show stack = [] from hempty] at hlast
      cases hlast
    · rw [heq] at hempty ⊢
      obtain rfl : rest = [] := hempty
      obtain rfl : top = last := Option.some.inj hlast
      exact ⟨rfl, fun _ _ hinert => hinert⟩
  peek := by
    intro id before stack last _ _ hlast _ hempty
    rw [fill_atop_peek] at hempty
    rw [show stack = [] from hempty] at hlast
    cases hlast
  leaf := by
    intro id kind hk hpop hpeek before stack last _ _ hlast _ hempty
    rw [fill_atop_leaf hk hpop hpeek] at hempty
    rw [show stack = [] from hempty] at hlast
    cases hlast
  composite := by
    intro id kind cs hk _ ih before stack last hstack hs hlast haccess hempty
    rw [fill_atop hk] at hempty ⊢
    obtain ⟨hfinished, -, hagain⟩ := ih ∅ before stack last hstack hs hlast haccess hempty
    refine ⟨hfinished, fun other finished hinert past => ?_⟩
    rw [fill_atop hk, hagain other finished hinert ∅ past rfl]
  nil := by
    intro earlier before stack last _ _ hlast _ hempty
    rw [fillAll_nil] at hempty
    rw [show stack = [] from hempty] at hlast
    cases hlast
  cons := by
    intro t ts ht hts iht ihts earlier before stack last hstack hs hlast haccess hempty
    have hlaterEmpty := ihts (earlier ∪ t.effects) before stack last hstack hs hlast haccess
    have hsuffix := fillAll_suffix (earlier ∪ t.effects) before stack ts
    have hdone := fillAll_finished (earlier ∪ t.effects) before stack ts hts hs
    rw [fillAll_cons] at hempty ⊢
    generalize fillAll (earlier ∪ t.effects) before stack ts = later at *
    by_cases hleft : later.stack = []
    · obtain ⟨hfinished, hquiet, hagain⟩ := hlaterEmpty hleft
      rw [Effects.hasStackAccess_union, Bool.or_eq_false_iff] at hquiet
      rw [fillFirst_of_quiet hquiet.2]
      refine ⟨hfinished, hquiet.1, fun other finished hinert passed past hpassed => ?_⟩
      have hmore : (passed ∪ t.effects).hasStackAccess = false := by
        rw [Effects.hasStackAccess_union, hpassed, hquiet.2, Bool.or_false]
      rw [fillAll_cons, hagain other finished hinert _ past hmore, fillFirst_of_quiet hquiet.2]
    · rcases fillFirst_stays_or_fills earlier before t later with
        ⟨_, heq, -⟩ | ⟨hlater, hopen, heq⟩
      · rw [heq] at hempty
        exact absurd hempty hleft
      · rw [heq] at hempty ⊢
        have hlast' : later.stack.getLast? = some last := by
          rw [← hlast]
          exact getLast?_of_suffix hsuffix hleft
        have hsound := soundAll_of_suffix hsuffix hstack
        obtain ⟨hfinished, hagain⟩ := iht (before ∪ earlier.withoutStackAccess) later.stack last
          hsound (hs.suffix hsuffix) hlast' haccess hempty
        refine ⟨hfinished, quiet_of_takes_last ht hopen hlast' haccess hempty,
          fun other finished hinert passed past hpassed => ?_⟩
        rw [fillAll_cons, fillAll_of_quiet (hdone hlater hleft)]
        exact (hagain other finished hinert).fillFirst (Sound.fill _ _ t hsound ht) hpassed

/-- A tree that took the last producer, one with stack access, is finished. Nothing else in it has
stack access, so filling it again comes down to filling that producer. -/
theorem fill_absorbed {last : Tree} (ht : t.Sound) (hstack : SoundAll stack) (hs : Shallow stack)
    (hlast : stack.getLast? = some last) (haccess : last.effects.hasStackAccess = true)
    (hempty : (fill before stack t).stack = []) :
    (fill before stack t).finished = true ∧
      ∀ other finished, Inert other finished last →
        Inert other finished (fill before stack t).result :=
  absorbed_cases.tree t ht before stack last hstack hs hlast haccess hempty

/-! ## Filling from producers without pops -/

/-- A tree that is finished with producers without pops has no pops. -/
theorem no_pops_cases : FillInduction
    (fun t => ∀ before stack, (∀ q ∈ stack, q.effects.pops = false) →
      (fill before stack t).finished = true → (fill before stack t).result.effects.pops = false)
    (fun ts => ∀ earlier before stack, (∀ q ∈ stack, q.effects.pops = false) →
      (fillAll earlier before stack ts).finished = true →
      (effectsAll (fillAll earlier before stack ts).result).pops = false) where
  pop := by
    intro id before stack hstack hfinished
    rcases fill_atop_pop_cases before stack id with heq | ⟨top, rest, rfl, heq⟩
    · rw [heq] at hfinished
      cases hfinished
    · rw [heq]
      exact hstack top (List.mem_cons_self ..)
  peek := by
    intro id before stack _ _
    rw [fill_atop_peek]
    rfl
  leaf := by
    intro id kind hk hpop hpeek before stack _ _
    rw [fill_atop_leaf hk hpop hpeek, effects_atop, effectsAll, Effects.union_empty]
    exact (Effects.hasStackAccess_eq_false_iff.mp (Kind.hasStackAccess_intrinsic hpop hpeek)).2
  composite := by
    intro id kind cs hk _ ih before stack hstack hfinished
    rw [fill_atop hk] at hfinished ⊢
    have hquiet := Effects.hasStackAccess_eq_false_iff.mp (Kind.hasStackAccess_of_isComposite hk)
    rw [effects_atop, Effects.union_pops, hquiet.2, Bool.false_or]
    exact ih ∅ before stack hstack hfinished
  nil := fun _ _ _ _ _ => rfl
  cons := by
    intro t ts _ _ iht ihts earlier before stack hstack hfinished
    have hrest := ihts (earlier ∪ t.effects) before stack hstack
    have hsuffix := fillAll_suffix (earlier ∪ t.effects) before stack ts
    rw [fillAll_cons] at hfinished ⊢
    generalize fillAll (earlier ∪ t.effects) before stack ts = later at *
    rcases fillFirst_stays_or_fills earlier before t later with
      ⟨_, heq, hquiet⟩ | ⟨hlater, -, heq⟩
    · rw [heq] at hfinished ⊢
      obtain ⟨hlater, haccess⟩ := hquiet hfinished
      rw [effectsAll, Effects.union_pops, hrest hlater,
        (Effects.hasStackAccess_eq_false_iff.mp haccess).2, Bool.or_false]
    · rw [heq] at hfinished ⊢
      have hfirst := iht (before ∪ earlier.withoutStackAccess) later.stack
        (fun q hq => hstack q (hsuffix.subset hq)) hfinished
      rw [effectsAll, Effects.union_pops, hrest hlater, Bool.or_false]
      exact hfirst

/-- A tree that has taken all producers, none of them with stack access, changes no more. -/
theorem fill_emptied (ht : t.Sound) (hstack : SoundAll stack) (hs : Shallow stack)
    (hquiet : AllQuiet stack)
    (hempty : (fill before stack t).stack = []) :
    fill before [] (fill before stack t).result = fill before stack t := by
  cases hf : (fill before stack t).finished with
  | false =>
    have hagain := fill_again ht hstack hs hf
    rwa [hempty] at hagain
  | true =>
    have hpops := no_pops_cases.tree t ht before stack
      (fun q hq => (Effects.hasStackAccess_eq_false_iff.mp (hquiet q hq)).2) hf
    rw [fill_nil (Sound.fill before stack t hstack ht), hpops, Bool.not_false, ← hempty, ← hf]

end Tree

namespace Nest

open StackTree.Tree (AllQuiet Shallow SoundAll soundAll_append soundAll_iff soundAll_of_suffix
  soundAll_reverse)

variable {w : Nest} {t u : Tree} {left : List Tree} {finished : Bool} {stalled : Nat}

/-! ## What one entry becomes -/

theorem place_value (h : u.kind.producesValue = true) (w : Nest) :
    w.place u = ⟨w.settled, u :: w.stack, w.stalled⟩ := by
  rw [Nest.place, if_pos h]

theorem place_statement (h : u.kind.producesValue = false) (w : Nest) :
    w.place u = ⟨u :: w.trees, [], w.stalled⟩ := by
  rw [Nest.place, h]
  rfl

/-- How many entries have stalled after one more. -/
def stalledAfter (w : Nest) (finished : Bool) : Nat :=
  if finished then w.stalled else w.stalled + 1

theorem step_of_finished (h : t.fill ∅ w.stack = ⟨u, left, true⟩) :
    w.step t = (⟨w.settled, left, w.stalled⟩ : Nest).place u := by
  rw [Nest.step, h]
  rfl

/-- Whether an entry stalled makes no difference to the working stack once that is empty. -/
theorem step_of_settled (h : t.fill ∅ w.stack = ⟨u, left, finished⟩)
    (hsettled : finished = false ∨ left = []) :
    w.step t = (⟨left ++ w.settled, [], w.stalledAfter finished⟩ : Nest).place u := by
  rw [Nest.step, h]
  cases finished with
  | false => rfl
  | true =>
    obtain rfl := hsettled.resolve_left (by decide)
    rfl

theorem step_statement (h : t.fill ∅ w.stack = ⟨u, left, finished⟩)
    (hvalue : u.kind.producesValue = false) :
    w.step t = ⟨u :: (left ++ w.settled), [], w.stalledAfter finished⟩ := by
  cases finished with
  | true =>
    rw [step_of_finished h, place_statement hvalue]
    rfl
  | false =>
    rw [step_of_settled h (Or.inl rfl), place_statement hvalue]
    rfl

/-- A tree without stack access is placed as it is. -/
theorem step_quiet (ht : t.Sound) (h : t.effects.hasStackAccess = false) (w : Nest) :
    w.step t = w.place t := by
  rw [Nest.step, Tree.fill_of_quiet ht h]
  rfl

/-- Producers without stack access all go onto the working stack. -/
theorem run_quiet {ts : List Tree} (hsound : SoundAll ts) (hquiet : AllQuiet ts)
    (hproduces : ∀ t ∈ ts, t.kind.producesValue = true) (w : Nest) :
    w.run ts = { w with stack := ts.reverse ++ w.stack } := by
  induction ts generalizing w with
  | nil => rfl
  | cons t ts ih =>
    rw [AllQuiet, List.forall_mem_cons] at hquiet
    rw [List.forall_mem_cons] at hproduces
    rw [run_cons, step_quiet hsound.1 hquiet.1, place_value hproduces.1,
      ih hsound.2 hquiet.2 hproduces.2, List.reverse_cons, List.append_assoc]
    rfl

/-! ## Entries that wait -/

/-- Filling the tree next would change nothing. Only what reads the stack below all entries is
finished that way, and then no producer is before it. -/
def Waits (w : Nest) (t : Tree) (stalled : Nat) : Prop :=
  ∃ finished, t.fill ∅ w.stack = ⟨t, w.stack, finished⟩ ∧ (finished = true → w.stack = []) ∧
    w.stalledAfter finished = stalled

/-- A tree that waits comes after everything on the working stack. -/
theorem Waits.step (h : w.Waits t stalled) :
    w.step t = (⟨w.trees, [], stalled⟩ : Nest).place t := by
  obtain ⟨finished, hfill, hempty, rfl⟩ := h
  apply step_of_settled hfill
  cases finished with
  | false => exact Or.inl rfl
  | true => exact Or.inr (hempty rfl)

/-! ## The second walk -/

/-- Where the second walk is when it comes to the trees on the working stack of the first. -/
def again (w : Nest) : Nest := start.run w.settled.reverse

/-- What is settled next is walked over next. -/
theorem again_append (w : Nest) (left stack : List Tree) (count : Nat) :
    (⟨left ++ w.settled, stack, count⟩ : Nest).again = w.again.run left.reverse := by
  rw [again, List.reverse_append, run_append]
  rfl

theorem Ready.again (hw : w.Ready) : w.again.Ready :=
  ready_run ready_start (soundAll_reverse.mpr (soundAll_append.mp hw.sound).2)

/-- The second walk has changed nothing so far, and the bottom of the working stack waits. -/
structure Repeats (w : Nest) : Prop where
  trees : w.again.trees = w.settled
  empty : w.stack = [] → w.again = w
  waits : ∀ last, w.stack.getLast? = some last → w.again.Waits last w.stalled

theorem repeats_start : Repeats start where
  trees := rfl
  empty := fun _ => rfl
  waits := by
    intro last hlast
    cases hlast

namespace Repeats

/-- The second walk gets through what is left of the working stack without a change. -/
theorem run_stack (h : w.Repeats) (hw : w.Ready) (hleft : left <:+ w.stack) (hne : left ≠ []) :
    w.again.run left.reverse = ⟨w.settled, left, w.stalled⟩ := by
  obtain ⟨upper, last, rfl⟩ := left.eq_nil_or_concat'.resolve_left hne
  have hlast : w.stack.getLast? = some last := by
    rw [← Tree.getLast?_of_suffix hleft hne, List.getLast?_concat]
  have hproduces : ∀ q ∈ upper ++ [last], q.kind.producesValue = true := fun q hq =>
    hw.produces q (hleft.subset hq)
  rw [List.forall_mem_append, List.forall_mem_singleton] at hproduces
  have hquiet := hw.shallow.suffix hleft
  rw [Shallow, List.dropLast_concat] at hquiet
  have hsound := (soundAll_append.mp (soundAll_of_suffix hleft hw.stack_sound)).1
  -- The bottom comes after all that is settled, and the others are pushed onto it.
  rw [List.reverse_append, List.reverse_singleton, List.singleton_append, run_cons,
    (h.waits last hlast).step, h.trees, place_value hproduces.2,
    run_quiet (soundAll_reverse.mpr hsound) (fun q hq => hquiet q (List.mem_reverse.mp hq))
      (fun q hq => hproduces.1 q (List.mem_reverse.mp hq)), List.reverse_reverse]

theorem trees_run_stack (h : w.Repeats) (hw : w.Ready) (hleft : left <:+ w.stack) :
    (w.again.run left.reverse).trees = left ++ w.settled := by
  by_cases hne : left = []
  · subst hne
    exact h.trees
  · rw [h.run_stack hw hleft hne]
    rfl

/-- A tree that stalled and left producers waits after them. -/
theorem waits_of_left (h : w.Repeats) (hw : w.Ready) (ht : t.Sound)
    (hfill : t.fill ∅ w.stack = ⟨u, left, false⟩) (hleft : left ≠ []) :
    (w.again.run left.reverse).Waits u (w.stalledAfter false) := by
  have hsuffix := Tree.fill_suffix ∅ w.stack t
  have hagain := Tree.fill_again ht hw.stack_sound hw.shallow (by rw [hfill])
  rw [hfill] at hsuffix hagain
  rw [h.run_stack hw hsuffix hleft]
  exact ⟨false, hagain, Bool.false_ne_true.elim, rfl⟩

/-- Where the first walk has no stack access before it, the second has no producer before it. -/
theorem again_of_quiet (h : w.Repeats) (hw : w.Ready) (hquiet : AllQuiet w.stack) :
    w.again.stack = [] ∧ w.again.stalled = w.stalled := by
  cases hlast : w.stack.getLast? with
  | none =>
    have hstack : w.stack = [] := List.getLast?_eq_none_iff.mp hlast
    rw [h.empty hstack]
    exact ⟨hstack, rfl⟩
  | some last =>
    have hmem : last ∈ w.stack := List.mem_of_getLast? hlast
    obtain ⟨finished, hfill, hempty, hstalled⟩ := h.waits last hlast
    rw [Tree.fill_of_quiet (soundAll_iff.mp hw.stack_sound last hmem) (hquiet last hmem)] at hfill
    obtain rfl : true = finished := congrArg Tree.Filling.finished hfill
    exact ⟨hempty rfl, hstalled⟩

/-- A tree that took all producers, none of them with stack access, waits without any. -/
theorem waits_of_quiet (h : w.Repeats) (hw : w.Ready) (ht : t.Sound) (hquiet : AllQuiet w.stack)
    (hfill : t.fill ∅ w.stack = ⟨u, [], finished⟩) :
    w.again.Waits u (w.stalledAfter finished) := by
  obtain ⟨hstack, hstalled⟩ := h.again_of_quiet hw hquiet
  have hagain := Tree.fill_emptied ht hw.stack_sound hw.shallow hquiet (by rw [hfill])
  rw [hfill] at hagain
  refine ⟨finished, ?_, fun _ => hstack, ?_⟩
  · rw [hstack]
    exact hagain
  · rw [stalledAfter, stalledAfter, hstalled]

/-- A tree that took all producers, the last one with stack access, waits where that one did. -/
theorem waits_of_absorbed (h : w.Repeats) (hw : w.Ready) (ht : t.Sound) {last : Tree}
    (hlast : w.stack.getLast? = some last) (haccess : last.effects.hasStackAccess = true)
    (hfill : t.fill ∅ w.stack = ⟨u, [], finished⟩) :
    w.again.Waits u (w.stalledAfter finished) := by
  have hsound := soundAll_iff.mp hw.stack_sound last (List.mem_of_getLast? hlast)
  obtain ⟨done, hdone, hempty, hstalled⟩ := h.waits last hlast
  obtain ⟨hfinished, hinert⟩ := Tree.fill_absorbed ht hw.stack_sound hw.shallow hlast haccess
    (by rw [hfill])
  rw [hfill] at hfinished hinert
  obtain rfl : finished = true := hfinished
  have hlastInert := Tree.inert_of_fill hsound hw.again.shallow hdone hempty
  exact ⟨done, hinert w.again.stack done hlastInert ∅, hempty, hstalled⟩

/-- A tree that stalled or took all producers waits after those that it left. -/
theorem waits_filled (h : w.Repeats) (hw : w.Ready) (ht : t.Sound)
    (hfill : t.fill ∅ w.stack = ⟨u, left, finished⟩) (hsettled : finished = false ∨ left = []) :
    (w.again.run left.reverse).Waits u (w.stalledAfter finished) := by
  by_cases hleft : left = []
  · subst hleft
    rcases hw.shallow.quiet_or_last with hquiet | ⟨last, hlast, haccess⟩
    · exact h.waits_of_quiet hw ht hquiet hfill
    · exact h.waits_of_absorbed hw ht hlast haccess hfill
  · obtain rfl := hsettled.resolve_right hleft
    exact h.waits_of_left hw ht hfill hleft

/-- The second walk places what an entry became where the first one did. -/
theorem step_filled (h : w.Repeats) (hw : w.Ready) (ht : t.Sound)
    (hfill : t.fill ∅ w.stack = ⟨u, left, finished⟩) :
    (w.again.run left.reverse).step u = w.step t := by
  have hsuffix := Tree.fill_suffix ∅ w.stack t
  have hu := Tree.Sound.fill ∅ w.stack t hw.stack_sound ht
  rw [hfill] at hsuffix hu
  by_cases hsettled : finished = false ∨ left = []
  · rw [(h.waits_filled hw ht hfill hsettled).step, h.trees_run_stack hw hsuffix,
      step_of_settled hfill hsettled]
  · -- What is finished over producers has no stack access.
    obtain ⟨hstalled, hleft⟩ := not_or.mp hsettled
    obtain rfl : finished = true := by simpa using hstalled
    have hquiet := Tree.fill_finished ∅ w.stack t ht hw.shallow (by rw [hfill]) (by rwa [hfill])
    rw [hfill] at hquiet
    rw [h.run_stack hw hsuffix hleft, step_quiet hu hquiet, step_of_finished hfill]

/-- After an entry that left a value the second walk has still changed nothing. -/
theorem step_value (h : w.Repeats) (hw : w.Ready) (ht : t.Sound)
    (hfill : t.fill ∅ w.stack = ⟨u, left, finished⟩) (hvalue : u.kind.producesValue = true) :
    (w.step t).Repeats := by
  have hsuffix := Tree.fill_suffix ∅ w.stack t
  rw [hfill] at hsuffix
  have hwaits := h.waits_filled hw ht hfill
  cases finished with
  | true =>
    rw [step_of_finished hfill, place_value hvalue]
    refine ⟨h.trees, fun hnil => (List.cons_ne_nil _ _ hnil).elim, fun last hlast => ?_⟩
    by_cases hleft : left = []
    · subst hleft
      obtain rfl : u = last := Option.some.inj hlast
      exact hwaits (Or.inr rfl)
    · apply h.waits
      rw [← Tree.getLast?_of_suffix hsuffix hleft, ← hlast]
      exact Tree.getLast?_of_suffix (List.suffix_cons u left) hleft
  | false =>
    rw [step_of_settled hfill (Or.inl rfl), place_value hvalue]
    refine ⟨?_, fun hnil => (List.cons_ne_nil _ _ hnil).elim, fun last hlast => ?_⟩
    · rw [again_append, h.trees_run_stack hw hsuffix]
    · obtain rfl : u = last := Option.some.inj hlast
      rw [again_append]
      exact hwaits (Or.inl rfl)

/-- After a statement both walks are at the same point. -/
theorem step_statement (h : w.Repeats) (hw : w.Ready) (ht : t.Sound)
    (hfill : t.fill ∅ w.stack = ⟨u, left, finished⟩) (hvalue : u.kind.producesValue = false) :
    (w.step t).Repeats := by
  have hshape := Nest.step_statement hfill hvalue
  have hsame : (w.step t).again = w.step t :=
    calc (w.step t).again = w.again.run (u :: left).reverse := by
          rw [hshape]
          exact again_append w (u :: left) [] _
      _ = (w.again.run left.reverse).step u := by
          rw [List.reverse_cons, run_append]
          rfl
      _ = w.step t := h.step_filled hw ht hfill
  refine ⟨?_, fun _ => hsame, fun last hlast => ?_⟩
  · rw [hsame, hshape]
    rfl
  · rw [hshape] at hlast
    cases hlast

/-- After an entry the second walk has still changed nothing. -/
theorem step (h : w.Repeats) (hw : w.Ready) (ht : t.Sound) : (w.step t).Repeats := by
  cases hvalue : (t.fill ∅ w.stack).result.kind.producesValue with
  | true => exact h.step_value hw ht rfl hvalue
  | false => exact h.step_statement hw ht rfl hvalue

theorem run {ts : List Tree} (h : w.Repeats) (hw : w.Ready) (hts : SoundAll ts) :
    (w.run ts).Repeats := by
  induction ts generalizing w with
  | nil => exact h
  | cons t ts ih => exact ih (h.step hw hts.1) (hw.step hts.1) hts.2

/-- The second walk ends where the first one did. -/
theorem run_output (h : w.Repeats) (hw : w.Ready) : start.run w.output = w := by
  rw [output, Nest.trees, List.reverse_append, run_append]
  by_cases hstack : w.stack = []
  · rw [hstack]
    exact h.empty hstack
  · exact h.run_stack hw (List.suffix_refl _) hstack

end Repeats

/-- A second walk, over what the first has made, ends where the first did. -/
theorem run_output {ts : List Tree} (hts : SoundAll ts) :
    start.run (start.run ts).output = start.run ts :=
  (repeats_start.run ready_start hts).run_output (ready_run ready_start hts)

end Nest

namespace Routine

open StackTree.Tree (forestNodes)

variable {r s : Routine}

/-- A routine whose trees came out of nesting as they went in is unchanged. -/
theorem Nests.eq_of_same (hr : r.Sound) {ts : List Tree} (hts : r.Supplies ts)
    (h : r.Nests s ts ts) : s = r := by
  apply h.sound.eq_of_shape hr h.size_eq h.name_eq h.body_eq
  intro m
  by_cases hm : m ∈ forestNodes ts
  · exact hts.showsAll.shape_agree h.supplies.showsAll m hm
  · exact shape_of_bare_eq (h.bare_eq m hm)

/--
Nesting is idempotent. Over a reachable routine, nesting an accepted sequence again succeeds and
leaves the routine and the sequence as they are. Nothing is consumed, and as many entries stall as
the first time.
-/
theorem Reachable.nestBlock_idempotent (h : r.Reachable) {block : List NodeId}
    {report : NestingReport} (hok : (nestBlock r block).result = .ok report) :
    nestBlock (nestBlock r block).code (nestBlock r block).block =
      { code := (nestBlock r block).code
        block := (nestBlock r block).block
        result := .ok { report with entriesBefore := report.entriesAfter, consumed := 0 } } := by
  have hr := h.sound
  obtain ⟨ts, once, hts, -, hrun, hreport, hnests⟩ := nestBlock_accepted hr hok
  have hagain := Nest.run_output (hr.trees_sound hts)
  obtain ⟨twice, hrunAgain, hnestsAgain⟩ := nestBlock_eq hnests.sound hnests.supplies.free
    (showsAll_of_shows hnests.supplies.shows)
  rw [hagain] at hrunAgain hnestsAgain
  obtain rfl : twice = once := hnestsAgain.eq_of_same hnests.sound hnests.supplies
  rw [hrun, hrunAgain, hreport, Nest.report, Nest.report, Nat.sub_self]

/-- A sum that stalls on a load becomes part of a negation that is finished. Nested again, the
negation stalls on that load. -/
theorem nestBlock_idempotent_after_stall :
    let build : Edit Unit := do
      let called ← alloc (.call "f" true) []
      let _ ← alloc (.binary .add) [called, ← alloc .pop []]
      let _ ← alloc (.load 0) []
      let _ ← alloc (.unary .neg) [← alloc .pop []]
    let r := leftBy (build { name := "main" })
    let once := nestBlock r [⟨3⟩, ⟨2⟩, ⟨5⟩]
    r.Reachable ∧ once.result = .ok ⟨3, 2, 1, 1, false⟩ ∧
      nestBlock once.code once.block = ⟨once.code, once.block, .ok ⟨2, 2, 0, 1, false⟩⟩ := by
  intro build r once
  have hreach : r.Reachable :=
    ⟨"main", Unit, build, .bind (.alloc _ _) fun _ => .bind (.alloc _ _) fun _ =>
      .bind (.alloc _ _) fun _ => .bind (.alloc _ _) fun _ => .bind (.alloc _ _) fun _ =>
        .bind (.alloc _ _) fun _ => .pure _, rfl⟩
  have hok : once.result = .ok ⟨3, 2, 1, 1, false⟩ := by decide +kernel
  exact ⟨hreach, hok, Reachable.nestBlock_idempotent hreach hok⟩

end Routine

end StackTree
