import StackTree.Proofs.Nesting.OnTrees
import Mathlib.Logic.Relation

/-!
# Filling as a series of pulls

All that filling ever does is to put the most recent producer in the place of a pop. A `Pull` is one
such move, with everything that is known when it happens: what is evaluated before the pop has no
peek and may swap places with the producer, nothing that is evaluated after it has stack access, and
where something before it deals with the stack the producer does not. Filling is a series of pulls
(`fill_pulls`), so whatever one pull preserves filling preserves.

The last two facts rest on the shape of the working stack, where only the bottom tree has stack
access (`Shallow`). An operand is finished either without stack access or with the bottom of the
stack in it (`fill_finished`), and in the second case nothing is left to be pulled.

## Main definitions

* `Layer`, `plug`: a tree with a hole, as the list of the nodes on the way down to it.
* `Pull`, `Pulls`: one move of a producer, and a series of them.
* `Nest.Ready`: what holds between two entries.
* `Nest.KeptByPulls`: what a pull does to the sequence of all entries.

## Main results

* `fill_pulls`: filling is a series of pulls.
* `Nest.Ready.step`, `Nest.ready_run`: the walk over a sequence keeps the working stack shallow.
* `Nest.KeptByPulls.run`: what every pull keeps, the walk keeps.
-/

namespace StackTree

namespace Tree

/-! ## Trees with a hole -/

/-- A node on the way down to a hole, with the operands beside the way. -/
structure Layer where
  /-- The name of the node. -/
  id : NodeId
  /-- What the node does. -/
  kind : Kind
  /-- The operands before the way down. -/
  left : List Tree
  /-- The operands after it. -/
  right : List Tree

/-- The tree in the hole, with the layers around it from the outermost inwards. -/
def plug : List Layer → Tree → Tree
  | [], t => t
  | f :: fs, t => atop f.id f.kind (f.left ++ plug fs t :: f.right)

/-- The trees that are evaluated before the hole, in order. -/
def before (fs : List Layer) : List Tree := fs.flatMap Layer.left

/-- The trees that are evaluated after the hole, the outermost first. -/
def after (fs : List Layer) : List Tree := fs.flatMap Layer.right

@[simp] theorem plug_nil (t : Tree) : plug [] t = t := rfl

@[simp] theorem plug_cons (f : Layer) (fs : List Layer) (t : Tree) :
    plug (f :: fs) t = atop f.id f.kind (f.left ++ plug fs t :: f.right) := rfl

@[simp] theorem before_nil : before [] = [] := rfl

@[simp] theorem before_cons (f : Layer) (fs : List Layer) :
    before (f :: fs) = f.left ++ before fs := rfl

@[simp] theorem after_nil : after [] = [] := rfl

@[simp] theorem after_cons (f : Layer) (fs : List Layer) :
    after (f :: fs) = f.right ++ after fs := rfl

theorem before_append (fs gs : List Layer) : before (fs ++ gs) = before fs ++ before gs :=
  List.flatMap_append

theorem after_append (fs gs : List Layer) : after (fs ++ gs) = after fs ++ after gs :=
  List.flatMap_append

/-- A layer more around the hole. -/
theorem plug_concat (fs : List Layer) (f : Layer) (t : Tree) :
    plug (fs ++ [f]) t = plug fs (atop f.id f.kind (f.left ++ t :: f.right)) := by
  induction fs with
  | nil => rfl
  | cons g fs ih => rw [List.cons_append, plug_cons, plug_cons, ih]

/-- The layer is a sound node whose kind is one that operands are filled of. -/
structure Layer.Sound (f : Layer) : Prop where
  composite : f.kind.isComposite = true
  arity : f.kind.accepts (f.left.length + f.right.length + 1) = true
  left : SoundAll f.left
  right : SoundAll f.right

theorem soundAll_reverse {ts : List Tree} : SoundAll ts.reverse ↔ SoundAll ts := by
  simp only [soundAll_iff, List.mem_reverse]

theorem soundAll_append {ts us : List Tree} :
    SoundAll (ts ++ us) ↔ SoundAll ts ∧ SoundAll us := by
  simp only [soundAll_iff, List.mem_append]
  constructor
  · intro h
    exact ⟨fun t ht => h t (Or.inl ht), fun t ht => h t (Or.inr ht)⟩
  · rintro ⟨hts, hus⟩ t (ht | ht)
    · exact hts t ht
    · exact hus t ht

/-- What is in the hole of a sound tree is sound, and so are the layers around it. -/
theorem sound_plug_iff {fs : List Layer} {t : Tree} :
    (plug fs t).Sound ↔ (∀ f ∈ fs, f.Sound) ∧ t.Sound := by
  induction fs with
  | nil => simp
  | cons f fs ih =>
    have hlength : (f.left ++ plug fs t :: f.right).length = f.left.length + f.right.length + 1 := by
      simp only [List.length_append, List.length_cons]
      omega
    rw [plug_cons, List.forall_mem_cons]
    constructor
    · rintro ⟨harity, -, hchildren⟩
      obtain ⟨hleft, hhole, hright⟩ := soundAll_append.mp hchildren
      rw [hlength] at harity
      have hcomposite : f.kind.isComposite = true := by
        cases hk : f.kind <;> first | rfl | simp [hk, Kind.accepts] at harity
      exact ⟨⟨⟨hcomposite, harity, hleft, hright⟩, (ih.mp hhole).1⟩, (ih.mp hhole).2⟩
    · rintro ⟨⟨hf, hfs⟩, ht⟩
      exact sound_atop (hlength ▸ hf.arity)
        (soundAll_append.mpr ⟨hf.left, ih.mpr ⟨hfs, ht⟩, hf.right⟩)

theorem Layer.Sound.ne_pop {f : Layer} (h : f.Sound) : f.kind ≠ .pop :=
  Kind.ne_pop_of_isComposite h.composite

theorem Layer.Sound.ne_peek {f : Layer} (h : f.Sound) : f.kind ≠ .peek :=
  Kind.ne_peek_of_isComposite h.composite

theorem soundAll_before {fs : List Layer} (h : ∀ f ∈ fs, f.Sound) : SoundAll (before fs) := by
  refine soundAll_iff.mpr fun t ht => ?_
  obtain ⟨f, hf, ht⟩ := List.mem_flatMap.mp ht
  exact soundAll_iff.mp (h f hf).left t ht

theorem soundAll_after {fs : List Layer} (h : ∀ f ∈ fs, f.Sound) : SoundAll (after fs) := by
  refine soundAll_iff.mpr fun t ht => ?_
  obtain ⟨f, hf, ht⟩ := List.mem_flatMap.mp ht
  exact soundAll_iff.mp (h f hf).right t ht

theorem popCount_plug {fs : List Layer} (h : ∀ f ∈ fs, f.Sound) (t : Tree) :
    (plug fs t).popCount = popCounts (before fs) + t.popCount + popCounts (after fs) := by
  induction fs with
  | nil => simp [popCounts]
  | cons f fs ih =>
    rw [List.forall_mem_cons] at h
    rw [plug_cons, atop, popCount, if_neg h.1.ne_pop, popCounts_append, popCounts, ih h.2,
      before_cons, after_cons, popCounts_append, popCounts_append]
    omega

theorem peeks_plug {fs : List Layer} (h : ∀ f ∈ fs, f.Sound) (t : Tree) :
    (plug fs t).effects.peeks = true ↔ (effectsAll (before fs)).peeks = true ∨
      t.effects.peeks = true ∨ (effectsAll (after fs)).peeks = true := by
  induction fs with
  | nil => simp [effectsAll]
  | cons f fs ih =>
    rw [List.forall_mem_cons] at h
    have hkind : f.kind.intrinsic.peeks = false := by
      rw [← Bool.not_eq_true, Kind.intrinsic_peeks]
      exact h.1.ne_peek
    have hbelow := ih h.2
    rw [plug_cons, effects_atop, Effects.union_peeks, hkind, Bool.false_or, effectsAll_append,
      effectsAll, before_cons, after_cons, effectsAll_append, effectsAll_append]
    simp only [Effects.union_peeks, Bool.or_eq_true, hbelow]
    grind

/-! ## Pulls -/

/-- The most recent producer takes the place of a pop. -/
inductive Pull : List Tree × Tree → List Tree × Tree → Prop
  | take {fs : List Layer} {id : NodeId} {top : Tree} {rest : List Tree}
      (reorder : mayReorder (effectsAll (before fs)).withoutStackAccess top.effects = true)
      (noPeek : (effectsAll (before fs)).peeks = false)
      (noWait : (effectsAll (before fs)).pops = true → top.effects.hasStackAccess = false)
      (noAfter : (effectsAll (after fs)).hasStackAccess = false) :
      Pull (top :: rest, plug fs (atop id .pop [])) (rest, plug fs top)

/-- What pulls start from: everything is sound, and the producers leave values. -/
structure Produced (stack : List Tree) (t : Tree) : Prop where
  sound : SoundAll stack
  produces : ∀ q ∈ stack, q.kind.producesValue = true
  entry : t.Sound

/-- After a pull everything is ready for another one. -/
theorem Produced.pull {stack left : List Tree} {t u : Tree} (h : Produced stack t)
    (hp : Pull (stack, t) (left, u)) : Produced left u := by
  cases hp with
  | take =>
    obtain ⟨htop, hleft⟩ := h.sound
    exact ⟨hleft, (List.forall_mem_cons.mp h.produces).2,
      sound_plug_iff.mpr ⟨(sound_plug_iff.mp h.entry).1, htop⟩⟩

/-- Producers take the places of pops one after the other. -/
abbrev Pulls : List Tree × Tree → List Tree × Tree → Prop := Relation.ReflTransGen Pull

/-- Only the bottom tree of a working stack has stack access. -/
def Shallow (stack : List Tree) : Prop :=
  ∀ q ∈ stack.dropLast, q.effects.hasStackAccess = false

theorem shallow_nil : Shallow [] := by
  intro q hq
  cases hq

theorem Shallow.suffix {left stack : List Tree} (h : Shallow stack) (hs : left <:+ stack) :
    Shallow left := by
  obtain ⟨taken, rfl⟩ := hs
  intro q hq
  refine h q ?_
  cases left with
  | nil => cases hq
  | cons t left =>
    rw [List.dropLast_append_of_ne_nil (List.cons_ne_nil t left)]
    exact List.mem_append_right _ hq

theorem Shallow.head {t : Tree} {left : List Tree} (h : Shallow (t :: left)) (hne : left ≠ []) :
    t.effects.hasStackAccess = false := by
  refine h t ?_
  rw [List.dropLast_cons_of_ne_nil hne]
  exact List.mem_cons_self ..

/-- In a shallow working stack nothing has stack access, or the bottom tree has. -/
theorem Shallow.quiet_or_last {stack : List Tree} (h : Shallow stack) :
    AllQuiet stack ∨ ∃ last, stack.getLast? = some last ∧ last.effects.hasStackAccess = true := by
  rcases stack.eq_nil_or_concat' with rfl | ⟨upper, last, rfl⟩
  · left
    intro q hq
    cases hq
  · rw [Shallow, List.dropLast_concat] at h
    cases ha : last.effects.hasStackAccess with
    | true => exact Or.inr ⟨last, List.getLast?_concat, ha⟩
    | false =>
      left
      intro q hq
      rcases List.mem_append.mp hq with hq | hq
      · exact h q hq
      · rwa [List.mem_singleton.mp hq]

theorem Shallow.cons {t : Tree} {left : List Tree} (h : Shallow left)
    (ht : left ≠ [] → t.effects.hasStackAccess = false) : Shallow (t :: left) := by
  intro q hq
  cases left with
  | nil => cases hq
  | cons u left =>
    rw [List.dropLast_cons_of_ne_nil (List.cons_ne_nil u left)] at hq
    rcases List.mem_cons.mp hq with rfl | hq
    · exact ht (List.cons_ne_nil u left)
    · exact h q hq

/-! ## How many producers are taken -/

mutual

/-- Filling takes at most as many producers as the tree has pops. -/
theorem length_fill : (before : Effects) → (stack : List Tree) → (t : Tree) →
    stack.length ≤ (fill before stack t).stack.length + t.popCount
  | before, stack, node id kind e cs => by
    by_cases hk : kind.isComposite = true
    · rw [fill_composite hk, popCount]
      have hbelow := length_fillAll ∅ before stack cs
      show stack.length ≤ (fillAll ∅ before stack cs).stack.length + _
      omega
    · rw [Bool.not_eq_true] at hk
      by_cases hpop : kind = .pop
      · subst hpop
        cases stack with
        | nil => exact Nat.zero_le _
        | cons top rest =>
          rw [fill_pop_cons, popCount]
          split
          · simp only [List.length_cons, if_true]
            omega
          · simp only [List.length_cons]
            omega
      · by_cases hpeek : kind = .peek
        · subst hpeek
          exact Nat.le_add_right _ _
        · rw [fill_leaf hk hpop hpeek]
          exact Nat.le_add_right _ _

theorem length_fillAll : (earlier before : Effects) → (stack : List Tree) → (ts : List Tree) →
    stack.length ≤ (fillAll earlier before stack ts).stack.length + popCounts ts
  | _, _, _, [] => Nat.le_add_right _ _
  | earlier, before, stack, t :: ts => by
    have hrest := length_fillAll (earlier ∪ t.effects) before stack ts
    rw [fillAll_cons, popCounts]
    generalize fillAll (earlier ∪ t.effects) before stack ts = later at *
    rcases fillFirst_stays_or_fills earlier before t later with ⟨_, heq, -⟩ | ⟨-, -, heq⟩
    · rw [heq]
      show _ ≤ later.stack.length + _
      omega
    · have hfirst := length_fill (before ∪ earlier.withoutStackAccess) later.stack t
      rw [heq]
      show _ ≤ (fill (before ∪ earlier.withoutStackAccess) later.stack t).stack.length + _
      omega

end

/-- The first producers that are left after some were taken are among the first ones before. -/
theorem mem_take_of_suffix {left stack : List Tree} (hs : left <:+ stack) {taken count : Nat}
    (hlength : stack.length ≤ left.length + taken) {q : Tree} (hq : q ∈ left.take count) :
    q ∈ stack.take (count + taken) := by
  obtain ⟨first, rfl⟩ := hs
  rw [List.length_append] at hlength
  rw [List.take_append]
  refine List.mem_append_right _ ?_
  exact (List.take_sublist_take_left (by omega)).subset hq

/-! ## What a finished tree is like -/

mutual

/-- A finished tree has no stack access, unless it took the last producer. -/
theorem fill_finished : (before : Effects) → (stack : List Tree) → (t : Tree) → t.Sound →
    Shallow stack → (fill before stack t).finished = true → (fill before stack t).stack ≠ [] →
    (fill before stack t).result.effects.hasStackAccess = false
  | before, stack, node id kind e cs, hsound, hstack, hfinished, hne => by
    by_cases hk : kind.isComposite = true
    · rw [fill_composite hk] at hfinished hne ⊢
      have hbelow := fillAll_finished ∅ before stack cs hsound.2.2 hstack hfinished hne
      rw [effects_atop, Effects.hasStackAccess_union, hbelow, Bool.or_false]
      exact Kind.hasStackAccess_of_isComposite hk
    · rw [Bool.not_eq_true] at hk
      by_cases hpop : kind = .pop
      · subst hpop
        have hkind : (node id .pop e cs).kind = .pop := rfl
        rcases fill_pop_cases before stack hkind with
          ⟨-, -, hstalled⟩ | ⟨top, hleft, hresult, -, -⟩
        · rw [hstalled] at hfinished
          cases hfinished
        · rw [hresult]
          rw [hleft] at hstack
          exact hstack.head hne
      · by_cases hpeek : kind = .peek
        · subst hpeek
          rw [fill_peek] at hfinished hne
          exact absurd (List.isEmpty_iff.mp hfinished) hne
        · rw [fill_leaf hk hpop hpeek]
          obtain ⟨harity, heffects, -⟩ := hsound
          have hnil : cs = [] := by
            cases kind <;> simp_all [Kind.accepts, Kind.isComposite]
          rw [Tree.effects, heffects, hnil, effectsAll, Effects.union_empty]
          exact Kind.hasStackAccess_intrinsic hpop hpeek

theorem fillAll_finished : (earlier before : Effects) → (stack : List Tree) → (ts : List Tree) →
    SoundAll ts → Shallow stack → (fillAll earlier before stack ts).finished = true →
    (fillAll earlier before stack ts).stack ≠ [] →
    (effectsAll (fillAll earlier before stack ts).result).hasStackAccess = false
  | _, _, _, [], _, _, _, _ => rfl
  | earlier, before, stack, t :: ts, hsound, hstack, hfinished, hne => by
    have hsuffix := fillAll_suffix (earlier ∪ t.effects) before stack ts
    have hrest := fillAll_finished (earlier ∪ t.effects) before stack ts hsound.2 hstack
    rw [fillAll_cons] at hfinished hne ⊢
    rcases fillFirst_stays_or_fills earlier before t
        (fillAll (earlier ∪ t.effects) before stack ts) with ⟨_, heq, hquiet⟩ | ⟨hlater, -, heq⟩
    · rw [heq] at hfinished hne ⊢
      obtain ⟨hlater, haccess⟩ := hquiet hfinished
      rw [effectsAll, Effects.hasStackAccess_union, haccess, hrest hlater hne]
      rfl
    · rw [heq] at hfinished hne ⊢
      have hfirst := fill_finished (before ∪ earlier.withoutStackAccess) _ t hsound.1
        (hstack.suffix hsuffix) hfinished hne
      have hlaterNe := (fill_suffix _ _ t).ne_nil hne
      rw [effectsAll, Effects.hasStackAccess_union, hfirst, hrest hlater hlaterNe]
      rfl

end

/-! ## Filling is a series of pulls -/

/-- An operand that is not blocked has no peek before it. -/
theorem peeks_of_not_blocked {earlier : Effects} {stack : List Tree} {t : Tree}
    (h : blocked earlier stack t = false) (hp : t.effects.pops = true) :
    earlier.peeks = false := by
  rw [blocked, hp, Bool.true_and, Bool.or_eq_false_iff] at h
  exact h.1

/-- An operand that is not blocked takes no stack access past a pop. -/
theorem access_of_not_blocked {earlier : Effects} {stack : List Tree} {t : Tree}
    (h : blocked earlier stack t = false) (hp : t.effects.pops = true)
    (he : earlier.pops = true) :
    ∀ q ∈ stack.take t.popCount, q.effects.hasStackAccess = false := by
  rw [blocked, hp, Bool.true_and, Bool.or_eq_false_iff, he, Bool.true_and,
    List.any_eq_false] at h
  intro q hq
  simpa using h.2 q hq

/-- The way is clear for producers into a hole: for up to so many, if anything is to be pulled. -/
structure Clear (fs : List Layer) (stack : List Tree) (pops : Bool) (count : Nat) : Prop where
  shallow : Shallow stack
  noAfter : stack ≠ [] → (effectsAll (after fs)).hasStackAccess = false
  noPeek : pops = true → (effectsAll (before fs)).peeks = false
  noWait : (effectsAll (before fs)).pops = true →
    ∀ q ∈ stack.take count, q.effects.hasStackAccess = false

theorem Clear.mono {fs : List Layer} {stack : List Tree} {pops fewer : Bool} {count less : Nat}
    (h : Clear fs stack pops count) (hp : fewer = true → pops = true) (hc : less ≤ count) :
    Clear fs stack fewer less where
  shallow := h.shallow
  noAfter := h.noAfter
  noPeek := fun hf => h.noPeek (hp hf)
  noWait := fun hb q hq => h.noWait hb q ((List.take_sublist_take_left hc).subset hq)

/-- Once the later operands are finished, the way into an operand that is not blocked is clear. -/
theorem Clear.inner {fs : List Layer} {f : Layer} {stack left : List Tree} {t : Tree}
    {pops : Bool} {taken : Nat} (h : Clear fs stack pops (t.popCount + taken))
    (hp : t.effects.pops = true → pops = true) (hcount : t.effects.pops = false → t.popCount = 0)
    (hleft : left <:+ stack) (hlength : stack.length ≤ left.length + taken)
    (hright : left ≠ [] → (effectsAll f.right).hasStackAccess = false)
    (hblocked : blocked (effectsAll f.left) left t = false) :
    Clear (fs ++ [f]) left t.effects.pops t.popCount where
  shallow := h.shallow.suffix hleft
  noAfter := by
    intro hne
    rw [after_append, effectsAll_append, Effects.hasStackAccess_union,
      h.noAfter (hleft.ne_nil hne), Bool.false_or, after_cons, after_nil, List.append_nil]
    exact hright hne
  noPeek := by
    intro ht
    rw [before_append, effectsAll_append, Effects.union_peeks, h.noPeek (hp ht), Bool.false_or,
      before_cons, before_nil, List.append_nil]
    exact peeks_of_not_blocked hblocked ht
  noWait := by
    intro hb q hq
    rw [before_append, effectsAll_append, Effects.union_pops, Bool.or_eq_true, before_cons,
      before_nil, List.append_nil] at hb
    rcases hb with hb | hb
    · exact h.noWait hb q (mem_take_of_suffix hleft hlength hq)
    · cases ht : t.effects.pops with
      | true => exact access_of_not_blocked hblocked ht hb q hq
      | false =>
        rw [hcount ht] at hq
        cases hq

mutual

/-- Filling a tree inside others is a series of pulls. -/
theorem fill_pulls : (fs : List Layer) → (stack : List Tree) → (t : Tree) → t.Sound →
    Clear fs stack t.effects.pops t.popCount →
    Pulls (stack, plug fs t)
      ((fill (effectsAll (before fs)).withoutStackAccess stack t).stack,
        plug fs (fill (effectsAll (before fs)).withoutStackAccess stack t).result)
  | fs, stack, node id kind e cs, hsound, hclear => by
    by_cases hk : kind.isComposite = true
    · have hpop := Kind.ne_pop_of_isComposite hk
      have hbelow := fillAll_pulls fs id kind [] stack cs [] hsound.2.2
        (hclear.mono (fun hp => by rw [Tree.effects, hsound.2.1, Effects.union_pops, hp,
          Bool.or_true]) (by rw [popCount, if_neg hpop]; omega)) fun _ => rfl
      rw [List.nil_append, List.append_nil, List.nil_append, List.append_nil] at hbelow
      rw [fill_composite hk]
      have heq : node id kind e cs = atop id kind cs := hsound.eq_atop
      rw [heq]
      exact hbelow
    · rw [Bool.not_eq_true] at hk
      by_cases hpop : kind = .pop
      · subst hpop
        have hpops : (node id .pop e cs).effects.pops = true := by
          rw [Tree.effects, hsound.2.1, Effects.union_pops]
          rfl
        have heq : node id .pop e cs = atop id .pop [] := by
          have hnil : cs = [] := hsound.children_eq_nil (Or.inl rfl)
          have := hsound.eq_atop
          rwa [hnil] at this ⊢
        have hkind : (node id .pop e cs).kind = .pop := rfl
        rcases fill_pop_cases (effectsAll (before fs)).withoutStackAccess stack hkind with
          ⟨hresult, hleft, -⟩ | ⟨top, hleft, hresult, -, hm⟩
        · rw [hresult, hleft]
        · rw [hresult]
          generalize (fill _ stack _).stack = left at hleft
          subst hleft
          rw [heq]
          refine .single (.take hm (hclear.noPeek hpops) (fun hb => ?_)
            (hclear.noAfter (List.cons_ne_nil top left)))
          refine hclear.noWait hb top ?_
          rw [popCount, if_pos rfl, Nat.add_comm, List.take_succ_cons]
          exact List.mem_cons_self ..
      · by_cases hpeek : kind = .peek
        · subst hpeek
          rw [fill_peek]
        · rw [fill_leaf hk hpop hpeek]

theorem fillAll_pulls : (fs : List Layer) → (id : NodeId) → (kind : Kind) → (pre : List Tree) →
    (stack : List Tree) → (ts : List Tree) → (post : List Tree) → SoundAll ts →
    Clear fs stack (effectsAll ts).pops (popCounts ts) →
    (stack ≠ [] → (effectsAll post).hasStackAccess = false) →
    Pulls (stack, plug fs (atop id kind (pre ++ ts ++ post)))
      ((fillAll (effectsAll pre) (effectsAll (before fs)).withoutStackAccess stack ts).stack,
        plug fs (atop id kind (pre ++ (fillAll (effectsAll pre)
          (effectsAll (before fs)).withoutStackAccess stack ts).result ++ post)))
  | fs, id, kind, pre, stack, [], post, _, _, _ => .refl
  | fs, id, kind, pre, stack, t :: ts, post, hsound, hclear, hpost => by
    have hlater := fillAll_pulls fs id kind (pre ++ [t]) stack ts post hsound.2
      (hclear.mono (fun hp => by rw [effectsAll, Effects.union_pops, hp, Bool.or_true])
        (by rw [popCounts]; omega)) hpost
    have hunion : effectsAll (pre ++ [t]) = effectsAll pre ∪ t.effects := by
      rw [effectsAll_append, effectsAll, effectsAll, Effects.union_empty]
    rw [hunion, List.append_assoc pre [t] ts, List.singleton_append] at hlater
    rw [fillAll_cons]
    rcases fillFirst_stays_or_fills (effectsAll pre) (effectsAll (before fs)).withoutStackAccess t
        (fillAll (effectsAll pre ∪ t.effects) (effectsAll (before fs)).withoutStackAccess stack ts)
      with ⟨_, heq, -⟩ | ⟨hfinished, hblocked, heq⟩
    · rw [heq]
      simpa using hlater
    · rw [heq]
      refine hlater.trans ?_
      have hsuffix := fillAll_suffix (effectsAll pre ∪ t.effects)
        (effectsAll (before fs)).withoutStackAccess stack ts
      have hlength := length_fillAll (effectsAll pre ∪ t.effects)
        (effectsAll (before fs)).withoutStackAccess stack ts
      have hdone := fillAll_finished (effectsAll pre ∪ t.effects)
        (effectsAll (before fs)).withoutStackAccess stack ts hsound.2 hclear.shallow hfinished
      generalize fillAll (effectsAll pre ∪ t.effects)
        (effectsAll (before fs)).withoutStackAccess stack ts = later at *
      have hinner : Clear (fs ++ [⟨id, kind, pre, later.result ++ post⟩]) later.stack
          t.effects.pops t.popCount :=
        hclear.inner
          (fun hp => by rw [effectsAll, Effects.union_pops, hp, Bool.true_or])
          hsound.1.popCount_eq_zero hsuffix hlength
          (fun hne => by
            rw [effectsAll_append, Effects.hasStackAccess_union, hdone hne,
              hpost (hsuffix.ne_nil hne)]
            rfl)
          hblocked
      have hfirst := fill_pulls _ later.stack t hsound.1 hinner
      rw [plug_concat, plug_concat, before_append, effectsAll_append,
        Effects.withoutStackAccess_union] at hfirst
      simpa using hfirst

end

/-- Filling a tree is a series of pulls. -/
theorem pulls_fill {stack : List Tree} {t : Tree} (ht : t.Sound) (hstack : Shallow stack) :
    Pulls (stack, t) ((fill ∅ stack t).stack, (fill ∅ stack t).result) :=
  fill_pulls [] stack t ht ⟨hstack, fun _ => rfl, fun _ => rfl, fun h => by cases h⟩

end Tree

namespace Nest

open StackTree.Tree (Shallow SoundAll soundAll_iff soundAll_reverse Pulls)

/-! ## The walk over a sequence -/

/-- What holds between two entries: everything is sound, what is on the working stack leaves a
value, and only its bottom has stack access. -/
structure Ready (w : Nest) : Prop where
  sound : w.Sound
  produces : ∀ q ∈ w.stack, q.kind.producesValue = true
  shallow : Shallow w.stack

theorem ready_start : Ready start where
  sound := trivial
  produces := by
    intro q hq
    cases hq
  shallow := Tree.shallow_nil

theorem Ready.stack_sound {w : Nest} (h : w.Ready) : SoundAll w.stack :=
  soundAll_iff.mpr fun q hq => soundAll_iff.mp h.sound q (List.mem_append_left _ hq)

/-- One entry is filled by pulls, and all is ready for the next. -/
theorem Ready.step {w : Nest} (h : w.Ready) {t : Tree} (ht : t.Sound) : (w.step t).Ready where
  sound := h.sound.step ht
  produces := by
    have hleft := Tree.fill_suffix ∅ w.stack t
    intro q hq
    rw [Nest.step, Nest.place] at hq
    split at hq
    · next hvalue =>
      rcases List.mem_cons.mp hq with rfl | hq
      · exact hvalue
      · cases hf : (t.fill ∅ w.stack).finished with
        | true =>
          rw [hf] at hq
          exact h.produces q (hleft.subset hq)
        | false =>
          rw [hf] at hq
          cases hq
    · cases hq
  shallow := by
    have hleft := Tree.fill_suffix ∅ w.stack t
    rw [Nest.step, Nest.place]
    split
    · cases hf : (t.fill ∅ w.stack).finished with
      | true =>
        exact (h.shallow.suffix hleft).cons fun hne =>
          Tree.fill_finished ∅ w.stack t ht h.shallow hf hne
      | false => exact Tree.shallow_nil.cons fun hne => absurd rfl hne
    · exact Tree.shallow_nil

theorem ready_run {w : Nest} (h : w.Ready) {ts : List Tree} (hts : SoundAll ts) :
    (w.run ts).Ready := by
  induction ts generalizing w with
  | nil => exact h
  | cons t ts ih => exact ih (h.step hts.1) hts.2

/-- The new sequence is sound. -/
theorem sound_output {ts : List Tree} (hts : SoundAll ts) : SoundAll (start.run ts).output :=
  soundAll_reverse.mpr (ready_run ready_start hts).sound

/-- A step of the walk pulls producers into the entry. -/
theorem Ready.pulls {w : Nest} (h : w.Ready) {t : Tree} (ht : t.Sound) :
    Pulls (w.stack, t) ((t.fill ∅ w.stack).stack, (t.fill ∅ w.stack).result) :=
  Tree.pulls_fill ht h.shallow

/-- The sequences before and after a pull are related, wherever in a sequence it happens. -/
structure KeptByPulls (R : List Tree → List Tree → Prop) : Prop where
  refl : ∀ ts, R ts ts
  trans : ∀ {ts us vs}, R ts us → R us vs → R ts vs
  around : ∀ {xs ts us} (ys : List Tree), SoundAll xs → R ts us → R (xs ++ ts ++ ys) (xs ++ us ++ ys)
  pull : ∀ {stack left t u}, Tree.Produced stack t → Tree.Pull (stack, t) (left, u) →
    R (stack.reverse ++ [t]) (left.reverse ++ [u])

namespace KeptByPulls

variable {R : List Tree → List Tree → Prop}

theorem pulls (hR : KeptByPulls R) {stack left : List Tree} {t u : Tree}
    (h : Tree.Produced stack t) (hp : Pulls (stack, t) (left, u)) :
    R (stack.reverse ++ [t]) (left.reverse ++ [u]) := by
  suffices hend : ∀ b : List Tree × Tree, Pulls (stack, t) b →
      Tree.Produced b.1 b.2 ∧ R (stack.reverse ++ [t]) (b.1.reverse ++ [b.2]) from
    (hend (left, u) hp).2
  intro b hb
  induction hb with
  | refl => exact ⟨h, hR.refl _⟩
  | tail _ hstep ih =>
    obtain ⟨hmid, hrelated⟩ := ih
    exact ⟨hmid.pull hstep, hR.trans hrelated (hR.pull hmid hstep)⟩

theorem step (hR : KeptByPulls R) {w : Nest} (h : w.Ready) {t : Tree} (ht : t.Sound) :
    R (w.trees.reverse ++ [t]) (w.step t).trees.reverse := by
  have hpulled := hR.pulls ⟨h.stack_sound, h.produces, ht⟩ (h.pulls ht)
  have hsettled : SoundAll w.settled.reverse :=
    soundAll_reverse.mpr (Tree.soundAll_append.mp h.sound).2
  rw [Nest.trees_step, Nest.trees]
  simpa using hR.around [] hsettled hpulled

/-- What pulls keep, the walk over a sequence keeps. -/
theorem run (hR : KeptByPulls R) {w : Nest} (h : w.Ready) {ts : List Tree} (hts : SoundAll ts) :
    R (w.trees.reverse ++ ts) (w.run ts).output := by
  induction ts generalizing w with
  | nil =>
    rw [List.append_nil]
    exact hR.refl _
  | cons t ts ih =>
    have hnil : SoundAll [] := trivial
    have hfirst := hR.around ts hnil (hR.step h hts.1)
    rw [List.nil_append, List.append_assoc, List.singleton_append] at hfirst
    exact hR.trans hfirst (ih (h.step hts.1) hts.2)

end KeptByPulls

end Nest

end StackTree
