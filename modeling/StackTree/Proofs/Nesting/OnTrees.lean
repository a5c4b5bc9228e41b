import StackTree.Nesting.Sequence
import StackTree.Proofs.Ownership.Trees

/-!
# Nesting on trees

Filling a node looks at nothing but the tree under it and the trees of the producers, and it changes
nothing else. So it is a function on trees, without names, links or faults: `Tree.fill` for one
tree, `Nest.step` for one entry of a sequence and `Nest.run` for a whole sequence. What nesting does
to meaning, to order and to shape is proved about these functions; that the operations on a routine
compute them is in `StackTree.Proofs.Nesting.Simulation`.

The operands of a node are filled from the last to the first, while the recursion goes along the
list. `fillAll` therefore fills the later operands before it looks at the first one, and carries the
effects of the operands that it has passed (`fillAll_append`).

## Main definitions

* `Tree.Sound`: the stored effects and the operand counts of a tree are right.
* `Tree.AllQuiet`: trees without stack access.
* `Tree.FillInduction`: induction on sound trees along the ways of filling one.
* `Tree.fill`, `Tree.fillAll`: filling a tree and its operands.
* `Nest`, `Nest.step`, `Nest.run`: nesting a sequence of trees.

## Main results

* `Tree.Sound.pops_iff`: the stored effects say exactly whether a tree has pops.
* `fill_suffix`: filling takes trees off the top of the working stack and does nothing else to it.
* `Tree.Sound.fill`: a filled tree is sound.
-/

namespace StackTree

/-! ## Effects -/

theorem Kind.intrinsic_pops (k : Kind) : k.intrinsic.pops = true ↔ k = .pop := by
  cases k with
  | binary op => cases op <;> simp [intrinsic, BinaryOp.mayThrow, Effects.raise, Effects.empty]
  | call => simp [intrinsic, Effects.read, Effects.write, Effects.raise, Effects.empty]
  | _ =>
    simp [intrinsic, Effects.read, Effects.write, Effects.pop, Effects.peek, Effects.exit,
      Effects.empty]

theorem Kind.intrinsic_peeks (k : Kind) : k.intrinsic.peeks = true ↔ k = .peek := by
  cases k with
  | binary op => cases op <;> simp [intrinsic, BinaryOp.mayThrow, Effects.raise, Effects.empty]
  | call => simp [intrinsic, Effects.read, Effects.write, Effects.raise, Effects.empty]
  | _ =>
    simp [intrinsic, Effects.read, Effects.write, Effects.pop, Effects.peek, Effects.exit,
      Effects.empty]

theorem Kind.hasStackAccess_intrinsic {k : Kind} (hpop : k ≠ .pop) (hpeek : k ≠ .peek) :
    k.intrinsic.hasStackAccess = false := by
  rw [Effects.hasStackAccess_eq_false_iff]
  have hpops := k.intrinsic_pops
  have hpeeks := k.intrinsic_peeks
  simp only [hpop, hpeek, iff_false, Bool.not_eq_true] at hpops hpeeks
  exact ⟨hpeeks, hpops⟩

/-- Whether the operands of nodes of the kind are filled. -/
def Kind.isComposite : Kind → Bool
  | .pop | .peek | .const _ | .load _ => false
  | _ => true

theorem Kind.ne_pop_of_isComposite {k : Kind} (h : k.isComposite = true) : k ≠ .pop := by
  rintro rfl
  cases h

theorem Kind.ne_peek_of_isComposite {k : Kind} (h : k.isComposite = true) : k ≠ .peek := by
  rintro rfl
  cases h

theorem Kind.hasStackAccess_of_isComposite {k : Kind} (h : k.isComposite = true) :
    k.intrinsic.hasStackAccess = false :=
  Kind.hasStackAccess_intrinsic (Kind.ne_pop_of_isComposite h) (Kind.ne_peek_of_isComposite h)

namespace Tree

/-! ## Sound trees -/

mutual

/-- The stored effects and the operand counts of all nodes are right. -/
def Sound : Tree → Prop
  | node _ kind effects children =>
    kind.accepts children.length = true ∧ effects = kind.intrinsic ∪ effectsAll children ∧
      SoundAll children

/-- All the trees are sound. -/
def SoundAll : List Tree → Prop
  | [] => True
  | tree :: rest => tree.Sound ∧ SoundAll rest

end

theorem soundAll_iff {ts : List Tree} : SoundAll ts ↔ ∀ t ∈ ts, t.Sound := by
  induction ts with
  | nil => simp [SoundAll]
  | cons t ts ih => simp [SoundAll, ih]

theorem soundAll_of_suffix {left stack : List Tree} (hs : left <:+ stack) (h : SoundAll stack) :
    SoundAll left :=
  soundAll_iff.mpr fun t ht => soundAll_iff.mp h t (hs.subset ht)

theorem Sound.arity {t : Tree} (h : t.Sound) : t.kind.accepts t.children.length = true := by
  obtain ⟨id, kind, effects, children⟩ := t
  exact h.1

theorem Sound.effects_eq {t : Tree} (h : t.Sound) :
    t.effects = t.kind.intrinsic ∪ effectsAll t.children := by
  obtain ⟨id, kind, effects, children⟩ := t
  exact h.2.1

theorem Sound.children {t : Tree} (h : t.Sound) : SoundAll t.children := by
  obtain ⟨id, kind, effects, children⟩ := t
  exact h.2.2

/-- A sound tree is the one over its operands. -/
theorem Sound.eq_atop {t : Tree} (h : t.Sound) : t = atop t.id t.kind t.children := by
  obtain ⟨id, kind, effects, children⟩ := t
  simp only [atop, Tree.id, Tree.kind, Tree.children, node.injEq, true_and, and_true]
  exact h.2.1

theorem sound_atop {id : NodeId} {kind : Kind} {children : List Tree}
    (ha : kind.accepts children.length = true) (hc : SoundAll children) :
    (atop id kind children).Sound :=
  ⟨ha, rfl, hc⟩

/-- A node of a kind without operands has none. -/
theorem Sound.children_eq_nil {t : Tree} (h : t.Sound)
    (hk : t.kind = .pop ∨ t.kind = .peek ∨ (∃ v, t.kind = .const v) ∨ ∃ l, t.kind = .load l) :
    t.children = [] := by
  have ha := h.arity
  rcases hk with hk | hk | ⟨v, hk⟩ | ⟨l, hk⟩
  all_goals
    rw [hk] at ha
    simpa [Kind.accepts] using ha

/-- None of the trees has stack access. -/
def AllQuiet (ts : List Tree) : Prop := ∀ t ∈ ts, t.effects.hasStackAccess = false

theorem AllQuiet.effectsAll {ts : List Tree} (h : AllQuiet ts) :
    (effectsAll ts).hasStackAccess = false := by
  induction ts with
  | nil => rfl
  | cons t ts ih =>
    rw [AllQuiet, List.forall_mem_cons] at h
    rw [Tree.effectsAll, Effects.hasStackAccess_union, h.1, ih h.2]
    rfl

theorem AllQuiet.atop {kind : Kind} {ts : List Tree} (h : AllQuiet ts) (hpop : kind ≠ .pop)
    (hpeek : kind ≠ .peek) (n : NodeId) : (atop n kind ts).effects.hasStackAccess = false := by
  rw [effects_atop, Effects.hasStackAccess_union, Kind.hasStackAccess_intrinsic hpop hpeek,
    h.effectsAll]
  rfl

/-- The cases of an induction on sound trees and lists of them: one for each way of filling a tree,
and the two of a list. -/
structure FillInduction (P : Tree → Prop) (Q : List Tree → Prop) : Prop where
  pop : ∀ id, P (atop id .pop [])
  peek : ∀ id, P (atop id .peek [])
  leaf : ∀ id kind, kind.isComposite = false → kind ≠ .pop → kind ≠ .peek → P (atop id kind [])
  composite : ∀ id kind cs, kind.isComposite = true → SoundAll cs → Q cs → P (atop id kind cs)
  nil : Q []
  cons : ∀ t ts, t.Sound → SoundAll ts → P t → Q ts → Q (t :: ts)

namespace FillInduction

variable {P : Tree → Prop} {Q : List Tree → Prop}

mutual

/-- What the cases show holds of every sound tree. -/
theorem tree (h : FillInduction P Q) : (t : Tree) → t.Sound → P t
  | node id kind e cs, hsound => by
    rw [hsound.eq_atop]
    by_cases hk : kind.isComposite = true
    · exact h.composite id kind cs hk hsound.2.2 (h.trees cs hsound.2.2)
    · have hnil : cs = [] := by
        apply hsound.children_eq_nil
        show kind = .pop ∨ kind = .peek ∨ (∃ v, kind = .const v) ∨ ∃ l, kind = .load l
        cases kind <;> simp_all [Kind.isComposite]
      rw [Bool.not_eq_true] at hk
      subst hnil
      by_cases hpop : kind = .pop
      · rw [hpop]
        exact h.pop id
      · by_cases hpeek : kind = .peek
        · rw [hpeek]
          exact h.peek id
        · exact h.leaf id kind hk hpop hpeek

/-- What the cases show holds of every list of sound trees. -/
theorem trees (h : FillInduction P Q) : (ts : List Tree) → SoundAll ts → Q ts
  | [], _ => h.nil
  | t :: ts, hsound => h.cons t ts hsound.1 hsound.2 (h.tree t hsound.1) (h.trees ts hsound.2)

end

end FillInduction

mutual

/-- The stored effects of a sound tree say exactly whether it has pops. -/
theorem Sound.pops_iff : {t : Tree} → t.Sound → (t.effects.pops = true ↔ 0 < t.popCount)
  | node _ kind effects children, h => by
    have hchildren := SoundAll.pops_iff h.2.2
    rw [Tree.effects, h.2.1, Effects.union_pops, Bool.or_eq_true, hchildren, Kind.intrinsic_pops,
      popCount]
    split
    · next hk =>
      simp only [hk, true_or, true_iff]
      omega
    · next hk => simp [hk]

theorem SoundAll.pops_iff : {ts : List Tree} → SoundAll ts →
    ((effectsAll ts).pops = true ↔ 0 < popCounts ts)
  | [], _ => by simp [effectsAll, popCounts]
  | t :: ts, h => by
    have hfirst := Sound.pops_iff h.1
    have hrest := SoundAll.pops_iff h.2
    rw [effectsAll, Effects.union_pops, Bool.or_eq_true, hfirst, hrest, popCounts]
    omega

end

theorem Sound.popCount_eq_zero {t : Tree} (h : t.Sound) (hp : t.effects.pops = false) :
    t.popCount = 0 := by
  have := h.pops_iff
  rw [hp] at this
  simp only [Bool.false_eq_true, false_iff] at this
  omega

theorem SoundAll.popCounts_eq_zero {ts : List Tree} (h : SoundAll ts)
    (hp : (effectsAll ts).pops = false) : popCounts ts = 0 := by
  have := h.pops_iff
  rw [hp] at this
  simp only [Bool.false_eq_true, false_iff] at this
  omega

/-- A question about effects that a union answers as one of its parts does. -/
structure Joins (flag : Effects → Bool) : Prop where
  empty : flag ∅ = false
  union : ∀ a b, flag (a ∪ b) = (flag a || flag b)

mutual

/-- What a tree may do is what one of its nodes adds. -/
theorem Joins.iff {flag : Effects → Bool} (hf : Joins flag) : (t : Tree) → t.Sound →
    (flag t.effects = true ↔ ∃ u ∈ t.subtrees, flag u.kind.intrinsic = true)
  | node id kind e cs, h => by
    rw [Tree.effects, h.2.1, hf.union, Bool.or_eq_true, hf.all_iff cs h.2.2, subtrees]
    simp only [List.mem_append, List.mem_singleton, or_and_right, exists_or, exists_eq_left]
    exact or_comm

theorem Joins.all_iff {flag : Effects → Bool} (hf : Joins flag) : (ts : List Tree) → SoundAll ts →
    (flag (effectsAll ts) = true ↔ ∃ u ∈ subtreesAll ts, flag u.kind.intrinsic = true)
  | [], _ => by
    rw [effectsAll, hf.empty]
    simp [subtreesAll]
  | t :: ts, h => by
    rw [effectsAll, hf.union, Bool.or_eq_true, hf.iff t h.1, hf.all_iff ts h.2, subtreesAll]
    simp only [List.mem_append, or_and_right, exists_or]

end

/-- A tree peeks if one of its nodes does. -/
theorem Sound.peeks_iff_exists {t : Tree} (h : t.Sound) :
    t.effects.peeks = true ↔ ∃ u ∈ t.subtrees, u.kind = .peek := by
  have hflag : Joins Effects.peeks := ⟨rfl, Effects.union_peeks⟩
  simp only [hflag.iff t h, Kind.intrinsic_peeks]

/-- A tree has pops if one of its nodes is one. -/
theorem Sound.pops_iff_exists {t : Tree} (h : t.Sound) :
    t.effects.pops = true ↔ ∃ u ∈ t.subtrees, u.kind = .pop := by
  have hflag : Joins Effects.pops := ⟨rfl, Effects.union_pops⟩
  simp only [hflag.iff t h, Kind.intrinsic_pops]

theorem popCounts_append (ts us : List Tree) :
    popCounts (ts ++ us) = popCounts ts + popCounts us := by
  induction ts with
  | nil => simp [popCounts]
  | cons t ts ih => simp [popCounts, ih, Nat.add_assoc]

/-! ## Filling a tree -/

/-- What filling makes of a tree, or of a list of trees. -/
structure Filling (α : Type) where
  /-- What takes the place of the tree. -/
  result : α
  /-- The producers that are left, the most recent first. -/
  stack : List Tree
  /-- Whether no pending operand had to be left. -/
  finished : Bool

/-- Whether a tree must leave the working stack alone, given the effects of earlier operands. -/
def blocked (earlier : Effects) (stack : List Tree) (t : Tree) : Bool :=
  t.effects.pops &&
    (earlier.peeks || (earlier.pops && (stack.take t.popCount).any (·.effects.hasStackAccess)))

mutual

/-- Fills the pops of a tree. -/
def fill (before : Effects) (stack : List Tree) : Tree → Filling Tree
  | node id .pop effects children =>
    match stack with
    | [] => ⟨node id .pop effects children, [], false⟩
    | top :: rest =>
      if mayReorder before top.effects then ⟨top, rest, true⟩
      else ⟨node id .pop effects children, top :: rest, false⟩
  | node id .peek effects children => ⟨node id .peek effects children, stack, stack.isEmpty⟩
  | node id (.const v) effects children => ⟨node id (.const v) effects children, stack, true⟩
  | node id (.load l) effects children => ⟨node id (.load l) effects children, stack, true⟩
  | node id kind _ children =>
    let filled := fillAll ∅ before stack children
    ⟨atop id kind filled.result, filled.stack, filled.finished⟩

/-- Fills the pops of operands, the last first. The operands before them have effects `earlier`. -/
def fillAll (earlier before : Effects) (stack : List Tree) : List Tree → Filling (List Tree)
  | [] => ⟨[], stack, true⟩
  | t :: rest =>
    let later := fillAll (earlier ∪ t.effects) before stack rest
    if later.finished && t.effects.hasStackAccess then
      if blocked earlier later.stack t then ⟨t :: later.result, later.stack, false⟩
      else
        let filled := fill (before ∪ earlier.withoutStackAccess) later.stack t
        ⟨filled.result :: later.result, filled.stack, filled.finished⟩
    else ⟨t :: later.result, later.stack, later.finished⟩

end

/-! ### One equation for each way -/

theorem fill_pop_cons {before : Effects} {id : NodeId} {e : Effects} {cs : List Tree} (top : Tree)
    (rest : List Tree) : fill before (top :: rest) (node id .pop e cs) =
      if mayReorder before top.effects then ⟨top, rest, true⟩
      else ⟨node id .pop e cs, top :: rest, false⟩ := by
  simp [fill]

@[simp] theorem fill_peek {before : Effects} {stack : List Tree} {id : NodeId} {e : Effects}
    {cs : List Tree} : fill before stack (node id .peek e cs) =
      ⟨node id .peek e cs, stack, stack.isEmpty⟩ := by
  simp [fill]

theorem fill_composite {before : Effects} {stack : List Tree} {id : NodeId} {kind : Kind}
    {e : Effects} {cs : List Tree} (hk : kind.isComposite = true) :
    fill before stack (node id kind e cs) =
      ⟨atop id kind (fillAll ∅ before stack cs).result, (fillAll ∅ before stack cs).stack,
        (fillAll ∅ before stack cs).finished⟩ := by
  cases kind <;> simp [Kind.isComposite] at hk <;> simp [fill]

/-- A constant or a local variable is finished as it is. -/
theorem fill_leaf {before : Effects} {stack : List Tree} {id : NodeId} {kind : Kind}
    {e : Effects} {cs : List Tree} (hk : kind.isComposite = false) (hpop : kind ≠ .pop)
    (hpeek : kind ≠ .peek) :
    fill before stack (node id kind e cs) = ⟨node id kind e cs, stack, true⟩ := by
  cases kind <;> simp [Kind.isComposite] at hk hpop hpeek <;> simp [fill]

/-- What takes the place of a pop is the most recent producer, if it may. -/
theorem fill_atop_pop {before : Effects} {id : NodeId} (top : Tree) (rest : List Tree) :
    fill before (top :: rest) (atop id .pop []) =
      if mayReorder before top.effects then ⟨top, rest, true⟩
      else ⟨atop id .pop [], top :: rest, false⟩ :=
  fill_pop_cons top rest

/-- A pop stays and stalls, or the most recent producer takes its place. -/
theorem fill_atop_pop_cases (before : Effects) (stack : List Tree) (id : NodeId) :
    fill before stack (atop id .pop []) = ⟨atop id .pop [], stack, false⟩ ∨
      ∃ top rest, stack = top :: rest ∧
        fill before stack (atop id .pop []) = ⟨top, rest, true⟩ := by
  cases stack with
  | nil => exact .inl rfl
  | cons top rest =>
    rw [fill_atop_pop]
    split
    · exact .inr ⟨top, rest, rfl, rfl⟩
    · exact .inl rfl

theorem fill_atop_peek {before : Effects} {stack : List Tree} {id : NodeId} :
    fill before stack (atop id .peek []) = ⟨atop id .peek [], stack, stack.isEmpty⟩ :=
  fill_peek

theorem fill_atop {before : Effects} {stack : List Tree} {id : NodeId} {kind : Kind}
    {cs : List Tree} (hk : kind.isComposite = true) :
    fill before stack (atop id kind cs) =
      ⟨atop id kind (fillAll ∅ before stack cs).result, (fillAll ∅ before stack cs).stack,
        (fillAll ∅ before stack cs).finished⟩ :=
  fill_composite hk

theorem fill_atop_leaf {before : Effects} {stack : List Tree} {id : NodeId} {kind : Kind}
    (hk : kind.isComposite = false) (hpop : kind ≠ .pop) (hpeek : kind ≠ .peek) :
    fill before stack (atop id kind []) = ⟨atop id kind [], stack, true⟩ :=
  fill_leaf hk hpop hpeek

@[simp] theorem fillAll_nil {earlier before : Effects} {stack : List Tree} :
    fillAll earlier before stack [] = ⟨[], stack, true⟩ := by
  simp [fillAll]

/-- What happens to the first operand once the later ones are dealt with. -/
def fillFirst (earlier before : Effects) (t : Tree) (later : Filling (List Tree)) :
    Filling (List Tree) :=
  if later.finished && t.effects.hasStackAccess then
    if blocked earlier later.stack t then ⟨t :: later.result, later.stack, false⟩
    else
      let filled := fill (before ∪ earlier.withoutStackAccess) later.stack t
      ⟨filled.result :: later.result, filled.stack, filled.finished⟩
  else ⟨t :: later.result, later.stack, later.finished⟩

theorem fillAll_cons {earlier before : Effects} {stack : List Tree} (t : Tree) (rest : List Tree) :
    fillAll earlier before stack (t :: rest) =
      fillFirst earlier before t (fillAll (earlier ∪ t.effects) before stack rest) := by
  simp only [fillAll, fillFirst]

/-- Once the later operands stall, the first one is left as it is. -/
theorem fillFirst_of_stalled {earlier before : Effects} {t : Tree} {later : Filling (List Tree)}
    (h : later.finished = false) :
    fillFirst earlier before t later = ⟨t :: later.result, later.stack, false⟩ := by
  simp [fillFirst, h]

/-- An operand without stack access is left as it is. -/
theorem fillFirst_of_quiet {earlier before : Effects} {t : Tree} {later : Filling (List Tree)}
    (h : t.effects.hasStackAccess = false) :
    fillFirst earlier before t later = ⟨t :: later.result, later.stack, later.finished⟩ := by
  cases hf : later.finished <;> simp [fillFirst, hf, h]

/-- Only an operand with pops has to wait. -/
theorem pops_of_blocked {earlier : Effects} {stack : List Tree} {t : Tree}
    (h : blocked earlier stack t = true) : t.effects.pops = true := by
  rw [blocked, Bool.and_eq_true] at h
  exact h.1

/-- After operands without stack access no operand has to wait. -/
theorem not_blocked_of_quiet {earlier : Effects} {stack : List Tree} {t : Tree}
    (h : earlier.hasStackAccess = false) : blocked earlier stack t = false := by
  obtain ⟨hpeeks, hpops⟩ := Effects.hasStackAccess_eq_false_iff.mp h
  rw [blocked, hpeeks, hpops, Bool.false_and, Bool.or_false, Bool.and_false]

/-- An operand that has to wait stalls. -/
theorem fillFirst_of_blocked {earlier before : Effects} {t : Tree} {later : Filling (List Tree)}
    (h : blocked earlier later.stack t = true) :
    fillFirst earlier before t later = ⟨t :: later.result, later.stack, false⟩ := by
  have haccess : t.effects.hasStackAccess = true := by
    rw [Effects.hasStackAccess, pops_of_blocked h, Bool.or_true]
  cases hf : later.finished <;> simp [fillFirst, hf, haccess, h]

/-- An operand that need not wait is filled once the later ones are finished. -/
theorem fillFirst_of_open {earlier before : Effects} {t : Tree} {later : Filling (List Tree)}
    (hf : later.finished = true) (ha : t.effects.hasStackAccess = true)
    (hb : blocked earlier later.stack t = false) :
    fillFirst earlier before t later =
      ⟨(fill (before ∪ earlier.withoutStackAccess) later.stack t).result :: later.result,
        (fill (before ∪ earlier.withoutStackAccess) later.stack t).stack,
        (fill (before ∪ earlier.withoutStackAccess) later.stack t).finished⟩ := by
  simp [fillFirst, hf, ha, hb]

/-- The four ways in which the first operand can go. -/
theorem fillFirst_cases (earlier before : Effects) (t : Tree) (later : Filling (List Tree)) :
    (later.finished = false ∧
      fillFirst earlier before t later = ⟨t :: later.result, later.stack, false⟩) ∨
    (later.finished = true ∧ t.effects.hasStackAccess = false ∧
      fillFirst earlier before t later = ⟨t :: later.result, later.stack, true⟩) ∨
    (later.finished = true ∧ t.effects.hasStackAccess = true ∧
      blocked earlier later.stack t = true ∧
      fillFirst earlier before t later = ⟨t :: later.result, later.stack, false⟩) ∨
    (later.finished = true ∧ t.effects.hasStackAccess = true ∧
      blocked earlier later.stack t = false ∧
      fillFirst earlier before t later =
        let filled := fill (before ∪ earlier.withoutStackAccess) later.stack t
        ⟨filled.result :: later.result, filled.stack, filled.finished⟩) := by
  cases hf : later.finished with
  | false => exact Or.inl ⟨rfl, fillFirst_of_stalled hf⟩
  | true =>
    right
    cases ha : t.effects.hasStackAccess with
    | false => exact Or.inl ⟨rfl, rfl, by rw [fillFirst_of_quiet ha, hf]⟩
    | true =>
      right
      cases hb : blocked earlier later.stack t with
      | true => exact Or.inl ⟨rfl, rfl, rfl, fillFirst_of_blocked hb⟩
      | false => exact Or.inr ⟨rfl, rfl, rfl, fillFirst_of_open hf ha hb⟩

/-- The first operand stays as it is, or it is filled from what the later ones left. -/
theorem fillFirst_stays_or_fills (earlier before : Effects) (t : Tree)
    (later : Filling (List Tree)) :
    (∃ finished, fillFirst earlier before t later = ⟨t :: later.result, later.stack, finished⟩ ∧
      (finished = true → later.finished = true ∧ t.effects.hasStackAccess = false)) ∨
    (later.finished = true ∧ blocked earlier later.stack t = false ∧
      fillFirst earlier before t later =
        ⟨(fill (before ∪ earlier.withoutStackAccess) later.stack t).result :: later.result,
          (fill (before ∪ earlier.withoutStackAccess) later.stack t).stack,
          (fill (before ∪ earlier.withoutStackAccess) later.stack t).finished⟩) := by
  rcases fillFirst_cases earlier before t later with
    ⟨-, heq⟩ | ⟨hlater, hquiet, heq⟩ | ⟨-, -, -, heq⟩ | ⟨hlater, -, hopen, heq⟩
  · exact Or.inl ⟨false, heq, Bool.false_ne_true.elim⟩
  · exact Or.inl ⟨true, heq, fun _ => ⟨hlater, hquiet⟩⟩
  · exact Or.inl ⟨false, heq, Bool.false_ne_true.elim⟩
  · exact Or.inr ⟨hlater, hopen, heq⟩

/-- Filling a list of operands fills its later part first, and then the earlier part if the later
one finished. -/
theorem fillAll_append {earlier before : Effects} {stack : List Tree} (xs ys : List Tree) :
    fillAll earlier before stack (xs ++ ys) =
      let later := fillAll (earlier ∪ effectsAll xs) before stack ys
      if later.finished then
        let first := fillAll earlier before later.stack xs
        ⟨first.result ++ later.result, first.stack, first.finished⟩
      else ⟨xs ++ later.result, later.stack, false⟩ := by
  induction xs generalizing earlier with
  | nil =>
    simp only [List.nil_append, effectsAll, Effects.union_empty, fillAll_nil]
    obtain ⟨result, rest, finished⟩ := fillAll earlier before stack ys
    cases finished <;> rfl
  | cons x xs ih =>
    rw [List.cons_append, fillAll_cons, ih, effectsAll, ← Effects.union_assoc]
    cases hf : (fillAll (earlier ∪ x.effects ∪ effectsAll xs) before stack ys).finished with
    | false => simp [fillFirst, hf]
    | true =>
      simp only [hf, if_true, fillAll_cons]
      rcases fillFirst_cases earlier before x (fillAll (earlier ∪ x.effects) before
        (fillAll (earlier ∪ x.effects ∪ effectsAll xs) before stack ys).stack xs) with
        ⟨hx, heq⟩ | ⟨hx, ha, heq⟩ | ⟨hx, ha, hb, heq⟩ | ⟨hx, ha, hb, heq⟩
      all_goals
        rw [heq]
        simp [fillFirst, *]

/-! ### What filling keeps -/

mutual

/-- Filling takes trees off the top of the working stack and does nothing else to it. -/
theorem fill_suffix : (before : Effects) → (stack : List Tree) → (t : Tree) →
    (fill before stack t).stack <:+ stack
  | before, stack, node id kind e cs => by
    by_cases hk : kind.isComposite = true
    · rw [fill_composite hk]
      exact fillAll_suffix ∅ before stack cs
    · rw [Bool.not_eq_true] at hk
      by_cases hpop : kind = .pop
      · subst hpop
        cases stack with
        | nil => exact List.suffix_refl _
        | cons top rest =>
          rw [fill_pop_cons]
          split
          · exact List.suffix_cons top rest
          · exact List.suffix_refl _
      · by_cases hpeek : kind = .peek
        · subst hpeek
          exact List.suffix_refl _
        · simp only [fill_leaf hk hpop hpeek, List.suffix_refl]

theorem fillAll_suffix : (earlier before : Effects) → (stack : List Tree) → (ts : List Tree) →
    (fillAll earlier before stack ts).stack <:+ stack
  | _, _, _, [] => List.suffix_refl _
  | earlier, before, stack, t :: ts => by
    have hrest := fillAll_suffix (earlier ∪ t.effects) before stack ts
    rw [fillAll_cons]
    rcases fillFirst_stays_or_fills earlier before t
        (fillAll (earlier ∪ t.effects) before stack ts) with ⟨_, heq, -⟩ | ⟨-, -, heq⟩
    · rw [heq]
      exact hrest
    · rw [heq]
      exact (fill_suffix (before ∪ earlier.withoutStackAccess) _ t).trans hrest

end

mutual

/-- A filled tree is sound, if the producers are. -/
theorem Sound.fill : (before : Effects) → (stack : List Tree) → (t : Tree) → SoundAll stack →
    t.Sound → (fill before stack t).result.Sound
  | before, stack, node id kind e cs, hstack, h => by
    by_cases hk : kind.isComposite = true
    · rw [fill_composite hk]
      obtain ⟨hlength, hsound⟩ := SoundAll.fillAll ∅ before stack cs hstack h.2.2
      exact sound_atop (hlength ▸ h.1) hsound
    · rw [Bool.not_eq_true] at hk
      by_cases hpop : kind = .pop
      · subst hpop
        cases stack with
        | nil => exact h
        | cons top rest =>
          rw [fill_pop_cons]
          split
          · exact hstack.1
          · exact h
      · by_cases hpeek : kind = .peek
        · subst hpeek
          exact h
        · rw [fill_leaf hk hpop hpeek]
          exact h

theorem SoundAll.fillAll : (earlier before : Effects) → (stack : List Tree) → (ts : List Tree) →
    SoundAll stack → SoundAll ts →
    (fillAll earlier before stack ts).result.length = ts.length ∧
      SoundAll (fillAll earlier before stack ts).result
  | _, _, _, [], _, _ => ⟨rfl, trivial⟩
  | earlier, before, stack, t :: ts, hstack, h => by
    obtain ⟨hlength, hrest⟩ :=
      SoundAll.fillAll (earlier ∪ t.effects) before stack ts hstack h.2
    have hleft := soundAll_of_suffix (fillAll_suffix (earlier ∪ t.effects) before stack ts) hstack
    rw [fillAll_cons]
    rcases fillFirst_stays_or_fills earlier before t
        (Tree.fillAll (earlier ∪ t.effects) before stack ts) with ⟨_, heq, -⟩ | ⟨-, -, heq⟩
    · rw [heq]
      exact ⟨by simp [hlength], h.1, hrest⟩
    · rw [heq]
      exact ⟨by simp [hlength],
        Sound.fill (before ∪ earlier.withoutStackAccess) _ t hleft h.1, hrest⟩

end

theorem forestNodes_subset_of_suffix {left stack : List Tree} (h : left <:+ stack) :
    forestNodes left ⊆ forestNodes stack := by
  intro m hm
  obtain ⟨t, ht, hmt⟩ := mem_forestNodes.mp hm
  exact mem_forestNodes.mpr ⟨t, h.subset ht, hmt⟩

mutual

/-- A filled tree has no nodes but its own and those of the producers. -/
theorem fill_nodes : (before : Effects) → (stack : List Tree) → (t : Tree) →
    (fill before stack t).result.nodes ⊆ t.nodes ++ forestNodes stack
  | before, stack, node id kind e cs => by
    by_cases hk : kind.isComposite = true
    · rw [fill_composite hk]
      have hbelow := fillAll_nodes ∅ before stack cs
      intro m hm
      simp only [atop, nodes, List.mem_append, List.mem_singleton] at hm ⊢
      rcases hm with hm | hm
      · rcases List.mem_append.mp (hbelow hm) with hm | hm
        · exact Or.inl (Or.inl hm)
        · exact Or.inr hm
      · exact Or.inl (Or.inr hm)
    · rw [Bool.not_eq_true] at hk
      by_cases hpop : kind = .pop
      · subst hpop
        cases stack with
        | nil => exact List.subset_append_left _ _
        | cons top rest =>
          rw [fill_pop_cons]
          split
          · intro m hm
            exact List.mem_append_right _ (List.mem_append_left _ hm)
          · exact List.subset_append_left _ _
      · by_cases hpeek : kind = .peek
        · subst hpeek
          exact List.subset_append_left _ _
        · rw [fill_leaf hk hpop hpeek]
          exact List.subset_append_left _ _

theorem fillAll_nodes : (earlier before : Effects) → (stack : List Tree) → (ts : List Tree) →
    forestNodes (fillAll earlier before stack ts).result ⊆ forestNodes ts ++ forestNodes stack
  | _, _, _, [] => List.nil_subset _
  | earlier, before, stack, t :: ts => by
    have hrest := fillAll_nodes (earlier ∪ t.effects) before stack ts
    have hleft := forestNodes_subset_of_suffix
      (fillAll_suffix (earlier ∪ t.effects) before stack ts)
    rw [fillAll_cons]
    intro m hm
    rcases fillFirst_stays_or_fills earlier before t
        (fillAll (earlier ∪ t.effects) before stack ts) with ⟨_, heq, -⟩ | ⟨-, -, heq⟩
    all_goals
      rw [heq, forestNodes] at hm
      rw [forestNodes, List.append_assoc]
      rcases List.mem_append.mp hm with hm | hm
    · exact List.mem_append_left _ hm
    · exact List.mem_append_right _ (hrest hm)
    · have hfirst := fill_nodes (before ∪ earlier.withoutStackAccess) _ t hm
      rcases List.mem_append.mp hfirst with hm | hm
      · exact List.mem_append_left _ hm
      · exact List.mem_append_right _ (List.mem_append_right _ (hleft hm))
    · exact List.mem_append_right _ (hrest hm)

end

/-- A node that is not a bare pop keeps its place. -/
theorem id_fill {before : Effects} {stack : List Tree} {t : Tree} (h : t.kind ≠ .pop) :
    (fill before stack t).result.id = t.id := by
  obtain ⟨id, kind, e, cs⟩ := t
  by_cases hk : kind.isComposite = true
  · rw [fill_composite hk]
    rfl
  · rw [Bool.not_eq_true] at hk
    by_cases hpeek : kind = .peek
    · subst hpeek
      rfl
    · rw [fill_leaf hk h hpeek]

/-- A node that is not a bare pop goes on doing what it does. -/
theorem kind_fill {before : Effects} {stack : List Tree} {t : Tree} (h : t.kind ≠ .pop) :
    (fill before stack t).result.kind = t.kind := by
  obtain ⟨id, kind, e, cs⟩ := t
  by_cases hk : kind.isComposite = true
  · rw [fill_composite hk]
    rfl
  · rw [Bool.not_eq_true] at hk
    by_cases hpeek : kind = .peek
    · subst hpeek
      rfl
    · rw [fill_leaf hk h hpeek]

/-- A bare pop is left as it is, or the most recent producer takes its place. -/
theorem fill_pop_cases (before : Effects) (stack : List Tree) {t : Tree} (h : t.kind = .pop) :
    (fill before stack t).result = t ∧ (fill before stack t).stack = stack ∧
        (fill before stack t).finished = false ∨
      ∃ top, stack = top :: (fill before stack t).stack ∧
        (fill before stack t).result = top ∧ (fill before stack t).finished = true ∧
        mayReorder before top.effects = true := by
  obtain ⟨id, kind, e, cs⟩ := t
  obtain rfl : kind = .pop := h
  cases stack with
  | nil => exact Or.inl ⟨rfl, rfl, rfl⟩
  | cons top rest =>
    rw [fill_pop_cons]
    split
    · next hm => exact Or.inr ⟨top, rfl, rfl, rfl, hm⟩
    · exact Or.inl ⟨rfl, rfl, rfl⟩

end Tree

/-! ## Nesting a sequence -/

/-- What the walk over a sequence has made of the entries so far. -/
structure Nest where
  /-- Entries of the new sequence, the most recent first. -/
  settled : List Tree
  /-- Trees whose values are produced and not yet taken, the most recent first. -/
  stack : List Tree
  /-- How many entries stalled. -/
  stalled : Nat

namespace Nest

open StackTree.Tree (SoundAll soundAll_iff)

/-- Counts an entry that stalled and settles the stack before it. -/
def settleStalled (s : Nest) (finished : Bool) : Nest :=
  if finished then s
  else { settled := s.stack ++ s.settled, stack := [], stalled := s.stalled + 1 }

/-- Puts a tree onto the working stack, or settles it after the stack if it leaves no value. -/
def place (s : Nest) (t : Tree) : Nest :=
  if t.kind.producesValue then { s with stack := t :: s.stack }
  else { s with settled := t :: (s.stack ++ s.settled), stack := [] }

/-- Fills one entry and puts it onto the working stack or settles it. -/
def step (s : Nest) (t : Tree) : Nest :=
  let filled := t.fill ∅ s.stack
  ({ s with stack := filled.stack }.settleStalled filled.finished).place filled.result

/-- Nothing looked at yet. -/
def start : Nest := ⟨[], [], 0⟩

/-- Everything looked at, in order. -/
def run (s : Nest) (ts : List Tree) : Nest := ts.foldl step s

/-- Everything that the walk has made, the most recent first. -/
def trees (s : Nest) : List Tree := s.stack ++ s.settled

/-- The new sequence, with what is left on the working stack at its end. -/
def output (s : Nest) : List Tree := s.trees.reverse

@[simp] theorem run_nil (s : Nest) : s.run [] = s := rfl

@[simp] theorem run_cons (s : Nest) (t : Tree) (ts : List Tree) :
    s.run (t :: ts) = (s.step t).run ts := rfl

theorem run_append (s : Nest) (ts us : List Tree) : s.run (ts ++ us) = (s.run ts).run us :=
  List.foldl_append

@[simp] theorem trees_settleStalled (s : Nest) (finished : Bool) :
    (s.settleStalled finished).trees = s.trees := by
  cases finished <;> rfl

@[simp] theorem trees_place (s : Nest) (t : Tree) : (s.place t).trees = t :: s.trees := by
  rw [place]
  split <;> rfl

@[simp] theorem stalled_place (w : Nest) (t : Tree) : (w.place t).stalled = w.stalled := by
  rw [place]
  split <;> rfl

/-- An entry is filled from the working stack and comes last. -/
theorem trees_step (s : Nest) (t : Tree) :
    (s.step t).trees = (t.fill ∅ s.stack).result :: ((t.fill ∅ s.stack).stack ++ s.settled) := by
  rw [step, trees_place, trees_settleStalled]
  rfl

/-- All trees that the walk has made are sound. -/
def Sound (s : Nest) : Prop := SoundAll s.trees

theorem Sound.step {s : Nest} (h : s.Sound) {t : Tree} (ht : t.Sound) : (s.step t).Sound := by
  have hstack : SoundAll s.stack := soundAll_iff.mpr fun u hu =>
    soundAll_iff.mp h u (List.mem_append_left _ hu)
  rw [Nest.Sound, trees_step]
  refine ⟨Tree.Sound.fill ∅ s.stack t hstack ht, soundAll_iff.mpr fun u hu => ?_⟩
  rcases List.mem_append.mp hu with hu | hu
  · exact soundAll_iff.mp hstack u ((Tree.fill_suffix ∅ s.stack t).subset hu)
  · exact soundAll_iff.mp h u (List.mem_append_right _ hu)

end Nest

end StackTree
