import StackTree.Machine.Stack
import StackTree.Proofs.Nesting.Pulls

/-!
# Nesting flat code

In flat code every operand is still to be taken from the stack. Filling such a node takes producers
off the working stack as long as there are any and as there are pops; only stack access past an
earlier pop is in the way (`fillAll_pops`). A producer takes its place right behind the pops that are
left, which do nothing, so the order of evaluation stays as it was: taken in that order, the nodes of
all trees are at any time the entries of the flat code (`Nest.Ordered`).

## Main definitions

* `Tree.labelsOf`: the nodes of some kinds in the order of evaluation.
* `Tree.work`: what is evaluated in order, the pops aside.
* `Tree.Tidy`: the pops of operands come first.

## Main results

* `fillAll_pops`: how operands that are all pops are filled.
* `runAllOn_eq`: tidy trees run like flat code.
* `Nest.work_output`, `Nest.allTidy_output`: nesting flat code keeps the order and leaves tidy trees.
-/

namespace StackTree

namespace Tree

/-! ## The nodes in the order of evaluation -/

/-- What is evaluated at a node, and how many operands it has. -/
def label (t : Tree) : NodeId × Kind × Nat := (t.id, t.kind, t.children.length)

/-- The labels of the nodes of some kinds, in the order of evaluation. -/
def labelsOf (p : Kind → Bool) (ts : List Tree) : List (NodeId × Kind × Nat) :=
  ((subtreesAll ts).filter fun u => p u.kind).map label

theorem labelsOf_append (p : Kind → Bool) (ts us : List Tree) :
    labelsOf p (ts ++ us) = labelsOf p ts ++ labelsOf p us := by
  rw [labelsOf, subtreesAll_append, List.filter_append, List.map_append]
  rfl

/-- A node is evaluated after its operands. -/
theorem labelsOf_node (p : Kind → Bool) (id : NodeId) (kind : Kind) (e : Effects)
    (cs : List Tree) :
    labelsOf p [node id kind e cs] =
      labelsOf p cs ++ if p kind = true then [(id, kind, cs.length)] else [] := by
  rw [labelsOf, subtreesAll_singleton, subtrees, List.filter_append, List.map_append, labelsOf]
  congr 1
  cases hp : p kind with
  | false => simp [Tree.kind, hp]
  | true => simp [Tree.kind, hp, label, Tree.id, Tree.children]

theorem mem_labelsOf {p : Kind → Bool} {ts : List Tree} {l : NodeId × Kind × Nat} :
    l ∈ labelsOf p ts ↔ ∃ u ∈ subtreesAll ts, p u.kind = true ∧ u.label = l := by
  simp only [labelsOf, List.mem_map, List.mem_filter, and_assoc]

/-- What is evaluated in order, the pops aside. -/
def work (ts : List Tree) : List (NodeId × Kind × Nat) :=
  ((subtreesAll ts).filter (·.kind ≠ .pop)).map label

theorem work_eq_labelsOf (ts : List Tree) : work ts = labelsOf (fun kind => kind ≠ .pop) ts := rfl

theorem work_append (ts us : List Tree) : work (ts ++ us) = work ts ++ work us := by
  simp only [work_eq_labelsOf, labelsOf_append]

@[simp] theorem work_nil : work [] = [] := rfl

theorem work_node {id : NodeId} {kind : Kind} {e : Effects} {cs : List Tree} (hk : kind ≠ .pop) :
    work [node id kind e cs] = work cs ++ [(id, kind, cs.length)] := by
  rw [work_eq_labelsOf, labelsOf_node, if_pos (decide_eq_true hk)]
  rfl

/-! ## Bare pops -/

/-- The tree is a bare pop with the right effects. -/
def IsPop (t : Tree) : Prop := t = atop t.id .pop []

theorem Sound.isPop {t : Tree} (h : t.Sound) (hk : t.kind = .pop) : t.IsPop := by
  have heq := h.eq_atop
  rwa [h.children_eq_nil (Or.inl hk), hk] at heq

theorem work_pops {ps : List Tree} (h : ∀ p ∈ ps, p.IsPop) : work ps = [] := by
  induction ps with
  | nil => rfl
  | cons p ps ih =>
    rw [List.forall_mem_cons] at h
    have hp : work [p] = [] := by
      rw [h.1]
      rfl
    rw [← List.singleton_append, work_append, hp, ih h.2]
    rfl

/-! ## Tidy operands -/

/-- The pops of operands come first, and only the first of the slots may otherwise have stack
access. -/
structure Tidy (cs : List Tree) : Prop where
  pops_first : ∃ count, (∀ c ∈ cs.take count, c.kind = .pop) ∧ ∀ c ∈ cs.drop count, c.kind ≠ .pop
  access_first : ∀ slot c, cs[slot]? = some c → c.kind ≠ .pop →
    c.effects.hasStackAccess = true → slot = 0

/-- All nodes of the trees have tidy operands. -/
def AllTidy (ts : List Tree) : Prop := ∀ u ∈ subtreesAll ts, Tidy u.children

theorem allTidy_append {ts us : List Tree} : AllTidy (ts ++ us) ↔ AllTidy ts ∧ AllTidy us := by
  simp only [AllTidy, subtreesAll_append, List.mem_append]
  constructor
  · intro h
    exact ⟨fun u hu => h u (Or.inl hu), fun u hu => h u (Or.inr hu)⟩
  · rintro ⟨hts, hus⟩ u (hu | hu)
    · exact hts u hu
    · exact hus u hu

theorem allTidy_node {id : NodeId} {kind : Kind} {e : Effects} {cs : List Tree} :
    AllTidy [node id kind e cs] ↔ AllTidy cs ∧ Tidy cs := by
  simp only [AllTidy, subtreesAll, subtrees, List.append_nil, List.mem_append,
    List.mem_singleton]
  constructor
  · intro h
    exact ⟨fun u hu => h u (Or.inl hu), h _ (Or.inr rfl)⟩
  · rintro ⟨hbelow, hself⟩ u (hu | rfl)
    · exact hbelow u hu
    · exact hself

theorem allTidy_of_forall {ts : List Tree} (h : ∀ t ∈ ts, AllTidy [t]) : AllTidy ts := by
  induction ts with
  | nil =>
    intro u hu
    cases hu
  | cons t ts ih =>
    rw [List.forall_mem_cons] at h
    exact allTidy_append.mpr ⟨h.1, ih h.2⟩

theorem tidy_nil : Tidy [] where
  pops_first := ⟨0, nofun, nofun⟩
  access_first := nofun

theorem IsPop.allTidy {p : Tree} (hp : p.IsPop) : AllTidy [p] := by
  rw [hp]
  exact allTidy_node.mpr ⟨fun _ => nofun, tidy_nil⟩

/-! ## Running tidy trees on a stack -/

section

variable {m : Type → Type} [Monad m] [LawfulMonad m]

open Machine

/-- The steps of what is evaluated in order. -/
def runWork (step : Kind → Nat → m Unit) (ts : List Tree) : m Unit :=
  (work ts).forM fun (_, kind, operands) => step kind operands

theorem runWork_append (step : Kind → Nat → m Unit) (ts us : List Tree) :
    runWork step (ts ++ us) = (do runWork step ts; runWork step us) := by
  rw [runWork, work_append]
  simp [runWork, List.forM_eq_forM]

theorem runWork_node (step : Kind → Nat → m Unit) {id : NodeId} {kind : Kind} {e : Effects}
    {cs : List Tree} (hk : kind ≠ .pop) :
    runWork step [node id kind e cs] = (do runWork step cs; step kind cs.length) := by
  rw [runWork, work_node hk]
  simp [runWork, List.forM_eq_forM]

/-- Whether the pops come before all operands that push a value; one may have done so before. -/
def PopsFirst : Bool → List Tree → Prop
  | _, [] => True
  | pushed, t :: rest =>
    if t.kind = .pop then pushed = false ∧ PopsFirst false rest else PopsFirst true rest

theorem popsFirst_of_ne_pop {pushed : Bool} {cs : List Tree} (h : ∀ c ∈ cs, c.kind ≠ .pop) :
    PopsFirst pushed cs := by
  induction cs generalizing pushed with
  | nil => trivial
  | cons c cs ih =>
    rw [List.forall_mem_cons] at h
    rw [PopsFirst, if_neg h.1]
    exact ih h.2

theorem Tidy.popsFirst {cs : List Tree} (h : Tidy cs) : PopsFirst false cs := by
  obtain ⟨count, hpops, hrest⟩ := h.pops_first
  clear h
  induction cs generalizing count with
  | nil => trivial
  | cons c cs ih =>
    cases count with
    | zero => exact popsFirst_of_ne_pop hrest
    | succ count =>
      rw [List.take_succ_cons, List.forall_mem_cons] at hpops
      rw [PopsFirst, if_pos hpops.1]
      exact ⟨rfl, ih count hpops.2 hrest⟩

mutual

/-- A tidy tree runs like the steps of its nodes one after the other. -/
theorem runOn_eq (step : Kind → Nat → m Unit) (misplaced : m Unit) : (t : Tree) → t.Sound →
    AllTidy [t] → runOn step misplaced t = runWork step [t]
  | node id kind e cs, hsound, htidy => by
    obtain ⟨hbelow, hself⟩ := allTidy_node.mp htidy
    have hoperands := runOperands_eq step misplaced false cs hsound.2.2 hbelow hself.popsFirst
    rw [runOn, hoperands]
    by_cases hk : kind = .pop
    · subst hk
      have hpop : (node id .pop e cs).IsPop := hsound.isPop rfl
      have hnil : cs = [] := hsound.children_eq_nil (Or.inl rfl)
      subst hnil
      rw [runWork, runWork, work_pops (List.forall_mem_singleton.mpr hpop)]
      simp
    · rw [runWork_node step hk, if_neg hk]

theorem runOperands_eq (step : Kind → Nat → m Unit) (misplaced : m Unit) : (pushed : Bool) →
    (cs : List Tree) → SoundAll cs → AllTidy cs → PopsFirst pushed cs →
    runOperands step misplaced pushed cs = runWork step cs
  | _, [], _, _, _ => by
    rw [runOperands]
    rfl
  | pushed, c :: cs, hsound, htidy, hpops => by
    rw [← List.singleton_append, allTidy_append] at htidy
    rw [PopsFirst] at hpops
    rw [← List.singleton_append, runWork_append, List.singleton_append, runOperands]
    by_cases hk : c.kind = .pop
    · rw [if_pos hk] at hpops ⊢
      have hpop : runWork step [c] = pure () := by
        rw [runWork, work_pops (List.forall_mem_singleton.mpr (hsound.1.isPop hk))]
        rfl
      obtain ⟨rfl, hrest⟩ := hpops
      rw [runOperands_eq step misplaced false cs hsound.2 htidy.2 hrest, hpop]
      rfl
    · rw [if_neg hk] at hpops ⊢
      rw [runOn_eq step misplaced c hsound.1 htidy.1,
        runOperands_eq step misplaced true cs hsound.2 htidy.2 hpops]

end

/-- Tidy trees run like the steps of their nodes one after the other. -/
theorem runAllOn_eq (step : Kind → Nat → m Unit) (misplaced : m Unit) {ts : List Tree}
    (hsound : SoundAll ts) (htidy : AllTidy ts) :
    runAllOn step misplaced ts = runWork step ts := by
  induction ts with
  | nil => rfl
  | cons t ts ih =>
    rw [← List.singleton_append, allTidy_append] at htidy
    rw [← List.singleton_append, runWork_append, ← runOn_eq step misplaced t hsound.1 htidy.1,
      ← ih hsound.2 htidy.2]
    simp [runAllOn, List.forM_eq_forM]

end

/-! ## Filling pops -/

/-- What became of operands that were all pops: the last ones were taken by producers, and the walk
ended when all were taken, or none was left, or stack access was not to go past a pop. -/
structure PopsFilled (earlier : Effects) (ps stack filled left : List Tree) : Prop where
  stack_eq : stack = filled.reverse ++ left
  length_le : filled.length ≤ ps.length
  quiet : earlier.pops = true → ∀ q ∈ filled, q.effects.hasStackAccess = false
  quiet_tail : filled.length = ps.length → ∀ q ∈ filled.tail, q.effects.hasStackAccess = false
  quiet_all : filled.length < ps.length → ∀ q ∈ filled, q.effects.hasStackAccess = false
  stalled : filled.length < ps.length → ∀ top rest, left = top :: rest →
    top.effects.hasStackAccess = true

theorem popsFilled_nil (earlier : Effects) (stack : List Tree) :
    PopsFilled earlier [] stack [] stack :=
  ⟨rfl, Nat.le_refl _, fun _ => nofun, fun _ => nofun, fun _ => nofun, nofun⟩

section

variable {earlier : Effects} {p : Tree} {ps stack filled left : List Tree}

theorem IsPop.pops_union (hp : p.IsPop) : (earlier ∪ p.effects).pops = true := by
  rw [hp, Effects.union_pops]
  exact Bool.or_true _

/-- A pop before the others stays, and nothing that may go past it is left. -/
theorem PopsFilled.stay (h : PopsFilled (earlier ∪ p.effects) ps stack filled left)
    (hp : p.IsPop) (hstalled : ∀ top rest, left = top :: rest → top.effects.hasStackAccess = true) :
    PopsFilled earlier (p :: ps) stack filled left where
  stack_eq := h.stack_eq
  length_le := Nat.le_succ_of_le h.length_le
  quiet := fun _ => h.quiet hp.pops_union
  quiet_tail := by
    intro hall
    have hle := h.length_le
    rw [List.length_cons] at hall
    omega
  quiet_all := fun _ => h.quiet hp.pops_union
  stalled := fun _ => hstalled

/-- A pop before the others is taken once they are. -/
theorem PopsFilled.take {top : Tree}
    (h : PopsFilled (earlier ∪ p.effects) ps stack filled (top :: left)) (hp : p.IsPop)
    (hlength : filled.length = ps.length)
    (htop : earlier.pops = true → top.effects.hasStackAccess = false) :
    PopsFilled earlier (p :: ps) stack (top :: filled) left where
  stack_eq := by
    rw [h.stack_eq, List.reverse_cons, List.append_assoc]
    rfl
  length_le := Nat.succ_le_succ (Nat.le_of_eq hlength)
  quiet := fun hpops => List.forall_mem_cons.mpr ⟨htop hpops, h.quiet hp.pops_union⟩
  quiet_tail := fun _ => h.quiet hp.pops_union
  quiet_all := by
    intro hlt
    rw [List.length_cons, List.length_cons] at hlt
    omega
  stalled := by
    intro hlt
    rw [List.length_cons, List.length_cons] at hlt
    omega

end

theorem blocked_pop {p top : Tree} (hp : p.IsPop) {earlier : Effects} (rest : List Tree)
    (hpeeks : earlier.peeks = false) : blocked earlier (top :: rest) p =
      (earlier.pops && top.effects.hasStackAccess) := by
  have hcount : (atop p.id .pop []).popCount = 1 := rfl
  rw [hp, blocked, hpeeks, hcount]
  simp [effects_atop, Kind.intrinsic, Effects.pop, effectsAll]

theorem IsPop.access {p : Tree} (hp : p.IsPop) : p.effects.hasStackAccess = true := by
  rw [hp]
  rfl

theorem IsPop.fill_nil {p : Tree} (hp : p.IsPop) (before : Effects) :
    fill before [] p = ⟨p, [], false⟩ := by
  rw [hp]
  rfl

theorem IsPop.fill_cons {p : Tree} (hp : p.IsPop) (top : Tree) (rest : List Tree) :
    fill ∅ (top :: rest) p = ⟨top, rest, true⟩ := by
  rw [hp, atop, fill_pop_cons, mayReorder_comm, mayReorder_empty]
  rfl

/-- Pops are filled from the last one on. -/
theorem fillAll_pops {ps : List Tree} (hps : ∀ p ∈ ps, p.IsPop) {earlier : Effects}
    (hpeeks : earlier.peeks = false) (hquiet : earlier.withoutStackAccess = ∅)
    (stack : List Tree) :
    ∃ filled left, PopsFilled earlier ps stack filled left ∧
      fillAll earlier ∅ stack ps = ⟨ps.take (ps.length - filled.length) ++ filled, left,
        decide (filled.length = ps.length)⟩ := by
  induction ps generalizing earlier with
  | nil => exact ⟨[], stack, popsFilled_nil earlier stack, rfl⟩
  | cons p ps ih =>
    rw [List.forall_mem_cons] at hps
    obtain ⟨hp, hps⟩ := hps
    have hpop : p.effects = Kind.pop.intrinsic := by
      rw [hp]
      rfl
    have hpeeks' : (earlier ∪ p.effects).peeks = false := by
      rw [Effects.union_peeks, hpeeks, hpop]
      rfl
    have hquiet' : (earlier ∪ p.effects).withoutStackAccess = ∅ := by
      rw [Effects.withoutStackAccess_union, hquiet, hpop]
      rfl
    obtain ⟨filled, left, h, heq⟩ := ih hps hpeeks' hquiet'
    have hle := h.length_le
    have hstay : (p :: ps).take ((p :: ps).length - filled.length) ++ filled =
        p :: (ps.take (ps.length - filled.length) ++ filled) := by
      rw [List.length_cons, Nat.sub_add_comm hle, List.take_succ_cons, List.cons_append]
    have hnot : decide (filled.length = (p :: ps).length) = false := by
      rw [List.length_cons, decide_eq_false_iff_not]
      omega
    rw [fillAll_cons, heq]
    by_cases hlength : filled.length = ps.length
    · cases left with
      | nil =>
        refine ⟨filled, [], h.stay hp nofun, ?_⟩
        rw [hstay, hnot]
        simp [fillFirst, hlength, hp.access, blocked, hpeeks, hp.fill_nil]
      | cons top rest =>
        cases hblocked : (earlier.pops && top.effects.hasStackAccess) with
        | true =>
          rw [Bool.and_eq_true] at hblocked
          refine ⟨filled, top :: rest, h.stay hp fun _ _ heq => ?_, ?_⟩
          · obtain ⟨rfl, -⟩ := List.cons.inj heq
            exact hblocked.2
          · rw [hstay, hnot]
            simp [fillFirst, hlength, hp.access, blocked_pop hp rest hpeeks, hblocked]
        | false =>
          refine ⟨top :: filled, rest, h.take hp hlength fun hpops => ?_, ?_⟩
          · rwa [hpops, Bool.true_and] at hblocked
          · simp [fillFirst, hlength, hp.access, blocked_pop hp rest hpeeks, hblocked, hquiet,
              hp.fill_cons]
    · refine ⟨filled, left, h.stay hp (h.stalled (by omega)), ?_⟩
      rw [hstay, hnot, fillFirst_of_stalled (decide_eq_false hlength)]

/-! ## Filling an entry of flat code -/

/-- A node of flat code: all that it takes is still to be taken from the stack. -/
structure Flat (t : Tree) : Prop where
  sound : t.Sound
  ne_pop : t.kind ≠ .pop
  pops : ∀ c ∈ t.children, c.kind = .pop

theorem Flat.isPop {t : Tree} (h : t.Flat) : ∀ c ∈ t.children, c.IsPop := fun c hc =>
  (soundAll_iff.mp h.sound.children c hc).isPop (h.pops c hc)

/-- Operands of which the last pops were taken by producers. -/
def taken (ps filled : List Tree) : List Tree := ps.take (ps.length - filled.length) ++ filled

theorem length_taken {ps filled : List Tree} (h : filled.length ≤ ps.length) :
    (taken ps filled).length = ps.length := by
  rw [taken, List.length_append, List.length_take]
  omega

theorem PopsFilled.tidy {ps stack filled left : List Tree} (h : PopsFilled ∅ ps stack filled left)
    (hps : ∀ p ∈ ps, p.kind = .pop) (hstack : ∀ q ∈ stack, q.kind ≠ .pop) :
    Tidy (taken ps filled) where
  pops_first := by
    have hfilled : ∀ q ∈ filled, q.kind ≠ .pop := fun q hq => hstack q (by
      rw [h.stack_eq]
      exact List.mem_append_left _ (List.mem_reverse.mpr hq))
    have hlength : (ps.take (ps.length - filled.length)).length = ps.length - filled.length :=
      List.length_take_of_le (Nat.sub_le ..)
    refine ⟨ps.length - filled.length, fun c hc => ?_, fun c hc => ?_⟩
    · rw [taken, List.take_left' hlength] at hc
      exact hps c (List.mem_of_mem_take hc)
    · rw [taken, List.drop_left' hlength] at hc
      exact hfilled c hc
  access_first := by
    intro slot c hc hkind haccess
    have hle := h.length_le
    have hlength : (ps.take (ps.length - filled.length)).length = ps.length - filled.length :=
      List.length_take_of_le (Nat.sub_le ..)
    rw [taken] at hc
    by_cases hslot : slot < ps.length - filled.length
    · rw [List.getElem?_append_left (by omega)] at hc
      exact absurd (hps c (List.mem_of_mem_take (List.mem_of_getElem? hc))) hkind
    · rw [List.getElem?_append_right (by omega), hlength] at hc
      by_cases hall : filled.length = ps.length
      · rw [show slot - (ps.length - filled.length) = slot by omega] at hc
        cases slot with
        | zero => rfl
        | succ slot =>
          have hmem : c ∈ filled.tail := by
            refine List.mem_of_getElem? (i := slot) ?_
            rw [List.getElem?_tail, hc]
          rw [h.quiet_tail hall c hmem] at haccess
          cases haccess
      · rw [h.quiet_all (by omega) c (List.mem_of_getElem? hc)] at haccess
        cases haccess

theorem work_taken {ps filled : List Tree} (hps : ∀ p ∈ ps, p.IsPop) :
    work (taken ps filled) = work filled := by
  rw [taken, work_append, work_pops fun p hp => hps p (List.mem_of_mem_take hp), List.nil_append]

theorem allTidy_taken {ps filled : List Tree} (hps : ∀ p ∈ ps, p.IsPop)
    (hfilled : ∀ q ∈ filled, AllTidy [q]) : AllTidy (taken ps filled) :=
  allTidy_append.mpr ⟨allTidy_of_forall fun p hp => (hps p (List.mem_of_mem_take hp)).allTidy,
    allTidy_of_forall hfilled⟩

/-- A flat node takes producers into its last slots. -/
theorem Flat.fill_eq {t : Tree} (h : t.Flat) (stack : List Tree) :
    ∃ filled left, PopsFilled ∅ t.children stack filled left ∧
      (t.fill ∅ stack).result = atop t.id t.kind (taken t.children filled) ∧
      (t.fill ∅ stack).stack = left ∧
      (t.kind ≠ .peek →
        (t.fill ∅ stack).finished = decide (filled.length = t.children.length)) := by
  have hps := h.isPop
  have hkind := h.ne_pop
  have hatop := h.sound.eq_atop
  have hleaf := h.sound.children_eq_nil
  obtain ⟨id, kind, e, cs⟩ := t
  simp only [Tree.children, Tree.kind, Tree.id] at hps hkind hatop hleaf ⊢
  by_cases hk : kind.isComposite = true
  · obtain ⟨filled, left, hfilled, heq⟩ := fillAll_pops hps Effects.empty_peeks rfl stack
    rw [fill_composite hk, heq]
    exact ⟨filled, left, hfilled, rfl, rfl, fun _ => rfl⟩
  · rw [Bool.not_eq_true] at hk
    have hnil : cs = [] := hleaf (by cases kind <;> simp_all [Kind.isComposite])
    subst hnil
    refine ⟨[], stack, popsFilled_nil ∅ stack, ?_⟩
    by_cases hpeek : kind = .peek
    · subst hpeek
      rw [fill_peek]
      exact ⟨hatop, rfl, fun hne => absurd rfl hne⟩
    · rw [fill_leaf hk hkind hpeek]
      exact ⟨hatop, rfl, fun _ => rfl⟩

end Tree

/-! ## Nesting flat code -/

namespace Nest

open StackTree.Tree (work AllTidy Flat label)

/-- What holds of everything made so far from flat code. -/
structure Ordered (w : Nest) (done : List (NodeId × Kind × Nat)) : Prop where
  ne_pop : ∀ q ∈ w.trees, q.kind ≠ .pop
  tidy : ∀ q ∈ w.trees, AllTidy [q]
  work_eq : work w.trees.reverse = done

theorem ordered_start : Ordered start [] where
  ne_pop := by
    intro q hq
    cases hq
  tidy := by
    intro q hq
    cases hq
  work_eq := rfl

/-- An entry comes after all that was there, with its producers right before it. -/
theorem Ordered.step {w : Nest} {done : List (NodeId × Kind × Nat)} (h : w.Ordered done) {t : Tree}
    (ht : t.Flat) : (w.step t).Ordered (done ++ [t.label]) := by
  obtain ⟨filled, left, hfilled, hresult, hleft, -⟩ := ht.fill_eq w.stack
  have hstack := hfilled.stack_eq
  have htrees : (w.step t).trees = .atop t.id t.kind (Tree.taken t.children filled) ::
      (left ++ w.settled) := by
    rw [trees_step, hresult, hleft]
  have hbefore : w.trees = filled.reverse ++ (left ++ w.settled) := by
    rw [trees, hstack, List.append_assoc]
  have hrest : ∀ q ∈ left ++ w.settled, q ∈ w.trees := by
    intro q hq
    rw [hbefore]
    exact List.mem_append_right _ hq
  have htaken : ∀ q ∈ filled, q ∈ w.trees := by
    intro q hq
    rw [hbefore]
    exact List.mem_append_left _ (List.mem_reverse.mpr hq)
  refine ⟨fun q hq => ?_, fun q hq => ?_, ?_⟩
  · rw [htrees] at hq
    rcases List.mem_cons.mp hq with rfl | hq
    · exact ht.ne_pop
    · exact h.ne_pop q (hrest q hq)
  · rw [htrees] at hq
    rcases List.mem_cons.mp hq with rfl | hq
    · refine Tree.allTidy_node.mpr ⟨Tree.allTidy_taken ht.isPop fun q hq => ?_, ?_⟩
      · exact h.tidy q (htaken q hq)
      · exact hfilled.tidy ht.pops fun q hq => h.ne_pop q (List.mem_append_left _ hq)
    · exact h.tidy q (hrest q hq)
  · have hold : w.trees.reverse = (left ++ w.settled).reverse ++ filled := by
      rw [hbefore, List.reverse_append, List.reverse_reverse]
    rw [htrees, List.reverse_cons, Tree.work_append, Tree.atop, Tree.work_node ht.ne_pop,
      Tree.work_taken ht.isPop, Tree.length_taken hfilled.length_le, ← h.work_eq, hold,
      Tree.work_append, List.append_assoc]
    rfl

theorem Ordered.run {w : Nest} {done : List (NodeId × Kind × Nat)} (h : w.Ordered done)
    {ts : List Tree} (hts : ∀ t ∈ ts, t.Flat) : (w.run ts).Ordered (done ++ ts.map label) := by
  induction ts generalizing w done with
  | nil =>
    rw [List.map_nil, List.append_nil]
    exact h
  | cons t ts ih =>
    rw [List.forall_mem_cons] at hts
    have hnext := ih (h.step hts.1) hts.2
    rwa [List.append_assoc, List.singleton_append] at hnext

/-- Nesting flat code keeps the order of evaluation. -/
theorem work_output {ts : List Tree} (hts : ∀ t ∈ ts, t.Flat) :
    work (start.run ts).output = ts.map label :=
  (ordered_start.run hts).work_eq

/-- Nesting flat code leaves tidy trees. -/
theorem allTidy_output {ts : List Tree} (hts : ∀ t ∈ ts, t.Flat) :
    AllTidy (start.run ts).output :=
  Tree.allTidy_of_forall fun t ht => (ordered_start.run hts).tidy t (List.mem_reverse.mp ht)

end Nest

end StackTree
