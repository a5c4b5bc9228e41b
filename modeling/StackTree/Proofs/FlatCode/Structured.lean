import StackTree.Term
import StackTree.Proofs.FlatCode.RoundTrip

/-!
# Nesting recovers structured programs

The flat code of a structured program computes operands before the nodes that take them. Walking over
the code of one term leaves its tree as one more producer on the working stack, whatever lies below,
as long as nothing on the stack has stack access: a node finds exactly its own operands on top, takes
all of them and is finished. So the nested body has one tree for each term, and nothing stalls.

## Main definitions

* `Term.ArgsFit`: the operand counts are numbers that flat code can hold.

## Main results

* `Term.validate_flattenAll`: the flat code of a structured program is valid.
* `Term.run_flatten`: what nesting makes of the flat code of one term.
* `FlatCode.nests_structured`: nesting recovers the terms of a structured program.
-/

namespace StackTree

/-! ## The entry of a node -/

/-- The entry does what a node of that kind with so many operands does. -/
structure FlatEntry.Emits (entry : FlatEntry) (kind : Kind) (operands : Nat) : Prop where
  kind_eq : entry.kind = kind
  pops_eq : entry.pops = operands
  needs_eq : entry.needs = operands
  pushes_eq : entry.pushes = kind.producesValue.toNat

namespace Term

mutual

/-- Every node has fewer operands than a 64-bit count can tell apart. -/
def ArgsFit : Term → Prop
  | node _ operands => operands.length < 2 ^ 64 ∧ AllArgsFit operands

/-- All nodes of several terms have fewer operands than a 64-bit count can tell apart. -/
def AllArgsFit : List Term → Prop
  | [] => True
  | term :: rest => term.ArgsFit ∧ AllArgsFit rest

end

theorem length_le_sizes (ts : List Term) : ts.length ≤ sizes ts := by
  induction ts with
  | nil => exact Nat.le_refl 0
  | cons t ts ih =>
    have hone : 1 ≤ t.size := by
      obtain ⟨kind, operands⟩ := t
      exact Nat.le_add_right 1 _
    rw [List.length_cons, sizes]
    omega

mutual

/-- A term with few nodes has few operands everywhere. -/
theorem argsFit_of_size : (t : Term) → t.size ≤ 2 ^ 64 → t.ArgsFit
  | node _ operands, hsize => by
    rw [size] at hsize
    have hcount := length_le_sizes operands
    exact ⟨by omega, allArgsFit_of_sizes operands (by omega)⟩

/-- Terms with few nodes have few operands everywhere. -/
theorem allArgsFit_of_sizes : (ts : List Term) → sizes ts ≤ 2 ^ 64 → AllArgsFit ts
  | [], _ => trivial
  | t :: ts, hsize => by
    rw [sizes] at hsize
    exact ⟨argsFit_of_size t (by omega), allArgsFit_of_sizes ts (by omega)⟩

end

/-- The entry of a node that does not deal with the stack does what the node does. -/
theorem entry_emits {kind : Kind} {operands : Nat} (hpop : kind ≠ .pop) (hpeek : kind ≠ .peek)
    (ha : kind.accepts operands = true) (hfits : operands < 2 ^ 64) :
    (entry kind operands).Emits kind operands := by
  cases kind with
  | pop => exact absurd rfl hpop
  | peek => exact absurd rfl hpeek
  | const value | load slot | unary op | store slot | binary op =>
    rw [Kind.accepts, beq_iff_eq] at ha
    subst ha
    exact ⟨rfl, rfl, rfl, rfl⟩
  | call method returnsValue =>
    have hcount : (UInt64.ofNat operands).toNat = operands := UInt64.toNat_ofNat_of_lt' hfits
    exact ⟨rfl, hcount, hcount, rfl⟩
  | ret =>
    rw [Kind.accepts, decide_eq_true_eq] at ha
    have hcount : (operands != 0).toNat = operands := by
      rcases Nat.le_one_iff_eq_zero_or_eq_one.mp ha with rfl | rfl <;> rfl
    exact ⟨rfl, hcount, hcount, rfl⟩

/-! ## The flat code is valid -/

/-- An entry that finds its operands passes the check. -/
theorem validateFrom_emits {entry : FlatEntry} {kind : Kind} {operands : Nat}
    (h : entry.Emits kind operands) (index depth : Nat) (rest : List FlatEntry) :
    FlatCode.validateFrom index (depth + operands) (entry :: rest) =
      FlatCode.validateFrom (index + 1) (depth + kind.producesValue.toNat) rest := by
  have henough : ¬ depth + operands < entry.needs := by
    rw [h.needs_eq]
    omega
  have hleft : depth + operands - entry.pops + entry.pushes = depth + kind.producesValue.toNat := by
    rw [h.pops_eq, h.pushes_eq]
    omega
  rw [FlatCode.validateFrom, if_neg henough, hleft]

mutual

/-- The code of a term passes the check on any stack and leaves its value there. -/
theorem validateFrom_flatten : (t : Term) → t.WellFormed → t.ArgsFit → (index depth : Nat) →
    (rest : List FlatEntry) → FlatCode.validateFrom index depth (t.flatten ++ rest) =
      FlatCode.validateFrom (index + t.size) (depth + t.kind.producesValue.toNat) rest
  | node kind operands, hwf, hargs, index, depth, rest => by
    rw [WellFormed] at hwf
    rw [ArgsFit] at hargs
    have hemits := entry_emits hwf.1 hwf.2.1 hwf.2.2.1 hargs.1
    have hindex : index + sizes operands + 1 = index + (1 + sizes operands) := by omega
    rw [flatten, List.append_assoc, List.singleton_append,
      validateFrom_operands operands hwf.2.2.2 hargs.2, validateFrom_emits hemits, hindex]
    rfl

/-- The code of operands passes the check on any stack and leaves their values there. -/
theorem validateFrom_operands : (ts : List Term) → OperandsWellFormed ts → AllArgsFit ts →
    (index depth : Nat) → (rest : List FlatEntry) →
    FlatCode.validateFrom index depth (flattenAll ts ++ rest) =
      FlatCode.validateFrom (index + sizes ts) (depth + ts.length) rest
  | [], _, _, _, _, _ => rfl
  | t :: ts, hwf, hargs, index, depth, rest => by
    rw [OperandsWellFormed] at hwf
    rw [AllArgsFit] at hargs
    have hindex : index + t.size + sizes ts = index + (t.size + sizes ts) := Nat.add_assoc ..
    have hdepth : depth + t.kind.producesValue.toNat + ts.length = depth + (t :: ts).length := by
      rw [hwf.1, List.length_cons, Bool.toNat_true]
      omega
    rw [flattenAll, List.append_assoc, validateFrom_flatten t hwf.2.1 hargs.1,
      validateFrom_operands ts hwf.2.2 hargs.2, hindex, hdepth]
    rfl

end

/-- The flat code of a structured program is valid. -/
theorem validate_flattenAll {ts : List Term} (hwf : ∀ t ∈ ts, t.WellFormed) (hargs : AllArgsFit ts)
    (name : String) : FlatCode.validate ⟨name, flattenAll ts⟩ = .ok () := by
  have hall : ∀ index depth, FlatCode.validateFrom index depth (flattenAll ts) = .ok () := by
    induction ts with
    | nil =>
      intro index depth
      rfl
    | cons t ts ih =>
      intro index depth
      rw [List.forall_mem_cons] at hwf
      rw [AllArgsFit] at hargs
      rw [flattenAll, validateFrom_flatten t hwf.1 hargs.1]
      exact ih hwf.2 hargs.2 _ _
  exact hall 0 0

end Term

/-! ## Filling a node whose operands are on the stack -/

namespace Tree

/-- Pops are all filled where the stack has as many producers for them without stack access. -/
theorem PopsFilled.eq_of_quiet {earlier : Effects} {ps filled left operands rest : List Tree}
    (h : PopsFilled earlier ps (operands.reverse ++ rest) filled left)
    (hlength : operands.length = ps.length) (hoperands : AllQuiet operands) (hrest : AllQuiet rest) :
    filled = operands ∧ left = rest := by
  have hle := h.length_le
  have hquiet : AllQuiet (operands.reverse ++ rest) := by
    intro q hq
    rcases List.mem_append.mp hq with hq | hq
    · exact hoperands q (List.mem_reverse.mp hq)
    · exact hrest q hq
  have hall : filled.length = ps.length := by
    by_contra hne
    have hlt : filled.length < ps.length := by omega
    have hleft : left ≠ [] := by
      intro hnil
      have htotal := congrArg List.length h.stack_eq
      rw [hnil, List.append_nil, List.length_append, List.length_reverse, List.length_reverse]
        at htotal
      omega
    obtain ⟨top, below, rfl⟩ := List.exists_cons_of_ne_nil hleft
    have haccess := h.stalled hlt top below rfl
    have htop : top ∈ operands.reverse ++ rest := by
      rw [h.stack_eq]
      exact List.mem_append_right _ List.mem_cons_self
    rw [hquiet top htop] at haccess
    cases haccess
  have hsame : operands.reverse.length = filled.reverse.length := by
    rw [List.length_reverse, List.length_reverse, hlength, hall]
  obtain ⟨htaken, hleft⟩ := List.append_inj h.stack_eq hsame
  exact ⟨(List.reverse_inj.mp htaken).symm, hleft.symm⟩

/-- A flat node takes its operands off the stack where they are on top without stack access. -/
theorem Flat.fill_of_quiet {t : Tree} (h : t.Flat) (hpeek : t.kind ≠ .peek)
    {operands rest : List Tree} (hlength : operands.length = t.children.length)
    (hoperands : AllQuiet operands) (hrest : AllQuiet rest) :
    t.fill ∅ (operands.reverse ++ rest) = ⟨atop t.id t.kind operands, rest, true⟩ := by
  obtain ⟨filled, left, hfilled, hresult, hleft, hfinished⟩ := h.fill_eq (operands.reverse ++ rest)
  obtain ⟨rfl, rfl⟩ := hfilled.eq_of_quiet hlength hoperands hrest
  have hall : taken t.children filled = filled := by
    rw [taken, hlength, Nat.sub_self, List.take_zero, List.nil_append]
  have hdone := (hfinished hpeek).trans (decide_eq_true hlength)
  rw [hall] at hresult
  generalize t.fill ∅ (filled.reverse ++ left) = outcome at hresult hleft hdone ⊢
  obtain ⟨result, stack, finished⟩ := outcome
  exact congr (congrArg₂ _ hresult hleft) hdone

end Tree

/-! ## Walking over the code of a term -/

namespace Nest

open StackTree.Tree (AllQuiet Flat atop)

/-- An entry that finds its operands on the working stack takes their place there, or settles. -/
theorem step_of_quiet (w : Nest) {t : Tree} (h : t.Flat) (hpeek : t.kind ≠ .peek)
    {operands : List Tree} (hlength : operands.length = t.children.length)
    (hoperands : AllQuiet operands) (hstack : AllQuiet w.stack) :
    step { w with stack := operands.reverse ++ w.stack } t = w.place (atop t.id t.kind operands) := by
  rw [step, h.fill_of_quiet hpeek hlength hoperands hstack]
  rfl

theorem allQuiet_place {w : Nest} {t : Tree} (hstack : AllQuiet w.stack)
    (ht : t.effects.hasStackAccess = false) : AllQuiet (w.place t).stack := by
  rw [place]
  split
  · exact List.forall_mem_cons.mpr ⟨ht, hstack⟩
  · exact List.forall_mem_nil _

end Nest

namespace Term

open StackTree.Tree (AllQuiet SoundAll soundAll_append)

/-- Trees that entries make are those of the first entries and those of the others. -/
theorem makes_append {xs ys : List FlatEntry} {us : List Tree}
    (h : List.Forall₂ FlatEntry.Makes (xs ++ ys) us) : ∃ vs ws, us = vs ++ ws ∧
      List.Forall₂ FlatEntry.Makes xs vs ∧ List.Forall₂ FlatEntry.Makes ys ws :=
  ⟨us.take xs.length, us.drop xs.length, (List.take_append_drop _ _).symm,
    (List.forall₂_take_append us xs ys h.flip).flip, (List.forall₂_drop_append us xs ys h.flip).flip⟩

mutual

/-- Walking over the code of a term leaves its tree above what was there. -/
theorem run_flatten : (t : Term) → t.WellFormed → t.ArgsFit → {us : List Tree} →
    List.Forall₂ FlatEntry.Makes t.flatten us → SoundAll us → (w : Nest) → AllQuiet w.stack →
    ∃ u : Tree, u.term = t ∧ u.effects.hasStackAccess = false ∧ w.run us = w.place u
  | node kind operands, hwf, hargs, us, hmake, hsound, w, hstack => by
    rw [WellFormed] at hwf
    rw [ArgsFit] at hargs
    obtain ⟨hpop, hpeek, haccepts, hbelow⟩ := hwf
    have hemits := entry_emits hpop hpeek haccepts hargs.1
    rw [flatten] at hmake
    obtain ⟨vs, ws, rfl, hvs, hws⟩ := makes_append hmake
    obtain ⟨hfirst, hlast⟩ := soundAll_append.mp hsound
    obtain ⟨taken, hterms, hquiet, hrun⟩ :=
      run_operands operands hbelow hargs.2 hvs hfirst w hstack
    cases hws with
    | cons hown hnil =>
      cases hnil
      rename_i own
      have hkind : own.kind = kind := hown.kind_eq.trans hemits.kind_eq
      have hlength : taken.length = own.children.length := by
        rw [hown.length_eq, hemits.pops_eq, ← hterms, Tree.length_terms]
      refine ⟨.atop own.id kind taken, ?_, hquiet.atop hpop hpeek own.id, ?_⟩
      · rw [Tree.atop, Tree.term, hterms]
      · rw [Nest.run_append, hrun, Nest.run_cons, Nest.run_nil, ← hkind]
        exact w.step_of_quiet (hown.flat hlast.1) (hkind ▸ hpeek) hlength hquiet hstack

/-- Walking over the code of operands leaves their trees above what was there. -/
theorem run_operands : (ts : List Term) → OperandsWellFormed ts → AllArgsFit ts →
    {us : List Tree} → List.Forall₂ FlatEntry.Makes (flattenAll ts) us → SoundAll us →
    (w : Nest) → AllQuiet w.stack →
    ∃ vs : List Tree, Tree.terms vs = ts ∧ AllQuiet vs ∧
      w.run us = { w with stack := vs.reverse ++ w.stack }
  | [], _, _, _, .nil, _, w, _ => ⟨[], rfl, nofun, rfl⟩
  | t :: ts, hwf, hargs, us, hmake, hsound, w, hstack => by
    rw [OperandsWellFormed] at hwf
    rw [AllArgsFit] at hargs
    rw [flattenAll] at hmake
    obtain ⟨first, others, rfl, hfirst, hothers⟩ := makes_append hmake
    obtain ⟨hone, hrest⟩ := soundAll_append.mp hsound
    obtain ⟨u, hterm, hquiet, hrun⟩ := run_flatten t hwf.2.1 hargs.1 hfirst hone w hstack
    have hplace : w.place u = { w with stack := u :: w.stack } := by
      rw [Nest.place, if_pos]
      rw [← hwf.1, ← hterm, Tree.kind_term]
    obtain ⟨vs, hterms, hquiets, hruns⟩ := run_operands ts hwf.2.2 hargs.2 hothers hrest
      { w with stack := u :: w.stack } (List.forall_mem_cons.mpr ⟨hquiet, hstack⟩)
    refine ⟨u :: vs, ?_, List.forall_mem_cons.mpr ⟨hquiet, hquiets⟩, ?_⟩
    · rw [Tree.terms, hterm, hterms]
    · rw [Nest.run_append, hrun, hplace, hruns, List.reverse_cons, List.append_assoc]
      rfl

end

/-- Walking over the code of several terms makes their trees in order, and no entry stalls. -/
theorem run_flattenAll {ts : List Term} (hwf : ∀ t ∈ ts, t.WellFormed) (hargs : AllArgsFit ts)
    {us : List Tree} (hmake : List.Forall₂ FlatEntry.Makes (flattenAll ts) us)
    (hsound : SoundAll us) {w : Nest} (hstack : AllQuiet w.stack) :
    ∃ vs : List Tree, Tree.terms vs = ts ∧ (w.run us).trees = vs.reverse ++ w.trees ∧
      (w.run us).stalled = w.stalled := by
  induction ts generalizing us w with
  | nil =>
    cases hmake
    exact ⟨[], rfl, rfl, rfl⟩
  | cons t ts ih =>
    rw [List.forall_mem_cons] at hwf
    rw [AllArgsFit] at hargs
    rw [flattenAll] at hmake
    obtain ⟨first, others, rfl, hfirst, hothers⟩ := makes_append hmake
    obtain ⟨hone, hrest⟩ := soundAll_append.mp hsound
    obtain ⟨u, hterm, hquiet, hrun⟩ := run_flatten t hwf.1 hargs.1 hfirst hone w hstack
    obtain ⟨vs, hterms, htrees, hstalled⟩ :=
      ih hwf.2 hargs.2 hothers hrest (Nest.allQuiet_place hstack hquiet)
    refine ⟨u :: vs, ?_, ?_, ?_⟩
    · rw [Tree.terms, hterm, hterms]
    · rw [Nest.run_append, hrun, htrees, Nest.trees_place, List.reverse_cons, List.append_assoc]
      rfl
    · rw [Nest.run_append, hrun, hstalled, Nest.stalled_place]

end Term

namespace FlatCode

/-- A routine has at least the nodes of its entries. -/
theorem length_le_nodeCount (entries : List FlatEntry) : entries.length ≤ nodeCount entries := by
  induction entries with
  | nil => exact Nat.le_refl 0
  | cons entry entries ih =>
    rw [nodeCount] at ih ⊢
    rw [List.map_cons, List.sum_cons, List.length_cons]
    omega

/-- The flat code of a structured program is valid if it can tell the operands of calls apart. Once
it fits, nesting gives back the terms of the program in order: nothing stalls, and all entries but
one for each term are consumed. -/
theorem nests_structured {terms : List Term} (hwf : ∀ t ∈ terms, t.WellFormed) (name : String) :
    let code : FlatCode := ⟨name, Term.flattenAll terms⟩
    (Term.AllArgsFit terms → code.validate = .ok ()) ∧
      (nodeCount code.entries ≤ Routine.capacity →
        ∃ r s report after, code.build = .ok r ∧ nestBody r = .ok report s ∧
          s.body.mapM s.tree = .ok after ∧ Tree.terms after = terms ∧
          report.stalled = 0 ∧ report.finished = true ∧ report.entriesAfter = terms.length ∧
          report.consumed + terms.length = Term.sizes terms) := by
  intro code
  refine ⟨fun hargs => Term.validate_flattenAll hwf hargs name, fun hroom => ?_⟩
  -- Code that fits is far too short for an operand count beyond 64 bits.
  have hargs : Term.AllArgsFit terms := by
    refine Term.allArgsFit_of_sizes terms ?_
    have hentries := length_le_nodeCount code.entries
    have hsizes : code.entries.length = Term.sizes terms := Term.length_flattenAll terms
    have hcapacity : Routine.capacity ≤ 2 ^ 64 := by decide
    omega
  have hvalid : code.validate = .ok () := Term.validate_flattenAll hwf hargs name
  obtain ⟨r, s, ts, hbuild, hr, hsup, -, hmake, hrun, hafter⟩ := nestBody_build hvalid hroom
  have hsound := hr.trees_sound (Routine.showsAll_of_shows hsup.shows)
  have hempty : Tree.AllQuiet Nest.start.stack := nofun
  obtain ⟨vs, hterms, htrees, hstalled⟩ := Term.run_flattenAll hwf hargs hmake hsound hempty
  have houtput : (Nest.start.run ts).output = vs := by
    rw [Nest.output, htrees]
    simp [Nest.trees, Nest.start]
  have hnone : (Nest.start.run ts).stalled = 0 := hstalled
  have hbefore : ts.length = Term.sizes terms := by
    rw [← hmake.length_eq, Term.length_flattenAll]
  have hcount : vs.length = terms.length := by
    rw [← hterms, Tree.length_terms]
  have hle : terms.length ≤ Term.sizes terms := Term.length_le_sizes terms
  rw [houtput] at hafter
  refine ⟨r, s, _, vs, hbuild, hrun, hafter, hterms, hnone, ?_, ?_, ?_⟩
  · rw [Nest.report, hnone]
    rfl
  · rw [Nest.report, houtput, hcount]
  · rw [Nest.report, houtput, hcount, hbefore]
    exact Nat.sub_add_cancel hle

/-- A store, two calls, a value nobody takes and a return are recovered from their flat code. -/
theorem nests_structured_calls :
    let terms : List Term := [
      .node (.store 0) [.node (.binary .div) [.node (.const 7) [], .node (.load 1) []]],
      .node (.call "log" false) [.node (.load 0) [], .node (.call "now" true) []],
      .node (.unary .neg) [.node (.call "now" true) []],
      .node .ret [.node (.load 0) []]]
    let code : FlatCode := ⟨"main", Term.flattenAll terms⟩
    (∀ t ∈ terms, t.WellFormed) ∧ Term.AllArgsFit terms ∧ code.validate = .ok () ∧
      nodeCount code.entries ≤ Routine.capacity ∧
      ∃ r s report after, code.build = .ok r ∧ nestBody r = .ok report s ∧
        s.body.mapM s.tree = .ok after ∧ Tree.terms after = terms ∧
        report.stalled = 0 ∧ report.consumed + 4 = 11 := by
  intro terms code
  have hwf : ∀ t ∈ terms, t.WellFormed := by decide
  have hargs : Term.AllArgsFit terms := by
    simp [terms, Term.AllArgsFit, Term.ArgsFit]
  have hroom : nodeCount code.entries ≤ Routine.capacity := by decide
  obtain ⟨hvalid, hnests⟩ := nests_structured hwf "main"
  obtain ⟨r, s, report, after, hbuild, hrun, hafter, hterms, hstalled, -, -, hconsumed⟩ :=
    hnests hroom
  exact ⟨hwf, hargs, hvalid hargs, hroom, r, s, report, after, hbuild, hrun, hafter, hterms,
    hstalled, hconsumed⟩

end FlatCode

end StackTree
