import StackTree.FlatCode.Basic
import StackTree.Machine.Stack
import StackTree.Proofs.Machine.Values
import Mathlib.Algebra.Ring.Nat

/-!
# Validation accepts what is safe on a stack

Validation only counts: it never looks at values. So what it says is about every run of the entries
in order, whatever values they leave: where validation succeeds no entry of any run finds too few
values, and where it fails every run comes to the entry that it reports and is stuck there
(`FlatCode.validate_error_iff`). A run of the machine with a stack is one of these runs.

An entry takes no more values than it needs and leaves one at most. So the count never goes below
zero and never above the number of entries, and 64-bit words are enough for it
(`FlatCode.validateWords_eq`).

## Main definitions

* `FlatEntry.StepsTo`, `FlatEntry.Underflows`: running one entry on a stack.
* `FlatCode.Stuck`: the first entry of a run that finds too few values.
* `FlatCode.validateWords`: validation with checked 64-bit arithmetic.

## Main results

* `FlatCode.validate_error_iff`, `FlatCode.validate_ok_iff`: what validation decides.
* `FlatCode.stuck_of_stackStep`: the machine with a stack is stuck at such an entry only.
* `FlatCode.validateWords_eq`: no check of the arithmetic fails.
-/

namespace StackTree

open Runs

/-! ## One entry -/

namespace FlatEntry

/-- Running the entry takes as many values off the stack as it says and leaves as many, whatever
these are. A peek leaves the value that it looks at. -/
inductive StepsTo : FlatEntry → List Int32 → List Int32 → Prop where
  | peek (top : Int32) (rest : List Int32) : StepsTo .peek (top :: rest) (top :: top :: rest)
  | exchange {entry : FlatEntry} {taken left : List Int32} (rest : List Int32)
      (takes : taken.length = entry.pops) (leaves : left.length = entry.pushes)
      (ne_peek : entry ≠ .peek) : StepsTo entry (taken ++ rest) (left ++ rest)

/-- The entry takes more values than there are, or looks at one where there is none. -/
def Underflows (entry : FlatEntry) (stack : List Int32) : Prop :=
  stack.length < entry.pops ∨ (entry = .peek ∧ stack = [])

variable {entry : FlatEntry} {stack stack' : List Int32}

theorem needs_of_ne_peek (h : entry ≠ .peek) : entry.needs = entry.pops := by
  cases entry with
  | peek => exact absurd rfl h
  | _ => rfl

theorem underflows_iff : entry.Underflows stack ↔ stack.length < entry.needs := by
  by_cases hpeek : entry = .peek
  · subst hpeek
    simp [Underflows, pops, needs]
  · simp [Underflows, needs_of_ne_peek hpeek, hpeek]

theorem pops_le_needs (entry : FlatEntry) : entry.pops ≤ entry.needs := by
  cases entry with
  | peek => exact Nat.zero_le 1
  | _ => exact Nat.le_refl _

theorem pushes_le_one (entry : FlatEntry) : entry.pushes ≤ 1 := by
  cases entry with
  | call method args returnsValue => exact Bool.toNat_le returnsValue
  | store | ret => exact Nat.zero_le 1
  | _ => exact Nat.le_refl 1

theorem pops_lt (entry : FlatEntry) : entry.pops < 2 ^ 64 := by
  cases entry with
  | call method args returnsValue => exact args.toNat_lt
  | ret value => exact Nat.lt_of_le_of_lt (Bool.toNat_le value) (by decide)
  | _ => simp [pops]

/-- A step needs the values that the entry says, and the number of values changes as it says. -/
theorem StepsTo.length_eq (h : entry.StepsTo stack stack') :
    entry.needs ≤ stack.length ∧ stack'.length = stack.length - entry.pops + entry.pushes := by
  cases h with
  | peek top rest => exact ⟨Nat.le_add_left 1 rest.length, rfl⟩
  | exchange rest takes leaves ne_peek =>
    rw [needs_of_ne_peek ne_peek, List.length_append, List.length_append, takes, leaves]
    omega

/-- An entry that finds the values it needs can be run. -/
theorem exists_stepsTo (h : ¬ entry.Underflows stack) : ∃ stack', entry.StepsTo stack stack' := by
  by_cases hpeek : entry = .peek
  · subst hpeek
    cases stack with
    | nil => exact absurd (Or.inr ⟨rfl, rfl⟩) h
    | cons top rest => exact ⟨_, .peek top rest⟩
  · have hle : entry.pops ≤ stack.length := Nat.not_lt.mp fun hlt => h (Or.inl hlt)
    have hstep : entry.StepsTo (stack.take entry.pops ++ stack.drop entry.pops)
        (List.replicate entry.pushes 0 ++ stack.drop entry.pops) :=
      .exchange _ (List.length_take_of_le hle) List.length_replicate hpeek
    rw [List.take_append_drop] at hstep
    exact ⟨_, hstep⟩

end FlatEntry

namespace FlatCode

/-! ## What validation decides -/

/-- Running the entries in order from a stack gets to the entry at `index`, which then finds too few
values on what is there. -/
inductive Stuck : List FlatEntry → List Int32 → (index : Nat) → FlatEntry → List Int32 → Prop where
  | here {entry : FlatEntry} {rest : List FlatEntry} {stack : List Int32}
      (underflows : entry.Underflows stack) : Stuck (entry :: rest) stack 0 entry stack
  | later {first entry : FlatEntry} {rest : List FlatEntry} {start mid stack : List Int32}
      {index : Nat} (step : first.StepsTo start mid) (stuck : Stuck rest mid index entry stack) :
      Stuck (first :: rest) start (index + 1) entry stack

/-- The fault of an entry that finds too few values. -/
def underflow (index needs available : Nat) : Fault :=
  .flatEntry index ("stack underflow: needs " ++ toString needs ++ " value(s), "
    ++ toString available ++ " available")

theorem validateFrom_cons (index depth : Nat) (entry : FlatEntry) (rest : List FlatEntry) :
    validateFrom index depth (entry :: rest) =
      if depth < entry.needs then .error (underflow index entry.needs depth)
      else validateFrom (index + 1) (depth - entry.pops + entry.pushes) rest := rfl

/-- Validation fails exactly where a run is stuck, and reports the entry. -/
theorem validateFrom_error_iff {entries : List FlatEntry} {start : List Int32} {index : Nat}
    {fault : Fault} :
    validateFrom index start.length entries = .error fault ↔ ∃ i entry stack,
      Stuck entries start i entry stack ∧
        fault = underflow (index + i) entry.needs stack.length := by
  induction entries generalizing start index with
  | nil =>
    constructor
    · intro h
      cases h
    · rintro ⟨i, entry, stack, hstuck, -⟩
      cases hstuck
  | cons first rest ih =>
    rw [validateFrom_cons]
    by_cases hshort : start.length < first.needs
    · rw [if_pos hshort]
      constructor
      · intro h
        have hunderflows := FlatEntry.underflows_iff.mpr hshort
        exact ⟨0, first, start, .here hunderflows, (Except.error.inj h).symm⟩
      · rintro ⟨i, entry, stack, hstuck, rfl⟩
        cases hstuck with
        | here => rfl
        | later step _ => exact absurd hshort (Nat.not_lt.mpr step.length_eq.1)
    · rw [if_neg hshort]
      have hnot : ¬ first.Underflows start := mt FlatEntry.underflows_iff.mp hshort
      constructor
      · intro h
        obtain ⟨mid, hstep⟩ := FlatEntry.exists_stepsTo hnot
        rw [← hstep.length_eq.2] at h
        obtain ⟨i, entry, stack, hstuck, hfault⟩ := ih.mp h
        refine ⟨i + 1, entry, stack, .later hstep hstuck, hfault.trans ?_⟩
        rw [Nat.add_right_comm, Nat.add_assoc]
      · rintro ⟨i, entry, stack, hstuck, rfl⟩
        cases hstuck with
        | here underflows => exact absurd underflows hnot
        | later step stuck =>
          rw [← step.length_eq.2]
          apply ih.mpr
          refine ⟨_, entry, stack, stuck, ?_⟩
          rw [Nat.add_right_comm, Nat.add_assoc]

variable {code : FlatCode}

/-- Validation fails exactly where a run is stuck, with the fault of the entry where it is. -/
theorem validate_error_iff {fault : Fault} :
    code.validate = .error fault ↔ ∃ index entry stack,
      Stuck code.entries [] index entry stack ∧
        fault = underflow index entry.needs stack.length := by
  have hiff : validateFrom 0 ([] : List Int32).length code.entries = .error fault ↔
      ∃ index entry stack, Stuck code.entries [] index entry stack ∧
        fault = underflow (0 + index) entry.needs stack.length := validateFrom_error_iff
  simp only [Nat.zero_add] at hiff
  exact hiff

/-- Validation succeeds exactly where no run is stuck. -/
theorem validate_ok_iff :
    code.validate = .ok () ↔ ∀ index entry stack, ¬ Stuck code.entries [] index entry stack := by
  constructor
  · intro hok index entry stack hstuck
    have hfails := validate_error_iff.mpr ⟨index, entry, stack, hstuck, rfl⟩
    rw [hok] at hfails
    cases hfails
  · intro hnever
    cases hvalid : code.validate with
    | ok _ => rfl
    | error fault =>
      obtain ⟨index, entry, stack, hstuck, -⟩ := validate_error_iff.mp hvalid
      exact absurd hstuck (hnever index entry stack)

/-! ## The machine with a stack -/

open Machine

variable {host : Host}

/-- Nothing that a node does by itself is an underflow. -/
theorem perform_ne_underflow (kind : Kind) (operands : List Int32) (store store' : Store) :
    perform host kind operands store ≠ .error .underflow store' := by
  cases kind with
  | unary op =>
    cases operands with
    | nil => exact nofun
    | cons v rest => exact nofun
  | binary op =>
    match operands with
    | [] => exact nofun
    | [_] => exact nofun
    | left :: right :: _ =>
      rw [perform_binary]
      cases op.denote? left right with
      | some v => exact nofun
      | none => exact nofun
  | store slot =>
    cases operands with
    | nil => exact nofun
    | cons v rest => exact nofun
  | call method returnsValue =>
    show (call host method operands >>= _) store ≠ _
    simp only [call, note, run_bind, run_modify, run_get]
    cases (host method operands store.locals).2 with
    | some v => exact nofun
    | none => exact nofun
  | _ => exact nofun

theorem pushes_eq_producesValue (entry : FlatEntry) :
    entry.pushes = entry.kind.producesValue.toNat := by
  cases entry <;> rfl

/-- A step of the machine that does not deal with the stack itself. -/
theorem stackStep_of_ne_peek {kind : Kind} (h : kind ≠ .peek) (operands : Nat) (s : State) :
    stackStep host kind operands s =
      if s.stack.length < operands then .error .underflow s
      else match perform host kind (s.stack.take operands).reverse s.store with
        | .ok v store => .ok () ⟨if kind.producesValue then v :: s.stack.drop operands
            else s.stack.drop operands, store⟩
        | .error halt store => .error halt ⟨s.stack.drop operands, store⟩ := by
  unfold stackStep
  cases kind with
  | peek => exact absurd rfl h
  | _ => rfl

/-- A step of the machine with a stack is a step of the entry, and it is stuck where the entry finds
too few values. -/
theorem stackStep_cases (host : Host) (entry : FlatEntry) (s : State) :
    (∃ s', stackStep host entry.kind entry.pops s = .ok () s' ∧ entry.StepsTo s.stack s'.stack) ∨
      ∃ halt s', stackStep host entry.kind entry.pops s = .error halt s' ∧
        (halt = .underflow → entry.Underflows s.stack) := by
  by_cases hpeek : entry = .peek
  · subst hpeek
    obtain ⟨stack, store⟩ := s
    cases stack with
    | nil => exact Or.inr ⟨.underflow, _, rfl, fun _ => Or.inr ⟨rfl, rfl⟩⟩
    | cons top rest => exact Or.inl ⟨_, rfl, .peek top rest⟩
  · have hkind : entry.kind ≠ .peek := by
      cases entry with
      | peek => exact absurd rfl hpeek
      | _ => exact nofun
    rw [stackStep_of_ne_peek hkind]
    by_cases hshort : s.stack.length < entry.pops
    · exact Or.inr ⟨.underflow, s, if_pos hshort, fun _ => Or.inl hshort⟩
    · rw [if_neg hshort]
      cases hperform : perform host entry.kind (s.stack.take entry.pops).reverse s.store with
      | error halt store =>
        refine Or.inr ⟨halt, _, rfl, ?_⟩
        rintro rfl
        exact (perform_ne_underflow _ _ _ _ hperform).elim
      | ok v store =>
        refine Or.inl ⟨_, rfl, ?_⟩
        have htakes : (s.stack.take entry.pops).length = entry.pops :=
          List.length_take_of_le (Nat.not_lt.mp hshort)
        have hpushes := pushes_eq_producesValue entry
        have hstep : ∀ left : List Int32, left.length = entry.pushes →
            entry.StepsTo s.stack (left ++ s.stack.drop entry.pops) := by
          intro left hleft
          have := FlatEntry.StepsTo.exchange (s.stack.drop entry.pops) htakes hleft hpeek
          rwa [List.take_append_drop] at this
        cases hvalue : entry.kind.producesValue with
        | true =>
          rw [hvalue] at hpushes
          exact hstep [v] hpushes.symm
        | false =>
          rw [hvalue] at hpushes
          exact hstep [] hpushes.symm

/-- Where the machine with a stack finds too few values, a run of the entries is stuck. -/
theorem stuck_of_stackStep {entries : List FlatEntry} {s s' : State}
    (h : (entries.forM fun entry => stackStep host entry.kind entry.pops) s =
      .error .underflow s') :
    ∃ index entry stack, Stuck entries s.stack index entry stack := by
  induction entries generalizing s with
  | nil => cases h
  | cons first rest ih =>
    rw [List.forM_eq_forM, List.forM_cons, run_bind] at h
    rcases stackStep_cases host first s with ⟨mid, hrun, hstep⟩ | ⟨halt, t, hrun, hhalt⟩
    · rw [hrun] at h
      obtain ⟨index, entry, stack, hstuck⟩ := ih h
      exact ⟨index + 1, entry, stack, .later hstep hstuck⟩
    · rw [hrun] at h
      cases h
      exact ⟨0, first, s.stack, .here (hhalt rfl)⟩

/-! ## Counting in words -/

/-- A subtraction of 64-bit words, none if it would go below zero. -/
def subWord? (a b : UInt64) : Option UInt64 := if b ≤ a then some (a - b) else none

/-- An addition of 64-bit words, none if it would leave the word. -/
def addWord? (a b : UInt64) : Option UInt64 :=
  if a.toNat + b.toNat < 2 ^ 64 then some (a + b) else none

/-- Checks entries from one position on, where the depth of the stack is a 64-bit word; none if the
depth leaves the word. -/
def validateWordsFrom : (index : Nat) → (depth : UInt64) → List FlatEntry →
    Option (Except Fault Unit)
  | _, _, [] => some (.ok ())
  | index, depth, entry :: rest =>
    if depth < .ofNat entry.needs then
      some (.error (underflow index entry.needs depth.toNat))
    else do
      let left ← subWord? depth (.ofNat entry.pops)
      let depth ← addWord? left (.ofNat entry.pushes)
      validateWordsFrom (index + 1) depth rest

/-- Validation that counts in 64-bit words. -/
def validateWords (code : FlatCode) : Option (Except Fault Unit) :=
  validateWordsFrom 0 0 code.entries

theorem subWord?_eq {a b : UInt64} (h : b.toNat ≤ a.toNat) :
    ∃ c, subWord? a b = some c ∧ c.toNat = a.toNat - b.toNat := by
  have hle : b ≤ a := UInt64.le_iff_toNat_le.mpr h
  exact ⟨a - b, if_pos hle, UInt64.toNat_sub_of_le a b hle⟩

theorem addWord?_eq {a b : UInt64} (h : a.toNat + b.toNat < 2 ^ 64) :
    ∃ c, addWord? a b = some c ∧ c.toNat = a.toNat + b.toNat := by
  refine ⟨a + b, if_pos h, ?_⟩
  rw [UInt64.toNat_add, Nat.mod_eq_of_lt h]

theorem toNat_ofNat_of_lt {n : Nat} (h : n < 2 ^ 64) : (UInt64.ofNat n).toNat = n := by
  rw [UInt64.toNat_ofNat', Nat.mod_eq_of_lt h]

/-- Where the depth and the number of entries fit a word, so does every depth on the way. -/
theorem validateWordsFrom_eq {entries : List FlatEntry} {index : Nat} {depth : UInt64}
    (h : depth.toNat + entries.length < 2 ^ 64) :
    validateWordsFrom index depth entries = some (validateFrom index depth.toNat entries) := by
  induction entries generalizing index depth with
  | nil => rfl
  | cons first rest ih =>
    have hpops := toNat_ofNat_of_lt first.pops_lt
    have hpushes := first.pushes_le_one
    have hpushed : (UInt64.ofNat first.pushes).toNat = first.pushes :=
      toNat_ofNat_of_lt (by omega)
    have hneeded : (UInt64.ofNat first.needs).toNat = first.needs := by
      by_cases hpeek : first = .peek
      · subst hpeek
        rfl
      · rw [FlatEntry.needs_of_ne_peek hpeek, hpops]
    rw [List.length_cons] at h
    rw [validateWordsFrom, validateFrom_cons]
    simp only [UInt64.lt_iff_toNat_lt, hneeded]
    by_cases hshort : depth.toNat < first.needs
    · rw [if_pos hshort, if_pos hshort]
    · have hle := first.pops_le_needs
      obtain ⟨left, hsub, hleft⟩ := subWord?_eq (a := depth) (b := .ofNat first.pops) (by omega)
      obtain ⟨next, hadd, hnext⟩ := addWord?_eq (a := left) (b := .ofNat first.pushes) (by omega)
      rw [hleft, hpops, hpushed] at hnext
      rw [if_neg hshort, if_neg hshort, hsub, Option.bind_eq_bind, Option.bind_some, hadd,
        Option.bind_some, ih (by omega), hnext]

/-- Counting in words gives the same answer, and no check of the arithmetic fails. -/
theorem validateWords_eq (h : code.entries.length < 2 ^ 64) :
    code.validateWords = some code.validate := by
  apply validateWordsFrom_eq
  rw [UInt64.toNat_zero, Nat.zero_add]
  exact h

end FlatCode

end StackTree
