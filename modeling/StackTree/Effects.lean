/-!
# Effects of evaluating a tree

An `Effects` value says which of six things the evaluation of a tree may do. The effects of a tree
are the union of the effects of its nodes, so the type is a join semilattice with `∅` at the bottom.

## Main definitions

* `Effects.hasSideEffect`, `Effects.hasStackAccess`: the two groups of effects that decide legality.
* `mayReorder`: whether two pieces of code with given effects may swap places.
* `Effects.text`: the written form that error messages use.

## Main results

* `mayReorder_comm`: swapping is a symmetric relation.
* `mayReorder_of_subset`: code with fewer effects moves past more.
-/

namespace StackTree

/-- What evaluating a tree may do. -/
structure Effects where
  /-- Reads locals, memory or globals. -/
  reads : Bool
  /-- Writes locals, memory or globals. -/
  writes : Bool
  /-- Raises an exception. -/
  throws : Bool
  /-- Leaves the enclosing sequence. -/
  exits : Bool
  /-- Looks at the top of the evaluation stack without taking it. -/
  peeks : Bool
  /-- Takes the top of the evaluation stack. -/
  pops : Bool
deriving DecidableEq, Repr, Inhabited

namespace Effects

/-! ## Sets of effects -/

/-- No effect at all. -/
def empty : Effects := ⟨false, false, false, false, false, false⟩

instance : EmptyCollection Effects := ⟨empty⟩

/-- The effects of doing both. -/
def union (a b : Effects) : Effects where
  reads := a.reads || b.reads
  writes := a.writes || b.writes
  throws := a.throws || b.throws
  exits := a.exits || b.exits
  peeks := a.peeks || b.peeks
  pops := a.pops || b.pops

instance : Union Effects := ⟨union⟩

/-- Reads state and does nothing else. -/
def read : Effects := { empty with reads := true }

/-- Writes state and does nothing else. -/
def write : Effects := { empty with writes := true }

/-- May raise an exception and does nothing else. -/
def raise : Effects := { empty with throws := true }

/-- Leaves the sequence and does nothing else. -/
def exit : Effects := { empty with exits := true }

/-- Looks at the stack top and does nothing else. -/
def peek : Effects := { empty with peeks := true }

/-- Takes the stack top and does nothing else. -/
def pop : Effects := { empty with pops := true }

/-- Effects whose relative order can be observed: writes, exceptions and exits. -/
def hasSideEffect (e : Effects) : Bool := e.writes || e.throws || e.exits

/-- Any dealing with the evaluation stack. -/
def hasStackAccess (e : Effects) : Bool := e.peeks || e.pops

/-- Any dealing with mutable state. -/
def touchesState (e : Effects) : Bool := e.reads || e.writes

/-- The same effects less the dealings with the evaluation stack. -/
def withoutStackAccess (e : Effects) : Effects := { e with peeks := false, pops := false }

/-! ## The numeric code -/

/-- The effects as a number, one binary digit for each, in the order of the fields. -/
def toBits (e : Effects) : Nat :=
  e.reads.toNat + 2 * e.writes.toNat + 4 * e.throws.toNat + 8 * e.exits.toNat
    + 16 * e.peeks.toNat + 32 * e.pops.toNat

/--
The effects that the binary digits of a number stand for; digits above the sixth mean nothing.
-/
def ofBits (bits : Nat) : Effects where
  reads := bits.testBit 0
  writes := bits.testBit 1
  throws := bits.testBit 2
  exits := bits.testBit 3
  peeks := bits.testBit 4
  pops := bits.testBit 5

/-! ## The written form -/

/-- The names of the effects that are present, in the order of the fields. -/
def names (e : Effects) : List String :=
  [(e.reads, "MAY_READ_STATE"), (e.writes, "MAY_WRITE_STATE"), (e.throws, "MAY_THROW"),
    (e.exits, "MAY_EXIT"), (e.peeks, "MAY_PEEK"), (e.pops, "MAY_POP")].filterMap
      fun (present, name) => if present then some name else none

/-- The written form: the names joined by bars, or a zero when there are none. -/
def text (e : Effects) : String :=
  let inside := if e.names.isEmpty then "0x0" else " | ".intercalate e.names
  "InstructionFlags(" ++ inside ++ ")"

/-! ## Laws -/

theorem union_comm (a b : Effects) : a ∪ b = b ∪ a := by
  simp [Union.union, union, Bool.or_comm]

theorem union_assoc (a b c : Effects) : a ∪ b ∪ c = a ∪ (b ∪ c) := by
  simp [Union.union, union, Bool.or_assoc]

@[simp] theorem union_self (a : Effects) : a ∪ a = a := by
  simp [Union.union, union]

@[simp] theorem empty_union (a : Effects) : ∅ ∪ a = a := by
  simp [Union.union, union, EmptyCollection.emptyCollection, empty]

@[simp] theorem union_empty (a : Effects) : a ∪ ∅ = a := by
  simp [Union.union, union, EmptyCollection.emptyCollection, empty]

@[simp] theorem empty_pops : (∅ : Effects).pops = false := rfl

@[simp] theorem empty_peeks : (∅ : Effects).peeks = false := rfl

@[simp] theorem union_pops (a b : Effects) : (a ∪ b).pops = (a.pops || b.pops) := rfl

@[simp] theorem union_peeks (a b : Effects) : (a ∪ b).peeks = (a.peeks || b.peeks) := rfl

@[simp] theorem union_reads (a b : Effects) : (a ∪ b).reads = (a.reads || b.reads) := rfl

@[simp] theorem union_writes (a b : Effects) : (a ∪ b).writes = (a.writes || b.writes) := rfl

@[simp] theorem hasSideEffect_union (a b : Effects) :
    (a ∪ b).hasSideEffect = (a.hasSideEffect || b.hasSideEffect) := by
  obtain ⟨_, writes, throws, exits, _, _⟩ := a
  obtain ⟨_, writes', throws', exits', _, _⟩ := b
  cases writes <;> cases throws <;> cases exits <;> cases writes' <;> cases throws' <;>
    cases exits' <;> rfl

@[simp] theorem hasStackAccess_union (a b : Effects) :
    (a ∪ b).hasStackAccess = (a.hasStackAccess || b.hasStackAccess) := by
  obtain ⟨_, _, _, _, peeks, pops⟩ := a
  obtain ⟨_, _, _, _, peeks', pops'⟩ := b
  cases peeks <;> cases pops <;> cases peeks' <;> cases pops' <;> rfl

@[simp] theorem withoutStackAccess_empty : (∅ : Effects).withoutStackAccess = ∅ := rfl

@[simp] theorem withoutStackAccess_union (a b : Effects) :
    (a ∪ b).withoutStackAccess = a.withoutStackAccess ∪ b.withoutStackAccess := rfl

theorem hasStackAccess_eq_false_iff {e : Effects} :
    e.hasStackAccess = false ↔ e.peeks = false ∧ e.pops = false := by
  simp [hasStackAccess]

/-- Every effect of a part is one of the whole. -/
instance : HasSubset Effects := ⟨fun a b => a ∪ b = b⟩

theorem subset_refl (a : Effects) : a ⊆ a := union_self a

theorem subset_trans {a b c : Effects} (hab : a ⊆ b) (hbc : b ⊆ c) : a ⊆ c :=
  calc a ∪ c = a ∪ (b ∪ c) := by rw [show b ∪ c = c from hbc]
    _ = b ∪ c := by rw [← union_assoc, show a ∪ b = b from hab]
    _ = c := hbc

theorem subset_union_left (a b : Effects) : a ⊆ a ∪ b := by
  show a ∪ (a ∪ b) = a ∪ b
  rw [← union_assoc, union_self]

theorem subset_union_right (a b : Effects) : b ⊆ a ∪ b := by
  rw [union_comm]
  exact subset_union_left b a

theorem union_subset_union_left {a b : Effects} (h : a ⊆ b) (c : Effects) : a ∪ c ⊆ b ∪ c := by
  show a ∪ c ∪ (b ∪ c) = b ∪ c
  rw [union_assoc, ← union_assoc c, union_comm c, union_assoc b, union_self, ← union_assoc,
    show a ∪ b = b from h]

theorem peeks_of_subset {a b : Effects} (h : a ⊆ b) (ha : a.peeks = true) : b.peeks = true := by
  rw [← show a ∪ b = b from h, union_peeks, ha, Bool.true_or]

theorem hasStackAccess_of_subset {a b : Effects} (h : a ⊆ b) (ha : a.hasStackAccess = true) :
    b.hasStackAccess = true := by
  rw [← show a ∪ b = b from h, hasStackAccess_union, ha, Bool.true_or]

theorem withoutStackAccess_mono {a b : Effects} (h : a ⊆ b) :
    a.withoutStackAccess ⊆ b.withoutStackAccess := by
  show a.withoutStackAccess ∪ b.withoutStackAccess = b.withoutStackAccess
  rw [← withoutStackAccess_union, show a ∪ b = b from h]

theorem withoutStackAccess_eq_self {e : Effects} (h : e.hasStackAccess = false) :
    e.withoutStackAccess = e := by
  obtain ⟨hpeeks, hpops⟩ := hasStackAccess_eq_false_iff.mp h
  obtain ⟨reads, writes, throws, exits, peeks, pops⟩ := e
  obtain rfl : peeks = false := hpeeks
  obtain rfl : pops = false := hpops
  rfl

end Effects

/-! ## Swapping two pieces of code -/

/--
Whether code with the effects `candidate` may be moved past code with the effects `before`. A side
effect on one side conflicts with stack access on the other, a write conflicts with any read or
write, and two side effects never swap places.
-/
def mayReorder (before candidate : Effects) : Bool :=
  let stackConflict :=
    (candidate.hasSideEffect && before.hasStackAccess)
      || (before.hasSideEffect && candidate.hasStackAccess)
  let writeConflict :=
    (before.writes && candidate.touchesState) || (candidate.writes && before.touchesState)
  !stackConflict && !writeConflict && !(before.hasSideEffect && candidate.hasSideEffect)

/-- Swapping is symmetric. -/
theorem mayReorder_comm (a b : Effects) : mayReorder a b = mayReorder b a := by
  simp only [mayReorder]
  rw [Bool.or_comm (b.hasSideEffect && a.hasStackAccess),
    Bool.or_comm (a.writes && b.touchesState), Bool.and_comm a.hasSideEffect b.hasSideEffect]

/-- Code without any effect moves past everything. -/
@[simp] theorem mayReorder_empty (a : Effects) : mayReorder a ∅ = true := by
  simp [mayReorder, EmptyCollection.emptyCollection, Effects.empty, Effects.hasSideEffect,
    Effects.hasStackAccess, Effects.touchesState]

/-- What may swap places with both of two may swap places with each. -/
theorem mayReorder_of_union {a b c : Effects} (h : mayReorder (a ∪ b) c = true) :
    mayReorder a c = true ∧ mayReorder b c = true := by
  simp only [mayReorder, Bool.and_eq_true, Bool.not_eq_true', Bool.or_eq_false_iff,
    Bool.and_eq_false_iff, Effects.touchesState, Effects.hasSideEffect_union,
    Effects.hasStackAccess_union, Effects.union_reads, Effects.union_writes] at h ⊢
  grind

/-- Two side effects never swap places. -/
theorem not_mayReorder_of_sideEffects {a b : Effects} (ha : a.hasSideEffect = true)
    (hb : b.hasSideEffect = true) : mayReorder a b = false := by
  simp [mayReorder, ha, hb]

/-- A read never swaps places with a write. -/
theorem not_mayReorder_of_read {a b : Effects} (ha : a.reads = true) (hb : b.writes = true) :
    mayReorder a b = false := by
  simp [mayReorder, Effects.touchesState, ha, hb]

/-- Stack access never swaps places with a side effect. -/
theorem not_mayReorder_of_access {a b : Effects} (ha : a.hasStackAccess = true)
    (hb : b.hasSideEffect = true) : mayReorder a b = false := by
  simp [mayReorder, ha, hb]

/-- Code with fewer effects moves past more. -/
theorem mayReorder_of_subset {a b c : Effects} (hab : a ⊆ b) (h : mayReorder b c = true) :
    mayReorder a c = true := by
  rw [← show a ∪ b = b from hab] at h
  exact (mayReorder_of_union h).1

end StackTree
