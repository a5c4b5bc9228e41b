import StackTree.Proofs.FlatCode.Build
import StackTree.Proofs.FlatCode.Validation

/-!
# Building flat code is faithful

While the arena has room, flat code is built exactly when it is valid, and then the routine is the
code over again: one free node for each entry in order, over pops that hang nowhere else. Nothing
else is allocated, so the count of live nodes is that of the entries and of the values they take.

## Main definitions

* `FlatEntry.BuiltAt`: the node of an entry and its operands.
* `FlatCode.Builds`: the routine has the entries of the code as its body.

## Main results

* `FlatCode.build_error_iff`, `FlatCode.build_isOk_iff`: when building succeeds.
* `FlatCode.builds_of_build`: what is built.
* `FlatCode.validate_and_build`: validation accepts the stack-safe code, and building it is faithful.
-/

namespace StackTree

open Runs

variable {r : Routine}

/-! ## The node of an entry -/

/-- A pop in a slot is a leaf that is linked to that slot. -/
theorem Routine.Sound.get?_pop (h : r.Sound) {n c : NodeId} {slot : Nat}
    (hc : r.HasChild n slot c) (hpop : r.kind c = .ok .pop) :
    r.get? c = some { kind := .pop, children := [], effects := .pop, parent := some ⟨n, slot⟩ } := by
  obtain ⟨node, hget, hkind⟩ := exists_node_of_kind hpop
  obtain ⟨linked, hlinked, hparent⟩ := h.down n slot c hc
  obtain rfl := Option.some.inj (hget.symm.trans hlinked)
  have harity := h.arity c node hget
  have heffects := h.effectsRight c node hget
  obtain ⟨kind, children, effects, parent⟩ := node
  obtain rfl : kind = .pop := hkind
  obtain rfl : children = [] := List.length_eq_zero_iff.mp (eq_of_beq harity)
  obtain rfl : parent = some ⟨n, slot⟩ := hparent
  obtain rfl : effects = .pop := heffects
  exact hget

/-- The node does what the entry does, hangs nowhere, and its operands are as many pops as the entry
takes values, all different and in no other slot. -/
def FlatEntry.BuiltAt (entry : FlatEntry) (r : Routine) (n : NodeId) : Prop :=
  ∃ node, r.get? n = some node ∧ node.kind = entry.kind ∧ node.parent = none ∧
    node.children.length = entry.pops ∧ node.children.Nodup ∧
    (∀ slot c, node.children[slot]? = some c →
      r.get? c =
        some { kind := .pop, children := [], effects := .pop, parent := some ⟨n, slot⟩ } ∧
      ∀ p i, r.HasChild p i c → p = n ∧ i = slot) ∧
    r.producesValue n = .ok (entry.pushes == 1)

theorem FlatEntry.producesValue_eq (entry : FlatEntry) :
    entry.kind.producesValue = (entry.pushes == 1) := by
  cases entry with
  | call method args returnsValue => cases returnsValue <;> rfl
  | _ => rfl

/-- The tree that an entry makes is built at its topmost node. -/
theorem FlatEntry.Makes.builtAt (hr : r.Sound) {entry : FlatEntry} {t : Tree}
    (h : entry.Makes t) (ht : r.Shows t.id t) (hfree : r.Free t.id) : entry.BuiltAt r t.id := by
  obtain ⟨hkind, hlength, hpops⟩ := h
  obtain ⟨id, kind, effects, operands⟩ := t
  cases ht with
  | @node _ node ts at_n below =>
    obtain ⟨free, hget, hparent⟩ := hfree
    obtain rfl := Option.some.inj (at_n.symm.trans hget)
    have hcount : node.children.length = entry.pops := below.length_eq.trans hlength
    refine ⟨node, at_n, hkind, hparent, hcount, hr.children_nodup at_n, ?_, ?_⟩
    · intro slot c hc
      have hsits : r.HasChild id slot c := ⟨node, at_n, hc⟩
      have hmem : c ∈ operands.map Tree.id := below.map_id.symm ▸ List.mem_of_getElem? hc
      obtain ⟨u, hu, rfl⟩ := List.mem_map.mp hmem
      have hpop : r.kind u.id = .ok .pop :=
        (Routine.kind_of_shows (below.shows u hu)).trans (congrArg _ (hpops u hu))
      exact ⟨hr.get?_pop hsits hpop, fun p i hother => hr.slot_unique hother hsits⟩
    · rw [Routine.producesValue, Routine.node_of_get? at_n, except_map_ok, ← entry.producesValue_eq,
        ← hkind]
      rfl

namespace FlatCode

variable {code : FlatCode}

/-! ## The routine of flat code -/

/-- The body of the routine is the code, one free node for each entry in order, and no other nodes
are live but the operands of these. -/
structure Builds (code : FlatCode) (r : Routine) : Prop where
  name_eq : r.name = code.name
  length_eq : r.body.length = code.entries.length
  free : r.AllFree r.body
  entry : ∀ (i : Nat) (entry : FlatEntry), code.entries[i]? = some entry →
    ∃ n, r.body[i]? = some n ∧ entry.BuiltAt r n
  live_eq : r.live = (code.entries.map fun entry => 1 + entry.pops).sum

/-- Code that is refused is not built, for the same reason, whether or not it would fit. -/
theorem build_error_of_validate {fault : Fault} (h : code.validate = .error fault) :
    code.build = .error fault := by
  rw [build, h, except_bind_error]

/-- Building fails exactly where validation does, with the same fault. -/
theorem build_error_iff (hroom : nodeCount code.entries ≤ Routine.capacity) {fault : Fault} :
    code.build = .error fault ↔ code.validate = .error fault := by
  cases hvalid : code.validate with
  | error other => rw [build_error_of_validate hvalid, Except.error.injEq, Except.error.injEq]
  | ok _ =>
    obtain ⟨r, -, hbuild, -⟩ := build_ok hvalid hroom
    rw [hbuild]
    constructor
    · intro h
      cases h
    · intro h
      cases h

/-- Building succeeds exactly where validation does. -/
theorem build_isOk_iff (hroom : nodeCount code.entries ≤ Routine.capacity) :
    (∃ r, code.build = .ok r) ↔ code.validate = .ok () := by
  constructor
  · rintro ⟨r, hbuild⟩
    cases hvalid : code.validate with
    | ok _ => rfl
    | error fault =>
      rw [build_error_of_validate hvalid] at hbuild
      cases hbuild
  · intro hvalid
    obtain ⟨r, -, hbuild, -⟩ := build_ok hvalid hroom
    exact ⟨r, hbuild⟩

/-- What is built has the code as its body. -/
theorem builds_of_build (hroom : nodeCount code.entries ≤ Routine.capacity)
    (hbuild : code.build = .ok r) : code.Builds r := by
  have hvalid := (build_isOk_iff hroom).mp ⟨r, hbuild⟩
  obtain ⟨s, ts, hrun, hgrows, hbody, hmake⟩ := build_ok hvalid hroom
  obtain rfl := Except.ok.inj (hbuild.symm.trans hrun)
  have hsup := hgrows.supplies
  have hlength := hmake.length_eq
  refine ⟨hgrows.name_eq, ?_, hbody ▸ hsup.free, ?_, ?_⟩
  · rw [hbody, List.length_map, hlength]
  · intro i entry hentry
    obtain ⟨hi, rfl⟩ := List.getElem?_eq_some_iff.mp hentry
    have ht : ts[i] ∈ ts := List.getElem_mem (hlength ▸ hi)
    refine ⟨ts[i].id, ?_, ?_⟩
    · rw [hbody, List.getElem?_map, List.getElem?_eq_getElem]
      rfl
    · exact (hmake.get hi (hlength ▸ hi)).builtAt hgrows.sound (hsup.shows _ ht)
        (hsup.free_of_mem ht)
  · rw [hgrows.live_eq, nodeCount]
    exact Nat.zero_add _

/--
Validation accepts flat code exactly where no run of its entries on a stack, starting from the empty
one, comes to an entry that finds too few values, and otherwise it reports the entry where the runs
are stuck; so the machine with a stack never underflows on valid code. Counting in 64-bit words
gives the same answer without leaving the words. Building fails with the fault of validation
wherever that has one. Where the arena has room building succeeds exactly where validation does, and
what is built has the code as its body.
-/
theorem validate_and_build (code : FlatCode) :
    (code.validate = .ok () ↔ ∀ index entry stack, ¬ Stuck code.entries [] index entry stack) ∧
    (∀ fault, code.validate = .error fault ↔ ∃ index entry stack,
      Stuck code.entries [] index entry stack ∧
        fault = underflow index entry.needs stack.length) ∧
    (code.validate = .ok () → ∀ (host : Machine.Host) (store : Machine.Store) (s : Machine.State),
      (code.entries.forM fun entry => Machine.stackStep host entry.kind entry.pops) ⟨[], store⟩ ≠
        .error .underflow s) ∧
    (code.entries.length < 2 ^ 64 → code.validateWords = some code.validate) ∧
    (∀ fault, code.validate = .error fault → code.build = .error fault) ∧
    (nodeCount code.entries ≤ Routine.capacity →
      (∀ fault, code.build = .error fault ↔ code.validate = .error fault) ∧
      ((∃ r, code.build = .ok r) ↔ code.validate = .ok ()) ∧
      ∀ r, code.build = .ok r → code.Builds r) := by
  refine ⟨validate_ok_iff, fun _ => validate_error_iff, ?machine, validateWords_eq,
    fun _ => build_error_of_validate, ?build⟩
  case machine =>
    intro hvalid host store s hrun
    obtain ⟨index, entry, stack, hstuck⟩ := stuck_of_stackStep hrun
    exact validate_ok_iff.mp hvalid index entry stack hstuck
  case build =>
    intro hroom
    exact ⟨fun _ => build_error_iff hroom, build_isOk_iff hroom, fun _ => builds_of_build hroom⟩

/-- A call on two values whose result is returned twice over is built with eight nodes; a peek after
the only value was stored is refused. -/
theorem validate_and_build_call :
    let code : FlatCode :=
      ⟨"main", [.const 1, .const 2, .call "f" 2 true, .peek, .ret true]⟩
    let empty : FlatCode := ⟨"main", [.const 1, .store 0, .peek, .ret true]⟩
    (∃ r, code.build = .ok r ∧ code.Builds r ∧ r.live = 8) ∧
      code.validateWords = some (.ok ()) ∧
      empty.build = .error (.flatEntry 2 "stack underflow: needs 1 value(s), 0 available") ∧
      ∃ entry stack, Stuck empty.entries [] 2 entry stack := by
  intro code empty
  obtain ⟨-, -, -, hwords, -, hbuild⟩ := validate_and_build code
  obtain ⟨-, hstuck, -, -, hrefuse, -⟩ := validate_and_build empty
  have hvalid : code.validate = .ok () := rfl
  have hrefused : empty.validate = .error (underflow 2 1 0) := rfl
  obtain ⟨-, hok, hbuilds⟩ := hbuild (by decide)
  obtain ⟨r, hr⟩ := hok.mpr hvalid
  refine ⟨⟨r, hr, hbuilds r hr, (hbuilds r hr).live_eq⟩,
    (hwords (by decide)).trans (by rw [hvalid]), hrefuse _ hrefused, ?_⟩
  obtain ⟨index, entry, stack, hat, hfault⟩ := (hstuck _).mp hrefused
  simp only [underflow, Fault.flatEntry.injEq] at hfault
  obtain ⟨rfl, -⟩ := hfault
  exact ⟨entry, stack, hat⟩

end FlatCode

end StackTree
