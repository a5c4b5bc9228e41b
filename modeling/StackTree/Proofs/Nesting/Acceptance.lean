import StackTree.Proofs.Nesting.Blocks
import StackTree.Proofs.Ownership.Reach

/-!
# Which sequences are nested

Nesting takes a sequence apart before it puts the new one together, so a failure half-way through
would lose it. There is none: a sequence is refused by the check of its entries, before anything is
changed, or it is nested to the end.

## Main results

* `nestBlock_cases`: a sequence is refused and nothing changes, or its entries are free and it is
  nested.
* `nestBlock_accepted`: what nesting an accepted sequence comes to.
* `nestBlock_error_iff`, `nestBody_error_iff`: the sequences and bodies that are refused, and why.
* `Routine.Reachable.nestBlock_all_or_nothing`: the same for every reachable routine.
-/

namespace StackTree

open Routine

variable {r s : Routine} {block : List NodeId} {fault : Fault}

/-- How nesting words the refusal of an entry that hangs somewhere. -/
def attachedEntry (n : NodeId) (link : Link) : Fault := .stillAttached n link.parent

/-- A sequence that the check refuses stays as it is, and so does the routine. -/
theorem nestBlock_of_rejects (h : r.Rejects attachedEntry block fault) :
    nestBlock r block = ⟨r, block, .error fault⟩ := by
  have hcheck : r.checkFree (fun n link => .stillAttached n link.parent) [] block = .error fault :=
    checkFree_of_rejects h
  rw [nestBlock, hcheck]

/-- A sequence is refused and nothing changes, or its entries are free and it is nested. -/
theorem nestBlock_cases (hr : r.Sound) (block : List NodeId) :
    (∃ fault, r.Rejects attachedEntry block fault ∧
      nestBlock r block = ⟨r, block, .error fault⟩) ∨
    (r.AllFree block ∧ ∃ report, (nestBlock r block).result = .ok report) := by
  rcases allFree_or_rejects r attachedEntry block with hfree | ⟨fault, hrejects⟩
  · obtain ⟨ts, hts⟩ := hr.exists_showsAll hfree
    obtain ⟨s, hrun, -⟩ := nestBlock_eq hr hfree hts
    exact Or.inr ⟨hfree, _, by rw [hrun]⟩
  · exact Or.inl ⟨fault, hrejects, nestBlock_of_rejects hrejects⟩

/-- An accepted sequence consists of free nodes, and its trees become those of `Nest.run`. -/
theorem nestBlock_accepted (hr : r.Sound) {report : NestingReport}
    (h : (nestBlock r block).result = .ok report) :
    ∃ ts s, r.ShowsAll block ts ∧ r.Supplies ts ∧
      nestBlock r block = ⟨s, (Nest.start.run ts).output.map Tree.id, .ok report⟩ ∧
      report = (Nest.start.run ts).report ts.length ∧ r.Nests s ts (Nest.start.run ts).output := by
  rcases nestBlock_cases hr block with ⟨fault, -, hrun⟩ | ⟨hfree, -⟩
  · rw [hrun] at h
    cases h
  · obtain ⟨ts, hts⟩ := hr.exists_showsAll hfree
    obtain ⟨s, hrun, hnests⟩ := nestBlock_eq hr hfree hts
    rw [hrun] at h ⊢
    obtain rfl := Except.ok.inj h
    exact ⟨ts, s, hts, hts.supplies hfree, rfl, rfl, hnests⟩

/-- Nesting a sequence fails for its first entry that is gone, attached or repeated. -/
theorem nestBlock_error_iff (hr : r.Sound) :
    (nestBlock r block).result = .error fault ↔ r.Rejects attachedEntry block fault := by
  constructor
  · intro h
    rcases nestBlock_cases hr block with ⟨other, hrejects, hrun⟩ | ⟨-, report, hrun⟩
    · rw [hrun] at h
      obtain rfl := Except.error.inj h
      exact hrejects
    · rw [hrun] at h
      cases h
  · intro h
    rw [nestBlock_of_rejects h]

/-- Nesting a body fails for its first entry that is gone, attached or repeated, and changes
nothing then. -/
theorem nestBody_error_iff (hr : r.Sound) :
    nestBody r = .error fault s ↔ r.Rejects attachedEntry r.body fault ∧ s = r := by
  constructor
  · intro h
    unfold nestBody at h
    rcases nestBlock_cases (hr.with_body []) r.body with ⟨other, hother, hrun⟩ | ⟨-, report, hrun⟩
    · simp only [hrun, EStateM.Result.error.injEq] at h
      obtain ⟨rfl, rfl⟩ := h
      exact ⟨hother.of_get?_eq fun _ => rfl, rfl⟩
    · simp only [hrun] at h
      cases h
  · rintro ⟨h, rfl⟩
    have hrun := nestBlock_of_rejects (r := { s with body := [] }) (h.of_get?_eq fun _ => rfl)
    simp only [nestBody, hrun]

namespace Routine

/--
Nesting is all or nothing. Over a reachable routine a sequence fails exactly when one of its entries
is gone, hangs somewhere or was listed before; the fault is that of the first such entry, and then
the routine and the sequence are what they were. The body is nested in the same way.
-/
theorem Reachable.nestBlock_all_or_nothing (h : r.Reachable) (block : List NodeId) :
    ((∃ fault, (nestBlock r block).result = .error fault) ↔
      ∃ earlier n later, block = earlier ++ n :: later ∧
        (r.isLive n = false ∨ (∃ link, r.LinksTo n link) ∨ n ∈ earlier)) ∧
    (∀ fault, (nestBlock r block).result = .error fault ↔ r.Rejects attachedEntry block fault) ∧
    (∀ fault, (nestBlock r block).result = .error fault →
      nestBlock r block = ⟨r, block, .error fault⟩) ∧
    ∀ fault s, nestBody r = .error fault s ↔ r.Rejects attachedEntry r.body fault ∧ s = r := by
  have hr := h.sound
  refine ⟨?_, fun fault => nestBlock_error_iff hr, fun fault hfault => ?_, fun fault s =>
    nestBody_error_iff hr⟩
  · simp only [nestBlock_error_iff hr]
    exact exists_rejects_iff
  · exact nestBlock_of_rejects ((nestBlock_error_iff hr).mp hfault)

/-- A constant under a negation is refused as an entry after the negation, and so is the negation
when it is listed again, or a name that was never given. -/
theorem nestBlock_refuses_bad_entries :
    let build : Edit NodeId := do
      let one ← alloc (.const 1) []
      alloc (.unary .neg) [one]
    let r := leftBy (build { name := "main" })
    r.Reachable ∧
      nestBlock r [⟨1⟩, ⟨0⟩] = ⟨r, [⟨1⟩, ⟨0⟩], .error (.stillAttached ⟨0⟩ ⟨1⟩)⟩ ∧
      nestBlock r [⟨1⟩, ⟨1⟩] = ⟨r, [⟨1⟩, ⟨1⟩], .error (.repeated ⟨1⟩)⟩ ∧
      nestBlock r [⟨9⟩, ⟨1⟩] = ⟨r, [⟨9⟩, ⟨1⟩], .error (.released ⟨9⟩)⟩ := by
  intro build r
  have hreach : r.Reachable :=
    ⟨"main", NodeId, build, .bind (.alloc _ _) fun _ => .alloc _ _, rfl⟩
  have hfree : r.Free ⟨1⟩ := ⟨_, rfl, rfl⟩
  have hlinked : r.LinksTo ⟨0⟩ ⟨⟨1⟩, 0⟩ := ⟨_, rfl, rfl⟩
  have hone : r.AllFree [⟨1⟩] := ⟨List.nodup_singleton _, by simpa using hfree⟩
  have hrefuse : ∀ block fault, r.Rejects attachedEntry block fault →
      nestBlock r block = ⟨r, block, .error fault⟩ := by
    intro block fault hrejects
    obtain ⟨-, hfails, hsame, -⟩ := Reachable.nestBlock_all_or_nothing hreach block
    exact hsame fault ((hfails fault).mpr hrejects)
  refine ⟨hreach, hrefuse _ _ ?_, hrefuse _ _ ?_, hrefuse _ _ ?_⟩
  · exact ⟨[⟨1⟩], ⟨0⟩, [], rfl, hone, .attached hlinked⟩
  · exact ⟨[⟨1⟩], ⟨1⟩, [], rfl, hone, .repeated hfree (List.mem_singleton.mpr rfl)⟩
  · exact ⟨[], ⟨9⟩, [⟨1⟩], rfl, ⟨List.nodup_nil, by simp⟩, .released rfl⟩

end Routine

end StackTree
