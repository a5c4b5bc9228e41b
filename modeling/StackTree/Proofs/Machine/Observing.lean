import StackTree.Proofs.Machine.Values

/-!
# Runs of several entries

A run is observed entry by entry, and what can be told of the entries so far decides where the rest
starts. So a list of entries may be exchanged inside a longer one for a list that does the same.

## Main definitions

* `Machine.Mimics`: the second list of entries does what the first does, wherever the values that
  the first one needs are there.

## Main results

* `observe_append`: a run of two lists, one after the other.
* `Mimics.append_left`, `Mimics.append_right`: exchanging entries inside a longer list.
-/

namespace StackTree.Machine

open Runs
open StackTree.Tree (SoundAll)

variable {host : Host} {ts us vs : List Tree}

/-- How many values are on the stack after some entries, if there were so many before. -/
def depthAfterAll (depth : Nat) (ts : List Tree) : Nat := ts.foldl depthAfter depth

theorem supplied_append {depth : Nat} : Supplied depth (ts ++ us) ↔
    Supplied depth ts ∧ Supplied (depthAfterAll depth ts) us := by
  induction ts generalizing depth with
  | nil => simp [Supplied, depthAfterAll]
  | cons t ts ih =>
    rw [List.cons_append, Supplied, Supplied, ih, and_assoc]
    rfl

theorem depthAfterAll_append (depth : Nat) :
    depthAfterAll depth (ts ++ us) = depthAfterAll (depthAfterAll depth ts) us :=
  List.foldl_append

/-! ## Observing a run in two parts -/

theorem observe_cons (t : Tree) (s : State) :
    observe host (t :: ts) s = match runEntry host t s with
      | .ok () s => observe host ts s
      | .error halt s => ⟨.error halt, s.store⟩ := by
  rw [observe, runEntries, List.forM_eq_forM, List.forM_cons, run_bind]
  cases runEntry host t s with
  | ok u s => rfl
  | error halt s => rfl

/-- What can be told after some more entries. -/
def Observation.resume (o : Observation) (host : Host) (ts : List Tree) : Observation :=
  match o.ending with
  | .ok stack => observe host ts ⟨stack, o.store⟩
  | .error _ => o

/-- Entries are run where the ones before them ended. -/
theorem observe_append (s : State) :
    observe host (ts ++ us) s = (observe host ts s).resume host us := by
  induction ts generalizing s with
  | nil => rfl
  | cons t ts ih =>
    rw [List.cons_append, observe_cons, observe_cons]
    cases runEntry host t s with
    | ok u s => exact ih s
    | error halt s => rfl

/-- The static count is right for every run that comes to its end. -/
theorem length_runEntry {t : Tree} (ht : t.Sound) {s s' : State} (hd : demand t ≤ s.stack.length)
    (h : runEntry host t s = .ok () s') :
    s'.stack.length = depthAfter s.stack.length t := by
  rw [runEntry_eq ht hd] at h
  cases hv : value host (s.stack.headD dummy) t (s.stack.take t.popCount).reverse s.store with
  | error halt store =>
    rw [hv] at h
    cases h
  | ok v store =>
    rw [hv] at h
    cases h
    rw [depthAfter]
    cases t.kind.producesValue with
    | true => simp
    | false => simp

theorem length_observe (hts : SoundAll ts) {s : State} (hs : Supplied s.stack.length ts)
    {stack : List Int32} (h : (observe host ts s).ending = .ok stack) :
    stack.length = depthAfterAll s.stack.length ts := by
  induction ts generalizing s with
  | nil =>
    cases h
    rfl
  | cons t ts ih =>
    rw [observe_cons] at h
    cases hrun : runEntry host t s with
    | error halt s' =>
      rw [hrun] at h
      cases h
    | ok u s' =>
      rw [hrun] at h
      have hlength := length_runEntry hts.1 hs.1 hrun
      rw [ih hts.2 (hlength ▸ hs.2) h, hlength]
      rfl

/-! ## Entries that do the same -/

/-- On every stack that holds what the first entries need, the second ones do the same. -/
structure Mimics (ts us : List Tree) : Prop where
  supplied : ∀ depth, Supplied depth ts → Supplied depth us
  depth_eq : ∀ depth, Supplied depth ts → depthAfterAll depth us = depthAfterAll depth ts
  observe_eq : ∀ (host : Host) (s : State), Supplied s.stack.length ts →
    observe host us s = observe host ts s

namespace Mimics

theorem refl (ts : List Tree) : Mimics ts ts :=
  ⟨fun _ h => h, fun _ _ => rfl, fun _ _ _ => rfl⟩

theorem trans (h : Mimics ts us) (h' : Mimics us vs) : Mimics ts vs where
  supplied := fun depth hd => h'.supplied depth (h.supplied depth hd)
  depth_eq := by
    intro depth hd
    rw [h'.depth_eq depth (h.supplied depth hd), h.depth_eq depth hd]
  observe_eq := by
    intro host s hs
    rw [h'.observe_eq host s (h.supplied _ hs), h.observe_eq host s hs]

/-- Entries may be exchanged in front of others. -/
theorem append_right (h : Mimics ts us) (rest : List Tree) : Mimics (ts ++ rest) (us ++ rest) where
  supplied := by
    intro depth hd
    rw [supplied_append] at hd ⊢
    rw [h.depth_eq depth hd.1]
    exact ⟨h.supplied depth hd.1, hd.2⟩
  depth_eq := by
    intro depth hd
    rw [supplied_append] at hd
    rw [depthAfterAll_append, depthAfterAll_append, h.depth_eq depth hd.1]
  observe_eq := by
    intro host s hs
    rw [supplied_append] at hs
    rw [observe_append, observe_append, h.observe_eq host s hs.1]

/-- Entries may be exchanged behind others. -/
theorem append_left (h : Mimics ts us) {first : List Tree} (hfirst : SoundAll first) :
    Mimics (first ++ ts) (first ++ us) where
  supplied := by
    intro depth hd
    rw [supplied_append] at hd ⊢
    exact ⟨hd.1, h.supplied _ hd.2⟩
  depth_eq := by
    intro depth hd
    rw [supplied_append] at hd
    rw [depthAfterAll_append, depthAfterAll_append, h.depth_eq _ hd.2]
  observe_eq := by
    intro host s hs
    rw [supplied_append] at hs
    rw [observe_append, observe_append, Observation.resume, Observation.resume]
    cases hending : (observe host first s).ending with
    | error halt => rfl
    | ok stack =>
      have hlength := length_observe hfirst hs.1 hending
      refine h.observe_eq host ⟨stack, _⟩ ?_
      rw [hlength]
      exact hs.2

end Mimics

end StackTree.Machine
