import StackTree.Routine.Edit

/-!
# Running computations step by step

Every computation of the library is a state machine that may fail. Its runs are taken apart one
step at a time: these equations say what each way of putting computations together does to a run,
so that no proof has to unfold the monad.

## Main results

* `run_bind`, `run_modify`, `run_get`: what the primitive computations do.
* `run_bind_of_ok`: a run whose first step is known to go well.
-/

namespace StackTree.Runs

variable {ε σ α β : Type}

theorem run_bind (x : EStateM ε σ α) (f : α → EStateM ε σ β) (s : σ) :
    (x >>= f) s = match x s with
      | .ok a s => f a s
      | .error e s => .error e s := rfl

theorem run_map (x : EStateM ε σ α) (f : α → β) (s : σ) :
    (f <$> x) s = match x s with
      | .ok a s => .ok (f a) s
      | .error e s => .error e s := rfl

@[simp] theorem run_pure (a : α) (s : σ) : (pure a : EStateM ε σ α) s = .ok a s := rfl

@[simp] theorem run_throw (e : ε) (s : σ) : (throw e : EStateM ε σ α) s = .error e s := rfl

@[simp] theorem run_modify (f : σ → σ) (s : σ) :
    (modify f : EStateM ε σ PUnit) s = .ok ⟨⟩ (f s) := rfl

@[simp] theorem run_modifyGet (f : σ → α × σ) (s : σ) :
    (modifyGet f : EStateM ε σ α) s = .ok (f s).1 (f s).2 := rfl

@[simp] theorem run_get (s : σ) : (get : EStateM ε σ σ) s = .ok s s := rfl

theorem run_tryCatch (x : EStateM ε σ α) (f : ε → EStateM ε σ α) (s : σ) :
    (tryCatch x f) s = match x s with
      | .ok a s => .ok a s
      | .error e s => f e s := by
  show EStateM.tryCatch x f s = _
  delta EStateM.tryCatch
  dsimp only
  cases x s with
  | ok a s => rfl
  | error e s => rfl

/-- A first step that goes well hands its answer and its state on. -/
theorem run_bind_of_ok {x : EStateM ε σ α} {s s' : σ} {a : α} (h : x s = .ok a s')
    (f : α → EStateM ε σ β) : (x >>= f) s = f a s' := by
  rw [run_bind, h]

/-- A question whose answer is known goes well and changes nothing. -/
theorem ask_of_ok {α : Type} {question : Routine → Except Fault α} {r : Routine} {a : α}
    (h : question r = .ok a) : ask question r = .ok a r := by
  simp [h]

/-! ## Questions -/

@[simp] theorem except_bind_ok (a : α) (f : α → Except ε β) : (Except.ok a >>= f) = f a := rfl

@[simp] theorem except_bind_error (e : ε) (f : α → Except ε β) :
    (Except.error e >>= f) = .error e := rfl

@[simp] theorem except_map_ok (a : α) (f : α → β) : f <$> (Except.ok a : Except ε α) = .ok (f a) :=
  rfl

@[simp] theorem except_pure (a : α) : (pure a : Except ε α) = .ok a := rfl

end StackTree.Runs
