import Mathlib
import RecordGrammar.Notice

/-!
# Outcomes of readers

What a reader that reports its steps comes to, whatever has been reported before: it yields a value, or it fails, but
never with an error of a certain kind. `Gives` and `Raises` are for the way back, from what a reader has come to once to what
its parts have.
-/

namespace RecordGrammar.Reporting

variable {ε α β : Type} {x : Reporting ε α} {f : α → Reporting ε β}

/-- The reader gives the value, whatever has been reported before. -/
def Yields (x : Reporting ε α) (a : α) : Prop := ∀ ns, (x.run.run ns).1 = .ok a

/-- The reader does not fail with such an error, whatever has been reported before. -/
def Avoids (bad : ε → Prop) (x : Reporting ε α) : Prop := ∀ ns e, (x.run.run ns).1 = .error e → ¬ bad e

/-- Two steps that may fail and keep a state whether they do or not. -/
theorem run_bind {σ : Type} {x : ExceptT ε (StateM σ) α} {f : α → ExceptT ε (StateM σ) β} (s : σ) :
    (x >>= f).run.run s = match x.run.run s with
      | (.ok a, t) => (f a).run.run t
      | (.error e, t) => (.error e, t) := by
  simp only [bind, ExceptT.bind, ExceptT.bindCont, ExceptT.mk, ExceptT.run, StateT.run, StateT.bind]
  cases x s with
  | mk r t => cases r <;> rfl

theorem yields_pure (a : α) : Yields (pure a : Reporting ε α) a := fun _ => rfl

theorem yields_report (n : Notice) : Yields (report n : Reporting ε Unit) () := fun _ => rfl

theorem Yields.bind {a : α} {b : β} (hx : Yields x a) (hf : Yields (f a) b) : Yields (x >>= f) b := by
  intro ns
  have ha := hx ns
  rw [run_bind]
  split
  · next a' ns' h =>
    rw [h] at ha
    cases ha
    exact hf ns'
  · next h =>
    rw [h] at ha
    cases ha

theorem Yields.outcome {a : α} (h : Yields x a) : x.outcome.1 = .ok a := h []

/-- The reader gives the value once something has been reported, or nothing. -/
def Gives (x : Reporting ε α) (a : α) : Prop := ∃ ns, (x.run.run ns).1 = .ok a

theorem gives_of_outcome {a : α} (h : x.outcome.1 = .ok a) : Gives x a := ⟨[], h⟩

theorem gives_pure_iff {a b : α} : Gives (pure a : Reporting ε α) b ↔ b = a := by
  refine ⟨fun ⟨_, h⟩ => ?_, fun h => ⟨[], congrArg Except.ok h.symm⟩⟩
  cases h
  rfl

theorem not_gives_throw {e : ε} {a : α} : ¬ Gives (throw e : Reporting ε α) a := fun ⟨_, h⟩ => nomatch h

theorem Gives.of_bind {b : β} (h : Gives (x >>= f) b) : ∃ a, Gives x a ∧ Gives (f a) b := by
  obtain ⟨ns, h⟩ := h
  rw [run_bind] at h
  split at h
  · next a ns' hx => exact ⟨a, ⟨ns, by rw [hx]⟩, ns', h⟩
  · cases h

/-- The reader fails with the error once something has been reported, or nothing. -/
def Raises (x : Reporting ε α) (e : ε) : Prop := ∃ ns, (x.run.run ns).1 = .error e

theorem raises_of_outcome {e : ε} (h : x.outcome.1 = .error e) : Raises x e := ⟨[], h⟩

theorem not_raises_pure {a : α} {e : ε} : ¬ Raises (pure a : Reporting ε α) e := by
  rintro ⟨ns, h⟩
  cases h

theorem not_raises_report {n : Notice} {e : ε} : ¬ Raises (report n : Reporting ε Unit) e := by
  rintro ⟨ns, h⟩
  cases h

theorem raises_throw_iff {e e' : ε} : Raises (throw e : Reporting ε α) e' ↔ e' = e := by
  refine ⟨fun ⟨ns, h⟩ => ?_, fun h => ⟨[], congrArg Except.error h.symm⟩⟩
  cases h
  rfl

theorem Raises.of_bind {e : ε} (h : Raises (x >>= f) e) : Raises x e ∨ ∃ a, Raises (f a) e := by
  obtain ⟨ns, h⟩ := h
  rw [run_bind] at h
  split at h
  · next a ns' _ => exact .inr ⟨a, ns', h⟩
  · next e' ns' hx =>
    cases h
    exact .inl ⟨ns, by rw [hx]⟩

variable {bad : ε → Prop}

theorem avoids_pure (a : α) : Avoids bad (pure a : Reporting ε α) := fun _ _ h => nomatch h

theorem avoids_report (n : Notice) : Avoids bad (report n : Reporting ε Unit) := fun _ _ h => nomatch h

theorem avoids_throw {e : ε} (h : ¬ bad e) : Avoids bad (throw e : Reporting ε α) := by
  intro ns e' he
  cases he
  exact h

theorem Avoids.bind (hx : Avoids bad x) (hf : ∀ a, Avoids bad (f a)) : Avoids bad (x >>= f) := by
  intro ns e he
  rw [run_bind] at he
  split at he
  · next a ns' _ => exact hf a ns' e he
  · next e' ns' h =>
    cases he
    exact hx ns e (by rw [h])

end RecordGrammar.Reporting
