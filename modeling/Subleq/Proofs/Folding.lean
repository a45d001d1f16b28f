import Mathlib
import Subleq.Fault

/-!
# Computations that succeed

`Folding.Yields m s a s'` says that the computation `m`, started in the state `s`, ends without a
fault, with the result `a` and in the state `s'`.  A sequence of computations yields a result
exactly if each of them does (`yields_bind`), so that what is known about a successful stage follows
from what is known about its parts, and no proof has to look at how faults are passed on.
-/

namespace Subleq.Folding

variable {σ α β : Type}

/-- The computation ends without a fault. -/
def Yields (m : Folding σ α) (s : σ) (a : α) (s' : σ) : Prop := m.run s = (.ok a, s')

/-- A value is yielded without a change of state. -/
@[simp]
theorem yields_pure {a b : α} {s s' : σ} : Yields (pure a) s b s' ↔ a = b ∧ s = s' := by
  constructor
  · rintro ⟨⟩
    exact ⟨rfl, rfl⟩
  · rintro ⟨rfl, rfl⟩
    rfl

@[simp]
theorem yields_throw {fault : Fault} {s s' : σ} {a : α} : ¬ Yields (throw fault) s a s' := by
  intro h
  cases h

/-- Steps yield one after the other. -/
@[simp]
theorem yields_bind {m : Folding σ α} {f : α → Folding σ β} {s s'' : σ} {b : β} :
    Yields (m >>= f) s b s'' ↔ ∃ a s', Yields m s a s' ∧ Yields (f a) s' b s'' := by
  have hrun : m.run s = ((m.run s).1, (m.run s).2) := rfl
  show ExceptT.bindCont f (m.run s).1 (m.run s).2 = (.ok b, s'') ↔ _
  -- a fault of the first part is one of the whole
  rcases h : (m.run s).1 with fault | a
  · constructor
    · intro hf
      cases hf
    · rintro ⟨a, s', hm, -⟩
      rw [show m.run s = (.ok a, s') from hm] at h
      cases h
  · constructor
    · intro hf
      exact ⟨a, (m.run s).2, by rw [Yields, hrun, h], hf⟩
    · rintro ⟨a', s', hm, hf⟩
      rw [show m.run s = (.ok a', s') from hm] at h ⊢
      cases h
      exact hf

/-- Reading the state yields it. -/
@[simp]
theorem yields_get {s s' a : σ} : Yields (get : Folding σ σ) s a s' ↔ s = a ∧ s = s' := by
  constructor
  · rintro ⟨⟩
    exact ⟨rfl, rfl⟩
  · rintro ⟨rfl, rfl⟩
    rfl

/-- Writing the state yields nothing. -/
@[simp]
theorem yields_set {s s' t : σ} {u : PUnit} :
    Yields (set t : Folding σ PUnit) s u s' ↔ t = s' := by
  constructor
  · rintro ⟨⟩
    rfl
  · rintro rfl
    rfl

/-- So does changing it. -/
@[simp]
theorem yields_modify {f : σ → σ} {s s' : σ} {u : PUnit} :
    Yields (modify f : Folding σ PUnit) s u s' ↔ f s = s' := by
  constructor
  · rintro ⟨⟩
    rfl
  · rintro rfl
    rfl

/-- A check yields its result and leaves the state alone. -/
@[simp]
theorem yields_liftM {x : Except Fault α} {s s' : σ} {a : α} :
    Yields (liftM x : Folding σ α) s a s' ↔ x = .ok a ∧ s = s' := by
  cases x with
  | error fault =>
      constructor
      · intro h
        cases h
      · rintro ⟨⟨⟩, -⟩
  | ok b =>
      constructor
      · rintro ⟨⟩
        exact ⟨rfl, rfl⟩
      · rintro ⟨⟨⟩, rfl⟩
        rfl

/-- An update yields nothing, and the state that it leads to. -/
@[simp]
theorem yields_update {change : σ → Except Fault σ} {s s' : σ} {u : Unit} :
    Yields (update change) s u s' ↔ change s = .ok s' := by
  simp only [update, yields_bind, yields_get]
  constructor
  · rintro ⟨_, _, ⟨rfl, rfl⟩, h⟩
    split at h
    · next t ht => rw [ht, yields_set.mp h]
    · exact absurd h yields_throw
  · intro h
    refine ⟨s, s, ⟨rfl, rfl⟩, ?_⟩
    rw [h]
    exact yields_set.mpr rfl

/-- What is left as an option has succeeded. -/
theorem eq_ok_of_toOption {ε : Type} {x : Except ε α} {a : α} (h : x.toOption = some a) :
    x = .ok a := by
  cases x with
  | error _ => cases h
  | ok _ => rw [Option.some.inj h]

/-- Results without a state: a sequence gives a result exactly if its parts do. -/
theorem bind_eq_ok {ε : Type} {x : Except ε α} {f : α → Except ε β} {b : β} :
    x >>= f = .ok b ↔ ∃ a, x = .ok a ∧ f a = .ok b := by
  cases x with
  | error fault =>
      constructor
      · intro h
        cases h
      · rintro ⟨_, h, -⟩
        cases h
  | ok a =>
      constructor
      · intro h
        exact ⟨a, rfl, h⟩
      · rintro ⟨_, h, hf⟩
        cases h
        exact hf

/-- Two steps fail if one of them does. -/
theorem bind_eq_error {ε : Type} {x : Except ε α} {f : α → Except ε β} {fault : ε} :
    x >>= f = .error fault ↔ x = .error fault ∨ ∃ a, x = .ok a ∧ f a = .error fault := by
  cases x with
  | error fault' =>
      constructor
      · intro h
        exact .inl (congrArg Except.error (Except.error.inj h))
      · rintro (h | ⟨_, h, -⟩)
        · exact congrArg Except.error (Except.error.inj h)
        · cases h
  | ok a =>
      constructor
      · intro h
        exact .inr ⟨a, rfl, h⟩
      · rintro (h | ⟨_, h, hf⟩)
        · cases h
        · cases h
          exact hf

/-- A reading succeeds as a computation exactly if it succeeds. -/
theorem ofReading_eq_ok {reading : Except Diagnostic α} {a : α} :
    Fault.ofReading reading = .ok a ↔ reading = .ok a := by
  cases reading with
  | error diagnostic =>
      constructor
      · intro h
        cases h
      · intro h
        cases h
  | ok b => exact ⟨fun h => congrArg Except.ok (Except.ok.inj h), fun h => by cases h; rfl⟩

/-- It fails with the fault of its diagnostic. -/
theorem ofReading_eq_error {reading : Except Diagnostic α} {fault : Fault} :
    Fault.ofReading reading = .error fault ↔ ∃ d, reading = .error d ∧ fault = .ofDiagnostic d := by
  cases reading with
  | error diagnostic =>
      constructor
      · intro h
        exact ⟨diagnostic, rfl, (Except.error.inj h).symm⟩
      · rintro ⟨_, ⟨⟩, rfl⟩
        rfl
  | ok a =>
      constructor
      · intro h
        cases h
      · rintro ⟨_, h, -⟩
        cases h

/-- The elements of a list give results exactly if each of them does. -/
theorem mapM_eq_ok {ε : Type} {f : α → Except ε β} {as : List α} {bs : List β} :
    as.mapM f = .ok bs ↔ List.Forall₂ (fun a b => f a = .ok b) as bs := by
  induction as generalizing bs with
  | nil =>
      rw [List.mapM_nil, List.forall₂_nil_left_iff]
      exact ⟨fun h => (Except.ok.inj h).symm, fun h => h ▸ rfl⟩
  | cons a as ih =>
      simp only [List.mapM_cons, bind_eq_ok, List.forall₂_cons_left_iff, ih]
      constructor
      · rintro ⟨b, hb, others, hothers, hok⟩
        exact ⟨b, others, hb, hothers, (Except.ok.inj hok).symm⟩
      · rintro ⟨b, others, hb, hothers, rfl⟩
        exact ⟨b, hb, others, hothers, rfl⟩

theorem Yields.unique {m : Folding σ α} {s s₁ s₂ : σ} {a₁ a₂ : α} (h₁ : Yields m s a₁ s₁)
    (h₂ : Yields m s a₂ s₂) : a₁ = a₂ ∧ s₁ = s₂ := by
  have h := h₁.symm.trans h₂
  exact ⟨Except.ok.inj (congrArg Prod.fst h), congrArg Prod.snd h⟩

/-- Whether a computation ends without a fault, and in what, can be found out by running it. -/
instance [DecidableEq α] [DecidableEq σ] (m : Folding σ α) (s s' : σ) (a : α) :
    Decidable (Yields m s a s') :=
  decidable_of_iff ((m.run s).1.toOption = some a ∧ (m.run s).2 = s')
    ⟨fun h => Prod.ext (eq_ok_of_toOption h.1) h.2, fun h => by rw [h]; exact ⟨rfl, rfl⟩⟩

/-! ## Faults

What a computation leaves behind matters also if it ends in a fault. -/

/-- What comes after a computation is done only if that has a result. -/
theorem run_bind (m : Folding σ α) (f : α → Folding σ β) (s : σ) :
    (m >>= f).run s =
      match m.run s with
      | (.ok a, s') => (f a).run s'
      | (.error fault, s') => (.error fault, s') := by
  show ExceptT.bindCont f (m.run s).1 (m.run s).2 = _
  rcases m.run s with ⟨fault | a, s'⟩
  · rfl
  · rfl

/-- A computation that reads the state goes on with it. -/
theorem run_read (f : σ → Folding σ α) (s : σ) : (get >>= f).run s = (f s).run s := rfl

/-- An update that succeeds leads to its state. -/
theorem run_update_of_ok {change : σ → Except Fault σ} {s s' : σ} (h : change s = .ok s') :
    (update change).run s = (.ok (), s') := yields_update.mpr h

/-- A change that is refused does not happen. -/
theorem run_update_of_error {change : σ → Except Fault σ} {s : σ} {fault : Fault}
    (h : change s = .error fault) : (update change).run s = (.error fault, s) := by
  rw [update, run_read, h]
  rfl

/-- What comes finally is done in any case. -/
theorem run_tryFinally (m : Folding σ α) (change : σ → σ) (s : σ) :
    (tryFinally m (modify change)).run s = ((m.run s).1, change (m.run s).2) := by
  unfold tryFinally ExceptT.run
  simp only [tryFinally', Functor.map, bind, ExceptT.map, StateT.bind, ExceptT.mk]
  rcases m s with ⟨fault | a, s'⟩
  · rfl
  · rfl

end Subleq.Folding
