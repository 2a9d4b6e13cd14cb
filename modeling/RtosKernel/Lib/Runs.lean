/-! # Runs of a machine that can stop

A machine takes one event at a time and has a next state or a reason why there is none.
What every step keeps, under a condition on the state before it, holds after every run. -/
namespace RtosKernel.Lib.Runs

-- The literals of `Fin n` rest on these constants, so that they are the same terms everywhere.
instance neZero₁ : @NeZero Nat Zero.ofOfNat0 1 := ⟨by decide⟩
instance neZero₂ : @NeZero Nat Zero.ofOfNat0 2 := ⟨by decide⟩
instance neZero₃ : @NeZero Nat Zero.ofOfNat0 3 := ⟨by decide⟩
instance neZero₄ : @NeZero Nat Zero.ofOfNat0 4 := ⟨by decide⟩
instance neZero₈ : @NeZero Nat Zero.ofOfNat0 8 := ⟨by decide⟩

variable {S E X : Type} (step : S → E → Except X S)

/-- One event after the other, up to the first one without a next state. -/
def run (s : S) : List E → Except X S
  | [] => .ok s
  | e :: es => (step s e).bind fun s => run s es

/-- Every event of a run, as long as there is a next state, meets a condition on the state before it. -/
def Along (p : S → E → Prop) (s : S) : List E → Prop
  | [] => True
  | e :: es => p s e ∧ match step s e with
    | .ok s => Along p s es
    | .error _ => True

instance Along.instDecidable (p : S → E → Prop) [∀ s e, Decidable (p s e)] :
    ∀ s es, Decidable (Along step p s es)
  | _, [] => inferInstanceAs (Decidable True)
  | s, e :: es =>
    have : Decidable (match step s e with
        | .ok s => Along step p s es
        | .error _ => True) := by
      cases step s e with
      | ok s => exact Along.instDecidable p s es
      | error _ => exact inferInstanceAs (Decidable True)
    inferInstanceAs (Decidable (_ ∧ _))

variable {step} {p : S → E → Prop} {inv : S → Prop} {stop : X} {s s' : S} {es es' : List E}

theorem run_inv (hstep : ∀ s e s', inv s → p s e → step s e = .ok s' → inv s') (h : inv s)
    (hp : Along step p s es) (hrun : run step s es = .ok s') : inv s' := by
  induction es generalizing s with
  | nil =>
    cases hrun
    exact h
  | cons e es ih =>
    obtain ⟨hpe, hes⟩ := hp
    rw [run] at hrun
    cases hgo : step s e with
    | ok s₁ =>
      rw [hgo] at hes hrun
      exact ih (hstep s e s₁ h hpe hgo) hes hrun
    | error stop =>
      rw [hgo] at hrun
      cases hrun

theorem run_cons {e : E} (h : step s e = .ok s') : run step s (e :: es) = run step s' es := by
  rw [run, h]
  rfl

theorem Along.cons {e : E} (hp : p s e) (h : step s e = .ok s') (hes : Along step p s' es) :
    Along step p s (e :: es) := by
  refine ⟨hp, ?_⟩
  rw [h]
  exact hes

theorem Along.of_all (h : ∀ s e, p s e) : ∀ s, Along step p s es := by
  induction es with
  | nil => exact fun _ => trivial
  | cons e es ih =>
    intro s
    refine ⟨h s e, ?_⟩
    cases step s e with
    | ok s => exact ih s
    | error _ => trivial

theorem Along.mono {p' : S → E → Prop} (hpp : ∀ s e, p s e → p' s e) (h : Along step p s es) : Along step p' s es := by
  induction es generalizing s with
  | nil => trivial
  | cons e es ih =>
    obtain ⟨hp, hes⟩ := h
    refine ⟨hpp s e hp, ?_⟩
    cases hgo : step s e with
    | ok s =>
      rw [hgo] at hes
      exact ih hes
    | error _ => trivial

theorem Along.iff {q : S → E → Prop} (hpq : ∀ s e, inv s → (p s e ↔ q s e))
    (hstep : ∀ s e s', inv s → p s e → step s e = .ok s' → inv s') (h : inv s) :
    Along step p s es ↔ Along step q s es := by
  induction es generalizing s with
  | nil => exact Iff.rfl
  | cons e es ih =>
    simp only [Along, hpq s e h]
    refine and_congr_right fun hq => ?_
    cases hgo : step s e with
    | ok s₁ => exact ih (hstep s e s₁ h ((hpq s e h).mpr hq) hgo)
    | error _ => exact Iff.rfl

theorem run_no_stop (hstep : ∀ s e s', inv s → p s e → step s e = .ok s' → inv s')
    (hno : ∀ s e, inv s → p s e → step s e ≠ .error stop) (h : inv s) (hp : Along step p s es) :
    run step s es ≠ .error stop := by
  induction es generalizing s with
  | nil => nofun
  | cons e es ih =>
    obtain ⟨hpe, hes⟩ := hp
    rw [run]
    cases hgo : step s e with
    | ok s₁ =>
      rw [hgo] at hes
      exact ih (hstep s e s₁ h hpe hgo) hes
    | error stop' =>
      intro heq
      cases heq
      exact hno s e h hpe hgo

theorem run_append (hrun : run step s es = .ok s') : run step s (es ++ es') = run step s' es' := by
  induction es generalizing s with
  | nil =>
    cases hrun
    rfl
  | cons e es ih =>
    rw [run] at hrun
    rw [List.cons_append, run]
    cases hgo : step s e with
    | ok s₁ =>
      rw [hgo] at hrun
      exact ih hrun
    | error stop =>
      rw [hgo] at hrun
      cases hrun

theorem Along.append (h : Along step p s es) (hrun : run step s es = .ok s') (h' : Along step p s' es') :
    Along step p s (es ++ es') := by
  induction es generalizing s with
  | nil =>
    cases hrun
    exact h'
  | cons e es ih =>
    obtain ⟨hpe, hes⟩ := h
    refine ⟨hpe, ?_⟩
    rw [run] at hrun
    cases hgo : step s e with
    | ok s₁ =>
      rw [hgo] at hes hrun
      exact ih hes hrun
    | error stop => trivial

/-! ## Results of calls -/

section Results
variable {α β : Type} {f : α → β} {g : α → Except X β} {x : Except X α} {b : β}

theorem map_eq_ok (h : x.map f = .ok b) : ∃ a, x = .ok a ∧ f a = b := by
  cases x with
  | ok a => exact ⟨a, rfl, Except.ok.inj h⟩
  | error _ => cases h

theorem map_eq_error (h : x.map f = .error stop) : x = .error stop := by
  cases x with
  | ok a => cases h
  | error _ => exact congrArg Except.error (Except.error.inj h)

theorem bind_eq_ok (h : x.bind g = .ok b) : ∃ a, x = .ok a ∧ g a = .ok b := by
  cases x with
  | ok a => exact ⟨a, rfl, h⟩
  | error _ => cases h

theorem bind_eq_error (h : x.bind g = .error stop) : x = .error stop ∨ ∃ a, x = .ok a ∧ g a = .error stop := by
  cases x with
  | ok a => exact .inr ⟨a, rfl, h⟩
  | error _ => exact .inl (congrArg Except.error (Except.error.inj h))

/-- What is refused unless a condition holds. -/
theorem ok_of_ite {p : Prop} [Decidable p] {e : X} {a : α} (h : (if p then x else .error e) = .ok a) : p ∧ x = .ok a := by
  split at h
  · exact ⟨‹p›, h⟩
  · cases h

theorem exists_ok (h : x.toOption.isSome = true) : ∃ a, x = .ok a := by
  cases x with
  | ok a => exact ⟨a, rfl⟩
  | error _ => cases h

/-- A run that puts out what its steps put out has a first step and a rest. -/
theorem of_bind_map {α β γ : Type} {x : Option α} {y : α → Option β} {f : α → β → γ} {c : γ}
    (h : (x.bind fun a => (y a).map (f a)) = some c) : ∃ a b, x = some a ∧ y a = some b ∧ f a b = c := by
  obtain ⟨a, ha, h⟩ := Option.bind_eq_some_iff.mp h
  obtain ⟨b, hb, h⟩ := Option.map_eq_some_iff.mp h
  exact ⟨a, b, ha, hb, h⟩

end Results

section Given
variable {α β : Type} {P Q : α → Prop} {R T : α → β → Prop}

theorem and_then {p q : Prop} (hp : p) (hq : p → q) : p ∧ q := ⟨hp, hq hp⟩

/-- What is decided of the end of a run may be used of it. -/
theorem exists_ok_that [DecidablePred P] {x : Except X α} (h : x.toOption.any (P ·) = true)
    (hQ : ∀ a, x = .ok a → P a → Q a) : ∃ a, x = .ok a ∧ Q a := by
  cases x with
  | ok a => exact ⟨a, rfl, hQ a rfl (of_decide_eq_true h)⟩
  | error _ => cases h

theorem exists_ok_and {x : Except X α} (h : x.toOption.isSome = true) (hQ : ∀ a, x = .ok a → Q a) : ∃ a, x = .ok a ∧ Q a :=
  (exists_ok h).imp fun a ha => ⟨ha, hQ a ha⟩

theorem exists_some_that [DecidablePred P] {x : Option α} (h : x.any (P ·) = true) (hQ : ∀ a, x = some a → P a → Q a) :
    ∃ a, x = some a ∧ Q a := by
  cases x with
  | some a => exact ⟨a, rfl, hQ a rfl (of_decide_eq_true h)⟩
  | none => cases h

theorem exists_some_and {x : Option α} (h : x.isSome = true) (hQ : ∀ a, x = some a → Q a) : ∃ a, x = some a ∧ Q a :=
  (Option.isSome_iff_exists.mp h).imp fun a ha => ⟨ha, hQ a ha⟩

theorem exists_pair_that [∀ a b, Decidable (R a b)] {x : Option (α × β)} (h : x.any (fun r => R r.1 r.2) = true)
    (hT : ∀ a b, x = some (a, b) → R a b → T a b) : ∃ a b, x = some (a, b) ∧ T a b := by
  obtain ⟨⟨a, b⟩, hx, hab⟩ := exists_some_that h fun r hr hR => hT r.1 r.2 hr hR
  exact ⟨a, b, hx, hab⟩

end Given
end RtosKernel.Lib.Runs
