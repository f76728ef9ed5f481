import DeflateAtlas.Progress

/-!
# Two runs side by side

A run follows another one if, begun from related states, it comes to the same
outcome: the same value with related states, or the same failure.  Failures of
the leading run may be excused; of such a run nothing more is said.  Sequences of
actions that follow one another do so too, so two runs of a whole program are
compared step by step.
-/

namespace DeflateAtlas

variable {ε σ τ α β : Type}

/-- Two outcomes agree: both give the same value and leave states related as `after`, or both fail
alike and leave states related as `failed`, unless the first failure is `excused`. -/
inductive Agree (after failed : σ → τ → Prop) (excused : ε → Prop) :
    EStateM.Result ε σ α → EStateM.Result ε τ α → Prop
  | ok {reached : σ} {other : τ} (value : α) (related : after reached other) :
      Agree after failed excused (.ok value reached) (.ok value other)
  | error {reached : σ} {other : τ} (failure : ε) (related : failed reached other) :
      Agree after failed excused (.error failure reached) (.error failure other)
  | excused {failure : ε} (holds : excused failure) (reached : σ)
      (outcome : EStateM.Result ε τ α) :
      Agree after failed excused (.error failure reached) outcome

namespace Agree

variable {after failed : σ → τ → Prop} {excused : ε → Prop}
  {outcome : EStateM.Result ε σ α} {other : EStateM.Result ε τ α}

theorem eq_ok (agree : Agree after failed excused outcome other) {value : α} {reached : σ}
    (ended : outcome = .ok value reached) :
    ∃ otherReached, other = .ok value otherReached ∧ after reached otherReached := by
  cases agree with
  | ok value related =>
      cases ended
      exact ⟨_, rfl, related⟩
  | error => cases ended
  | excused => cases ended

theorem eq_error (agree : Agree after failed excused outcome other) {failure : ε} {reached : σ}
    (ended : outcome = .error failure reached) :
    excused failure ∨
      ∃ otherReached, other = .error failure otherReached ∧ failed reached otherReached := by
  cases agree with
  | ok => cases ended
  | error failure related =>
      cases ended
      exact .inr ⟨_, rfl, related⟩
  | excused holds =>
      cases ended
      exact .inl holds

end Agree

/-- From states related as `before`, two actions come to outcomes that agree. -/
def Follows (before after failed : σ → τ → Prop) (excused : ε → Prop)
    (leading : EStateM ε σ α) (following : EStateM ε τ α) : Prop :=
  ∀ ⦃state other⦄, before state other →
    Agree after failed excused (leading state) (following other)

namespace Follows

variable {before middle after failed : σ → τ → Prop} {excused : ε → Prop}

protected theorem pure (value : α) :
    Follows before before failed excused (pure value) (pure value) :=
  fun _ _ related => .ok value related

protected theorem throw (failure : ε)
    (weaker : ∀ state other, before state other → failed state other) :
    Follows before after failed excused (throw failure : EStateM ε σ α) (throw failure) :=
  fun state other related => .error failure (weaker state other related)

protected theorem bind {leading : EStateM ε σ α} {following : EStateM ε τ α}
    {next : α → EStateM ε σ β} {otherNext : α → EStateM ε τ β}
    (first : Follows before middle failed excused leading following)
    (rest : ∀ value, Follows middle after failed excused (next value) (otherNext value)) :
    Follows before after failed excused (leading >>= next) (following >>= otherNext) := by
  intro state other related
  have agree := first related
  simp only [bind, EStateM.bind]
  generalize leading state = outcome at agree ⊢
  generalize following other = otherOutcome at agree ⊢
  cases agree with
  | ok value stillRelated => exact rest value stillRelated
  | error failure stopped => exact .error failure stopped
  | excused holds => exact .excused holds _ _

theorem weaken {leading : EStateM ε σ α} {following : EStateM ε τ α} {weaker : σ → τ → Prop}
    (follows : Follows before after failed excused leading following)
    (implies : ∀ state other, after state other → weaker state other) :
    Follows before weaker failed excused leading following := by
  intro state other related
  have agree := follows related
  generalize leading state = outcome at agree ⊢
  generalize following other = otherOutcome at agree ⊢
  cases agree with
  | ok value stillRelated => exact .ok value (implies _ _ stillRelated)
  | error failure stopped => exact .error failure stopped
  | excused holds => exact .excused holds _ _

protected theorem map (f : α → β) {leading : EStateM ε σ α} {following : EStateM ε τ α}
    (follows : Follows before after failed excused leading following) :
    Follows before after failed excused (f <$> leading) (f <$> following) := by
  rw [map_eq_pure_bind, map_eq_pure_bind]
  exact follows.bind fun value => Follows.pure (f value)

protected theorem ite {condition : Prop} [Decidable condition] {yes no : EStateM ε σ α}
    {otherYes otherNo : EStateM ε τ α}
    (whenTrue : Follows before after failed excused yes otherYes)
    (whenFalse : Follows before after failed excused no otherNo) :
    Follows before after failed excused (if condition then yes else no)
      (if condition then otherYes else otherNo) := by
  split
  · exact whenTrue
  · exact whenFalse

end Follows

end DeflateAtlas
