/-!
# Actions that use up their state

A decoder is an action on a state from which it takes bits.  `Shrinks` says
that an action never gives bits back and `Consumes` that it takes at least
one; both only speak of entries that end well, which is what a loop needs to know
before it goes on.  Sequences of actions inherit them.
-/

namespace DeflateAtlas

variable {ε σ α β : Type}

/-- A run that ends well leaves a state that is no larger. -/
def Shrinks (size : σ → Nat) (action : EStateM ε σ α) : Prop :=
  ∀ ⦃before value after⦄, action before = .ok value after → size after ≤ size before

/-- A run that ends well leaves a smaller state. -/
def Consumes (size : σ → Nat) (action : EStateM ε σ α) : Prop :=
  ∀ ⦃before value after⦄, action before = .ok value after → size after < size before

theorem bind_eq_ok_iff {action : EStateM ε σ α} {next : α → EStateM ε σ β}
    {before after : σ} {value : β} :
    (action >>= next) before = .ok value after ↔
      ∃ middle state, action before = .ok middle state ∧ next middle state = .ok value after := by
  simp only [bind, EStateM.bind]
  cases action before with
  | ok middle state => simp [and_assoc]
  | error failure state => simp

theorem bind_eq_error_iff {action : EStateM ε σ α} {next : α → EStateM ε σ β}
    {before after : σ} {failure : ε} :
    (action >>= next) before = .error failure after ↔
      action before = .error failure after ∨
        ∃ middle state, action before = .ok middle state ∧
          next middle state = .error failure after := by
  simp only [bind, EStateM.bind]
  cases action before with
  | ok middle state => simp [and_assoc]
  | error failure state => simp

theorem bind_of_ok {action : EStateM ε σ α} {next : α → EStateM ε σ β} {before middle : σ}
    {value : α} (run : action before = .ok value middle) :
    (action >>= next) before = next value middle := by
  simp only [bind, EStateM.bind, run]

theorem bind_of_error {action : EStateM ε σ α} {next : α → EStateM ε σ β} {before after : σ}
    {failure : ε} (run : action before = .error failure after) :
    (action >>= next) before = .error failure after := by
  simp only [bind, EStateM.bind, run]

theorem map_eq_ok_iff {action : EStateM ε σ α} {f : α → β} {before after : σ} {value : β} :
    (f <$> action) before = .ok value after ↔
      ∃ middle, action before = .ok middle after ∧ f middle = value := by
  simp only [Functor.map, EStateM.map]
  cases action before with
  | ok middle state =>
      constructor
      · rintro ⟨⟩
        exact ⟨middle, rfl, rfl⟩
      · rintro ⟨_, ⟨⟩, rfl⟩
        rfl
  | error failure state => simp

namespace Shrinks

variable {size : σ → Nat}

theorem pure (value : α) : Shrinks size (pure value : EStateM ε σ α) := by
  rintro before _ _ ⟨⟩
  exact Nat.le_refl _

theorem throw (failure : ε) : Shrinks size (throw failure : EStateM ε σ α) := by
  rintro before _ _ ⟨⟩

theorem get : Shrinks size (get : EStateM ε σ σ) := by
  rintro before _ _ ⟨⟩
  exact Nat.le_refl _

theorem bind {action : EStateM ε σ α} {next : α → EStateM ε σ β}
    (first : Shrinks size action) (rest : ∀ value, Shrinks size (next value)) :
    Shrinks size (action >>= next) := by
  intro before value after ended
  obtain ⟨middle, state, run, continued⟩ := bind_eq_ok_iff.mp ended
  exact Nat.le_trans (rest middle continued) (first run)

theorem map {action : EStateM ε σ α} (f : α → β) (first : Shrinks size action) :
    Shrinks size (f <$> action) := by
  intro before value after ended
  obtain ⟨middle, run, _⟩ := map_eq_ok_iff.mp ended
  exact first run

theorem ite {condition : Prop} [Decidable condition] {yes no : EStateM ε σ α}
    (whenTrue : Shrinks size yes) (whenFalse : Shrinks size no) :
    Shrinks size (if condition then yes else no) := by
  split
  · exact whenTrue
  · exact whenFalse

end Shrinks

namespace Consumes

variable {size : σ → Nat}

theorem shrinks {action : EStateM ε σ α} (consumes : Consumes size action) :
    Shrinks size action :=
  fun _ _ _ ended => Nat.le_of_lt (consumes ended)

theorem bind {action : EStateM ε σ α} {next : α → EStateM ε σ β}
    (first : Consumes size action) (rest : ∀ value, Shrinks size (next value)) :
    Consumes size (action >>= next) := by
  intro before value after ended
  obtain ⟨middle, state, run, continued⟩ := bind_eq_ok_iff.mp ended
  exact Nat.lt_of_le_of_lt (rest middle continued) (first run)

theorem map {action : EStateM ε σ α} (f : α → β) (first : Consumes size action) :
    Consumes size (f <$> action) := by
  intro before value after ended
  obtain ⟨middle, run, _⟩ := map_eq_ok_iff.mp ended
  exact first run

end Consumes

end DeflateAtlas
