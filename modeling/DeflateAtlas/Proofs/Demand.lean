import DeflateAtlas.Extent
import DeflateAtlas.Progress

/-!
# Demands

A program may rely on more than its results show: that a number fits a word, or
that an index lies in its table.  To say so, the program is written a second
time with a demand wherever it relies on something; the second program fails,
as nothing else does, when a demand is not met.  If it behaves like the first
one whatever that failure is, all demands are met.

`Guards` compares the two programs step by step, from states of which something
is known.
-/

namespace DeflateAtlas

variable {ε σ α β : Type}

/-- Fail unless a condition holds. -/
def demand {m : Type → Type} [Monad m] [MonadExceptOf ε m] (fault : ε) (condition : Prop)
    [Decidable condition] : m Unit :=
  if condition then pure () else throw fault

theorem demand_of {m : Type → Type} [Monad m] [MonadExceptOf ε m] {fault : ε} {condition : Prop}
    [Decidable condition] (holds : condition) : (demand fault condition : m Unit) = pure () :=
  if_pos holds

/-- Two programs with the same first step agree if they do after it. -/
theorem bind_congr_at {first second : EStateM ε σ α} {next other : α → EStateM ε σ β} {before : σ}
    (same : first before = second before)
    (onward : ∀ value after, second before = .ok value after → next value after = other value after) :
    (first >>= next) before = (second >>= other) before := by
  simp only [bind, EStateM.bind]
  rw [same]
  cases run : second before with
  | ok value after => exact onward value after run
  | error failure after => rfl

theorem get_bind (next : σ → EStateM ε σ β) (state : σ) : (get >>= next) state = next state state :=
  rfl

/-! ## Traversals -/

/-- A traversal all of whose steps end well. -/
theorem mapM_of_ok {visit : α → Except ε β} {step : α → β} {items : List α}
    (steps : ∀ item ∈ items, visit item = .ok (step item)) :
    items.mapM visit = .ok (items.map step) := by
  induction items with
  | nil => rfl
  | cons item items ih =>
      rw [List.forall_mem_cons] at steps
      rw [List.mapM_cons, steps.1, ih steps.2]
      rfl

/-- A traversal all of whose steps end well because of what they keep. -/
theorem foldlM_of_ok (keeps : β → Prop) {visit : β → α → Except ε β}
    {step : β → α → β} {items : List α}
    (steps : ∀ before, keeps before → ∀ item ∈ items,
      visit before item = .ok (step before item) ∧ keeps (step before item))
    {start : β} (holds : keeps start) :
    items.foldlM visit start = .ok (items.foldl step start) ∧ keeps (items.foldl step start) := by
  induction items generalizing start with
  | nil => exact ⟨rfl, holds⟩
  | cons item items ih =>
      obtain ⟨first, kept⟩ := steps start holds item List.mem_cons_self
      rw [List.foldlM_cons, first, List.foldl_cons]
      exact ih (fun before holds other member =>
        steps before holds other (List.mem_cons_of_mem item member)) kept

/-! ## Words -/

/-- The least number that is too large for a signed word of 64 bits. -/
def signedLimit : Nat := 1 <<< 63

/-- A number that is computed in an unsigned word of 64 bits. -/
def unsigned (fault : ε) (number : Int) : EStateM ε σ Nat := do
  demand fault (0 ≤ number ∧ number < addressLimit)
  return number.toNat

/-- A number that is computed in a signed word of 64 bits. -/
def signed (fault : ε) (number : Int) : EStateM ε σ Int := do
  demand fault (-signedLimit ≤ number ∧ number < signedLimit)
  return number

theorem unsigned_eq {fault : ε} {number : Int} {value : Nat} (same : number = value)
    (fits : value < addressLimit) : (unsigned fault number : EStateM ε σ Nat) = pure value := by
  rw [unsigned, demand_of ⟨by omega, by omega⟩, pure_bind, same, Int.toNat_natCast]

theorem signed_eq {fault : ε} {number : Int} (least : -signedLimit ≤ number)
    (greatest : number < signedLimit) : (signed fault number : EStateM ε σ Int) = pure number := by
  rw [signed, demand_of ⟨least, greatest⟩, pure_bind]

/-! ## Guarded programs -/

/-- From states of which something holds, a guarded program does what another one does.  Where that
one ends well, something holds of its result and of the state, and where it fails, of the failure
and the state. -/
def Guards (before after : σ → Prop) (failed : ε → σ → Prop) (guarded action : EStateM ε σ α)
    (result : α → Prop) : Prop :=
  ∀ state, before state → guarded state = action state ∧
    match action state with
    | .ok value reached => result value ∧ after reached
    | .error failure reached => failed failure reached

namespace Guards

variable {before middle after : σ → Prop} {failed : ε → σ → Prop} {guarded action : EStateM ε σ α}
  {next other : α → EStateM ε σ β} {result : α → Prop} {last : β → Prop} {fault : ε}

theorem eq (guards : Guards before after failed guarded action result) {state : σ}
    (holds : before state) : guarded state = action state :=
  (guards state holds).1

theorem of_ok (guards : Guards before after failed guarded action result) {state reached : σ}
    {value : α} (holds : before state) (ended : action state = .ok value reached) :
    result value ∧ after reached := by
  have outcome := (guards state holds).2
  rwa [ended] at outcome

theorem of_error (guards : Guards before after failed guarded action result) {state reached : σ}
    {failure : ε} (holds : before state) (ended : action state = .error failure reached) :
    failed failure reached := by
  have outcome := (guards state holds).2
  rwa [ended] at outcome

theorem intro (same : ∀ state, before state → guarded state = action state)
    (ended : ∀ state value reached, before state → action state = .ok value reached →
      result value ∧ after reached)
    (stopped : ∀ state failure reached, before state → action state = .error failure reached →
      failed failure reached) :
    Guards before after failed guarded action result := by
  intro state holds
  refine ⟨same state holds, ?_⟩
  cases run : action state with
  | ok value reached => exact ended state value reached holds run
  | error failure reached => exact stopped state failure reached holds run

protected theorem pure {value : α} (holds : result value) :
    Guards before before failed (pure value) (pure value) result :=
  fun _ stays => ⟨rfl, holds, stays⟩

protected theorem throw {failure : ε} (expected : ∀ state, before state → failed failure state) :
    Guards before after failed (throw failure) (throw failure) result :=
  fun state holds => ⟨rfl, expected state holds⟩

protected theorem bind (first : Guards before middle failed guarded action result)
    (rest : ∀ value, result value → Guards middle after failed (next value) (other value) last) :
    Guards before after failed (guarded >>= next) (action >>= other) last := by
  intro state holds
  obtain ⟨same, outcome⟩ := first state holds
  simp only [bind, EStateM.bind, same]
  cases run : action state with
  | ok value reached =>
      rw [run] at outcome
      exact rest value outcome.1 reached outcome.2
  | error failure reached =>
      rw [run] at outcome
      exact ⟨rfl, outcome⟩

/-- A demand that is met does nothing. -/
theorem demand {condition : Prop} [Decidable condition] (holds : condition)
    (rest : Guards before after failed guarded action result) :
    Guards before after failed (do DeflateAtlas.demand fault condition; guarded) action result := by
  rw [demand_of holds, pure_bind]
  exact rest

protected theorem map (f : α → β) (guards : Guards before after failed guarded action result)
    (implies : ∀ value, result value → last (f value)) :
    Guards before after failed (f <$> guarded) (f <$> action) last := by
  rw [map_eq_pure_bind, map_eq_pure_bind]
  exact guards.bind fun value holds => Guards.pure (implies value holds)

/-- A query that is answered from the state. -/
theorem look {γ : Type} {query : EStateM ε σ γ} {view : σ → γ} {next : γ → EStateM ε σ β}
    {other : σ → EStateM ε σ β}
    (answered : ∀ state, before state → query state = .ok (view state) state)
    (rest : ∀ state, before state →
      Guards before after failed (next (view state)) (other state) last) :
    Guards before after failed (query >>= next) (get >>= other) last := by
  intro state holds
  rw [bind_of_ok (answered state holds), get_bind]
  exact rest state holds state holds

/-- A demand on the result of an action. -/
theorem check (guards : Guards before after failed guarded action result) {condition : α → Prop}
    [DecidablePred condition] (implies : ∀ value, result value → condition value) :
    Guards before after failed
      (do
        let value ← guarded
        DeflateAtlas.demand fault (condition value)
        return value)
      action result := by
  rw [← bind_pure action]
  exact guards.bind fun value holds => Guards.demand (implies value holds) (Guards.pure holds)

protected theorem ite {condition : Prop} [Decidable condition] {yes no : EStateM ε σ α}
    {otherYes otherNo : EStateM ε σ α}
    (whenTrue : condition → Guards before after failed yes otherYes result)
    (whenFalse : ¬ condition → Guards before after failed no otherNo result) :
    Guards before after failed (if condition then yes else no)
      (if condition then otherYes else otherNo) result := by
  split
  · rename_i holds
    exact whenTrue holds
  · rename_i fails
    exact whenFalse fails

end Guards

end DeflateAtlas
