/-!
# Dialogues

A server answers requests one after another, each in the state that the one before
it left.  What two servers have in common is said of a single request: if allowed
requests are answered alike in related states and leave related states, then so are
all dialogues in which every request is allowed when it is made.
-/

namespace DeflateAtlas

variable {ρ σ τ α β ε : Type}

/-- How requests are served: each one gives an answer and a new state. -/
abbrev Server (ρ σ α : Type) := ρ → σ → α × σ

namespace Server

/-- Serve a request by an action: what it gives or how it fails is the answer. -/
def report (reply : α → β) (failed : ε → β) (action : EStateM ε σ α) (state : σ) : β × σ :=
  match action state with
  | .ok value after => (reply value, after)
  | .error failure after => (failed failure, after)

section Report

variable {reply : α → β} {failed : ε → β} {action : EStateM ε σ α} {state after : σ}

theorem report_of_ok {value : α} (run : action state = .ok value after) :
    report reply failed action state = (reply value, after) := by
  rw [report, run]

theorem report_of_error {failure : ε} (run : action state = .error failure after) :
    report reply failed action state = (failed failure, after) := by
  rw [report, run]

end Report

variable (server : Server ρ σ α) (allowed : ρ → σ → Prop)

/-- The answers to requests that are made one after another. -/
def answers : List ρ → σ → List α
  | [], _ => []
  | request :: requests, state =>
      (server request state).1 :: answers requests (server request state).2

/-- The state that requests leave. -/
def left : List ρ → σ → σ
  | [], state => state
  | request :: requests, state => left requests (server request state).2

/-- Every request is allowed in the state in which it is made. -/
def Respects : List ρ → σ → Prop
  | [], _ => True
  | request :: requests, state =>
      allowed request state ∧ Respects requests (server request state).2

instance decidableRespects [∀ request state, Decidable (allowed request state)] :
    (requests : List ρ) → (state : σ) → Decidable (Respects server allowed requests state)
  | [], _ => inferInstanceAs (Decidable True)
  | request :: requests, state =>
      have := decidableRespects requests (server request state).2
      inferInstanceAs (Decidable (_ ∧ _))

theorem left_append (first second : List ρ) (state : σ) :
    server.left (first ++ second) state = server.left second (server.left first state) := by
  induction first generalizing state with
  | nil => rfl
  | cons request first ih => exact ih _

/-- What is allowed in every state is allowed at any time. -/
theorem respects_of_forall {requests : List ρ}
    (always : ∀ request ∈ requests, ∀ state, allowed request state) (state : σ) :
    Respects server allowed requests state := by
  induction requests generalizing state with
  | nil => trivial
  | cons request requests ih =>
      obtain ⟨first, others⟩ := List.forall_mem_cons.mp always
      exact ⟨first state, ih others _⟩

/-- In related states an allowed request has the same answer, and it leaves related states. -/
def Simulates (other : Server ρ τ α) (related : σ → τ → Prop) : Prop :=
  ∀ ⦃request state otherState⦄, related state otherState → allowed request state →
    (server request state).1 = (other request otherState).1 ∧
      related (server request state).2 (other request otherState).2

variable {server allowed} {other : Server ρ τ α} {related : σ → τ → Prop}

theorem Simulates.dialogue (simulates : Simulates server allowed other related)
    {requests : List ρ} {state : σ} {otherState : τ} (start : related state otherState)
    (respects : Respects server allowed requests state) :
    server.answers requests state = other.answers requests otherState ∧
      related (server.left requests state) (other.left requests otherState) := by
  induction requests generalizing state otherState with
  | nil => exact ⟨rfl, start⟩
  | cons request requests ih =>
      obtain ⟨same, still⟩ := simulates start respects.1
      obtain ⟨others, last⟩ := ih still respects.2
      exact ⟨by rw [answers, answers, same, others], last⟩

theorem Simulates.dialogue_of_forall (simulates : Simulates server allowed other related)
    (requests : List ρ) {state : σ} {otherState : τ} (start : related state otherState)
    (always : ∀ request ∈ requests, ∀ state, allowed request state) :
    server.answers requests state = other.answers requests otherState ∧
      related (server.left requests state) (other.left requests otherState) :=
  simulates.dialogue start (respects_of_forall server allowed always state)

end Server

end DeflateAtlas
