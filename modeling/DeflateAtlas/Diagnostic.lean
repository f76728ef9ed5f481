import DeflateAtlas.Failure

/-!
# Diagnostics

A diagnostic is a failure on its way to a reader: its kind, its wording, and
how many places have passed it on.  Written out, each such place is a line of
its own after the wording, so a wording that already holds such lines counts
as passed on that often.

Interfaces that only know errors of the operating system carry a diagnostic
through unharmed; an error of the operating system itself becomes a diagnostic
that quotes it.
-/

namespace DeflateAtlas

/-- A failure on its way to a reader. -/
structure Diagnostic where
  kind : FailureKind
  wording : String
  /-- The number of places that have passed it on. -/
  passes : Nat
  deriving DecidableEq, Repr

/-- The errors of the operating system that are told apart. -/
inductive SystemErrorKind
  | unexpectedEnd
  | notFound
  | permissionDenied
  | invalidData
  | interrupted
  | other
  deriving DecidableEq, Repr

/-- An error as an interface of the operating system hands it over. -/
inductive SystemError
  | plain (kind : SystemErrorKind) (text : String)
  | carrying (diagnostic : Diagnostic)
  deriving DecidableEq, Repr

namespace Diagnostic

/-- What begins the line of a place that has passed a diagnostic on. -/
def passMarker : String := "\n at "

/-- The diagnostic with a given text. -/
def ofText (kind : FailureKind) (text : String) : Diagnostic :=
  match text.splitOn passMarker with
  | [] => ⟨kind, "", 0⟩
  | wording :: places => ⟨kind, wording, places.length⟩

/-- One more place passes the diagnostic on. -/
def pass (diagnostic : Diagnostic) : Diagnostic :=
  { diagnostic with passes := diagnostic.passes + 1 }

/-- The diagnostic of a failure where it arises. -/
def raise (kind : FailureKind) (text : String) : Diagnostic :=
  (ofText kind text).pass

/-- Hand a diagnostic to an interface that only knows errors of the operating system. -/
def toSystem (diagnostic : Diagnostic) : SystemError :=
  .carrying diagnostic

/-- The diagnostic of an error that such an interface hands over. -/
def ofSystem : SystemError → Diagnostic
  | .carrying diagnostic => diagnostic
  | .plain kind text =>
      ofText (if kind = .unexpectedEnd then .shortRead else .osError) s!"error {text} at "

/-- A diagnostic as one line. -/
def render (diagnostic : Diagnostic) : String :=
  s!"{diagnostic.kind.name}: {diagnostic.wording}"

@[simp]
theorem ofSystem_toSystem (diagnostic : Diagnostic) : ofSystem diagnostic.toSystem = diagnostic :=
  rfl

end Diagnostic

end DeflateAtlas
