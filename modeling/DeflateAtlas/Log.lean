import DeflateAtlas.Failure

/-!
# The log

Locating deflate data leaves a log: a list of events, oldest first, each with
a level.  A reader of the log chooses how severe an event has to be to be
shown; `Threshold` is that choice.  Some failures are logged in more detail
than their wording gives; `Failure.events` holds those lines.
-/

namespace DeflateAtlas

/-- How severe an event is. -/
inductive Level
  | error
  | warn
  | info
  | debug
  | trace
  deriving DecidableEq, Repr

namespace Level

/-- The word that begins the line of an event. -/
def name : Level → String
  | .error => "ERROR"
  | .warn => "WARN"
  | .info => "INFO"
  | .debug => "DEBUG"
  | .trace => "TRACE"

/-- The more severe the level, the lower its rank. -/
def rank : Level → Nat
  | .error => 1
  | .warn => 2
  | .info => 3
  | .debug => 4
  | .trace => 5

end Level

/-- One line of the log. -/
structure Event where
  level : Level
  text : String
  deriving DecidableEq, Repr

/-- An event as it is shown: its level and its text. -/
def Event.render (event : Event) : String :=
  s!"{event.level.name} {event.text}"

/-- Events, oldest first. -/
abbrev Log := List Event

/-- The least severe level that is shown, or nothing at all. -/
inductive Threshold
  | off
  | upTo (level : Level)
  deriving DecidableEq, Repr

namespace Threshold

/-- An event is shown if it is at least as severe as the threshold. -/
def admits : Threshold → Event → Bool
  | .off, _ => false
  | .upTo level, event => event.level.rank ≤ level.rank

/-- The threshold of a name, in upper or lower case. -/
def ofName? (text : String) : Option Threshold :=
  match text.map Char.toLower with
  | "off" => some .off
  | "error" => some (.upTo .error)
  | "warn" => some (.upTo .warn)
  | "info" => some (.upTo .info)
  | "debug" => some (.upTo .debug)
  | "trace" => some (.upTo .trace)
  | _ => none

end Threshold

/-- The lines of a log that a threshold admits. -/
def Log.shown (log : Log) (threshold : Threshold) : List String :=
  (log.filter threshold.admits).map Event.render

/-- What is logged beside a failure when it arises. -/
def Failure.events : Failure → Log
  | .deflateCorrupt start => [⟨.debug, s!"inflate failed at {start} with Data"⟩]
  | .extentNotConsumed offset length bits =>
      [⟨.error, s!"deflate at {offset} of {length} bytes ended after {bits} bits"⟩]
  | .extentEndsElsewhere offset length bytes expected =>
      [⟨.error,
        s!"deflate at bit {offset} of {length} bits ended after {bytes} bytes instead of {expected}"⟩]
  | .zlibMethod method => [⟨.error, s!"Invalid compression method {method}"⟩]
  | .zlibWindow window => [⟨.error, s!"Invalid window size {window}"⟩]
  | _ => []

end DeflateAtlas
