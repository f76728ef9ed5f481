import DeflateAtlas.Container.Gzip
import DeflateAtlas.Container.Zip
import DeflateAtlas.Container.Zlib
import DeflateAtlas.Locate.PuffLayout

/-!
# The command line

The program takes a file, finds the deflate streams in it, and reports where
they lie, how many blocks they have, and where their puffs would go.  This
module reads the arguments and composes the report; it neither opens the file
nor prints anything.
-/

namespace DeflateAtlas

/-- What kind of file holds the deflate streams. -/
inductive ContainerFormat
  | zip
  | gzip
  /-- The whole file is one zlib stream. -/
  | zlib
  deriving DecidableEq, Repr

namespace ContainerFormat

/-- The name of a format in a report. -/
def title : ContainerFormat → String
  | .zip => "Zip"
  | .gzip => "Gzip"
  | .zlib => "Zlib"

/-- The format that an argument names. -/
def ofArgument? : String → Option ContainerFormat
  | "zip" => some .zip
  | "gzip" => some .gzip
  | "zlib" => some .zlib
  | _ => none

/-- The format of a file when none is named: gzip if it begins like that, zip otherwise. -/
def guess (data : Bytes) : ContainerFormat :=
  if data.field 0 2 = Gzip.magic then .gzip else .zip

end ContainerFormat

/-- What the arguments ask for. -/
structure Invocation where
  input : String
  format : Option ContainerFormat
  threshold : Threshold
  deriving DecidableEq, Repr

/-- Arguments that have been read so far. -/
structure Arguments where
  input : Option String
  format : Option ContainerFormat
  threshold : Option Threshold
  deriving DecidableEq, Repr

/-- What to do about the arguments. -/
inductive Request
  | help
  | locate (invocation : Invocation)
  deriving DecidableEq, Repr

namespace Arguments

/-- No arguments yet. -/
def none : Arguments :=
  ⟨.none, .none, .none⟩

/-- Read an argument that is no option: the input, then the format. -/
def addPositional (arguments : Arguments) (argument : String) : Option Arguments :=
  match arguments.input, arguments.format with
  | .none, _ => if argument = "" then .none else some { arguments with input := argument }
  | some _, .none => do
      let format ← ContainerFormat.ofArgument? argument
      return { arguments with format }
  | some _, some _ => .none

/-- Read the level of the log, which may be given once. -/
def addThreshold (arguments : Arguments) (level : String) : Option Arguments :=
  match arguments.threshold with
  | some _ => .none
  | .none => do
      let threshold ← Threshold.ofName? level
      return { arguments with threshold }

/-- The request that the arguments add up to. -/
def finish (arguments : Arguments) : Option Request := do
  let input ← arguments.input
  return .locate ⟨input, arguments.format, arguments.threshold.getD (.upTo .warn)⟩

/-- The option for the level of the log. -/
def levelOption : String := "--loglevel"

/-- Read arguments in order; nothing comes of arguments that make no sense. -/
def parse (arguments : Arguments) : List String → Option Request
  | [] => arguments.finish
  | "--" :: rest => do
      let arguments ← rest.foldlM addPositional arguments
      arguments.finish
  | "-h" :: _ | "--help" :: _ => some .help
  | "--loglevel" :: level :: rest => do
      let arguments ← arguments.addThreshold level
      parse arguments rest
  | argument :: rest =>
      if argument.startsWith (levelOption ++ "=") then do
        let level := (argument.drop (levelOption.length + 1)).toString
        let arguments ← arguments.addThreshold level
        parse arguments rest
      else if argument.startsWith "-" ∧ argument ≠ "-" then
        .none
      else do
        let arguments ← arguments.addPositional argument
        parse arguments rest

end Arguments

/-- The request that a command line makes, if it makes sense. -/
def Request.ofArguments? (arguments : List String) : Option Request :=
  Arguments.none.parse arguments

/-- The exit status after a command line that makes no sense. -/
def usageStatus : Nat := 2

/-- What the program expects. -/
def usage : String :=
  "Prints the deflate streams in a file and where their puffs would go\n\n" ++
    "Usage: deflate-atlas [--loglevel LEVEL] INPUT [zip|gzip|zlib]\n"

/-- What was found in a file. -/
structure Findings where
  deflates : List ByteExtent
  blocks : List BitExtent
  layout : PuffLayout
  deriving DecidableEq, Repr

namespace Findings

/-- The deflate streams in a file. -/
def deflatesIn (format : ContainerFormat) (data : Bytes) :
    Survey PuffEncoder BufferStream (List ByteExtent) :=
  match format with
  | .zip => do
      let found := Zip.search Probe.inflating data
      Survey.note found.log
      return found.deflates
  | .gzip =>
      match Gzip.Walk.ofFile Probe.inflating data with
      | .ok walk => do
          Survey.note walk.events
          return walk.deflates
      | .error failure => Survey.fail failure
  | .zlib => do
      let payload ← Zlib.payload ⟨0, data.size⟩
      return [payload]

/-- All there is to find in a file. -/
def survey (format : ContainerFormat) (data : Bytes) :
    Survey PuffEncoder BufferStream Findings := do
  let deflates ← deflatesIn format data
  let blocks ← Survey.deflateBlocks deflates
  let layout ← Survey.puffLayout blocks
  return { deflates, blocks, layout }

/-- An extent as a line of a report. -/
def line (what : String) (extent : ByteExtent) : String :=
  s!"{what} {extent.offset}..{extent.stop} ({extent.length} bytes)"

/-- The lines of the report on a file of a given format and size. -/
def lines (findings : Findings) (format : ContainerFormat) (size : Nat) : List String :=
  [s!"{format.title} file of {size} bytes"] ++
    findings.deflates.map (line "deflate") ++
    [s!"{findings.blocks.length} deflate blocks in " ++
      s!"{Extent.totalLength findings.deflates} bytes of deflate data"] ++
    findings.layout.puffs.map (line "puff") ++
    [s!"puff size {findings.layout.size}"]

end Findings

/-- What comes of an invocation. -/
structure Report where
  /-- The lines of the report. -/
  lines : List String
  failure : Option Failure
  log : Log

namespace Report

/-- The exit status of the program. -/
def exitStatus (report : Report) : Nat :=
  match report.failure with
  | some failure => failure.kind.exitStatus
  | none => 0

/-- The report on a file. -/
def ofData (format : ContainerFormat) (data : Bytes) : Report :=
  match (Findings.survey format data).outcome (Survey.start ⟨⟩ (.reading data)) with
  | (.ok findings, log) => ⟨findings.lines format data.size, none, log⟩
  | (.error failure, log) => ⟨[], some failure, log⟩

end Report

/-- The report on the file of an invocation, which may not exist. -/
def Invocation.report (invocation : Invocation) (file : Option Bytes) : Report :=
  match file with
  | some data => Report.ofData (invocation.format.getD (.guess data)) data
  | none => ⟨[], some .fileMissing, []⟩

end DeflateAtlas
