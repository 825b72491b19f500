import LosslessCss.FileTree

/-!
# Programs that read and write

A `Program` is what a command does, as data: it asks for a file or for its input, goes on with the
answer, and ends with a report.  The commands of this library are functions from their arguments to
programs.

A program can be run on a `FileTree` (`Program.run`), which is an ordinary function, or in the world
outside.  Both runs follow the same program, so what is shown of the first holds of what is written
here about the second.

## Main Definitions

* `Report` : exit code, output and error output
* `Program`, `Program.run`
* `Report.failure` : the report of an error with its causes
-/

namespace LosslessCss

/-- How a program ends. -/
structure Report where
  code : Nat
  output : String
  errors : String
  deriving DecidableEq, Repr

/-- What a command does. -/
inductive Program where
  /-- Reads a file. -/
  | read (path : String) (next : Except FileError ByteArray → Program)
  /-- Reads all of the input. -/
  | readInput (next : ByteArray → Program)
  /-- Writes a file. -/
  | write (path : String) (text : String) (next : Except FileError Unit → Program)
  /-- Ends. -/
  | exit (report : Report)

namespace Program

/-- Reads a file that holds text. -/
def readText (path : String) (next : Except FileError String → Program) : Program :=
  .read path fun contents => next (contents.bind decodeText)

/-- Ends well. -/
def succeed (output : String) : Program := .exit ⟨0, output, ""⟩

/-- Ends with an error, without any output. -/
def fail (errors : String) : Program := .exit ⟨1, "", errors⟩

/-- **A run on a file tree**: the report, and the files afterwards. -/
def run (files : FileTree) (input : ByteArray) : Program → Report × FileTree
  | .read path next => (next (files.read path)).run files input
  | .readInput next => (next input).run files input
  | .write path text next =>
    match files.write path text.toUTF8 with
    | .ok files => (next (.ok ())).run files input
    | .error e => (next (.error e)).run files input
  | .exit report => (report, files)

end Program

/-! ### Errors with causes -/

namespace Report

/-- A text on several lines, where `indent` stands in front of each line but the first. -/
def hanging (indent : String) (text : String) : String :=
  String.join ((text.splitOn "\n").intersperse ("\n" ++ indent))

/-- One of several causes, under its number. -/
def numberedCause (number : Nat) (cause : String) : String :=
  let digits := number.repr
  let margin := String.ofList (List.replicate (5 - digits.length) ' ')
  margin ++ digits ++ ": " ++ hanging "       " cause

/-- The causes of an error, the nearest first, each on a line of its own. -/
def causes : List String → String
  | [] => ""
  | [cause] => "\n\nCaused by:\n    " ++ hanging "    " cause
  | several =>
    "\n\nCaused by:" ++
      String.join (several.mapIdx fun number cause => "\n" ++ numberedCause number cause)

/-- **The report of an error**: what failed, and the causes. -/
def failure (headline : String) (chain : List String) : String :=
  "Error: " ++ headline ++ causes chain ++ "\n"

end Report

end LosslessCss
