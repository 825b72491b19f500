import LosslessCss.FileTree
import LosslessCss.Parse
import LosslessCss.Print
import LosslessCss.Sheet.Walk

/-!
# Processing a style sheet

One sheet from its text to its printed form: read, check the options, parse, count, print.  The
steps fail in this order, so a file that cannot be read is reported even if an option is wrong as
well, and a wrong option even if the sheet is.

## Main Definitions

* `Job` : which file, and what to do with it
* `ProcessError` : why a job fails, with `message` and `chain`
* `Processed` : what a job yields
* `Job.process`, `Job.processFile`
-/

namespace LosslessCss

/-- What is to be done with a sheet. -/
structure Job where
  /-- The path, which also names the sheet in messages. -/
  file : String
  style : Style := {}
  /-- Keep text that does not parse. -/
  lenient : Bool := false
  deriving DecidableEq, Repr

/-- Why a job fails. -/
inductive ProcessError where
  | fileNotFound (file : String)
  | file (error : FileError)
  | zeroRootSize
  | parse (file : String) (error : ParseError)
  deriving DecidableEq, Repr

namespace ProcessError

/-- The text of the message. -/
def message : ProcessError → String
  | fileNotFound path => "File not found: " ++ path
  | file e => "I/O error: " ++ e.message
  | zeroRootSize => "Invalid option: root value must be greater than zero"
  | parse path e => "Parse error in " ++ path ++ ": " ++ e.message

/-- The message, followed by the message of the error behind it. -/
def chain (e : ProcessError) : List String :=
  e.message ::
    match e with
    | file e => [e.message]
    | parse _ e => [e.message]
    | fileNotFound _ | zeroRootSize => []

end ProcessError

/-- What a job yields. -/
structure Processed where
  source : String
  tree : Tree Node
  stats : Stats
  css : String
  deriving DecidableEq, Repr

namespace Job

/-- The sheet of a text, printed. -/
def process (job : Job) (source : String) : Except ProcessError Processed :=
  if job.style.rootSize = 0 then .error .zeroRootSize
  else
    match parse { text := source } job.lenient with
    | .error e => .error (.parse job.file e)
    | .ok tree =>
      .ok
        { source := source
          tree := tree
          stats := .ofTree tree
          css := tree.print job.style.layout }

/-- The sheet of a file, printed, where `contents` is what reading the file gave.  A path that leads
nowhere is reported as such, and any other failure to read with its cause. -/
def processFile (job : Job) (contents : Except FileError String) : Except ProcessError Processed :=
  match contents with
  | .ok source => job.process source
  | .error .notFound | .error .notADirectory => .error (.fileNotFound job.file)
  | .error e => .error (.file e)

end Job

end LosslessCss
