import LosslessCss.Command.Format
import LosslessCss.Command.Outline
import LosslessCss.Command.Tokens

/-!
# The commands in the world outside

The first argument names the command, the others are its own.  Here programs meet real files: this
module reads and writes for them and decides nothing else.
-/

namespace LosslessCss

/-- The command of a name. -/
def commandOfName? : String → Option (List String → Program)
  | "cascadec" => some Command.format
  | "cascade-parser" => some (Command.showTree "cascade-parser")
  | "cascade-lexer" => some Command.listTokens
  | _ => none

/-- Why the world outside refused a file. -/
def fileErrorOf : IO.Error → FileError
  | .noFileOrDirectory .. => .notFound
  | .inappropriateType _ code _ => if code = 21 then .isADirectory else .notADirectory
  | e => .other (toString e)

/-- Reads and writes what a program asks for, up to its report. -/
def perform : Program → IO Report
  | .read path next => do
    let contents ←
      try pure (.ok (← IO.FS.readBinFile path)) catch e => pure (.error (fileErrorOf e))
    perform (next contents)
  | .readInput next => do
    let contents ← (← IO.getStdin).readBinToEnd
    perform (next contents)
  | .write path text next => do
    let written ←
      try
        IO.FS.writeFile path text
        pure (.ok ())
      catch e => pure (.error (fileErrorOf e))
    perform (next written)
  | .exit report => pure report

end LosslessCss

/-- Runs the command that the first argument names. -/
def main (args : List String) : IO UInt32 := do
  match args with
  | name :: args =>
    match LosslessCss.commandOfName? name with
    | some command =>
      let report ← LosslessCss.perform (command args)
      IO.print report.output
      IO.eprint report.errors
      return report.code.toUInt32
    | none =>
      IO.eprintln s!"unknown command {name}"
      return 2
  | [] =>
    IO.eprintln "a command is required"
    return 2
