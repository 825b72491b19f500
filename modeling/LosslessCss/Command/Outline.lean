import LosslessCss.Command.Tokens
import LosslessCss.Parse
import LosslessCss.Tree.Json
import LosslessCss.Tree.Outline

/-!
# The command that shows the tree

Given `[--json] [--ignore-errors] FILE`, the command parses a file and writes its outline, or its
export to JSON.  It wants exactly one file; any other argument that starts with `--` is passed over.
-/

namespace LosslessCss.Command

/-- What the command wants, for those who call it by the given name. -/
def outlineUsage (name : String) : String :=
  "Usage: " ++ name ++ " [--json] [--ignore-errors] <file.css>\n\n" ++
    "Parse a CSS file and dump its AST structure\n"

/-- **The command**, given the name that it was called by and its arguments. -/
def showTree (name : String) (args : List String) : Program :=
  match args.filter (!isOption ·) with
  | [file] =>
    .readText file fun
      | .error e => .fail ("Error reading file '" ++ file ++ "': " ++ e.message ++ "\n")
      | .ok text =>
        match parse { text := text } (args.contains "--ignore-errors") with
        | .error e => .fail ("Parse error in '" ++ file ++ "': " ++ e.message ++ "\n")
        | .ok tree =>
          if args.contains "--json" then .succeed (tree.toJson.pretty ++ "\n")
          else .succeed tree.outlineText
  | _ => .fail (outlineUsage name)

end LosslessCss.Command
