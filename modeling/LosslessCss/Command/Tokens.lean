import LosslessCss.Program
import LosslessCss.Text.Quoted
import LosslessCss.Token.Reader

/-!
# The command that lists tokens

Given `[--ignore-errors] [FILE]`, the command writes the tokens of a file, or of its input, one per
line.  Any other argument that starts with `--` is passed over, and so is every file behind the
first.
-/

namespace LosslessCss.Command

/-- The argument is an option. -/
def isOption (arg : String) : Bool := ['-', '-'].isPrefixOf arg.toList

/-- The line of a token: kind, place and text. -/
def tokenLine (t : Token) : String :=
  t.kind.title ++ " @ " ++ t.start.name ++ "-" ++ t.stop.name ++ " = " ++ Text.quote t.text ++ "\n"

/-- The tokens of a text, and behind them the error that ended them, if one did. -/
def tokenListing (lenient : Bool) (text : String) : Program :=
  let lexed := tokenize { text := text } lenient
  let listing := String.join (lexed.tokens.map tokenLine)
  match lexed.failure with
  | none => .succeed listing
  | some e => .exit ⟨1, listing, "Error during tokenization: " ++ e.message ++ "\n"⟩

/-- **The command**, given its arguments. -/
def listTokens (args : List String) : Program :=
  let lenient := args.contains "--ignore-errors"
  match args.find? (!isOption ·) with
  | some file =>
    .readText file fun
      | .ok text => tokenListing lenient text
      | .error e => .fail ("Error reading file '" ++ file ++ "': " ++ e.message ++ "\n")
  | none =>
    .readInput fun contents =>
      match decodeText contents with
      | .ok text => tokenListing lenient text
      | .error e => .fail ("Error reading stdin: " ++ e.message ++ "\n")

end LosslessCss.Command
