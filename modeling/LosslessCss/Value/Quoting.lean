import LosslessCss.Token.Lexeme

/-!
# Stretches that are read as a whole

Functions on values and selectors treat a quoted string as one piece, and a comment as another.
Here both may lack their end, in which case they reach to the end of the text: a value is looked at
without the rest of the sheet, and nothing in it is an error.
-/

namespace LosslessCss.Value

/-- Length of a quoted string behind its opening quote: up to and including the closing one, or all
of the text.  A backslash takes the following character with it. -/
def quotedTail (quote : Char) : List Char → Nat
  | [] => 0
  | ['\\'] => 1
  | '\\' :: _ :: cs => quotedTail quote cs + 2
  | c :: cs => if c = quote then 1 else quotedTail quote cs + 1

/-- Length of a comment behind its opening mark: up to and including the closing one, or all of the
text. -/
def commentLength (cs : List Char) : Nat := (Token.commentTail cs).getD cs.length

/-- The characters that open a quoted string. -/
def isQuote (c : Char) : Bool := c == '"' || c == '\''

end LosslessCss.Value
