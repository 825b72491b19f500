import LosslessCss.Text.WhiteSpace

/-!
# Values as lists

Many values are lists, with blank space or commas between the items.  A separator inside quotes,
inside parentheses or behind a backslash separates nothing.

Cutting and cleaning are two steps.  `Split.cut` cuts a text at every separator that counts, so its
pieces and the separators between them are the text.  `split` then drops empty pieces and trims the
others.  A piece is dropped if it is empty *before* it is trimmed, so a piece of white space that is
no separator becomes an empty item.

## Main Definitions

* `Split.Context` : parentheses, quote and backslash in force at a place
* `Split.cut`, `split`
* `splitSpaces`, `splitCommas`
-/

namespace LosslessCss.Value

namespace Split

/-- What is open at a place inside a value. -/
structure Context where
  /-- Open parentheses. -/
  depth : Nat := 0
  /-- The quote of the string around the place. -/
  quote : Option Char := none
  /-- A backslash stands in front. -/
  escaped : Bool := false
  deriving DecidableEq, Repr

namespace Context

/-- Nothing is open. -/
def isTop (x : Context) : Bool := !x.escaped && x.quote.isNone && x.depth == 0

/-- The context behind a character. -/
def step (x : Context) (c : Char) : Context :=
  if x.escaped then { x with escaped := false }
  else if c = '\\' then { x with escaped := true }
  else
    match x.quote with
    | some q => if c = q then { x with quote := none } else x
    | none =>
      if c = '"' ∨ c = '\'' then { x with quote := some c }
      else if c = '(' then { x with depth := x.depth + 1 }
      else if c = ')' then { x with depth := x.depth - 1 }
      else x

end Context

/-- Characters that change the context, and so never separate. -/
def isMarkup (c : Char) : Bool := c == '\\' || c == '"' || c == '\'' || c == '(' || c == ')'

/-- **Cuts at every separator that counts**: the first piece and the others. -/
def cut (isSeparator : Char → Bool) (x : Context) : List Char → List Char × List (List Char)
  | [] => ([], [])
  | c :: cs =>
    if x.isTop && isSeparator c && !isMarkup c then
      let (first, others) := cut isSeparator x cs
      ([], first :: others)
    else
      let (first, others) := cut isSeparator (x.step c) cs
      (c :: first, others)

/-- The pieces that are kept: those that are not empty, and the last one also if it is empty and
`keepLast` holds. -/
def keep (keepLast : Bool) (first : List Char) : List (List Char) → List (List Char)
  | [] => if keepLast || !first.isEmpty then [first] else []
  | second :: others =>
    let kept := keep keepLast second others
    if first.isEmpty then kept else first :: kept

end Split

/-- **The items of a list** between the given separators. -/
def split (separators : List Char) (keepLast : Bool) (value : String) : List String :=
  let (first, others) := Split.cut separators.contains {} value.toList
  (Split.keep keepLast first others).map fun piece => String.ofList (Text.trim piece)

/-- The items of a list with spaces, line feeds or tabs between them. -/
def splitSpaces (value : String) : List String := split [' ', '\n', '\t'] false value

/-- The items of a list with commas between them.  The last item counts also if it is empty. -/
def splitCommas (value : String) : List String := split [','] true value

end LosslessCss.Value
