import LosslessCss.Token
import LosslessCss.Runs
import LosslessCss.Text.Ascii
import LosslessCss.Text.WhiteSpace

/-!
# The parts of a statement

A statement arrives as a run of tokens.  This module takes such runs apart: the head of an at-rule
into name, gap and parameters; a declaration into property, gap, value and the mark `!important`; a
comment into its text and the space around it.  Each function only distributes the text of the
tokens over fields, so putting the fields together again gives the text back.

## Main Definitions

* `Statement.content`, `Statement.gap` : a run without the blank space at its end, and that space
* `AtRuleHead.ofTokens`
* `DeclarationParts.ofTokens` : fails without a colon or without a property in front of it
* `splitImportant` : a value and the mark behind it
* `CommentParts.ofText`
-/

namespace LosslessCss

/-- A run of tokens without the blank space at its end. -/
def Statement.content (ts : List Token) : List Token := dropTrailing Token.isSpace ts

/-- The blank space at the end of a run of tokens. -/
def Statement.gap (ts : List Token) : List Token := takeTrailing Token.isSpace ts

/-! ### At-rules -/

/-- The head of an at-rule. -/
structure AtRuleHead where
  name : String
  afterName : String
  params : String
  deriving DecidableEq, Repr

/-- The name is the first token without its `@`; the parameters start at the next token that is not
blank. -/
def AtRuleHead.ofTokens : List Token → AtRuleHead
  | [] => ⟨"", "", ""⟩
  | word :: rest =>
    { name := String.ofList (word.text.toList.drop 1)
      afterName := Token.concat (rest.takeWhile Token.isSpace)
      params := Token.concat (rest.dropWhile Token.isSpace) }

/-! ### Declarations -/

/-- **The mark `!important`.**  A value is marked if the text behind its last `!` is the word
`important` in any case, with white space around it.  The mark takes the white space in front of it
along. -/
def splitImportant (value : List Char) : List Char × Option (List Char) :=
  let upToBang := dropTrailing (· != '!') value
  let behindBang := takeTrailing (· != '!') value
  if !upToBang.isEmpty && Text.eqIgnoringCase (Text.trim behindBang) "important".toList then
    let kept := Text.trimEnd upToBang.dropLast
    (kept, some (value.drop kept.length))
  else (value, none)

/-- The parts of a declaration; `between` is everything from the property to the value, the colon
included. -/
structure DeclarationParts where
  property : String
  between : String
  value : String
  /-- The mark `!important`, if there is one. -/
  important : Option String
  deriving DecidableEq, Repr

/-- Why a run of tokens is no declaration. -/
inductive DeclarationFault where
  | missingColon
  | missingProperty
  deriving DecidableEq, Repr

/-- The property ends at the last token in front of the first colon that is not blank; the value
starts at the first token behind the colon that is neither blank nor a comment. -/
def DeclarationParts.ofTokens (ts : List Token) : Except DeclarationFault DeclarationParts :=
  let isOther (t : Token) : Bool := t.kind != .colon
  let head := ts.takeWhile isOther
  match ts.dropWhile isOther with
  | [] => .error .missingColon
  | colon :: rest =>
    if (Statement.content head).isEmpty then .error .missingProperty
    else
      let (value, important) :=
        splitImportant (Token.concat (rest.dropWhile Token.isTrivia)).toList
      .ok
        { property := Token.concat (Statement.content head)
          between := Token.concat (Statement.gap head) ++ colon.text ++
            Token.concat (rest.takeWhile Token.isTrivia)
          value := String.ofList value
          important := important.map String.ofList }

/-! ### Comments -/

/-- A comment without its marks. -/
structure CommentParts where
  left : String
  text : String
  right : String
  deriving DecidableEq, Repr

/-- The text of a comment is trimmed.  In a blank comment all space is the space on the left. -/
def CommentParts.ofText (comment : String) : CommentParts :=
  let inner := (comment.toList.drop 2).dropLast.dropLast
  if (Text.trim inner).isEmpty then ⟨String.ofList inner, "", ""⟩
  else
    { left := String.ofList (Text.leadingSpace inner)
      text := String.ofList (Text.trim inner)
      right := String.ofList (Text.trailingSpace inner) }

end LosslessCss
