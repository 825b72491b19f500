import LosslessCss.Source

/-!
# Tokens

A token is a stretch of the source with a kind.  The kinds are coarse: a `word` is whatever lies
between blank space and punctuation, so numbers, names, signs and `!important` are all words.
Together the tokens of a source cover it without a gap, blank space and comments included.

## Main Definitions

* `Token.Kind` : the fourteen kinds, with `title` and `label` as the two ways to name them
* `Token` : kind, text and span
* `Token.concat` : the text that a run of tokens covers
-/

namespace LosslessCss

/-- What a token is. -/
inductive Token.Kind where
  | word
  | string
  | comment
  | atWord
  | braceOpen
  | braceClose
  | parenOpen
  | parenClose
  | bracketOpen
  | bracketClose
  | colon
  | semicolon
  | combinator
  | space
  deriving DecidableEq, Repr

namespace Token.Kind

/-- The kind as listings write it. -/
def title : Kind → String
  | word => "Word"
  | string => "String"
  | comment => "Comment"
  | atWord => "AtWord"
  | braceOpen => "BraceOpen"
  | braceClose => "BraceClose"
  | parenOpen => "ParenOpen"
  | parenClose => "ParenClose"
  | bracketOpen => "BracketOpen"
  | bracketClose => "BracketClose"
  | colon => "Colon"
  | semicolon => "Semicolon"
  | combinator => "Combinator"
  | space => "Space"

/-- The kind as running text writes it: punctuation stands for itself, between backquotes. -/
def label : Kind → String
  | word => "word"
  | string => "string"
  | comment => "comment"
  | atWord => "at-word"
  | braceOpen => "`\x7b`"
  | braceClose => "`\x7d`"
  | parenOpen => "`(`"
  | parenClose => "`)`"
  | bracketOpen => "`[`"
  | bracketClose => "`]`"
  | colon => "`:`"
  | semicolon => "`;`"
  | combinator => "combinator"
  | space => "space"

/-- Trivia separates other tokens and means nothing by itself. -/
def isTrivia : Kind → Bool
  | space | comment => true
  | _ => false

end Token.Kind

/-- A kind, the text, and where the text stands. -/
structure Token where
  kind : Token.Kind
  text : String
  span : Span
  deriving DecidableEq, Repr

namespace Token

/-- Blank space, as the lexical grammar has it. -/
def isSpace (t : Token) : Bool := t.kind == .space

/-- Blank space or a comment. -/
def isTrivia (t : Token) : Bool := t.kind.isTrivia

/-- The place in front of a token. -/
def start (t : Token) : Position := t.span.start

/-- The place behind a token. -/
def stop (t : Token) : Position := t.span.stop

/-- The text that a run of tokens covers. -/
def concat : List Token → String
  | [] => ""
  | t :: ts => t.text ++ concat ts

@[simp] theorem concat_nil : concat [] = "" := rfl

@[simp] theorem concat_cons (t : Token) (ts : List Token) :
    concat (t :: ts) = t.text ++ concat ts := rfl

/-- **Concatenation is additive**, so a run may be cut anywhere. -/
@[simp] theorem concat_append (ts us : List Token) :
    concat (ts ++ us) = concat ts ++ concat us := by
  induction ts with
  | nil => simp
  | cons t ts ih => simp [ih, String.append_assoc]

end Token

end LosslessCss
