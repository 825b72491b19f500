import LosslessCss.Token
import LosslessCss.Text.Ascii

/-!
# Lexemes

One step of lexical analysis: given the characters ahead, what is the next token and how far does it
reach?  The answer is a kind and a number of characters *behind the first one* (`scan`), so a token
is never empty and the rest is the list with that many characters dropped.

What the characters mean depends on a little context.  Directly behind a word `url`, an opening
parenthesis starts an unquoted address, in which blank space, `;`, `:` and braces have no meaning.
`Mode` remembers as much of the past as that decision needs.

## Main Definitions

* `Mode` : nothing special, just behind `url`, or in front of an unquoted address
* `scan` : the next token, or which bracketed text is not closed
* `Mode.after` : the mode behind a token

## Design Notes

The five functions named `…Tail` measure how far a token reaches from a place inside it.  A
backslash takes the following character with it, whatever that is, in words, strings and addresses;
it does not in at-words, which a backslash ends.
-/

namespace LosslessCss.Token

/-- **Blank space** of the lexical grammar: space, tab, line feed, carriage return, form feed. -/
def isBlank (c : Char) : Bool :=
  c == ' ' || c == '\t' || c == '\n' || c == '\r' || c == '\x0c'

/-- The characters that end a word. -/
def endsWord (c : Char) : Bool :=
  isBlank c || c == '!' || c == '"' || c == '\'' || c == '#' || c == '(' || c == ')' || c == '[' ||
    c == ']' || c == '\x7b' || c == '\x7d' || c == ':' || c == ';' || c == '@' || c == '>' ||
    c == '+' || c == '~'

/-- The characters that end an at-word. -/
def endsAtWord (c : Char) : Bool :=
  isBlank c || c == '"' || c == '#' || c == '\'' || c == '(' || c == ')' || c == '/' || c == ';' ||
    c == '[' || c == '\\' || c == ']' || c == '\x7b' || c == '\x7d'

/-- The characters that may start an unquoted address. -/
def startsAddress (c : Char) : Bool :=
  !isBlank c && c != '\'' && c != '"' && c != ')'

/-- The three bracketed texts that the end of the source can leave open. -/
inductive Unclosed where
  | string
  | comment
  | address
  deriving DecidableEq, Repr

/-- What the past says about the next character. -/
inductive Mode where
  /-- Nothing special. -/
  | plain
  /-- The token just read is the word `url`. -/
  | behindUrl
  /-- The tokens just read are `url` and `(`, and an unquoted address starts here. -/
  | address
  deriving DecidableEq, Repr

/-! ### How far a token reaches -/

/-- Inside a word: up to a character that ends it or up to a comment. -/
def wordTail : List Char → Nat
  | [] => 0
  | ['\\'] => 1
  | '\\' :: _ :: cs => wordTail cs + 2
  | '/' :: '*' :: _ => 0
  | c :: cs => if endsWord c then 0 else wordTail cs + 1

/-- Inside a string: up to and including its closing quote. -/
def stringTail (quote : Char) : List Char → Option Nat
  | [] => none
  | ['\\'] => none
  | '\\' :: _ :: cs => (stringTail quote cs).map (· + 2)
  | c :: cs => if c = quote then some 1 else (stringTail quote cs).map (· + 1)

/-- Inside a comment: up to and including the mark that closes it. -/
def commentTail : List Char → Option Nat
  | [] => none
  | '*' :: '/' :: _ => some 2
  | _ :: cs => (commentTail cs).map (· + 1)

/-- Inside an unquoted address: up to the parenthesis that closes it. -/
def addressTail : List Char → Option Nat
  | [] => none
  | ['\\'] => none
  | '\\' :: _ :: cs => (addressTail cs).map (· + 2)
  | c :: cs => if c = ')' then some 0 else (addressTail cs).map (· + 1)

/-- Inside an at-word: up to a character that ends it. -/
def atWordTail (cs : List Char) : Nat := (cs.takeWhile fun c => !endsAtWord c).length

/-! ### The next token -/

/-- The tokens that are one character, whatever stands around them. -/
def punctuation? : Char → Option Kind
  | '\x7b' => some .braceOpen
  | '\x7d' => some .braceClose
  | '(' => some .parenOpen
  | ')' => some .parenClose
  | '[' => some .bracketOpen
  | ']' => some .bracketClose
  | ':' => some .colon
  | ';' => some .semicolon
  | '>' | '+' | '~' => some .combinator
  | _ => none

/-- How far a word reaches behind its first character, which it takes whatever it is. -/
def scanWord : Char → List Char → Nat
  | '\\', [] => 0
  | '\\', _ :: cs => wordTail cs + 1
  | _, cs => wordTail cs

/-- How far an address reaches behind its first character. -/
def scanAddress : Char → List Char → Option Nat
  | '\\', [] => none
  | '\\', _ :: cs => (addressTail cs).map (· + 1)
  | _, cs => addressTail cs

/-- **The next token** where the characters ahead are `c :: cs`: its kind and the number of
characters of `cs` that belong to it. -/
def scan (mode : Mode) (c : Char) (cs : List Char) : Except Unclosed (Kind × Nat) :=
  if mode = .address then
    match scanAddress c cs with
    | some n => .ok (.word, n)
    | none => .error .address
  else if isBlank c then .ok (.space, (cs.takeWhile isBlank).length)
  else
    match punctuation? c with
    | some kind => .ok (kind, 0)
    | none =>
      if c = '\'' ∨ c = '"' then
        match stringTail c cs with
        | some n => .ok (.string, n)
        | none => .error .string
      else if c = '@' then .ok (.atWord, atWordTail cs)
      else if c = '/' ∧ cs.head? = some '*' then
        match commentTail cs.tail with
        | some n => .ok (.comment, n + 1)
        | none => .error .comment
      else .ok (.word, scanWord c cs)

/-- The mode behind a token of the given kind and text, where `rest` lies ahead. -/
def Mode.after (mode : Mode) (kind : Kind) (text rest : List Char) : Mode :=
  if kind = .parenOpen ∧ mode = .behindUrl ∧ rest.head?.any startsAddress then .address
  else if kind = .word ∧ Text.eqIgnoringCase text ['u', 'r', 'l'] then .behindUrl
  else .plain

/-- Behind a token that is neither a word nor an opening parenthesis the past is forgotten. -/
theorem Mode.after_eq_plain (mode : Mode) {kind : Kind} (text rest : List Char)
    (notParen : kind ≠ .parenOpen) (notWord : kind ≠ .word) :
    mode.after kind text rest = .plain := by
  simp [Mode.after, notParen, notWord]

end LosslessCss.Token
