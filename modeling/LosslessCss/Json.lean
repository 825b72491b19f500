/-!
# JSON documents

The values that a style sheet is exported to, and their text.  Numbers are natural, since only
offsets, lines and columns are ever written.  The fields of an object have an order, and the text
keeps it.

The text is laid out with one item or field per line, two spaces per level, and nothing between the
brackets of an empty array or object.

## Main Definitions

* `Json`
* `Json.field?` : a field of an object by its name
* `Json.pretty` : the text of a document
-/

namespace LosslessCss

/-- A JSON document. -/
inductive Json where
  | null
  | bool (value : Bool)
  | number (value : Nat)
  | string (value : String)
  | array (items : List Json)
  | object (fields : List (String × Json))
  deriving Repr

namespace Json

/-- The field of an object with a given name. -/
def field? (name : String) : Json → Option Json
  | object fields => fields.lookup name
  | _ => none

/-- The hexadecimal digit of a number below 16. -/
def hexDigit (n : Nat) : Char := Nat.digitChar (n % 16)

/-- A character inside a string: only the quote, the backslash and controls are escaped. -/
def escapeChar (c : Char) : List Char :=
  if c = '"' then ['\\', '"']
  else if c = '\\' then ['\\', '\\']
  else if c = '\x08' then ['\\', 'b']
  else if c = '\x0c' then ['\\', 'f']
  else if c = '\n' then ['\\', 'n']
  else if c = '\r' then ['\\', 'r']
  else if c = '\t' then ['\\', 't']
  else if c.toNat < 0x20 then
    ['\\', 'u', '0', '0', hexDigit (c.toNat / 16), hexDigit c.toNat]
  else [c]

/-- A string with its quotes. -/
def quoted (text : String) : String :=
  String.ofList ('"' :: (text.toList.flatMap escapeChar ++ ['"']))

/-- A new line at the given level. -/
def newline (level : Nat) : String := String.ofList ('\n' :: List.replicate (2 * level) ' ')

mutual

/-- The text of a document that starts at the given level. -/
def render (level : Nat) : Json → String
  | null => "null"
  | bool true => "true"
  | bool false => "false"
  | number n => n.repr
  | string s => quoted s
  | array [] => "[]"
  | array (item :: items) =>
    "[" ++ newline (level + 1) ++ render (level + 1) item ++ renderItems (level + 1) items ++
      newline level ++ "]"
  | object [] => "\x7b\x7d"
  | object ((name, value) :: fields) =>
    "\x7b" ++ newline (level + 1) ++ quoted name ++ ": " ++ render (level + 1) value ++
      renderFields (level + 1) fields ++ newline level ++ "\x7d"

/-- The items of an array behind the first one. -/
def renderItems (level : Nat) : List Json → String
  | [] => ""
  | item :: items => "," ++ newline level ++ render level item ++ renderItems level items

/-- The fields of an object behind the first one. -/
def renderFields (level : Nat) : List (String × Json) → String
  | [] => ""
  | (name, value) :: fields =>
    "," ++ newline level ++ quoted name ++ ": " ++ render level value ++ renderFields level fields

end

/-- **The text of a document.** -/
def pretty (document : Json) : String := document.render 0

end Json

end LosslessCss
