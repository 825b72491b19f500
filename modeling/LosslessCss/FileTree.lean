import LosslessCss.Runs

/-!
# Files

A program that works on files sees them through a `FileTree`: the contents of each file under its
path.  Directories are there because something is in them, or because they are listed.  This is all
that the programs of this library need in order to be ordinary functions, so that what they do with
files can be computed and reasoned about without touching any.

## Main Definitions

* `FileError` : why a file cannot be read or written
* `FileTree.locate` : what stands at a path
* `FileTree.read`, `FileTree.write`
-/

namespace LosslessCss

/-- Why a file cannot be read or written. -/
inductive FileError where
  | notFound
  | notADirectory
  | isADirectory
  /-- The contents are no UTF-8 text. -/
  | notText
  | other (description : String)
  deriving DecidableEq, Repr

/-- The text of the message. -/
def FileError.message : FileError → String
  | notFound => "No such file or directory (os error 2)"
  | notADirectory => "Not a directory (os error 20)"
  | isADirectory => "Is a directory (os error 21)"
  | notText => "stream did not contain valid UTF-8"
  | other description => description

/-- The text that a file holds. -/
def decodeText (contents : ByteArray) : Except FileError String :=
  match String.fromUTF8? contents with
  | some text => .ok text
  | none => .error .notText

/-- The names on the way to a file, from the top. -/
abbrev Route := List String

/-- Files under their routes, and directories that are listed although nothing may be in them. -/
structure FileTree where
  files : List (Route × ByteArray)
  directories : List Route := []

namespace FileTree

/-- What stands at a route. -/
inductive Item where
  | file (contents : ByteArray)
  | directory
  | missing

/-- The top is a directory, and so is each route on the way to something. -/
def item (t : FileTree) (route : Route) : Item :=
  match t.files.lookup route with
  | some contents => .file contents
  | none =>
    if route.isEmpty || (t.files.map (·.1) ++ t.directories).any route.isPrefixOf then .directory
    else .missing

/-- The route of a path, one name after the other from `here`.  Each name but the last has to be a
directory that exists; `..` leads upwards. -/
def follow (t : FileTree) (here : Route) : List String → Except FileError Route
  | [] => .ok here
  | name :: names =>
    match t.item here with
    | .file _ => .error .notADirectory
    | .missing => .error .notFound
    | .directory =>
      if name = "" ∨ name = "." then t.follow here names
      else if name = ".." then t.follow here.dropLast names
      else t.follow (here ++ [name]) names

/-- What stands at a path, and under which route.  An empty path leads nowhere. -/
def locate (t : FileTree) (path : String) : Except FileError Route :=
  if path.isEmpty then .error .notFound else t.follow [] (path.splitOn "/")

/-- **The contents of a file.** -/
def read (t : FileTree) (path : String) : Except FileError ByteArray := do
  match t.item (← t.locate path) with
  | .file contents => return contents
  | .directory => throw .isADirectory
  | .missing => throw .notFound

/-- **The tree with a new or changed file.**  Its directory has to exist, and a path that ends in a
slash can only name a directory. -/
def write (t : FileTree) (path : String) (contents : ByteArray) : Except FileError FileTree := do
  if path.isEmpty then throw .notFound
  let names := path.splitOn "/"
  let route ← t.follow [] (dropTrailing (· == "") names)
  match t.item route, names.getLast? with
  | .directory, _ | _, some "" => throw .isADirectory
  | _, _ => return { t with files := (route, contents) :: t.files.filter (·.1 != route) }

end FileTree

end LosslessCss
