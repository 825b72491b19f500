import LosslessCss.Process

/-!
# The options of the processing command

Arguments are read from left to right by a state that each of them moves one step.  An option is a
flag or takes a value; the value is attached to it (`--output=FILE`, `-oFILE`, `-o=FILE`) or is the
next argument.  One-letter options can share a dash, the last of them with a value.  Behind `--`
every argument is a file.

The first violation ends the reading; a request for the version or for help ends it as well, so what
stands behind is not looked at.

## Main Definitions

* `Options`, `Request`, `UsageError`
* `Options.parse`
-/

namespace LosslessCss.Command

/-- What the command was asked to do with a file. -/
structure Options where
  input : String
  output : Option String := none
  minimize : Bool := false
  pxToRem : Bool := false
  rootSize : Nat := defaultRootSize
  lenient : Bool := false
  outline : Bool := false
  json : Bool := false
  verbose : Bool := false
  deriving DecidableEq, Repr

/-- What the arguments amount to. -/
inductive Request where
  | process (options : Options)
  | version
  | help
  deriving DecidableEq, Repr

/-- Why arguments are refused. -/
inductive UsageError where
  | unknown (arg : String)
  | repeated (name : String)
  | unwantedValue (name : String)
  | missingValue (name : String)
  | invalidValue (name value : String)
  | missingFile
  deriving DecidableEq, Repr

/-- The text of the message. -/
def UsageError.message : UsageError → String
  | unknown arg => "error: unexpected argument '" ++ arg ++ "' found\n"
  | repeated name => "error: '" ++ name ++ "' cannot be used multiple times\n"
  | unwantedValue name => "error: '" ++ name ++ "' takes no value\n"
  | missingValue name => "error: '" ++ name ++ "' needs a value\n"
  | invalidValue name value => "error: invalid value '" ++ value ++ "' for '" ++ name ++ "'\n"
  | missingFile => "error: a file is required\n"

/-- Options without a value. -/
inductive Flag where
  | minimize
  | pxToRem
  | lenient
  | outline
  | json
  | verbose
  deriving DecidableEq, Repr

/-- Options with a value. -/
inductive Setting where
  | output
  | rootSize
  deriving DecidableEq, Repr

/-- What an option is. -/
inductive Switch where
  | flag (flag : Flag)
  | setting (setting : Setting)
  | version
  | help
  deriving DecidableEq, Repr

/-- Options with a long name. -/
def Switch.ofName? : String → Option Switch
  | "output" => some (.setting .output)
  | "minimize" => some (.flag .minimize)
  | "px2rem" => some (.flag .pxToRem)
  | "root-value" => some (.setting .rootSize)
  | "ignore-errors" => some (.flag .lenient)
  | "dump-ast" => some (.flag .outline)
  | "json" => some (.flag .json)
  | "verbose" => some (.flag .verbose)
  | "version" => some .version
  | "help" => some .help
  | _ => none

/-- Options with a letter. -/
def Switch.ofLetter? : Char → Option Switch
  | 'o' => some (.setting .output)
  | 'v' => some (.flag .verbose)
  | 'V' => some .version
  | 'h' => some .help
  | _ => none

/-- A whole number with an optional sign. -/
def readInteger? : List Char → Option Int
  | '-' :: digits => (readNatural? digits).map fun n => -(n : Int)
  | '+' :: digits => (readNatural? digits).map fun n => (n : Int)
  | digits => (readNatural? digits).map fun n => (n : Int)
where
  readNatural? (digits : List Char) : Option Nat :=
    if !digits.isEmpty && digits.all Char.isDigit then some (Nat.ofDigitChars 10 digits 0) else none

/-- A root size is a number of 32 bits without a sign. -/
def readRootSize? (value : String) : Option Nat := do
  let n ← readInteger? value.toList
  if 0 ≤ n ∧ n < UInt32.size then some n.toNat else none

/-- The arguments read so far. -/
structure Arguments where
  file : Option String := none
  output : Option String := none
  rootSize : Option Nat := none
  flags : List Flag := []
  /-- An option that takes the next argument for its value, and how it was written. -/
  waiting : Option (Setting × String) := none
  /-- Only files follow. -/
  onlyFiles : Bool := false
  deriving DecidableEq, Repr

namespace Arguments

/-- One more file; there is only one. -/
def addFile (a : Arguments) (arg : String) : Except UsageError Arguments :=
  if a.file.isSome then .error (.unknown arg)
  else if arg.isEmpty then .error (.invalidValue "FILE" arg)
  else .ok { a with file := some arg }

/-- One more flag. -/
def addFlag (a : Arguments) (flag : Flag) (name : String) : Except UsageError Arguments :=
  if a.flags.contains flag then .error (.repeated name) else .ok { a with flags := flag :: a.flags }

/-- The value of an option. -/
def set (a : Arguments) (setting : Setting) (name value : String) : Except UsageError Arguments :=
  match setting with
  | .output =>
    if a.output.isSome then .error (.repeated name)
    else if value.isEmpty then .error (.invalidValue name value)
    else .ok { a with output := some value }
  | .rootSize =>
    if a.rootSize.isSome then .error (.repeated name)
    else
      match readRootSize? value with
      | some n => .ok { a with rootSize := some n }
      | none => .error (.invalidValue name value)

/-- Either the arguments so far, or a request that needs no more of them. -/
abbrev Progress := Except UsageError (Request ⊕ Arguments)

/-- Letters behind one dash.  A letter with a value takes the others for it. -/
def addLetters (a : Arguments) : List Char → Progress
  | [] => .ok (.inr a)
  | c :: cs =>
    let name := String.ofList ['-', c]
    match Switch.ofLetter? c with
    | none => .error (.unknown name)
    | some .version => .ok (.inl .version)
    | some .help => .ok (.inl .help)
    | some (.flag flag) => do (← a.addFlag flag name).addLetters cs
    | some (.setting setting) =>
      match cs with
      | [] => .ok (.inr { a with waiting := some (setting, name) })
      | '=' :: value => do return .inr (← a.set setting name (String.ofList value))
      | value => do return .inr (← a.set setting name (String.ofList value))

/-- An option by its long name, with the value attached to it, if there is one. -/
def addNamed (a : Arguments) (name : String) (value? : Option String) : Progress :=
  let written := "--" ++ name
  match Switch.ofName? name, value? with
  | none, _ => .error (.unknown written)
  | some (.setting setting), some value => do return .inr (← a.set setting written value)
  | some (.setting setting), none => .ok (.inr { a with waiting := some (setting, written) })
  | some _, some _ => .error (.unwantedValue written)
  | some .version, none => .ok (.inl .version)
  | some .help, none => .ok (.inl .help)
  | some (.flag flag), none => do return .inr (← a.addFlag flag written)

/-- **One argument.** -/
def add (a : Arguments) (arg : String) : Progress :=
  match a.waiting, arg.toList with
  | some (_, name), '-' :: _ :: _ => .error (.missingValue name)
  | some (setting, name), _ => do return .inr (← { a with waiting := none }.set setting name arg)
  | none, cs =>
    if a.onlyFiles then do return .inr (← a.addFile arg)
    else
      match cs with
      | ['-', '-'] => .ok (.inr { a with onlyFiles := true })
      | '-' :: '-' :: named =>
        let name := named.takeWhile (· != '=')
        let value? := (named.drop name.length).tail?.map String.ofList
        a.addNamed (String.ofList name) value?
      | '-' :: letter :: letters => a.addLetters (letter :: letters)
      | _ => do return .inr (← a.addFile arg)

/-- What all arguments amount to. -/
def finish (a : Arguments) : Except UsageError Request :=
  match a.waiting, a.file with
  | some (_, name), _ => .error (.missingValue name)
  | none, none => .error .missingFile
  | none, some file =>
    .ok <| .process
      { input := file
        output := a.output
        minimize := a.flags.contains .minimize
        pxToRem := a.flags.contains .pxToRem
        rootSize := a.rootSize.getD defaultRootSize
        lenient := a.flags.contains .lenient
        outline := a.flags.contains .outline
        json := a.flags.contains .json
        verbose := a.flags.contains .verbose }

/-- Reads arguments from left to right. -/
def read (a : Arguments) : List String → Except UsageError Request
  | [] => a.finish
  | arg :: args =>
    match a.add arg with
    | .error e => .error e
    | .ok (.inl request) => .ok request
    | .ok (.inr a) => a.read args

end Arguments

/-- **What the arguments of the command amount to.** -/
def Request.parse (args : List String) : Except UsageError Request := Arguments.read {} args

end LosslessCss.Command
