import LosslessCss.Command.Options
import LosslessCss.Program
import LosslessCss.Tree.Json
import LosslessCss.Tree.Outline

/-!
# The command that processes a sheet

Given options and a file, the command parses a style sheet and writes it back, to its output or to
another file.  With `--json` or `--dump-ast` it writes the tree instead; the first of the two wins,
and both win over an output file.
-/

namespace LosslessCss.Command

/-- Name and version. -/
def versionText : String := "cascadec 0.1.0\n"

/-- What the command can do. -/
def helpText : String :=
  "Parses a stylesheet and writes it back, optionally minimized\n\n" ++
  "Usage: cascadec [OPTIONS] <FILE>\n\n" ++
  "Options:\n" ++
  "  -o, --output <FILE>    Write to a file\n" ++
  "      --minimize         Write without comments and spare blank space\n" ++
  "      --px2rem           Write pixel lengths in root units\n" ++
  "      --root-value <PX>  Pixels per root unit [default: 16]\n" ++
  "      --ignore-errors    Keep what does not parse\n" ++
  "      --dump-ast         Write the outline of the tree\n" ++
  "      --json             Write the tree as JSON\n" ++
  "  -v, --verbose          Tell what was written\n" ++
  "  -h, --help             Print help\n" ++
  "  -V, --version          Print version\n"

/-- The job that the options describe. -/
def Options.job (o : Options) : Job where
  file := o.input
  style := { minimize := o.minimize, pxToRem := o.pxToRem, rootSize := o.rootSize }
  lenient := o.lenient

/-- What is told about a file that was written. -/
def writtenMessage (path : String) (done : Processed) : String :=
  s!"Wrote {done.css.utf8ByteSize} bytes to {path} ({done.stats.rules} rules, " ++
    s!"{done.stats.declarations} declarations)\n"

/-- Writes what was asked for. -/
def Options.deliver (o : Options) (done : Processed) : Program :=
  if o.json then .succeed (done.tree.toJson.pretty ++ "\n")
  else if o.outline then .succeed done.tree.outlineText
  else
    match o.output with
    | none => .succeed done.css
    | some path =>
      .write path done.css fun
        | .ok () => .exit ⟨0, "", if o.verbose then writtenMessage path done else ""⟩
        | .error e => .fail (Report.failure ("failed to write " ++ path) [e.message])

/-- **The command**, given its arguments.  Arguments that are refused end it with the code 2. -/
def format (args : List String) : Program :=
  match Request.parse args with
  | .error e => .exit ⟨2, "", e.message⟩
  | .ok .version => .succeed versionText
  | .ok .help => .succeed helpText
  | .ok (.process o) =>
    .readText o.input fun contents =>
      match o.job.processFile contents with
      | .ok done => o.deliver done
      | .error e => .fail (Report.failure ("failed to process " ++ o.input) e.chain)

end LosslessCss.Command
