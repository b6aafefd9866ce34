import Typewright.Description.Json
import Typewright.Folder
import Typewright.Module.Render

/-!
# The command line

A run reads a description from a file or from standard input and writes the module to a file or to standard output.
Files and streams are values here: a run says what it prints, what it writes and with which code it ends.

* `Job`, `CommandLine`, `parseArgs`: what the arguments ask for.
* `Job.compile`: from the source of a description to the text of a module.
* `Invocation`, `Outcome`, `Invocation.run`: a whole run.
* `Folder.invocation`, `Folder.settle`: a run whose files are those of a folder.
-/

namespace Typewright

/-- What to read, where to write, and with which options. An empty output is standard output. -/
structure Job where
  options : Options
  input : Bytes
  output : Bytes
  deriving DecidableEq, Repr

/-- What the arguments ask for. -/
inductive CommandLine where
  | help
  /-- The arguments make no sense. -/
  | usage
  | unknownOption (argument : Bytes)
  | job (j : Job)
  deriving DecidableEq, Repr

def Bytes.startsWith (s front : Bytes) : Bool := front.isPrefixOf s

/-- Options that the argument `--name` sets, if it does. -/
def Options.setByArgument? (o : Options) (a : Bytes) : Option Options :=
  if a.startsWith (Bytes.ascii "--") then o.set? (a.drop 2) true else none

/-- Reads the arguments one by one, given what the ones before have set. -/
def parseArgs (j : Job) : List Bytes → CommandLine
  | [] => if j.input.isEmpty then .usage else .job j
  | a :: rest =>
    if a = Bytes.ascii "--comment" then
      match rest with
      | [] => .usage
      | c :: rest => parseArgs { j with options := { j.options with comments := j.options.comments ++ [c] } } rest
    else if a = Bytes.ascii "-o" then
      match rest with
      | [] => .usage
      | file :: rest => parseArgs { j with output := file } rest
    else if a = Bytes.ascii "-h" ∨ a = Bytes.ascii "--help" then .help
    else
      match j.options.setByArgument? a with
      | some o => parseArgs { j with options := o } rest
      | none =>
        if 1 < a.length ∧ a.startsWith (Bytes.ascii "-") then .unknownOption a
        else if j.input.isEmpty then parseArgs { j with input := a } rest
        else .usage

/-! ## Texts -/

def usageText : Bytes :=
  Bytes.ascii "usage: pyemitc [--<option>]... [--comment TEXT]... [-o FILE] <graph.edn | ->" ++ [Bytes.lineFeed]

def helpText : Bytes :=
  let t := Target.python
  usageText ++ Bytes.ascii "target: " ++ t.displayName ++ Bytes.ascii " (." ++ t.extension ++ Bytes.ascii ")"
    ++ [Bytes.lineFeed]
    ++ t.options.flatMap fun o =>
      Bytes.ascii "  --" ++ o.name ++ Bytes.ascii "  " ++ o.description ++ Bytes.ascii " (default "
        ++ Bytes.ascii (if o.initial then "true" else "false") ++ Bytes.ascii ")" ++ [Bytes.lineFeed]

/-! ## Compiling -/

/-- What the error stream shows, and the text of the module or the code to end with. -/
structure Compiled where
  log : Bytes
  result : Except Nat Bytes

def ReadResult.log (env : Environment) (input : Bytes) (r : ReadResult) : Bytes :=
  env.traced r.trace ++ env.reportLine r.report ++ r.report.errors.flatMap (Diagnostic.lines input "error")
    ++ r.report.warnings.flatMap (Diagnostic.lines input "warning")

/-- From the source of a description to the text of a module. The comments of the description come before those of
the options. -/
def Job.compile (u : CharacterData) (env : Environment) (j : Job) (source : Bytes) : Compiled :=
  match readSource env.suggests .empty source with
  | .error e =>
    ⟨j.input ++ Bytes.byte ':' :: e.pos.text ++ Bytes.ascii ": error: " ++ e.message ++ [Bytes.lineFeed], .error 1⟩
  | .ok r =>
    let log := r.log env j.input
    if r.success then
      let rendering := r.graph.render u { j.options with comments := r.comments ++ j.options.comments }
      let log := log ++ env.traced rendering.trace
      match rendering.result with
      | .ok lines => ⟨log, .ok (sourceOf lines)⟩
      | .error e =>
        ⟨log ++ Bytes.ascii "render error: " ++ e.message?.getD [] ++ [Bytes.lineFeed], .error 3⟩
    else ⟨log, .error 1⟩

/-! ## Running -/

/-- Everything that a run depends on. -/
structure Invocation where
  characters : CharacterData
  args : List Bytes
  env : Environment
  stdin : Bytes
  /-- The content of a file, if it can be opened. -/
  contents : Bytes → Option Bytes
  /-- What comes of writing a text to a file. -/
  write : Bytes → Bytes → Writing

/-- What a run does. -/
structure Outcome where
  exit : Nat
  stdout : Bytes
  stderr : Bytes
  /-- A file that was opened for writing, and its content then. -/
  written : Option (Bytes × Bytes)
  deriving DecidableEq, Repr

namespace Invocation

def options (i : Invocation) : Options := Options.default.detect i.env

/-- What the arguments ask for. An argument ends before a NUL byte. -/
def command (i : Invocation) : CommandLine := parseArgs ⟨i.options, [], []⟩ (i.args.map Bytes.untilNul)

/-- The source that an input names; `-` is standard input. -/
def source? (i : Invocation) (input : Bytes) : Option Bytes :=
  if input = Bytes.ascii "-" then some i.stdin else i.contents input

def runJob (i : Invocation) (j : Job) : Outcome :=
  match i.source? j.input with
  | none => ⟨2, [], Bytes.ascii "failed to read " ++ j.input ++ [Bytes.lineFeed], none⟩
  | some source =>
    let compiled := j.compile i.characters i.env source
    match compiled.result with
    | .error code => ⟨code, [], compiled.log, none⟩
    | .ok text =>
      if j.output.isEmpty then ⟨0, text, compiled.log, none⟩
      else
        match i.write j.output text with
        | .complete => ⟨0, [], compiled.log, some (j.output, text)⟩
        | .refused =>
          ⟨2, [], compiled.log ++ Bytes.ascii "failed to open " ++ j.output ++ Bytes.ascii " for writing"
            ++ [Bytes.lineFeed], none⟩
        | .failed false kept => ⟨0, [], compiled.log, some (j.output, kept)⟩
        | .failed true kept =>
          ⟨2, [], compiled.log ++ Bytes.ascii "failed to write " ++ j.output ++ [Bytes.lineFeed],
            some (j.output, kept)⟩

def run (i : Invocation) : Outcome :=
  let outcome : Outcome := match i.command with
    | .help => ⟨0, helpText, [], none⟩
    | .usage => ⟨2, [], usageText, none⟩
    | .unknownOption a => ⟨2, [], Bytes.ascii "unknown option: " ++ a ++ [Bytes.lineFeed] ++ usageText, none⟩
    | .job j => i.runJob j
  { outcome with stderr := i.env.traced [.options i.options] ++ outcome.stderr }

end Invocation

/-! ## Running in a folder -/

namespace Folder

/-- An invocation that finds its files in a folder. -/
def invocation (w : Folder) (u : CharacterData) (buffered : Nat) (args : List Bytes) (env : Environment)
    (stdin : Bytes) : Invocation :=
  ⟨u, args, env, stdin, w.contents? stdin, w.write buffered⟩

/-- An outcome with what was written put where it belongs: on a stream, or in a file. The second part holds the file
that is new or changed. -/
def settle (w : Folder) (o : Outcome) : Outcome × List (Bytes × Bytes) :=
  match o.written with
  | none => (o, [])
  | some (path, content) =>
    match w.find path with
    | .device .standardOutput => ({ o with stdout := o.stdout ++ content }, [])
    | .device .standardError => ({ o with stderr := o.stderr ++ content }, [])
    | .file names => (o, if w.files.lookup names = some content then [] else [(Bytes.join [slash] names, content)])
    | .vacant names => (o, [(Bytes.join [slash] names, content)])
    | _ => (o, [])

end Folder

end Typewright
