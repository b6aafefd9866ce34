import Typewright.Text.Bytes

/-!
# Options

* `Options`: what a rendering may vary.
* `Environment`: the variables that the program looks at; `flag?` reads one as a truth value.
* `Options.detect`, `Options.set?`: options from the environment and by name.
* `Target`: the description of the language that is written.
-/

namespace Typewright

/-- What a rendering may vary. -/
structure Options where
  /-- Unions of several members become named declarations instead of being written in place. -/
  declareUnions : Bool
  /-- Identifiers consist of ASCII characters only. -/
  asciiIdentifiers : Bool
  /-- Comments at the top of the module. -/
  comments : List Bytes
  deriving DecidableEq, Repr

/-- Nothing is set. -/
def Options.default : Options := ⟨false, false, []⟩

/-! ## Environment -/

/-- The variables that are set, by name. -/
abbrev Environment := List (Bytes × Bytes)

namespace Environment

def get? (env : Environment) (name : String) : Option Bytes :=
  (env.lookup (Bytes.ascii name)).map Bytes.untilNul

/-- A variable as a truth value: unset or empty it says nothing, and it says yes if it starts like `1`,
`true` or `yes`. -/
def flag? (env : Environment) (name : String) : Option Bool :=
  match env.get? name with
  | none | some [] => none
  | some (b :: _) => some ((Bytes.ascii "1tTyY").contains b)

def enabled (env : Environment) (name : String) : Bool := (env.flag? name).getD false

/-- Whether the value of a variable starts with a character. -/
def startsWith (env : Environment) (name : String) (c : Char) : Bool :=
  match env.get? name with
  | some (b :: _) => b == Bytes.byte c
  | _ => false

/-- Whether steps are traced on the error stream. -/
def debug (env : Environment) : Bool := env.enabled "PYEMIT_DEBUG"

/-- Whether diagnostics are also printed as JSON. -/
def jsonDiagnostics (env : Environment) : Bool := env.startsWith "PYEMIT_DIAG_JSON" '1'

/-- Whether unknown names are answered with similar ones. -/
def suggests (env : Environment) : Bool := !env.startsWith "PYEMIT_SUGGEST" '0'

end Environment

/-! ## Setting options -/

namespace Options

/-- Options overridden by the environment. -/
def detect (base : Options) (env : Environment) : Options :=
  { base with
    declareUnions := (env.flag? "PYEMIT_DECLARE_UNIONS").getD base.declareUnions
    asciiIdentifiers := (env.flag? "PYEMIT_ASCII_IDENTIFIERS").getD base.asciiIdentifiers }

/-- Options with the one of a given name set, if there is one. -/
def set? (o : Options) (name : Bytes) (value : Bool) : Option Options :=
  if name = Bytes.ascii "declare-unions" then some { o with declareUnions := value }
  else if name = Bytes.ascii "ascii-identifiers" then some { o with asciiIdentifiers := value }
  else none

end Options

/-! ## The target -/

/-- An option as it is shown to users. -/
structure OptionInfo where
  name : Bytes
  description : Bytes
  initial : Bool
  deriving DecidableEq, Repr

/-- The description of a target language. -/
structure Target where
  displayName : Bytes
  aliases : List Bytes
  extension : Bytes
  options : List OptionInfo
  deriving DecidableEq, Repr

/-- Python, the language that modules are written in. -/
def Target.python : Target where
  displayName := Bytes.ascii "Python"
  aliases := [Bytes.ascii "python", Bytes.ascii "py"]
  extension := Bytes.ascii "py"
  options := [
    ⟨Bytes.ascii "declare-unions", Bytes.ascii "Declare unions as named types", false⟩,
    ⟨Bytes.ascii "ascii-identifiers", Bytes.ascii "Restrict identifiers to ASCII", false⟩]

end Typewright
