import Typewright.Description.Diagnostic
import Typewright.Options

/-!
# Diagnostics as JSON

`Report.json` writes a report as one compact object. Strings keep their bytes apart from quotation marks,
backslashes and control characters, which are escaped.
-/

namespace Typewright

namespace JsonText

def hexDigit (n : Nat) : UInt8 := (if n < 10 then 48 + n else 55 + n).toUInt8

/-- A byte inside a JSON string. -/
def escape (b : UInt8) : Bytes :=
  if b = Bytes.quote then [Bytes.backslash, Bytes.quote]
  else if b = Bytes.backslash then [Bytes.backslash, Bytes.backslash]
  else if b = 10 then [Bytes.backslash, Bytes.byte 'n']
  else if b = 13 then [Bytes.backslash, Bytes.byte 'r']
  else if b = 9 then [Bytes.backslash, Bytes.byte 't']
  else if b < 32 then
    Bytes.backslash :: Bytes.ascii "u00" ++ [hexDigit (b.toNat / 16), hexDigit (b.toNat % 16)]
  else [b]

def string (s : Bytes) : Bytes := Bytes.quoted (s.flatMap escape)

def object (members : List (String × Bytes)) : Bytes :=
  123 :: Bytes.join (Bytes.ascii ",")
    (members.map fun (key, value) => Bytes.quoted (Bytes.ascii key) ++ Bytes.byte ':' :: value) ++ [125]

def array (items : List Bytes) : Bytes := Bytes.byte '[' :: Bytes.join (Bytes.ascii ",") items ++ [Bytes.byte ']']

end JsonText

def Note.json (n : Note) : Bytes :=
  JsonText.object [("message", JsonText.string n.message), ("line", Bytes.decimalInt n.pos.line.toInt),
    ("col", Bytes.decimalInt n.pos.column.toInt)]

def Diagnostic.json (d : Diagnostic) : Bytes :=
  JsonText.object [("code", JsonText.string d.code), ("message", JsonText.string d.message),
    ("hint", JsonText.string d.hint), ("line", Bytes.decimalInt d.pos.line.toInt),
    ("col", Bytes.decimalInt d.pos.column.toInt), ("notes", JsonText.array (d.notes.map Note.json))]

def Report.json (r : Report) : Bytes :=
  JsonText.object [("success", Bytes.ascii (if r.success then "true" else "false")),
    ("errors", JsonText.array (r.errors.map Diagnostic.json)),
    ("warnings", JsonText.array (r.warnings.map Diagnostic.json))]

/-- The line that shows a report as JSON, if the environment asks for it. -/
def Environment.reportLine (env : Environment) (r : Report) : Bytes :=
  if env.jsonDiagnostics then r.json ++ [Bytes.lineFeed] else []

end Typewright
