import Typewright.Description.Diagnostic
import Typewright.Edn.Form

/-!
# Sections of a form

A form such as `(class :name A :properties [...])` is a head followed by keywords with their values. Of several
values for one keyword the first counts, and a value that was left empty counts as missing.
-/

namespace Typewright

/-- Keywords with their values. -/
abbrev Sections := List (Bytes × Edn.Form)

def Sections.get? (s : Sections) (key : String) : Option Edn.Form :=
  (s.lookup (Bytes.ascii key)).filter Edn.Form.isPresent

/-- The position of a form, or another one if its place was left empty. -/
def Edn.Form.posOr (f : Edn.Form) (other : Position) : Position := if f.isPresent then f.pos else other

/-- The sections that some items behind a head make. `pos` is where the whole form stands. -/
def sectionsOf (pos : Position) : List Edn.Form → Except Problem Sections
  | [] => .ok []
  | .atom p (.keyword key) :: rest =>
    match rest with
    | [] => .error ⟨.missingValue key, p⟩
    | value :: rest => (sectionsOf pos rest).map fun s => (key, value) :: s
  | f :: _ => .error ⟨.expectedKeyword f.text, f.posOr pos⟩

def Edn.Form.sections : Edn.Form → Except Problem Sections
  | .seq pos .round (_ :: items) => sectionsOf pos items
  | _ => .ok []

/-- The results among several, and the problems among them. -/
def gather (f : α → Except Problem β) : List α → List β × List Problem
  | [] => ([], [])
  | a :: l =>
    let (bs, ps) := gather f l
    match f a with
    | .ok b => (b :: bs, ps)
    | .error p => (bs, p :: ps)

end Typewright
