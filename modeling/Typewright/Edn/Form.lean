import Typewright.Edn.Token

/-!
# Forms of the notation

A form is an atom or a bracketed sequence of forms, with the position where it starts.

* `Form.text`: the canonical spelling of a form.
* `parse`: the one form that a source spells, or the first error in it.
* `Form.head?`, `Form.name?`: what readers of forms look at.
-/

namespace Typewright.Edn

/-- A form. The items of a map alternate between keys and values. -/
inductive Form where
  /-- A place that was left empty; no source spells it. -/
  | absent
  | atom (pos : Position) (a : Atom)
  | seq (pos : Position) (bracket : Bracket) (items : List Form)

namespace Form

def pos : Form → Position
  | .absent => .nowhere
  | .atom p _ => p
  | .seq p _ _ => p

mutual

/-- The canonical spelling: one blank between items, none inside brackets. -/
def text : Form → Bytes
  | .absent => Atom.text .nil
  | .atom _ a => a.text
  | .seq _ b items => b.opener :: Bytes.join [32] (texts items) ++ [b.closer]

def texts : List Form → List Bytes
  | [] => []
  | f :: fs => f.text :: texts fs

end

def head? : Form → Option Bytes
  | .seq _ .round (.atom _ (.symbol s) :: _) => some s
  | _ => none

/-- The text of a symbol or a string. -/
def name? : Form → Option Bytes
  | .atom _ (.symbol s) => some s
  | .atom _ (.string s) => some s
  | _ => none

def vector? : Form → Option (List Form)
  | .seq _ .square items => some items
  | _ => none

/-- Whether the place is not empty. -/
def isPresent : Form → Bool
  | .absent => false
  | _ => true

end Form

/-! ## Parsing -/

/-- A collection that is still open: its bracket, where that stands, and the items so far, the last
one first. -/
structure OpenSeq where
  pos : Position
  bracket : Bracket
  items : List Form

/-- The collection that closing a bracket completes. -/
def OpenSeq.close (f : OpenSeq) : Except SyntaxError Form :=
  if f.bracket = .curly ∧ f.items.length % 2 = 1 then .error ⟨.oddMap, f.pos⟩
  else .ok (.seq f.pos f.bracket f.items.reverse)

/-- Reads tokens until the outermost form is complete, and returns it with the tokens behind it.
`stack` holds the open collections, the innermost first. -/
def build (finish : Position) : List OpenSeq → List Token → Except SyntaxError (Form × List Token)
  | [], [] => .error ⟨.endOfInput, finish⟩
  | f :: _, [] => .error ⟨.unterminatedCollection, f.pos⟩
  | stack, t :: rest =>
    match t.kind with
    | .broken e => .error e
    | .opening b => build finish (⟨t.pos, b, []⟩ :: stack) rest
    | .atom a =>
      match stack with
      | [] => .ok (.atom t.pos a, rest)
      | f :: stack => build finish ({ f with items := .atom t.pos a :: f.items } :: stack) rest
    | .closing b =>
      match stack with
      | [] => .error ⟨.unexpected b.closer, t.pos⟩
      | f :: stack =>
        if f.bracket = b then
          match f.close, stack with
          | .error e, _ => .error e
          | .ok form, [] => .ok (form, rest)
          | .ok form, g :: stack => build finish ({ g with items := form :: g.items } :: stack) rest
        else .error ⟨.unexpected b.closer, t.pos⟩

/-- The form that a source spells. -/
def parse (source : Bytes) : Except SyntaxError Form :=
  let finish := Position.start.after source
  match build finish [] (tokens finish (locate .start source)) with
  | .error e => .error e
  | .ok (form, []) => .ok form
  | .ok (_, t :: _) => .error ⟨.trailingText, t.pos⟩

end Typewright.Edn
