import Typewright.Text.Bytes

/-!
# Sheets of lines

A sheet collects lines of text. Lines are indented by the current depth, empty lines never are, and a gap
of blank lines is only filled up to the size that is asked for.
-/

namespace Typewright

/-- Lines written so far, the current depth, and what a step of indentation consists of. -/
structure Sheet where
  lines : Array Bytes
  depth : Int
  indentation : Bytes
  deriving DecidableEq, Repr

namespace Sheet

def blank (indentation : Bytes) : Sheet := ⟨#[], 0, indentation⟩

def isEmpty (s : Sheet) : Bool := s.lines.isEmpty

def line (s : Sheet) (text : Bytes) : Sheet :=
  if text.isEmpty then { s with lines := s.lines.push [] }
  else { s with lines := s.lines.push ((List.replicate s.depth.toNat s.indentation).flatten ++ text) }

def writeLines (s : Sheet) (texts : List Bytes) : Sheet := texts.foldl line s

/-- How many lines at the end are empty. -/
def trailingBlanks (s : Sheet) : Nat := (s.lines.toList.reverse.takeWhile List.isEmpty).length

/-- Makes the gap at the end at least `n` lines wide; there is no gap in front of the first line. -/
def gap (s : Sheet) (n : Nat) : Sheet :=
  if s.isEmpty then s
  else { s with lines := s.lines ++ Array.replicate (n - s.trailingBlanks) [] }

def indent (s : Sheet) : Sheet := { s with depth := s.depth + 1 }

def dedent (s : Sheet) : Sheet := { s with depth := s.depth - 1 }

def putFirst (s : Sheet) (texts : List Bytes) : Sheet := { s with lines := texts.toArray ++ s.lines }

/-- The lines without the empty ones at the end. -/
def finish (s : Sheet) : List Bytes := (s.lines.toList.reverse.dropWhile List.isEmpty).reverse

end Sheet

/-- The lines of a text that line feeds separate; there is always at least one. -/
def splitLines (s : Bytes) : List Bytes := Bytes.split Bytes.lineFeed s

/-- Comments as lines that each start with a mark. -/
def commentLines (mark : Bytes) (comments : List Bytes) : List Bytes :=
  comments.flatMap fun c => (splitLines c).map (mark ++ ·)

/-- The source text that some lines make. -/
def sourceOf (lines : List Bytes) : Bytes := lines.flatMap (· ++ [Bytes.lineFeed])

end Typewright
