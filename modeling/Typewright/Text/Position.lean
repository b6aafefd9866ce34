import Typewright.Text.Bytes

/-!
# Positions in a source

A position is a line and a column, both counted from one in 32 bits; columns count bytes, and a line feed ends a
line. `locate` puts its position beside each byte of a source, so that a reader of the source takes
positions from the bytes it reads.
-/

namespace Typewright

structure Position where
  line : Int32
  column : Int32
  deriving DecidableEq, Repr

namespace Position

def start : Position := ⟨1, 1⟩

/-- The position of something that stands in no source. -/
def nowhere : Position := ⟨-1, -1⟩

def next (p : Position) (b : UInt8) : Position :=
  if b = Bytes.lineFeed then ⟨p.line + 1, 1⟩ else ⟨p.line, p.column + 1⟩

def after (p : Position) (s : Bytes) : Position := s.foldl next p

/-- A position as `line:column`. -/
def text (p : Position) : Bytes :=
  Bytes.decimalInt p.line.toInt ++ Bytes.byte ':' :: Bytes.decimalInt p.column.toInt

end Position

/-- A byte of a source with its position. -/
structure Located where
  byte : UInt8
  pos : Position
  deriving DecidableEq, Repr

/-- The bytes of a text that starts at `p`, each with its position. -/
def locate (p : Position) : Bytes → List Located
  | [] => []
  | b :: s => ⟨b, p⟩ :: locate (p.next b) s

def Located.bytes (l : List Located) : Bytes := l.map Located.byte

@[simp]
theorem bytes_locate (p : Position) (s : Bytes) : Located.bytes (locate p s) = s := by
  induction s generalizing p with
  | nil => rfl
  | cons b s ih => simpa [Located.bytes, locate] using ih (p.next b)

end Typewright
