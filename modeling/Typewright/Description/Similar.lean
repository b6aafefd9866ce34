import Typewright.Graph.Basic

/-!
# Similar names

An unknown name is answered with the known names at an edit distance of two or less.

* `editDistance`: the least number of insertions, deletions and replacements of bytes.
* `similarNames`: at most five known names near another.
-/

namespace Typewright

/-- The rest of a row of distances. `row` is the part of the row above from the left neighbour on, and `left`
the distance computed last. -/
def rowTail (a : UInt8) : Bytes → List Nat → Nat → List Nat
  | b :: t, p :: q :: row, left =>
    let d := min (min (q + 1) (left + 1)) (p + if a = b then 0 else 1)
    d :: rowTail a t (q :: row) d
  | _, _, _ => []

/-- The distances of a text that is one byte `a` longer from the beginnings of `t`, given those of the text
without it. -/
def nextRow (a : UInt8) (t : Bytes) : List Nat → List Nat
  | [] => []
  | p :: row => (p + 1) :: rowTail a t (p :: row) (p + 1)

/-- The least number of insertions, deletions and replacements that turn one text into another. -/
def editDistance (s t : Bytes) : Nat :=
  (s.foldl (fun row a => nextRow a t row) (List.range (t.length + 1))).getLastD 0

/-- The names of the primitive types in the order of their bytes. -/
def primitiveNames : List Bytes :=
  ([.any, .bool, .date, .dateTime, .double, .integer, .none, .null, .string, .time] : List Primitive).map
    Primitive.name

/-- At most five names near another: declared ones in their order, then primitive ones. -/
def similarNames (declared : List Bytes) (name : Bytes) : List Bytes :=
  ((declared ++ primitiveNames).filter fun c => editDistance name c ≤ 2).take 5

end Typewright
