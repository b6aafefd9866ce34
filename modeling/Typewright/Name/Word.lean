import Typewright.Text.Character

/-!
# Words of a label

A label such as `XMLHttpRequest2` or `favorite color` falls into words: letters and digits make words,
everything else separates them, and inside a run of letters and digits a change of kind starts a new word.
A combining mark stays with the character before it.

* `Casing`, `casingOf`: how the letters of a text are cased.
* `Cluster`, `clusters`: characters together with their marks.
* `segments`, `splitWords`: the words of a label.

Which characters are letters, and of which case, is said by a character database `u`.
-/

namespace Typewright

/-- How the cased letters of a text are written. -/
inductive Casing where
  | allUpper
  | allLower
  | capitalized
  | mixed
  | caseless
  deriving DecidableEq, Repr

/-- A word and how it was cased. -/
structure Word where
  text : Bytes
  casing : Casing
  deriving DecidableEq, Repr

/-- Words without small letters are styled as acronyms. -/
def Word.isAcronym (w : Word) : Bool := w.casing == .allUpper || w.casing == .caseless

/-- The casing of a text. A text is capitalized if its first cased letter is its only capital and it has
small letters too. -/
def casingOf (u : CharacterData) (cs : List CodePoint) : Casing :=
  match cs.filter fun c => u.isUpper c || u.isLower c with
  | [] => .caseless
  | first :: rest =>
    if (first :: rest).all u.isUpper then .allUpper
    else if (first :: rest).all u.isLower then .allLower
    else if u.isUpper first && !rest.any u.isUpper then .capitalized
    else .mixed

/-! ## Characters with their marks -/

/-- What a character is to the splitter. -/
inductive LetterKind where
  | upper
  | lower
  | caseless
  | digit
  | separator
  deriving DecidableEq, Repr

def letterKind (u : CharacterData) (c : CodePoint) : LetterKind :=
  match u.category c with
  | .upper | .title => .upper
  | .lower => .lower
  | .letter => .caseless
  | .digit => .digit
  | _ => .separator

/-- A character and the combining marks behind it. -/
structure Cluster where
  base : CodePoint
  marks : List CodePoint
  deriving DecidableEq, Repr

namespace Cluster

def codePoints (c : Cluster) : List CodePoint := c.base :: c.marks

/-- The kind of the base character. -/
def kind (u : CharacterData) (c : Cluster) : LetterKind := letterKind u c.base

end Cluster

section Splitting

variable (u : CharacterData)

/-- The clusters of a text; marks in front of the first character are dropped. -/
def clusters : List CodePoint → List Cluster
  | [] => []
  | c :: cs => if u.isMark c then clusters cs else ⟨c, cs.takeWhile u.isMark⟩ :: clusters cs

/-! ## Splitting -/

/-- The end of the run of clusters of kind `k` that starts at index `i`. -/
def runEnd (l : List Cluster) (k : LetterKind) (i : Nat) : Nat :=
  i + ((l.drop i).takeWhile fun c => c.kind u == k).length

/-- How many of the clusters in `rest` belong to the word that starts with `c`. Digits end a word. Of
several capitals in front of a small letter the last one starts the next word. -/
def tailSize (c : Cluster) (rest : List Cluster) : Nat :=
  match c.kind u with
  | .separator => 0
  | .digit => runEnd u rest .digit 0
  | .lower => runEnd u rest .digit (runEnd u rest .lower 0)
  | .caseless => runEnd u rest .digit (runEnd u rest .caseless 0)
  | .upper =>
    let capitals := runEnd u rest .upper 0
    if capitals = 0 then runEnd u rest .digit (runEnd u rest .lower 0)
    -- The last capital is left to the small letters behind it.
    else if (rest[capitals]?.map (Cluster.kind u)) = some .lower then capitals - 1
    else runEnd u rest .digit capitals

def segments : List Cluster → List (List Cluster)
  | [] => []
  | c :: rest =>
    if c.kind u = .separator then segments rest
    else (c :: rest.take (tailSize u c rest)) :: segments (rest.drop (tailSize u c rest))
termination_by l => l.length

def Word.ofClusters (l : List Cluster) : Word :=
  let cs := l.flatMap Cluster.codePoints
  ⟨Utf8.encode cs, casingOf u cs⟩

/-- The words of a label. -/
def splitWords (label : Bytes) : List Word :=
  (segments u (clusters u (Utf8.decode label))).map (Word.ofClusters u)

end Splitting

end Typewright
