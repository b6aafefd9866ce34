import Typewright.Name.Word

/-!
# Styling words into names

* `legalize`: drops the characters that a name may not hold.
* `WordStyle`: the ways to case a word.
* `NameStyle`, `combine`: joins styled words into a name. A name without words is called `empty`; `the` is
  put in front of a name that would start with a character that may not start one.
-/

namespace Typewright

/-- A text without the characters outside a class. -/
def legalize (allowed : CodePoint → Bool) (s : Bytes) : Bytes :=
  Utf8.encode ((Utf8.decode s).filter allowed)

/-- A way to case the letters of a word. -/
inductive WordStyle where
  | firstUpper
  | allUpper
  | allLower
  | unchanged
  deriving DecidableEq, Repr

def WordStyle.apply (u : CharacterData) (style : WordStyle) (s : Bytes) : Bytes :=
  match style with
  | .unchanged => s
  | .allUpper => Utf8.encode ((Utf8.decode s).map u.toUpper)
  | .allLower => Utf8.encode ((Utf8.decode s).map u.toLower)
  | .firstUpper =>
    match Utf8.decode s with
    | [] => []
    | c :: cs => Utf8.encode (u.toUpper c :: cs.map u.toLower)

/-- How the words of a name are styled, and what stands between them. -/
structure NameStyle where
  firstWord : WordStyle
  restWords : WordStyle
  firstAcronym : WordStyle
  restAcronyms : WordStyle
  separator : Bytes
  deriving DecidableEq, Repr

namespace NameStyle

def first (u : CharacterData) (style : NameStyle) (w : Word) : Bytes :=
  (if w.isAcronym then style.firstAcronym else style.firstWord).apply u w.text

def later (u : CharacterData) (style : NameStyle) (w : Word) : Bytes :=
  (if w.isAcronym then style.restAcronyms else style.restWords).apply u w.text

end NameStyle

/-- The words that are left when forbidden characters are dropped, the first of them apart. If nothing
is left, the word `empty` takes its place. -/
def legalWords (allowed : CodePoint → Bool) (words : List Word) : Word × List Word :=
  match (words.map fun w => { w with text := legalize allowed w.text }).filter fun w => !w.text.isEmpty with
  | [] => (⟨legalize allowed (Bytes.ascii "empty"), .allLower⟩, [])
  | w :: ws => (w, ws)

/-- Whether a text starts with a character of a class. -/
def startsWith (start : CodePoint → Bool) (s : Bytes) : Bool :=
  match Utf8.decode s with
  | [] => false
  | c :: _ => start c

/-- The name made of some words: characters must be `allowed`, and the first one in `start`. -/
def combine (u : CharacterData) (style : NameStyle) (allowed start : CodePoint → Bool) (words : List Word) : Bytes :=
  let (w, ws) := legalWords allowed words
  let front := style.first u w
  if startsWith start front then
    Bytes.join style.separator (front :: ws.map (style.later u))
  else
    let the := style.firstWord.apply u (legalize allowed (Bytes.ascii "the"))
    Bytes.join style.separator (the :: (w :: ws).map (style.later u))

end Typewright
