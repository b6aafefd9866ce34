import Typewright.Module.TypeExpr
import Typewright.Proofs.Name.Spelling

/-!
# Words in a line of a module

* `Mention` : a word of a text, and whether it stands between quotation marks;
* `Bytes.mentions` : the words of a text from left to right, read byte by byte;
* `TypeExpr.mentions` : the words that an expression is made of, read off its structure;
* `TypeExpr.mentions_text` : the two agree on the text of an expression, and also with bytes behind it
  (`TypeExpr.scan_text`).
-/

namespace Typewright

/-- A word of a text. -/
structure Mention where
  word : Bytes
  /-- Whether the word stands inside a string. -/
  quoted : Bool
  deriving DecidableEq, Repr

namespace Bytes

/-! ## Reading a text -/

/-- The word that ends here, if one has been read. -/
def ended (quoted : Bool) (word : Bytes) : List Mention := if word.isEmpty then [] else [⟨word, quoted⟩]

/-- The words of a text, where `word` has just been read and `quoted` says whether a string is open. -/
def scan (quoted : Bool) (word : Bytes) : Bytes → List Mention
  | [] => ended quoted word
  | b :: s =>
    if isNameByte b then scan quoted (word ++ [b]) s
    else ended quoted word ++ scan (if b = quote then !quoted else quoted) [] s

def mentions (s : Bytes) : List Mention := scan false [] s

/-- A text that does not go on with the word before it. -/
def Apart (s : Bytes) : Prop := ∀ b ∈ s.head?, isNameByte b = false

theorem apart_nil : Apart [] := fun _ h => by cases h

theorem apart_cons {b : UInt8} (h : isNameByte b = false) (s : Bytes) : Apart (b :: s) := by
  intro c hc
  cases hc
  exact h

theorem scan_nameBytes {n : Bytes} (hn : ∀ b ∈ n, isNameByte b = true) (q : Bool) (word s : Bytes) :
    scan q word (n ++ s) = scan q (word ++ n) s := by
  induction n generalizing word with
  | nil => rw [List.nil_append, List.append_nil]
  | cons b n ih =>
    rw [List.cons_append, scan, if_pos (hn b List.mem_cons_self), ih fun c hc => hn c (List.mem_cons_of_mem b hc),
      List.append_assoc, List.singleton_append]

/-- A name that is not continued is read as one word. -/
theorem scan_name {n s : Bytes} (hn : IsName n) (hs : Apart s) (q : Bool) :
    scan q [] (n ++ s) = ⟨n, q⟩ :: scan q [] s := by
  have hended : ended q n = [⟨n, q⟩] := by
    rw [ended, if_neg]
    rw [List.isEmpty_iff]
    exact hn.1
  rw [scan_nameBytes hn.2, List.nil_append]
  cases s with
  | nil => exact hended
  | cons b s =>
    have hb : ¬ isNameByte b = true := by rw [hs b rfl]; exact Bool.false_ne_true
    rw [scan, if_neg hb, hended, scan, if_neg hb]
    rfl

theorem scan_skip {b : UInt8} (hb : isNameByte b = false) (hq : b ≠ quote) (q : Bool) (s : Bytes) :
    scan q [] (b :: s) = scan q [] s := by
  rw [scan, hb, if_neg Bool.false_ne_true, if_neg hq]
  rfl

theorem scan_quote (q : Bool) (s : Bytes) : scan q [] (quote :: s) = scan (!q) [] s := rfl

/-- Without a quotation mark no word is quoted. -/
theorem quoted_eq_false_of_mem_scan {s : Bytes} (hs : quote ∉ s) (word : Bytes) :
    ∀ w ∈ scan false word s, w.quoted = false := by
  have hended : ∀ word : Bytes, ∀ w ∈ ended false word, w.quoted = false := by
    intro word w hw
    unfold ended at hw
    split at hw
    · cases hw
    · rw [List.mem_singleton.mp hw]
  induction s generalizing word with
  | nil => exact hended word
  | cons b s ih =>
    have hb : b ≠ quote := fun h => hs (h ▸ List.mem_cons_self)
    have hs : quote ∉ s := fun h => hs (List.mem_cons_of_mem b h)
    intro w hw
    rw [scan, if_neg hb] at hw
    split at hw
    · exact ih hs _ w hw
    · rcases List.mem_append.mp hw with hw | hw
      · exact hended word w hw
      · exact ih hs _ w hw

theorem quote_mem_of_mem_mentions {s word : Bytes} (h : ⟨word, true⟩ ∈ mentions s) : quote ∈ s := by
  by_contra hs
  cases quoted_eq_false_of_mem_scan hs [] _ h

end Bytes

theorem IsName.quote_not_mem {n : Bytes} (h : IsName n) : Bytes.quote ∉ n := by
  intro hq
  cases h.2 _ hq

/-! ## Reading an expression -/

theorem Builtin.isName_name (b : Builtin) : IsName b.name := by
  cases b <;> decide

namespace TypeExpr

open Bytes

mutual

def mentions : TypeExpr → List Mention
  | .builtin b => [⟨b.name, false⟩]
  | .list e => ⟨ascii "list", false⟩ :: e.mentions
  | .dict e => ⟨ascii "dict", false⟩ :: ⟨ascii "str", false⟩ :: e.mentions
  | .optional e => ⟨ascii "Optional", false⟩ :: e.mentions
  | .named name => [⟨name, false⟩]
  | .quoted name => [⟨name, true⟩]
  | .oneOf es => mentionsAll es

def mentionsAll : List TypeExpr → List Mention
  | [] => []
  | e :: es => e.mentions ++ mentionsAll es

end

theorem mem_mentionsAll {w : Mention} {es : List TypeExpr} : w ∈ mentionsAll es ↔ ∃ e ∈ es, w ∈ e.mentions := by
  induction es with
  | nil => simp [mentionsAll]
  | cons e es ih => simp [mentionsAll, ih]

theorem scan_bracketed {name s : Bytes} (hn : IsName name) :
    scan false [] (name ++ byte '[' :: s) = ⟨name, false⟩ :: scan false [] s := by
  rw [scan_name hn (apart_cons (by decide) _), scan_skip (by decide) (by decide)]

theorem apart_close (s : Bytes) : Apart (ascii "]" ++ s) := apart_cons (by decide) s

theorem scan_close (s : Bytes) : scan false [] (ascii "]" ++ s) = scan false [] s :=
  scan_skip (by decide) (by decide) false s

theorem apart_bar (s : Bytes) : Apart (ascii " | " ++ s) := apart_cons (by decide) _

theorem scan_bar (s : Bytes) : scan false [] (ascii " | " ++ s) = scan false [] s := rfl

mutual

/-- The words of an expression are read before what stands behind it. -/
theorem scan_text (e : TypeExpr) (he : ∀ w ∈ e.mentions, IsName w.word) {s : Bytes} (hs : Apart s) :
    scan false [] (e.text ++ s) = e.mentions ++ scan false [] s := by
  cases e with
  | builtin b => exact scan_name b.isName_name hs false
  | named n => exact scan_name (he _ List.mem_cons_self) hs false
  | quoted n =>
    have hn : IsName n := he _ List.mem_cons_self
    change scan false [] (quote :: n ++ [quote] ++ s) = _
    rw [List.append_assoc, List.cons_append, scan_quote, List.singleton_append,
      scan_name hn (apart_cons (by decide) s), scan_quote]
    rfl
  | list e =>
    rw [mentions] at he ⊢
    have hrest := scan_text e (fun w hw => he w (List.mem_cons_of_mem _ hw)) (apart_close s)
    calc scan false [] ((list e).text ++ s)
      _ = scan false [] (ascii "list" ++ byte '[' :: (e.text ++ (ascii "]" ++ s))) := by
        rw [text, List.append_assoc, List.append_assoc]
        rfl
      _ = ⟨ascii "list", false⟩ :: e.mentions ++ scan false [] s := by
        rw [scan_bracketed (he _ List.mem_cons_self), hrest, scan_close]
        rfl
  | dict e =>
    rw [mentions] at he ⊢
    have hrest := scan_text e (fun w hw => he w (List.mem_cons_of_mem _ (List.mem_cons_of_mem _ hw))) (apart_close s)
    calc scan false [] ((dict e).text ++ s)
      _ = scan false [] (ascii "dict" ++ byte '[' :: (ascii "str" ++ byte ',' :: byte ' ' ::
            (e.text ++ (ascii "]" ++ s)))) := by
        rw [text, List.append_assoc, List.append_assoc]
        rfl
      _ = ⟨ascii "dict", false⟩ :: ⟨ascii "str", false⟩ :: e.mentions ++ scan false [] s := by
        rw [scan_bracketed (he _ List.mem_cons_self),
          scan_name (he _ (List.mem_cons_of_mem _ List.mem_cons_self)) (apart_cons (by decide) _),
          scan_skip (by decide) (by decide), scan_skip (by decide) (by decide), hrest, scan_close]
        rfl
  | optional e =>
    rw [mentions] at he ⊢
    have hrest := scan_text e (fun w hw => he w (List.mem_cons_of_mem _ hw)) (apart_close s)
    calc scan false [] ((optional e).text ++ s)
      _ = scan false [] (ascii "Optional" ++ byte '[' :: (e.text ++ (ascii "]" ++ s))) := by
        rw [text, List.append_assoc, List.append_assoc]
        rfl
      _ = ⟨ascii "Optional", false⟩ :: e.mentions ++ scan false [] s := by
        rw [scan_bracketed (he _ List.mem_cons_self), hrest, scan_close]
        rfl
  | oneOf es =>
    rw [mentions] at he ⊢
    rw [text]
    exact scan_texts es he hs

theorem scan_texts (es : List TypeExpr) (hes : ∀ w ∈ mentionsAll es, IsName w.word) {s : Bytes} (hs : Apart s) :
    scan false [] (join (ascii " | ") (texts es) ++ s) = mentionsAll es ++ scan false [] s := by
  cases es with
  | nil => rfl
  | cons e es =>
    rw [mentionsAll] at hes ⊢
    have he : ∀ w ∈ e.mentions, IsName w.word := fun w hw => hes w (List.mem_append_left _ hw)
    have hes : ∀ w ∈ mentionsAll es, IsName w.word := fun w hw => hes w (List.mem_append_right _ hw)
    have hrest := scan_texts es hes hs
    cases es with
    | nil =>
      rw [texts, texts, join, mentionsAll, List.append_nil]
      exact scan_text e he hs
    | cons e' es =>
      rw [texts, texts, join, ← texts, List.append_assoc, List.append_assoc, List.append_assoc,
        scan_text e he (apart_bar _), scan_bar, hrest]

end

/-- **The text of an expression has the words that the expression is made of.** -/
theorem mentions_text {e : TypeExpr} (he : ∀ w ∈ e.mentions, IsName w.word) : Bytes.mentions e.text = e.mentions := by
  have hscan := scan_text e he apart_nil
  rwa [List.append_nil, show scan false [] [] = [] from rfl, List.append_nil] at hscan

mutual

/-- Only a quoted word brings quotation marks. -/
theorem quote_not_mem_text (e : TypeExpr) (he : ∀ w ∈ e.mentions, IsName w.word ∧ w.quoted = false) :
    quote ∉ e.text := by
  cases e with
  | builtin b => exact b.isName_name.quote_not_mem
  | named n => exact (he _ List.mem_cons_self).1.quote_not_mem
  | quoted n => cases (he _ List.mem_cons_self).2
  | list e =>
    rw [mentions] at he
    have hrest := quote_not_mem_text e fun w hw => he w (List.mem_cons_of_mem _ hw)
    simp only [text, List.mem_append, hrest, or_false]
    decide
  | dict e =>
    rw [mentions] at he
    have hrest := quote_not_mem_text e fun w hw => he w (List.mem_cons_of_mem _ (List.mem_cons_of_mem _ hw))
    simp only [text, List.mem_append, hrest, or_false]
    decide
  | optional e =>
    rw [mentions] at he
    have hrest := quote_not_mem_text e fun w hw => he w (List.mem_cons_of_mem _ hw)
    simp only [text, List.mem_append, hrest, or_false]
    decide
  | oneOf es =>
    rw [mentions] at he
    rw [text]
    exact quote_not_mem_texts es he

theorem quote_not_mem_texts (es : List TypeExpr) (hes : ∀ w ∈ mentionsAll es, IsName w.word ∧ w.quoted = false) :
    quote ∉ join (ascii " | ") (texts es) := by
  cases es with
  | nil => exact List.not_mem_nil
  | cons e es =>
    rw [mentionsAll] at hes
    have he := quote_not_mem_text e fun w hw => hes w (List.mem_append_left _ hw)
    have hrest := quote_not_mem_texts es fun w hw => hes w (List.mem_append_right _ hw)
    cases es with
    | nil =>
      rw [texts, texts, join]
      exact he
    | cons e' es =>
      rw [texts, texts, join, ← texts]
      simp only [List.mem_append, he, hrest, or_false, false_or]
      decide

end

end TypeExpr

end Typewright
