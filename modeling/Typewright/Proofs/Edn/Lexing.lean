import Mathlib
import Typewright.Proofs.Edn.Numerals

/-!
# Atoms

* `scanString_locate`, `scanString_unterminated`, `scanString_badEscape` : a string is read up to its closing quotation mark,
  or it is refused; `stringBody_cases` : there is no other case;
* `longest_iff_stops` : the longest token of a language whose tokens grow by a class of bytes;
* `Malformed fault s` : a source starts with what is neither an atom nor a bracket, for a reason;
* `Lexeme.scanToken_eq`, `Malformed.scanToken_eq` : an atom of the grammar is read as one token, and the reason is told;
* `lexeme_or_malformed` : these are the two cases.
-/

namespace Typewright.Edn

/-! ## Strings -/

theorem escapes_iff {e b : UInt8} : Escapes e b ↔ unescape e = b := by
  constructor
  · intro h
    cases h with
    | lineFeed => rfl
    | carriageReturn => rfl
    | tab => rfl
    | other hb =>
      simp only [List.mem_cons, List.not_mem_nil, or_false, not_or] at hb
      simp only [unescape, if_neg hb.1, if_neg hb.2.1, if_neg hb.2.2]
  · rintro rfl
    by_cases he : e ∈ [Bytes.byte 'n', Bytes.byte 'r', Bytes.byte 't']
    · simp only [List.mem_cons, List.not_mem_nil, or_false] at he
      rcases he with rfl | rfl | rfl
      · exact .lineFeed
      · exact .carriageReturn
      · exact .tab
    · have hself : unescape e = e := by
        simp only [List.mem_cons, List.not_mem_nil, or_false, not_or] at he
        simp only [unescape, if_neg he.1, if_neg he.2.1, if_neg he.2.2]
      rw [hself]
      exact .other he

section Strings

variable {opened finish p : Position}

theorem scanString_plain {b : UInt8} (hq : b ≠ Bytes.quote) (hb : b ≠ Bytes.backslash) (s : Bytes) :
    scanString opened finish (locate p (b :: s)) =
      (scanString opened finish (locate (p.next b) s)).map fun (s, l) => (b :: s, l) := by
  rw [locate, scanString.eq_def]
  simp only [if_neg hq, if_neg hb]

theorem scanString_escape (e : UInt8) (s : Bytes) :
    scanString opened finish (locate p (Bytes.backslash :: e :: s)) =
      (scanString opened finish (locate ((p.next Bytes.backslash).next e) s)).map
        fun (s, l) => (unescape e :: s, l) := by
  rw [locate, locate, scanString.eq_def]
  simp only [if_neg (show Bytes.backslash ≠ Bytes.quote by decide), if_true]

/-- A string is read up to its closing quotation mark. -/
theorem scanString_locate {body value : Bytes} (h : StringBody body value) (rest : Bytes) :
    scanString opened finish (locate p (body ++ Bytes.quote :: rest)) =
      .ok (value, locate (p.after (body ++ [Bytes.quote])) rest) := by
  induction h generalizing p with
  | nil =>
    rw [List.nil_append, locate, scanString.eq_def]
    rfl
  | plain hq hb _ ih =>
    rw [List.cons_append, scanString_plain hq hb, ih]
    rfl
  | escape he _ ih =>
    rw [List.cons_append, List.cons_append, scanString_escape, ih, escapes_iff.mp he]
    rfl

/-- A string that is still open where the source ends is refused. -/
theorem scanString_unterminated {s value : Bytes} (h : StringBody s value) :
    scanString opened finish (locate p s) = .error ⟨.unterminatedString, opened⟩ := by
  induction h generalizing p with
  | nil =>
    rw [locate, scanString.eq_def]
  | plain hq hb _ ih =>
    rw [scanString_plain hq hb, ih]
    rfl
  | escape _ _ ih =>
    rw [scanString_escape, ih]
    rfl

/-- A string that ends inside an escape is refused. -/
theorem scanString_badEscape {body value : Bytes} (h : StringBody body value) :
    scanString opened finish (locate p (body ++ [Bytes.backslash])) = .error ⟨.badEscape, finish⟩ := by
  induction h generalizing p with
  | nil =>
    rw [List.nil_append, locate, locate, scanString.eq_def]
    simp only [if_neg (show Bytes.backslash ≠ Bytes.quote by decide), if_true]
  | plain hq hb _ ih =>
    rw [List.cons_append, scanString_plain hq hb, ih]
    rfl
  | escape _ _ ih =>
    rw [List.cons_append, List.cons_append, scanString_escape, ih]
    rfl

/-- Behind a quotation mark a string is closed, or it is still open at the end, or the source ends inside an escape. -/
theorem stringBody_cases (s : Bytes) :
    (∃ body value rest, s = body ++ Bytes.quote :: rest ∧ StringBody body value) ∨ (∃ value, StringBody s value) ∨
      ∃ body value, s = body ++ [Bytes.backslash] ∧ StringBody body value := by
  induction hlen : s.length using Nat.strongRecOn generalizing s with
  | ind len ih =>
  cases s with
  | nil => exact .inr (.inl ⟨[], .nil⟩)
  | cons b s =>
    by_cases hq : b = Bytes.quote
    · exact .inl ⟨[], [], s, by rw [hq]; rfl, .nil⟩
    by_cases hb : b = Bytes.backslash
    · subst hb
      cases s with
      | nil => exact .inr (.inr ⟨[], [], rfl, .nil⟩)
      | cons c s =>
        have hescape : ∀ {body value}, StringBody body value →
            StringBody (Bytes.backslash :: c :: body) (unescape c :: value) := .escape (escapes_iff.mpr rfl)
        rcases ih s.length (by simp [← hlen]) s rfl with ⟨body, value, rest, rfl, h⟩ | ⟨value, h⟩ | ⟨body, value, rfl, h⟩
        · exact .inl ⟨_, _, rest, rfl, hescape h⟩
        · exact .inr (.inl ⟨_, hescape h⟩)
        · exact .inr (.inr ⟨_, _, rfl, hescape h⟩)
    · rcases ih s.length (by simp [← hlen]) s rfl with ⟨body, value, rest, rfl, h⟩ | ⟨value, h⟩ | ⟨body, value, rfl, h⟩
      · exact .inl ⟨_, _, rest, rfl, .plain hq hb h⟩
      · exact .inr (.inl ⟨_, .plain hq hb h⟩)
      · exact .inr (.inr ⟨_, _, rfl, .plain hq hb h⟩)

end Strings

/-! ## Keywords and words -/

/-- Where every token grows by exactly the bytes of a class, the longest one ends in front of any other byte. -/
theorem longest_iff_stops {L : Bytes → Prop} {c : UInt8 → Bool} {token rest : Bytes} (ht : L token)
    (hL : ∀ more, L (token ++ more) ↔ ∀ b ∈ more, c b = true) : Longest L token rest ↔ Stops c rest := by
  constructor
  · intro hlong b hb
    obtain ⟨rest', rfl⟩ := List.head?_eq_some_iff.mp hb
    refine Bool.eq_false_iff.mpr fun hclass => ?_
    have hgrow : L (token ++ [b]) := (hL [b]).mpr (by simpa using hclass)
    exact absurd (hlong.maximal [b] rest' rfl hgrow) (by simp)
  · intro hstops
    refine ⟨ht, ?_⟩
    rintro more rest' rfl hmore
    cases more with
    | nil => rfl
    | cons b more =>
      have hin : c b = true := (hL _).mp hmore b List.mem_cons_self
      rw [hstops b rfl] at hin
      exact absurd hin Bool.false_ne_true

theorem isKeyword_cons_iff {name : Bytes} :
    IsKeyword (Bytes.byte ':' :: name) ↔ name ≠ [] ∧ ∀ b ∈ name, isSymbolByte b = true := by
  constructor
  · rintro ⟨name', hne, hname, heq⟩
    obtain rfl := (List.cons.inj heq).2
    exact ⟨hne, hname⟩
  · rintro ⟨hne, hname⟩
    exact ⟨name, hne, hname, rfl⟩

theorem isWord_cons_iff {b : UInt8} {name : Bytes} :
    IsWord (b :: name) ↔ isSymbolStart b = true ∧ ∀ b ∈ name, isSymbolByte b = true := by
  constructor
  · rintro ⟨b', name', hstart, hname, heq⟩
    obtain ⟨rfl, rfl⟩ := List.cons.inj heq
    exact ⟨hstart, hname⟩
  · rintro ⟨hstart, hname⟩
    exact ⟨b, name, hstart, hname, rfl⟩

theorem longest_keyword_iff {name rest : Bytes} (h : IsKeyword (Bytes.byte ':' :: name)) :
    Longest IsKeyword (Bytes.byte ':' :: name) rest ↔ Stops isSymbolByte rest := by
  obtain ⟨hne, hname⟩ := isKeyword_cons_iff.mp h
  refine longest_iff_stops h fun more => ?_
  rw [List.cons_append, isKeyword_cons_iff]
  constructor
  · intro hmore b hb
    exact hmore.2 b (List.mem_append_right name hb)
  · intro hmore
    exact ⟨List.append_ne_nil_of_left_ne_nil hne more, List.forall_mem_append.mpr ⟨hname, hmore⟩⟩

theorem longest_word_iff {b : UInt8} {name rest : Bytes} (h : IsWord (b :: name)) :
    Longest IsWord (b :: name) rest ↔ Stops isSymbolByte rest := by
  obtain ⟨hstart, hname⟩ := isWord_cons_iff.mp h
  refine longest_iff_stops h fun more => ?_
  rw [List.cons_append, isWord_cons_iff]
  constructor
  · intro hmore b hb
    exact hmore.2 b (List.mem_append_right name hb)
  · intro hmore
    exact ⟨hstart, List.forall_mem_append.mpr ⟨hname, hmore⟩⟩

theorem wordDenotes_iff {w : Bytes} {a : Atom} : WordDenotes w a ↔ Atom.ofWord w = a := by
  constructor
  · intro h
    cases h with
    | nil => rfl
    | true => decide
    | false => decide
    | symbol hw =>
      simp only [List.map_cons, List.map_nil, List.mem_cons, List.not_mem_nil, or_false, not_or] at hw
      simp only [Atom.ofWord, if_neg hw.1, if_neg hw.2.1, if_neg hw.2.2]
  · rintro rfl
    unfold Atom.ofWord
    split
    · rename_i h
      exact h ▸ .nil
    split
    · rename_i h
      exact h ▸ .true
    split
    · rename_i h
      exact h ▸ .false
    · rename_i hnil htrue hfalse
      exact .symbol (by simp [hnil, htrue, hfalse])

/-! ## One token -/

/-- The bytes with which atoms start. -/
def startsAtom (b : UInt8) : Bool :=
  b == Bytes.quote || Bytes.isDigit b || b == Bytes.byte ':' || isSymbolStart b

/-- Atoms start with no blank, no comment and no bracket. -/
theorem startsAtom_apart {b : UInt8} (hb : startsAtom b = true) :
    b ∉ blanks ∧ b ≠ Bytes.byte ';' ∧ ∀ k : Bracket, k.opener ≠ b ∧ k.closer ≠ b := by
  refine ⟨?_, ne_of_class hb (by decide), fun k => ?_⟩
  · intro hblank
    simp only [blanks, List.mem_cons, List.not_mem_nil, or_false] at hblank
    rcases hblank with rfl | rfl | rfl | rfl | rfl | rfl | rfl <;> exact absurd hb (by decide)
  · cases k <;> exact ⟨(ne_of_class hb (by decide)).symm, (ne_of_class hb (by decide)).symm⟩

theorem isSymbolStart_of_isSign {b : UInt8} (hb : isSign b = true) : isSymbolStart b = true := by
  rcases isSign_iff.mp hb with rfl | rfl <;> decide

theorem isDigit_eq_false_of_isSymbolStart {b : UInt8} (hb : isSymbolStart b = true) : Bytes.isDigit b = false := by
  refine Bool.eq_false_iff.mpr fun hdigit => ?_
  simp only [Bytes.isDigit, Bool.and_eq_true, decide_eq_true_eq, UInt8.le_iff_toNat_le] at hdigit
  have hmarks : (Bytes.ascii "*!_?-+/<>=$%&").all (fun d => d.toNat < 48 || 57 < d.toNat) = true := by decide
  simp only [isSymbolStart, Bool.or_eq_true, Bool.and_eq_true, decide_eq_true_eq, UInt8.le_iff_toNat_le,
    List.contains_iff_mem] at hb
  rcases hb with ((hb | hb) | hb) | hb
  · exact absurd hdigit.2 (Nat.not_le_of_lt (Nat.lt_of_lt_of_le (by decide) hb.1))
  · exact absurd hdigit.2 (Nat.not_le_of_lt (Nat.lt_of_lt_of_le (by decide) hb.1))
  · have hout : b.toNat < 48 ∨ 57 < b.toNat := by simpa using List.all_eq_true.mp hmarks b hb
    have hin : 48 ≤ b.toNat ∧ b.toNat ≤ 57 := hdigit
    omega
  · exact absurd hdigit.2 (Nat.not_le_of_lt (Nat.lt_of_lt_of_le (by decide) hb))

section OneToken

variable {finish p : Position} {b : UInt8} {l l' : List Located}

theorem scanToken_opener (k : Bracket) : scanToken finish ⟨k.opener, p⟩ l = (⟨p, .opening k⟩, l) := by
  cases k <;> rfl

theorem scanToken_closer (k : Bracket) : scanToken finish ⟨k.closer, p⟩ l = (⟨p, .closing k⟩, l) := by
  cases k <;> rfl

theorem find?_opener (hb : ∀ k : Bracket, k.opener ≠ b ∧ k.closer ≠ b) :
    Bracket.all.find? (fun k => k.opener == b) = none :=
  List.find?_eq_none.mpr fun k _ => by simpa using (hb k).1

theorem find?_closer (hb : ∀ k : Bracket, k.opener ≠ b ∧ k.closer ≠ b) :
    Bracket.all.find? (fun k => k.closer == b) = none :=
  List.find?_eq_none.mpr fun k _ => by simpa using (hb k).2

theorem scanToken_string {s : Bytes} (hs : scanString p finish l = .ok (s, l')) :
    scanToken finish ⟨Bytes.quote, p⟩ l = (⟨p, .atom (.string s)⟩, l') := by
  have hb := (startsAtom_apart (b := Bytes.quote) rfl).2.2
  simp only [scanToken, find?_opener hb, find?_closer hb, if_true, hs]

theorem scanToken_string_error {e : SyntaxError} (he : scanString p finish l = .error e) :
    (scanToken finish ⟨Bytes.quote, p⟩ l).1 = ⟨p, .broken e⟩ := by
  have hb := (startsAtom_apart (b := Bytes.quote) rfl).2.2
  simp only [scanToken, find?_opener hb, find?_closer hb, if_true, he]

theorem startsAtom_of_startsNumber (h : startsNumber b l = true) : startsAtom b = true ∧ b ≠ Bytes.quote := by
  have hcases : Bytes.isDigit b = true ∨ isSign b = true := by
    simp only [startsNumber, Bool.or_eq_true, Bool.and_eq_true] at h
    exact h.imp_right And.left
  rcases hcases with hdigit | hsign
  · exact ⟨by simp [startsAtom, hdigit], ne_of_class hdigit (by decide)⟩
  · exact ⟨by simp [startsAtom, isSymbolStart_of_isSign hsign], ne_of_class hsign (by decide)⟩

theorem scanToken_number {n : Numeral} {a : Atom} (h : startsNumber b l = true) (hscan : scanNumeral b l = (n, l'))
    (ha : n.atom? = some a) : scanToken finish ⟨b, p⟩ l = (⟨p, .atom a⟩, l') := by
  obtain ⟨hatom, hquote⟩ := startsAtom_of_startsNumber h
  have hb := (startsAtom_apart hatom).2.2
  simp only [scanToken, find?_opener hb, find?_closer hb, if_neg hquote, h, if_true, hscan, ha]

theorem scanToken_number_error {n : Numeral} (h : startsNumber b l = true) (hscan : scanNumeral b l = (n, l'))
    (ha : n.atom? = none) : (scanToken finish ⟨b, p⟩ l).1 = ⟨p, .broken ⟨.invalidNumber n.text, p⟩⟩ := by
  obtain ⟨hatom, hquote⟩ := startsAtom_of_startsNumber h
  have hb := (startsAtom_apart hatom).2.2
  simp only [scanToken, find?_opener hb, find?_closer hb, if_neg hquote, h, if_true, hscan, ha]

theorem scanToken_keyword {name : Bytes} (hspan : spanBytes isSymbolByte l = (name, l')) :
    scanToken finish ⟨Bytes.byte ':', p⟩ l =
      if name.isEmpty then (⟨p, .broken ⟨.emptySymbol, p⟩⟩, []) else (⟨p, .atom (.keyword name)⟩, l') := by
  have hb := (startsAtom_apart (b := Bytes.byte ':') rfl).2.2
  have hnumber : ¬ startsNumber (Bytes.byte ':') l = true := by
    rw [startsNumber.eq_def]
    exact Bool.false_ne_true
  simp only [scanToken, find?_opener hb, find?_closer hb, if_neg (show Bytes.byte ':' ≠ Bytes.quote by decide),
    if_neg hnumber, if_true, hspan]

theorem scanToken_word {name : Bytes} (hstart : isSymbolStart b = true) (hnumber : ¬ startsNumber b l = true)
    (hspan : spanBytes isSymbolByte l = (name, l')) :
    scanToken finish ⟨b, p⟩ l = (⟨p, .atom (.ofWord (b :: name))⟩, l') := by
  have hb := (startsAtom_apart (b := b) (by simp [startsAtom, hstart])).2.2
  have hquote : b ≠ Bytes.quote := ne_of_class hstart (by decide)
  have hcolon : b ≠ Bytes.byte ':' := ne_of_class hstart (by decide)
  simp only [scanToken, find?_opener hb, find?_closer hb, if_neg hquote, if_neg hnumber, if_neg hcolon, hstart, if_true,
    hspan]

theorem scanToken_unexpected (hb : ∀ k : Bracket, k.opener ≠ b ∧ k.closer ≠ b) (hatom : startsAtom b = false) :
    (scanToken finish ⟨b, p⟩ l).1 = ⟨p, .broken ⟨.unexpected b, p⟩⟩ := by
  have hnumber : ¬ startsNumber b l = true := by
    intro h
    rw [(startsAtom_of_startsNumber h).1] at hatom
    exact Bool.noConfusion hatom
  simp only [startsAtom, Bool.or_eq_false_iff, beq_eq_false_iff_ne] at hatom
  obtain ⟨⟨⟨hquote, _⟩, hcolon⟩, hstart⟩ := hatom
  simp only [scanToken, find?_opener hb, find?_closer hb, if_neg hquote, if_neg hnumber, if_neg hcolon, hstart]
  rfl

end OneToken

/-! ## Atoms -/

theorem startsSigned_word_iff {b : UInt8} {name rest : Bytes} (hrest : Stops isSymbolByte rest) :
    StartsSigned (b :: (name ++ rest)) ↔ StartsSigned (b :: name) := by
  constructor
  · rintro ⟨b', d, s, heq, hsign, hdigit⟩
    obtain ⟨rfl, htail⟩ := List.cons.inj heq
    cases name with
    | nil =>
      obtain rfl : rest = d :: s := htail
      have hsymbol : isSymbolByte d = true := by simp [isSymbolByte, hdigit]
      rw [hrest d rfl] at hsymbol
      exact absurd hsymbol Bool.false_ne_true
    | cons c name =>
      obtain ⟨rfl, _⟩ := List.cons.inj htail
      exact ⟨b, c, name, rfl, hsign, hdigit⟩
  · rintro ⟨b', d, s, heq, hsign, hdigit⟩
    obtain ⟨rfl, rfl⟩ := List.cons.inj heq
    exact ⟨b, d, s ++ rest, rfl, hsign, hdigit⟩

/-- An atom in front of a source is read as one token. -/
theorem Lexeme.scanToken_eq {a : Atom} {s rest : Bytes} (h : Lexeme a s rest) :
    ∃ b text, startsAtom b = true ∧ s = b :: (text ++ rest) ∧ ∀ finish p,
      scanToken finish ⟨b, p⟩ (locate (p.next b) (text ++ rest)) =
        (⟨p, .atom a⟩, locate (p.after (b :: text)) rest) := by
  cases h with
  | number hn hlong ha =>
    obtain ⟨b, t, htext, hscan⟩ := scanNumeral_locate hn ((Numeral.longest_iff hn).mp hlong)
    refine ⟨b, t, (startsAtom_of_startsNumber (hscan .start).1).1, by rw [htext]; rfl, fun finish p => ?_⟩
    obtain ⟨hstart, hread⟩ := hscan (p.next b)
    exact scanToken_number hstart hread (Numeral.atom?_eq_some_iff.mpr ha)
  | @keyword name _ hlong =>
    obtain ⟨hne, hname⟩ := isKeyword_cons_iff.mp hlong.mem
    refine ⟨Bytes.byte ':', name, rfl, rfl, fun finish p => ?_⟩
    rw [scanToken_keyword (spanBytes_locate hname ((longest_keyword_iff hlong.mem).mp hlong)),
      if_neg (by rw [List.isEmpty_iff]; exact hne)]
    rfl
  | @word w _ _ hlong hw ha =>
    obtain ⟨b, name, hstart, hname, rfl⟩ := id hlong.mem
    have hstops := (longest_word_iff hlong.mem).mp hlong
    refine ⟨b, name, by simp [startsAtom, hstart], rfl, fun finish p => ?_⟩
    have hnumber : ¬ startsNumber b (locate (p.next b) (name ++ rest)) = true := by
      rw [startsNumber_locate, isDigit_eq_false_of_isSymbolStart hstart, startsSigned_word_iff hstops]
      simpa using hw
    rw [scanToken_word hstart hnumber (spanBytes_locate hname hstops), wordDenotes_iff.mp ha]
    rfl
  | @string body value _ hbody =>
    refine ⟨Bytes.quote, body ++ [Bytes.quote], rfl, by simp, fun finish p => ?_⟩
    rw [List.append_assoc, List.singleton_append]
    exact scanToken_string (scanString_locate hbody rest)

/-! ## Malformed tokens -/

/-- A source starts with neither an atom nor a bracket, for a reason. -/
inductive Malformed : SyntaxFault → Bytes → Prop
  | byte {b : UInt8} {s : Bytes} (hatom : startsAtom b = false) (hb : ∀ k : Bracket, k.opener ≠ b ∧ k.closer ≠ b) :
      Malformed (.unexpected b) (b :: s)
  | string {s value : Bytes} (h : StringBody s value) : Malformed .unterminatedString (Bytes.quote :: s)
  | escape {body value : Bytes} (h : StringBody body value) :
      Malformed .badEscape (Bytes.quote :: (body ++ [Bytes.backslash]))
  | number {n : Numeral} {rest : Bytes} (hn : n.WellFormed) (h : Longest IsNumeral n.text rest)
      (ha : ∀ a, ¬ n.Denotes a) : Malformed (.invalidNumber n.text) (n.text ++ rest)
  | keyword {s : Bytes} (h : Stops isSymbolByte s) : Malformed .emptySymbol (Bytes.byte ':' :: s)

/-- Where a malformed token at `p` is told: there, but for an escape that is cut off where the source ends. -/
def SyntaxFault.told (fault : SyntaxFault) (p finish : Position) : Position :=
  if fault = .badEscape then finish else p

/-- A malformed token is told. -/
theorem Malformed.scanToken_eq {fault : SyntaxFault} {s : Bytes} (h : Malformed fault s) :
    ∃ b s', s = b :: s' ∧ ∀ finish p,
      (scanToken finish ⟨b, p⟩ (locate (p.next b) s')).1 = ⟨p, .broken ⟨fault, fault.told p finish⟩⟩ := by
  cases h with
  | byte hatom hb => exact ⟨_, _, rfl, fun finish p => scanToken_unexpected hb hatom⟩
  | string h => exact ⟨_, _, rfl, fun finish p => scanToken_string_error (scanString_unterminated h)⟩
  | escape h => exact ⟨_, _, rfl, fun finish p => scanToken_string_error (scanString_badEscape h)⟩
  | @number n rest hn hlong ha =>
    obtain ⟨b, t, htext, hscan⟩ := scanNumeral_locate hn ((Numeral.longest_iff hn).mp hlong)
    have hnone : n.atom? = none := Option.eq_none_iff_forall_ne_some.mpr fun a h => ha a (Numeral.atom?_eq_some_iff.mp h)
    refine ⟨b, t ++ rest, by rw [htext]; rfl, fun finish p => ?_⟩
    obtain ⟨hstart, hread⟩ := hscan (p.next b)
    exact scanToken_number_error hstart hread hnone
  | @keyword s h =>
    refine ⟨_, _, rfl, fun finish p => ?_⟩
    have hspan : spanBytes isSymbolByte (locate (p.next (Bytes.byte ':')) ([] ++ s)) = ([], _) :=
      spanBytes_locate (by simp) h
    rw [List.nil_append] at hspan
    rw [scanToken_keyword hspan]
    rfl

/-- Where a number starts, the numeral stands for something, or it is malformed. -/
theorem lexeme_or_malformed_number {b : UInt8} {s : Bytes} (h : Bytes.isDigit b = true ∨ StartsSigned (b :: s)) :
    (∃ a rest, Lexeme a (b :: s) rest) ∨ ∃ fault, Malformed fault (b :: s) := by
  have hnumeral : ∃ (n : Numeral) (rest : Bytes), n.WellFormed ∧ b :: s = n.text ++ rest := by
    rcases h with hdigit | ⟨_, d, s', heq, hsign, hdigit⟩
    · exact ⟨⟨none, [b], none, none⟩, s, ⟨by simp, by simp, by simpa using hdigit, by simp, by simp, by simp,
        by simp⟩, rfl⟩
    · obtain ⟨rfl, rfl⟩ := List.cons.inj heq
      exact ⟨⟨some b, [d], none, none⟩, s', ⟨by simpa using hsign, by simp, by simpa using hdigit, by simp, by simp,
        by simp, by simp⟩, rfl⟩
  obtain ⟨n₀, rest₀, hn₀, hs₀⟩ := hnumeral
  obtain ⟨n, rest, hn, hc, heq, _⟩ := hn₀.exists_complete rest₀
  have hlong := (Numeral.longest_iff hn).mpr hc
  rw [hs₀, heq]
  by_cases ha : ∃ a, n.Denotes a
  · obtain ⟨a, ha⟩ := ha
    exact .inl ⟨a, rest, .number hn hlong ha⟩
  · exact .inr ⟨_, .number hn hlong (not_exists.mp ha)⟩

/-- A source starts with a bracket, or with an atom, or it is malformed. -/
theorem lexeme_or_malformed {b : UInt8} (s : Bytes) (hb : ∀ k : Bracket, k.opener ≠ b ∧ k.closer ≠ b) :
    (∃ a rest, Lexeme a (b :: s) rest) ∨ ∃ fault, Malformed fault (b :: s) := by
  by_cases hnumber : Bytes.isDigit b = true ∨ StartsSigned (b :: s)
  · exact lexeme_or_malformed_number hnumber
  by_cases hquote : b = Bytes.quote
  · subst hquote
    rcases stringBody_cases s with ⟨body, value, rest, rfl, h⟩ | ⟨value, h⟩ | ⟨body, value, rfl, h⟩
    · exact .inl ⟨_, rest, .string h⟩
    · exact .inr ⟨_, .string h⟩
    · exact .inr ⟨_, .escape h⟩
  obtain ⟨name, rest, rfl, hname, hstops⟩ := exists_run isSymbolByte s
  by_cases hcolon : b = Bytes.byte ':'
  · subst hcolon
    by_cases hne : name = []
    · subst hne
      exact .inr ⟨_, .keyword hstops⟩
    · exact .inl ⟨_, rest, .keyword ((longest_keyword_iff (isKeyword_cons_iff.mpr ⟨hne, hname⟩)).mpr hstops)⟩
  cases hstart : isSymbolStart b with
  | true =>
    left
    refine ⟨_, rest, .word ((longest_word_iff (isWord_cons_iff.mpr ⟨hstart, hname⟩)).mpr hstops) ?_
      (wordDenotes_iff.mpr rfl)⟩
    rw [← startsSigned_word_iff hstops]
    exact (not_or.mp hnumber).2
  | false =>
    have hdigit : Bytes.isDigit b = false := Bool.eq_false_iff.mpr (not_or.mp hnumber).1
    exact .inr ⟨_, .byte (by simp [startsAtom, hquote, hdigit, hcolon, hstart]) hb⟩

end Typewright.Edn
