import Mathlib
import Typewright.Proofs.Edn.Parsing
import Typewright.Proofs.Text.Bytes

/-!
# What is printed is read again

Tokens are printed with one blank between them or a bracket behind them, and neither prolongs a token. So the spelling of
a form derives the tree of the form again, as long as the spelling of each atom does.

* `Atom.IsExact` : the atoms whose spelling says all of them; `Form.atoms` : the atoms of a form;
* `lexeme_int`, `Lexeme.spelling` : an atom that was read is read again from its spelling;
* `Form.derives_text`, `Form.derivesAll_texts` : the same for a form and for several forms inside a bracket;
* `parse_text_of_parse` : a form that was parsed is parsed again from its spelling, up to positions.
-/

namespace Typewright.Edn

/-! ## The atoms of a form -/

/-- The spelling of an atom says all of it. That of a double has six digits only, and that of a string has no escapes. -/
def Atom.IsExact : Atom → Prop
  | .double _ => False
  | .string s => Bytes.quote ∉ s ∧ Bytes.backslash ∉ s
  | _ => True

instance Atom.decidableIsExact : DecidablePred Atom.IsExact
  | .double _ => .isFalse id
  | .string s => inferInstanceAs (Decidable (Bytes.quote ∉ s ∧ Bytes.backslash ∉ s))
  | .nil | .bool _ | .int _ | .keyword _ | .symbol _ => .isTrue trivial

mutual

/-- The atoms of a form, from left to right. -/
def Form.atoms : Form → List Atom
  | .absent => []
  | .atom _ a => [a]
  | .seq _ _ items => Form.atomsOf items

def Form.atomsOf : List Form → List Atom
  | [] => []
  | f :: fs => f.atoms ++ Form.atomsOf fs

end

/-! ## Atoms -/

section Atoms

variable {rest : Bytes}

theorem decimal_ne_nil (n : Nat) : Bytes.decimal n ≠ [] := by
  rw [Bytes.decimal]
  split <;> simp

/-- The numeral of an integer, without a point and an exponent. -/
def Numeral.ofInt (i : Int) : Numeral where
  sign := if i < 0 then some (Bytes.byte '-') else none
  whole := Bytes.decimal i.natAbs
  fraction := none
  exponent := none

theorem Numeral.text_ofInt (i : Int) : (Numeral.ofInt i).text = Bytes.decimalInt i := by
  cases i with
  | ofNat n => simp [Numeral.ofInt, Numeral.text, Bytes.decimalInt]
  | negSucc n =>
    have hsign : Int.negSucc n < 0 := Int.negSucc_lt_zero n
    simp [Numeral.ofInt, Numeral.text, Bytes.decimalInt, hsign]

theorem Numeral.wellFormed_ofInt (i : Int) : (Numeral.ofInt i).WellFormed where
  sign b hb := by
    obtain ⟨-, hb⟩ := Option.ite_none_right_eq_some.mp hb
    obtain rfl := Option.some.inj hb
    rfl
  whole_ne_nil := decimal_ne_nil i.natAbs
  whole := Bytes.isDigit_of_mem_decimal i.natAbs
  fraction := by simp [Numeral.ofInt]
  mark := by simp [Numeral.ofInt]
  exponentSign := by simp [Numeral.ofInt]
  exponentDigits := by simp [Numeral.ofInt]

theorem Numeral.denotes_ofInt (v : Int64) : (Numeral.ofInt v.toInt).Denotes (.int v) := by
  refine .int rfl rfl ?_
  rw [show (Numeral.ofInt v.toInt).whole = Bytes.decimal v.toInt.natAbs from rfl, Bytes.ofDecimal_decimal]
  by_cases hneg : v.toInt < 0
  · have hsign : (Numeral.ofInt v.toInt).negative = true := by simp [Numeral.negative, Numeral.ofInt, hneg]
    rw [hsign, if_pos rfl]
    omega
  · have hsign : (Numeral.ofInt v.toInt).negative = false := by simp [Numeral.negative, Numeral.ofInt, hneg]
    rw [hsign, if_neg Bool.false_ne_true]
    omega

theorem Stops.mono {c d : UInt8 → Bool} {s : Bytes} (h : Stops d s) (hcd : ∀ b, c b = true → d b = true) : Stops c s := by
  intro b hb
  refine Bool.eq_false_iff.mpr fun hc => ?_
  have hd := hcd b hc
  rw [h b hb] at hd
  exact absurd hd Bool.false_ne_true

/-- No byte that could prolong a numeral stands outside of symbols. -/
theorem Numeral.complete_of_stops (n : Numeral) (h : Stops isSymbolByte rest) : n.Complete rest where
  digit := h.mono fun b hb => by simp [isSymbolByte, hb]
  point _ _ := h.mono fun b hb => by
    obtain rfl : b = Bytes.byte '.' := by simpa using hb
    decide
  mark _ := h.mono fun b hb => by
    rcases isMark_iff.mp hb with rfl | rfl <;> decide
  sign _ _ _ _ := h.mono fun b hb => by
    simp [isSymbolByte, isSymbolStart_of_isSign hb]

theorem lexeme_int (v : Int64) (h : Stops isSymbolByte rest) :
    Lexeme (.int v) (Bytes.decimalInt v.toInt ++ rest) rest := by
  have hn := Numeral.wellFormed_ofInt v.toInt
  rw [← Numeral.text_ofInt]
  exact .number hn ((Numeral.longest_iff hn).mpr (Numeral.complete_of_stops _ h)) (Numeral.denotes_ofInt v)

theorem stringBody_self {s : Bytes} (hq : Bytes.quote ∉ s) (hb : Bytes.backslash ∉ s) : StringBody s s := by
  induction s with
  | nil => exact .nil
  | cons b s ih =>
    rw [List.mem_cons, not_or] at hq hb
    exact .plain (Ne.symm hq.1) (Ne.symm hb.1) (ih hq.2 hb.2)

/-- The atom of a word is spelled as the word. -/
theorem WordDenotes.text_eq {w : Bytes} {a : Atom} (h : WordDenotes w a) : a.text = w := by
  cases h <;> rfl

/-- An atom that was read is read again from its spelling, wherever that ends. -/
theorem Lexeme.spelling {a : Atom} {s s' : Bytes} (h : Lexeme a s s') (ha : a.IsExact) (hrest : Stops isSymbolByte rest) :
    Lexeme a (a.text ++ rest) rest := by
  cases h with
  | number hn hlong hden =>
    cases hden with
    | int => exact lexeme_int _ hrest
    | double => exact ha.elim
  | keyword hlong => exact .keyword ((longest_keyword_iff hlong.mem).mpr hrest)
  | @word w _ _ hlong hw hden =>
    obtain ⟨b, name, _, _, rfl⟩ := id hlong.mem
    rw [hden.text_eq]
    exact .word ((longest_word_iff hlong.mem).mpr hrest) hw hden
  | @string _ value _ hbody =>
    have hspelling : (Atom.string value).text ++ rest = Bytes.quote :: value ++ Bytes.quote :: rest := by
      simp [Atom.text, Bytes.quoted]
    rw [hspelling]
    exact .string (stringBody_self ha.1 ha.2)

end Atoms

/-! ## Forms -/

theorem DerivesAll.trivia {ns : List Tree} {t s rest : Bytes} (ht : Trivia t) (h : DerivesAll ns s rest) :
    DerivesAll ns (t ++ s) rest := by
  cases h with
  | nil ht' =>
    rw [← List.append_assoc]
    exact .nil (ht.append ht')
  | cons ht' hn hns =>
    rw [← List.append_assoc]
    exact .cons (ht.append ht') hn hns

theorem stops_closer (k : Bracket) (rest : Bytes) : Stops isSymbolByte (k.closer :: rest) :=
  stops_cons (by cases k <;> decide) rest

namespace Form

mutual

/-- A form that was read is read again from its spelling. -/
theorem derives_text (f : Form) {n : Tree} {s s' rest : Bytes} (hf : f.tree? = some n) (hn : Derives n s s')
    (ha : ∀ a ∈ f.atoms, a.IsExact) (hrest : Stops isSymbolByte rest) : Derives n (f.text ++ rest) rest := by
  match f with
  | .absent => exact absurd hf (by simp [tree?])
  | .atom p a =>
    obtain rfl : Tree.atom a = n := by simpa [tree?] using hf
    cases hn with
    | atom h =>
      rw [text]
      exact .atom (h.spelling (ha a (by simp [atoms])) hrest)
  | .seq p k items =>
    rw [tree?_seq] at hf
    obtain ⟨ns, hns, hof⟩ := Option.bind_eq_some_iff.mp hf
    obtain ⟨s₁, -, hall⟩ := (derives_ofItems_iff hof).mp hn
    refine (derives_ofItems_iff hof).mpr ⟨_, ?_, derivesAll_texts items hns hall (by simpa [atoms] using ha) k rest⟩
    simp [text]

/-- Forms that were read are read again from their spellings with a blank between them, inside a bracket. -/
theorem derivesAll_texts (items : List Form) {ns : List Tree} {s s' : Bytes} (hitems : trees? items = some ns)
    (hns : DerivesAll ns s s') (ha : ∀ a ∈ atomsOf items, a.IsExact) (k : Bracket) (rest : Bytes) :
    DerivesAll ns (Bytes.join [32] (texts items) ++ k.closer :: rest) (k.closer :: rest) := by
  match items with
  | [] =>
    obtain rfl : [] = ns := by simpa [trees?] using hitems
    exact .nil .nil
  | f :: fs =>
    obtain ⟨n, hf, hfs⟩ := Option.bind_eq_some_iff.mp hitems
    obtain ⟨ns', htrees, rfl⟩ := Option.map_eq_some_iff.mp hfs
    rw [atomsOf, List.forall_mem_append] at ha
    cases hns with
    | cons ht hn hns =>
      have htail := derivesAll_texts fs htrees hns ha.2 k rest
      match fs with
      | [] =>
        have hhead := derives_text f hf hn ha.1 (stops_closer k rest)
        simpa [texts, Bytes.join] using DerivesAll.cons .nil hhead htail
      | g :: fs =>
        have hblank : Trivia [32] := .blank (by decide) .nil
        have hbehind := htail.trivia hblank
        have hstops := stops_cons (c := isSymbolByte) (b := 32) (by decide)
        simpa [texts, Bytes.join] using DerivesAll.cons .nil (derives_text f hf hn ha.1 (hstops _)) hbehind

end

end Form

/-- **What is printed is read again.** A form that was parsed, without doubles and without quotation marks and backslashes
in its strings, is spelled by a source that is parsed as the same tree. -/
theorem parse_text_of_parse {src : Bytes} {f : Form} (h : parse src = .ok f) (hexact : ∀ a ∈ f.atoms, a.IsExact) :
    ∃ n f', f.tree? = some n ∧ parse f.text = .ok f' ∧ f'.tree? = some n := by
  obtain ⟨n, hn, t, s, rest, -, -, hderives, -⟩ := source_of_parse_eq h
  have hspelled : Derives n (f.text ++ []) [] := f.derives_text hn hderives hexact (by simp [Stops])
  rw [List.append_nil] at hspelled
  have hsource : Source n f.text := ⟨[], f.text, [], rfl, .nil, hspelled, .trivia .nil⟩
  obtain ⟨f', hparse, hf'⟩ := hsource.parse_eq
  exact ⟨n, f', hn, hparse, hf'⟩

/-! ### A map of signs -/

/-- A comment, and a map that holds the least integer, a symbol that is a sign, and empty collections. -/
def signsSource : Bytes := Bytes.ascii ";-\n\x7b:1 -9223372036854775808,- [()]\x7d"

def signsForm : Form := .seq ⟨2, 1⟩ .curly [.atom ⟨2, 2⟩ (.keyword (Bytes.ascii "1")), .atom ⟨2, 5⟩ (.int Int64.minValue),
  .atom ⟨2, 26⟩ (.symbol (Bytes.ascii "-")), .seq ⟨2, 28⟩ .square [.seq ⟨2, 29⟩ .round []]]

set_option maxRecDepth 8000 in
theorem parse_signsSource : parse signsSource = .ok signsForm := by
  with_unfolding_all rfl

/-- The map is parsed again from its spelling. -/
theorem signs_are_read_again :
    parse signsSource = .ok signsForm ∧ (∀ a ∈ signsForm.atoms, a.IsExact) ∧
      signsForm.text = Bytes.ascii "\x7b:1 -9223372036854775808 - [()]\x7d" ∧
      ∃ n f', signsForm.tree? = some n ∧ parse signsForm.text = .ok f' ∧ f'.tree? = some n := by
  have hexact : ∀ a ∈ signsForm.atoms, a.IsExact := by decide
  exact ⟨parse_signsSource, hexact, by decide +kernel, parse_text_of_parse parse_signsSource hexact⟩

end Typewright.Edn
