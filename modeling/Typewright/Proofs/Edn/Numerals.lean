import Mathlib
import Typewright.Proofs.Edn.Trivia

/-!
# Numerals

A numeral gets longer byte by byte, up to one that what follows does not prolong: `Numeral.Complete`.

* `scanNumeral_locate` : a complete numeral is read as a whole;
* `Numeral.WellFormed.complete_or_grows`, `Numeral.WellFormed.exists_complete` : one step of growing, and all of them;
* `Numeral.longest_iff` : the complete numeral is the longest one;
* `Numeral.atom?_eq_some_iff` : what it stands for.
-/

namespace Typewright.Edn

variable {p : Position}

theorem stops_append {c : UInt8 → Bool} {s rest : Bytes} (hs : Stops c s) (h : s = [] → Stops c rest) :
    Stops c (s ++ rest) := by
  cases s with
  | nil => exact h rfl
  | cons b s => exact stops_cons (hs b rfl) (s ++ rest)

/-- The letters that start an exponent. -/
def isMark (b : UInt8) : Bool := b == Bytes.byte 'e' || b == Bytes.byte 'E'

theorem isMark_iff {b : UInt8} : isMark b = true ↔ b = Bytes.byte 'e' ∨ b = Bytes.byte 'E' := by
  simp [isMark]

def fractionText : Option Bytes → Bytes
  | none => []
  | some digits => Bytes.byte '.' :: digits

def exponentText : Option Exponent → Bytes
  | none => []
  | some e => e.text

theorem Numeral.text_eq (n : Numeral) :
    n.text = n.sign.toList ++ (n.whole ++ (fractionText n.fraction ++ exponentText n.exponent)) := by
  obtain ⟨sign, whole, fraction, exponent⟩ := n
  cases fraction <;> cases exponent <;> simp [Numeral.text, fractionText, exponentText]

/-- What follows a numeral does not prolong it. -/
structure Numeral.Complete (n : Numeral) (rest : Bytes) : Prop where
  digit : Stops Bytes.isDigit rest
  point : n.fraction = none → n.exponent = none → Stops (· == Bytes.byte '.') rest
  mark : n.exponent = none → Stops isMark rest
  sign : ∀ e ∈ n.exponent, e.sign = none → e.digits = [] → Stops isSign rest

/-! ## Reading a numeral -/

theorem ne_of_class {c : UInt8 → Bool} {b d : UInt8} (hb : c b = true) (hd : c d = false) : b ≠ d := by
  intro heq
  rw [heq, hd] at hb
  exact Bool.noConfusion hb

theorem isSign_iff {b : UInt8} : isSign b = true ↔ b = Bytes.byte '+' ∨ b = Bytes.byte '-' := by
  simp [isSign]

theorem isDigit_eq_false_of_isMark {b : UInt8} (hb : isMark b = true) : Bytes.isDigit b = false := by
  rcases isMark_iff.mp hb with rfl | rfl <;> rfl

theorem isSign_eq_false_of_isDigit {b : UInt8} (hb : Bytes.isDigit b = true) : isSign b = false := by
  refine Bool.eq_false_iff.mpr fun hsign => ?_
  rcases isSign_iff.mp hsign with rfl | rfl <;> exact absurd hb (by decide)

theorem optionalByte_locate {c : UInt8 → Bool} {x : Option UInt8} {rest : Bytes} (hx : ∀ b ∈ x, c b = true)
    (hrest : x = none → Stops c rest) :
    optionalByte c (locate p (x.toList ++ rest)) = (x, locate (p.after x.toList) rest) := by
  cases x with
  | none =>
    cases rest with
    | nil => rfl
    | cons b rest =>
      have hb : c b = false := hrest rfl b rfl
      simp [optionalByte, locate, hb, Position.after]
  | some b =>
    have hb : c b = true := hx b rfl
    simp [optionalByte, locate, hb, Position.after]

theorem startsNumber_locate {b : UInt8} {s : Bytes} :
    startsNumber b (locate p s) = true ↔ Bytes.isDigit b = true ∨ StartsSigned (b :: s) := by
  cases s with
  | nil => simp [startsNumber, locate, StartsSigned]
  | cons d s => simp [startsNumber, locate, StartsSigned]

variable {n : Numeral} {rest : Bytes}

theorem scanExponent_locate (hn : n.WellFormed) (hc : n.Complete rest) :
    scanExponent (locate p (exponentText n.exponent ++ rest)) =
      (n.exponent, locate (p.after (exponentText n.exponent)) rest) := by
  cases he : n.exponent with
  | none =>
    cases rest with
    | nil => rfl
    | cons b rest =>
      have hb : ¬ (b = Bytes.byte 'e' ∨ b = Bytes.byte 'E') := by
        rw [← isMark_iff, hc.mark he b rfl]
        exact Bool.false_ne_true
      simp only [exponentText, List.nil_append, locate, scanExponent, if_neg hb]
      rfl
  | some e =>
    have hsign : e.sign = none → Stops isSign (e.digits ++ rest) := by
      intro hnone
      refine stops_append ?_ (hc.sign e he hnone)
      intro b hb
      exact isSign_eq_false_of_isDigit (hn.exponentDigits e he b (List.mem_of_mem_head? hb))
    have hopt := optionalByte_locate (p := p.next e.mark) (hn.exponentSign e he) hsign
    have hspan := spanBytes_locate (p := (p.next e.mark).after e.sign.toList) (hn.exponentDigits e he) hc.digit
    simp only [exponentText, Exponent.text, List.cons_append, List.append_assoc, locate, scanExponent,
      if_pos (hn.mark e he), hopt, hspan, ← Position.after_append]
    rfl

/-- The digits in front of an exponent end where it starts, or where the numeral ends. -/
theorem Numeral.Complete.stops_exponent (hn : n.WellFormed) (hc : n.Complete rest) :
    Stops Bytes.isDigit (exponentText n.exponent ++ rest) := by
  cases he : n.exponent with
  | none => exact hc.digit
  | some e => exact stops_cons (isDigit_eq_false_of_isMark (isMark_iff.mpr (hn.mark e he))) _

theorem scanFraction_locate (hn : n.WellFormed) (hc : n.Complete rest) :
    scanFraction (locate p (fractionText n.fraction ++ (exponentText n.exponent ++ rest))) =
      (n.fraction, locate (p.after (fractionText n.fraction)) (exponentText n.exponent ++ rest)) := by
  cases hf : n.fraction with
  | none =>
    have hpoint : Stops (· == Bytes.byte '.') (exponentText n.exponent ++ rest) := by
      cases he : n.exponent with
      | none => exact hc.point hf he
      | some e =>
        refine stops_cons ?_ _
        rcases hn.mark e he with hmark | hmark <;> rw [hmark] <;> rfl
    cases hs : exponentText n.exponent ++ rest with
    | nil => rfl
    | cons b s =>
      rw [hs] at hpoint
      have hb : ¬ b = Bytes.byte '.' := by simpa using hpoint b rfl
      simp only [fractionText, List.nil_append, locate, scanFraction, if_neg hb]
      rfl
  | some f =>
    have hspan := spanBytes_locate (p := p.next (Bytes.byte '.')) (hn.fraction f hf) (hc.stops_exponent hn)
    simp only [fractionText, List.cons_append, locate, scanFraction, if_true, hspan]
    rfl

theorem Numeral.Complete.stops_whole (hn : n.WellFormed) (hc : n.Complete rest) :
    Stops Bytes.isDigit (fractionText n.fraction ++ (exponentText n.exponent ++ rest)) := by
  cases n.fraction with
  | some f => exact stops_cons rfl _
  | none => exact hc.stops_exponent hn

/-- A numeral that cannot get longer is read as a whole. -/
theorem scanNumeral_locate (hn : n.WellFormed) (hc : n.Complete rest) :
    ∃ b t, n.text = b :: t ∧ ∀ p, startsNumber b (locate p (t ++ rest)) = true ∧
      scanNumeral b (locate p (t ++ rest)) = (n, locate (p.after t) rest) := by
  have hscan : ∀ (p : Position) (w : Bytes), (∀ b ∈ w, Bytes.isDigit b = true) →
      spanBytes Bytes.isDigit (locate p (w ++ (fractionText n.fraction ++ (exponentText n.exponent ++ rest)))) =
        (w, locate (p.after w) (fractionText n.fraction ++ (exponentText n.exponent ++ rest))) :=
    fun p w hw => spanBytes_locate hw (hc.stops_whole hn)
  obtain ⟨d, w, hw⟩ := List.exists_cons_of_ne_nil hn.whole_ne_nil
  have hd : Bytes.isDigit d = true := hn.whole d (by rw [hw]; exact List.mem_cons_self)
  cases hs : n.sign with
  | none =>
    refine ⟨d, w ++ (fractionText n.fraction ++ exponentText n.exponent), by rw [n.text_eq, hs, hw]; rfl, fun p => ?_⟩
    have hdigits : ∀ b ∈ w, Bytes.isDigit b = true := by
      intro b hb
      exact hn.whole b (by rw [hw]; exact List.mem_cons_of_mem d hb)
    refine ⟨startsNumber_locate.mpr (.inl hd), ?_⟩
    simp only [List.append_assoc, scanNumeral, hscan p w hdigits, scanFraction_locate hn hc, scanExponent_locate hn hc,
      isSign_eq_false_of_isDigit hd, ← Position.after_append, ← hw, ← hs]
    rfl
  | some b =>
    refine ⟨b, n.whole ++ (fractionText n.fraction ++ exponentText n.exponent), by rw [n.text_eq, hs]; rfl,
      fun p => ⟨?_, ?_⟩⟩
    · rw [hw]
      exact startsNumber_locate.mpr (.inr ⟨b, d, _, rfl, hn.sign b hs, hd⟩)
    · simp only [List.append_assoc, scanNumeral, hscan p n.whole hn.whole, scanFraction_locate hn hc,
        scanExponent_locate hn hc, hn.sign b hs, ← Position.after_append, ← hs, if_true]

/-! ## The longest numeral -/

/-- A digit prolongs every numeral. -/
theorem Numeral.WellFormed.grow_digit (hn : n.WellFormed) {b : UInt8} (hb : Bytes.isDigit b = true) :
    IsNumeral (n.text ++ [b]) := by
  have hsnoc : ∀ {s : Bytes}, (∀ b ∈ s, Bytes.isDigit b = true) → ∀ b' ∈ s ++ [b], Bytes.isDigit b' = true := by
    intro s hs b' hb'
    rcases List.mem_append.mp hb' with hb' | hb'
    · exact hs b' hb'
    · rw [List.mem_singleton.mp hb']
      exact hb
  rw [n.text_eq]
  cases he : n.exponent with
  | some e =>
    refine ⟨{ n with exponent := some { e with digits := e.digits ++ [b] } }, { hn with
      mark := ?_, exponentSign := ?_, exponentDigits := ?_ }, by simp [Numeral.text_eq, exponentText, Exponent.text]⟩
    · rintro _ ⟨⟩
      exact hn.mark e he
    · rintro _ ⟨⟩
      exact hn.exponentSign e he
    · rintro _ ⟨⟩
      exact hsnoc (hn.exponentDigits e he)
  | none =>
    cases hf : n.fraction with
    | some f =>
      refine ⟨{ n with fraction := some (f ++ [b]) }, { hn with fraction := ?_ },
        by simp [Numeral.text_eq, fractionText, exponentText, he]⟩
      rintro _ ⟨⟩
      exact hsnoc (hn.fraction f hf)
    | none =>
      refine ⟨{ n with whole := n.whole ++ [b] }, { hn with whole_ne_nil := ?_, whole := hsnoc hn.whole },
        by simp [Numeral.text_eq, fractionText, exponentText, he, hf]⟩
      exact List.append_ne_nil_of_left_ne_nil hn.whole_ne_nil [b]

/-- A numeral is complete, or the next byte prolongs it. -/
theorem Numeral.WellFormed.complete_or_grows (hn : n.WellFormed) (rest : Bytes) :
    n.Complete rest ∨ ∃ b rest', rest = b :: rest' ∧ IsNumeral (n.text ++ [b]) := by
  rw [or_iff_not_imp_right]
  intro hgrows
  have hstays : ∀ b ∈ rest.head?, ¬ IsNumeral (n.text ++ [b]) := by
    intro b hb hgrow
    obtain ⟨rest', rfl⟩ := List.head?_eq_some_iff.mp hb
    exact hgrows ⟨b, rest', rfl, hgrow⟩
  refine ⟨fun b hb => ?_, fun hf he b hb => ?_, fun he b hb => ?_, fun e he hs hd b hb => ?_⟩
  all_goals
    refine Bool.eq_false_iff.mpr fun hclass => hstays b hb ?_
  · exact hn.grow_digit hclass
  · obtain rfl : b = Bytes.byte '.' := by simpa using hclass
    refine ⟨{ n with fraction := some [] }, { hn with fraction := ?_ }, ?_⟩
    · rintro _ ⟨⟩
      simp
    · simp [Numeral.text_eq, fractionText, exponentText, he, hf]
  · refine ⟨{ n with exponent := some ⟨b, none, []⟩ }, { hn with
      mark := ?_, exponentSign := ?_, exponentDigits := ?_ }, ?_⟩
    · rintro _ ⟨⟩
      exact isMark_iff.mp hclass
    · rintro _ ⟨⟩
      simp
    · rintro _ ⟨⟩
      simp
    · simp [Numeral.text_eq, exponentText, Exponent.text, he]
  · refine ⟨{ n with exponent := some { e with sign := some b } }, { hn with
      mark := ?_, exponentSign := ?_, exponentDigits := ?_ }, ?_⟩
    · rintro _ ⟨⟩
      exact hn.mark e he
    · rintro _ ⟨⟩ _ ⟨⟩
      exact hclass
    · rintro _ ⟨⟩
      exact hn.exponentDigits e he
    · simp [Numeral.text_eq, exponentText, Exponent.text, show n.exponent = some e from he, hs, hd]

/-- Every numeral gets longer until it is complete. -/
theorem Numeral.WellFormed.exists_complete (hn : n.WellFormed) (rest : Bytes) :
    ∃ (m : Numeral) (rest' : Bytes), m.WellFormed ∧ m.Complete rest' ∧ n.text ++ rest = m.text ++ rest' ∧
      rest'.length ≤ rest.length := by
  induction rest generalizing n with
  | nil =>
    rcases hn.complete_or_grows [] with hc | ⟨b, rest', heq, _⟩
    · exact ⟨n, [], hn, hc, rfl, Nat.le_refl _⟩
    · exact absurd heq (by simp)
  | cons b rest ih =>
    rcases hn.complete_or_grows (b :: rest) with hc | ⟨b', rest', heq, n', hn', htext⟩
    · exact ⟨n, b :: rest, hn, hc, rfl, Nat.le_refl _⟩
    · obtain ⟨rfl, rfl⟩ := List.cons.inj heq
      obtain ⟨m, rest', hm, hc, heq, hle⟩ := ih hn'
      refine ⟨m, rest', hm, hc, ?_, by rw [List.length_cons]; omega⟩
      rw [← heq, htext, List.append_assoc, List.singleton_append]

/-- Only one complete numeral is in front of a source. -/
theorem Numeral.Complete.unique {m : Numeral} {rest' : Bytes} (hn : n.WellFormed) (hm : m.WellFormed)
    (hc : n.Complete rest) (hc' : m.Complete rest') (heq : n.text ++ rest = m.text ++ rest') :
    n = m ∧ rest = rest' := by
  obtain ⟨b, t, htext, hscan⟩ := scanNumeral_locate hn hc
  obtain ⟨b', t', htext', hscan'⟩ := scanNumeral_locate hm hc'
  rw [htext, htext'] at heq
  obtain ⟨rfl, htail⟩ := List.cons.inj heq
  have hread := (hscan .start).2
  rw [show t ++ rest = t' ++ rest' from htail, (hscan' .start).2] at hread
  obtain ⟨hnumeral, hrest⟩ := Prod.mk.inj hread
  refine ⟨hnumeral.symm, ?_⟩
  have hbytes := congrArg Located.bytes hrest
  rw [bytes_locate, bytes_locate] at hbytes
  exact hbytes.symm

/-- The longest numeral in front of a source is the complete one. -/
theorem Numeral.longest_iff (hn : n.WellFormed) : Longest IsNumeral n.text rest ↔ n.Complete rest := by
  constructor
  · intro hlong
    rcases hn.complete_or_grows rest with hc | ⟨b, rest', heq, hgrow⟩
    · exact hc
    · exact absurd (hlong.maximal [b] rest' heq hgrow) (by simp)
  · intro hc
    refine ⟨⟨n, hn, rfl⟩, ?_⟩
    rintro more rest' rfl ⟨m, hm, htext⟩
    -- The longer numeral is itself part of a complete one, and that is `n`.
    obtain ⟨m', rest'', hm', hc', heq, hle⟩ := hm.exists_complete rest'
    rw [htext, List.append_assoc] at heq
    obtain ⟨_, hrest⟩ := hc.unique hn hm' hc' heq
    have hlen := congrArg List.length hrest
    rw [List.length_append] at hlen
    apply List.eq_nil_of_length_eq_zero
    omega

/-- The value of a numeral is what it stands for. -/
theorem Numeral.atom?_eq_some_iff {a : Atom} : n.atom? = some a ↔ n.Denotes a := by
  by_cases hint : n.fraction.isNone ∧ n.exponent.isNone
  · obtain ⟨hf, he⟩ : n.fraction = none ∧ n.exponent = none := by simpa using hint
    simp only [Numeral.atom?, if_pos hint]
    generalize hvalue : (if n.negative then -(Bytes.ofDecimal n.whole : Int) else Bytes.ofDecimal n.whole) = value
    constructor
    · intro hval
      by_cases hbounds : Int64.minValue.toInt ≤ value ∧ value ≤ Int64.maxValue.toInt
      · rw [if_pos hbounds] at hval
        obtain rfl := Option.some.inj hval
        refine .int hf he ?_
        rw [hvalue]
        exact Int64.toInt_ofInt_of_le hbounds.1 (Int.lt_of_le_sub_one hbounds.2)
      · rw [if_neg hbounds] at hval
        exact absurd hval (by simp)
    · intro hden
      cases hden with
      | @int v _ _ hv =>
        rw [← hvalue, ← hv, if_pos ⟨v.minValue_le_toInt, v.toInt_le⟩, Int64.ofInt_toInt]
      | double h _ => exact absurd h (by simp [hf, he])
  · have hsome : n.fraction ≠ none ∨ n.exponent ≠ none := by
      rw [← not_and_or]
      simpa using hint
    have hval : n.atom? = (Binary64.ofScientific? n.negative (Bytes.ofDecimal (n.whole ++ n.fraction.getD []))
        ((n.exponent.map Exponent.value).getD 0 - (n.fraction.getD []).length)).map .double := by
      simp only [Numeral.atom?, if_neg hint]
      cases n.exponent <;> rfl
    rw [hval, Option.map_eq_some_iff]
    constructor
    · rintro ⟨x, hx, rfl⟩
      exact .double hsome hx
    · intro hden
      cases hden with
      | int hf he _ => exact absurd hsome (by simp [hf, he])
      | double _ hx => exact ⟨_, hx, rfl⟩

end Typewright.Edn
