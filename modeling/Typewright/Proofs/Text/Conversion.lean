import Mathlib
import Typewright.Proofs.Text.Utf8

/-!
# Conversion between UTF-8 and code points

What is well-formed UTF-8 is said by a table, as the Unicode standard does: the ranges of the bytes of one sequence. The
loops that encode and decode call two functions for one sequence, of which nothing is assumed but that they follow the
table; this leaves them no choice.

* `IsSequence`, `WellFormed` : the sequences of the table, and the texts that consist of them;
* `isSequence_iff` : the sequences are those of the scalar values, so the texts are encodings (`wellFormed_encode`,
  `WellFormed.exists_encode`);
* `Codec`, `Codec.Strict` : the functions for one sequence that the loops call, and what is assumed of them;
* `Codec.turn`, `Codec.append` : one turn of the loop that decodes and of the one that encodes, and what the loops give
  over strict functions (`Codec.Strict.iterate_turn`, `Codec.Strict.foldl_append`);
* `conversion_exact` : how decoding and encoding undo one another.
-/

namespace Typewright.Utf8

/-! ## Well-formed texts -/

def InRange (b : UInt8) (r : Nat × Nat) : Prop := r.1 ≤ b.toNat ∧ b.toNat ≤ r.2

/-- The well-formed sequences of bytes: a row for each shape, with the range of each byte. -/
def sequenceTable : List (List (Nat × Nat)) :=
  [[(0x00, 0x7F)],
    [(0xC2, 0xDF), (0x80, 0xBF)],
    [(0xE0, 0xE0), (0xA0, 0xBF), (0x80, 0xBF)],
    [(0xE1, 0xEC), (0x80, 0xBF), (0x80, 0xBF)],
    [(0xED, 0xED), (0x80, 0x9F), (0x80, 0xBF)],
    [(0xEE, 0xEF), (0x80, 0xBF), (0x80, 0xBF)],
    [(0xF0, 0xF0), (0x90, 0xBF), (0x80, 0xBF), (0x80, 0xBF)],
    [(0xF1, 0xF3), (0x80, 0xBF), (0x80, 0xBF), (0x80, 0xBF)],
    [(0xF4, 0xF4), (0x80, 0x8F), (0x80, 0xBF), (0x80, 0xBF)]]

/-- The bytes follow a row of the table. -/
def IsSequence (s : Bytes) : Prop := ∃ row ∈ sequenceTable, List.Forall₂ InRange s row

/-- A text of well-formed sequences. -/
inductive WellFormed : Bytes → Prop
  | nil : WellFormed []
  | append {s rest : Bytes} (hs : IsSequence s) (hrest : WellFormed rest) : WellFormed (s ++ rest)

/-! ## The sequences of scalar values -/

/-- What follows a row of the table is the sequence of a scalar value. -/
theorem IsSequence.exists_scalar {s : Bytes} (h : IsSequence s) : ∃ c, IsScalar c ∧ sequence c = s := by
  obtain ⟨row, hrow, hs⟩ := h
  simp only [sequenceTable, List.mem_cons, List.not_mem_nil, or_false] at hrow
  rcases hrow with rfl | rfl | rfl | rfl | rfl | rfl | rfl | rfl | rfl <;>
    simp only [List.forall₂_cons_right_iff, List.forall₂_nil_right_iff, InRange] at hs
  · obtain ⟨a, _, ha, rfl, rfl⟩ := hs
    exact exists_scalar_one ha.2
  · obtain ⟨a, _, ha, ⟨b, _, hb, rfl, rfl⟩, rfl⟩ := hs
    exact exists_scalar_two ha hb
  iterate 4
    obtain ⟨a, _, ha, ⟨b, _, hb, ⟨b', _, hb', rfl, rfl⟩, rfl⟩, rfl⟩ := hs
    exact exists_scalar_three (by omega) (by omega) hb' (by omega) (by omega)
  iterate 3
    obtain ⟨a, _, ha, ⟨b, _, hb, ⟨b', _, hb', ⟨b'', _, hb'', rfl, rfl⟩, rfl⟩, rfl⟩, rfl⟩ := hs
    exact exists_scalar_four (by omega) (by omega) hb' hb'' (by omega) (by omega)

theorem inRange_toUInt8 {n lo hi : Nat} (hlo : lo ≤ n) (hhi : n ≤ hi) (h : hi < 256) : InRange n.toUInt8 (lo, hi) := by
  rw [InRange, toNat_toUInt8 (by omega)]
  exact ⟨hlo, hhi⟩

/-- Six bits make a byte in the range of continuing bytes. -/
theorem inRange_tail (n : Nat) : InRange (0x80 + n % 0x40).toUInt8 (0x80, 0xBF) :=
  inRange_toUInt8 (by omega) (by omega) (by decide)

/-- Three bytes follow a row if the first two of them do. -/
theorem isSequence_three {x y : Nat} (z : Nat) (lo hi lo' hi' : Nat)
    (hrow : [(lo, hi), (lo', hi'), (0x80, 0xBF)] ∈ sequenceTable) (hx : lo ≤ x ∧ x ≤ hi ∧ hi < 256)
    (hy : lo' ≤ y ∧ y ≤ hi' ∧ hi' < 256) : IsSequence [x.toUInt8, y.toUInt8, (0x80 + z % 0x40).toUInt8] :=
  ⟨_, hrow, .cons (inRange_toUInt8 hx.1 hx.2.1 hx.2.2) (.cons (inRange_toUInt8 hy.1 hy.2.1 hy.2.2)
    (.cons (inRange_tail z) .nil))⟩

/-- Four bytes follow a row if the first two of them do. -/
theorem isSequence_four {x y : Nat} (z w : Nat) (lo hi lo' hi' : Nat)
    (hrow : [(lo, hi), (lo', hi'), (0x80, 0xBF), (0x80, 0xBF)] ∈ sequenceTable) (hx : lo ≤ x ∧ x ≤ hi ∧ hi < 256)
    (hy : lo' ≤ y ∧ y ≤ hi' ∧ hi' < 256) :
    IsSequence [x.toUInt8, y.toUInt8, (0x80 + z % 0x40).toUInt8, (0x80 + w % 0x40).toUInt8] :=
  ⟨_, hrow, .cons (inRange_toUInt8 hx.1 hx.2.1 hx.2.2) (.cons (inRange_toUInt8 hy.1 hy.2.1 hy.2.2)
    (.cons (inRange_tail z) (.cons (inRange_tail w) .nil)))⟩

/-- The sequence of a scalar value follows a row of the table. -/
theorem isSequence_sequence {c : Nat} (hc : IsScalar c) : IsSequence (sequence c) := by
  have hvalid : c < 0xD800 ∨ 0xDFFF < c ∧ c < 0x110000 := (isScalar_iff_isValidChar c).mp hc
  rcases Nat.lt_or_ge c 0x80 with h1 | h1
  · rw [sequence, if_pos h1]
    exact ⟨[(0x00, 0x7F)], by decide, .cons (inRange_toUInt8 (by omega) (by omega) (by decide)) .nil⟩
  rw [sequence, if_neg (Nat.not_lt.mpr h1)]
  rcases Nat.lt_or_ge c 0x800 with h2 | h2
  · rw [if_pos h2]
    exact ⟨[(0xC2, 0xDF), (0x80, 0xBF)], by decide, .cons (inRange_toUInt8 (by omega) (by omega) (by decide))
      (.cons (inRange_tail c) .nil)⟩
  rw [if_neg (Nat.not_lt.mpr h2)]
  rcases Nat.lt_or_ge c 0x10000 with h3 | h3
  · rw [if_pos h3]
    rcases Nat.lt_or_ge c 0x1000 with hE0 | hE0
    · exact isSequence_three c 0xE0 0xE0 0xA0 0xBF (by decide) (by omega) (by omega)
    rcases Nat.lt_or_ge c 0xD000 with hEC | hEC
    · exact isSequence_three c 0xE1 0xEC 0x80 0xBF (by decide) (by omega) (by omega)
    rcases Nat.lt_or_ge c 0xD800 with hED | hED
    · exact isSequence_three c 0xED 0xED 0x80 0x9F (by decide) (by omega) (by omega)
    · exact isSequence_three c 0xEE 0xEF 0x80 0xBF (by decide) (by omega) (by omega)
  · rw [if_neg (Nat.not_lt.mpr h3)]
    rcases Nat.lt_or_ge c 0x40000 with hF0 | hF0
    · exact isSequence_four (c / 0x40) c 0xF0 0xF0 0x90 0xBF (by decide) (by omega) (by omega)
    rcases Nat.lt_or_ge c 0x100000 with hF3 | hF3
    · exact isSequence_four (c / 0x40) c 0xF1 0xF3 0x80 0xBF (by decide) (by omega) (by omega)
    · exact isSequence_four (c / 0x40) c 0xF4 0xF4 0x80 0x8F (by decide) (by omega) (by omega)

/-- **The table holds the sequences of the scalar values.** -/
theorem isSequence_iff {s : Bytes} : IsSequence s ↔ ∃ c, IsScalar c ∧ sequence c = s := by
  constructor
  · exact IsSequence.exists_scalar
  · rintro ⟨c, hc, rfl⟩
    exact isSequence_sequence hc

/-! ## Well-formed texts are encodings -/

/-- What stands for a number: itself, or U+FFFD if it is a surrogate or too great. -/
def scalarOf (c : CodePoint) : CodePoint := if IsSurrogate c ∨ 0x10FFFF < c then replacement else c

theorem scalarOf_eq (c : CodePoint) : scalarOf c = if IsScalar c then c else replacement := by
  by_cases hc : IsScalar c
  · have hnot : ¬ (IsSurrogate c ∨ 0x10FFFF < c) := fun h => h.elim hc.2 (Nat.not_lt.mpr (Nat.le_of_lt_succ hc.1))
    rw [scalarOf, if_neg hnot, if_pos hc]
  · have hor : IsSurrogate c ∨ 0x10FFFF < c := by
      by_contra hnot
      rw [not_or, Nat.not_lt] at hnot
      exact hc ⟨Nat.lt_succ_of_le hnot.2, hnot.1⟩
    rw [scalarOf, if_pos hor, if_neg hc]

theorem isScalar_scalarOf (c : CodePoint) : IsScalar (scalarOf c) := by
  rw [scalarOf_eq]
  split
  · assumption
  · decide

theorem encode_map_scalarOf (cs : List CodePoint) : encode (cs.map scalarOf) = encode cs := by
  rw [encode, List.flatMap_map, encode]
  congr 1
  funext c
  rw [encodeOne_of_isScalar (isScalar_scalarOf c), encodeOne, scalarOf_eq]

theorem decode_encode_eq_map (cs : List CodePoint) : decode (encode cs) = cs.map scalarOf := by
  rw [← encode_map_scalarOf]
  refine decode_encode fun c hc => ?_
  obtain ⟨c, -, rfl⟩ := List.mem_map.mp hc
  exact isScalar_scalarOf c

theorem wellFormed_encode (cs : List CodePoint) : WellFormed (encode cs) := by
  rw [← encode_map_scalarOf]
  induction cs with
  | nil => exact .nil
  | cons c cs ih =>
    rw [List.map_cons, encode, List.flatMap_cons, encodeOne_of_isScalar (isScalar_scalarOf c)]
    exact .append (isSequence_iff.mpr ⟨_, isScalar_scalarOf c, rfl⟩) ih

/-- A well-formed text is the encoding of scalar values. -/
theorem WellFormed.exists_encode {b : Bytes} (h : WellFormed b) : ∃ cs, (∀ c ∈ cs, IsScalar c) ∧ encode cs = b := by
  induction h with
  | nil => exact ⟨[], by simp, rfl⟩
  | append hs _ ih =>
    obtain ⟨c, hc, rfl⟩ := isSequence_iff.mp hs
    obtain ⟨cs, hcs, rfl⟩ := ih
    refine ⟨c :: cs, List.forall_mem_cons.mpr ⟨hc, hcs⟩, ?_⟩
    rw [encode, List.flatMap_cons, encodeOne_of_isScalar hc]
    rfl

/-! ## The functions for one sequence -/

/-- The number that a sequence stands for: the bits of its bytes, less those that tell its length. -/
def valueOf : Bytes → Nat
  | [a] => a.toNat
  | [a, b] => a.toNat % 0x20 * 0x40 + b.toNat % 0x40
  | [a, b, b'] => a.toNat % 0x10 * 0x1000 + b.toNat % 0x40 * 0x40 + b'.toNat % 0x40
  | [a, b, b', b''] =>
    a.toNat % 0x08 * 0x40000 + b.toNat % 0x40 * 0x1000 + b'.toNat % 0x40 * 0x40 + b''.toNat % 0x40
  | _ => 0

theorem valueOf_sequence {c : Nat} (hc : c < 0x110000) : valueOf (sequence c) = c := by
  rcases Nat.lt_or_ge c 0x80 with h1 | h1
  · rw [sequence, if_pos h1]
    exact toNat_toUInt8 (by omega)
  rw [sequence, if_neg (Nat.not_lt.mpr h1)]
  rcases Nat.lt_or_ge c 0x800 with h2 | h2
  · rw [if_pos h2, valueOf, toNat_toUInt8 (by omega), toNat_toUInt8 (by omega)]
    omega
  rw [if_neg (Nat.not_lt.mpr h2)]
  rcases Nat.lt_or_ge c 0x10000 with h3 | h3
  · rw [if_pos h3, valueOf, toNat_toUInt8 (by omega), toNat_toUInt8 (by omega), toNat_toUInt8 (by omega)]
    omega
  · rw [if_neg (Nat.not_lt.mpr h3), valueOf, toNat_toUInt8 (by omega), toNat_toUInt8 (by omega),
      toNat_toUInt8 (by omega), toNat_toUInt8 (by omega)]
    omega

/-- The table, with the numbers: a sequence of it that stands for a number is the one of this number. -/
theorem isSequence_valueOf_iff {q : Bytes} {c : CodePoint} :
    IsSequence q ∧ valueOf q = c ↔ IsScalar c ∧ q = sequence c := by
  constructor
  · rintro ⟨hq, rfl⟩
    obtain ⟨c, hc, rfl⟩ := isSequence_iff.mp hq
    rw [valueOf_sequence hc.1]
    exact ⟨hc, rfl⟩
  · rintro ⟨hc, rfl⟩
    exact ⟨isSequence_iff.mpr ⟨c, hc, rfl⟩, valueOf_sequence hc.1⟩

/-- What is read at the front of a text is a sequence of the table, with its number. -/
theorem first?_eq_some_iff_isSequence {s rest : Bytes} {c : CodePoint} :
    first? s = some (c, rest) ↔ ∃ q, (IsSequence q ∧ valueOf q = c) ∧ s = q ++ rest := by
  rw [first?_eq_some_iff]
  simp only [isSequence_valueOf_iff, and_assoc, exists_and_left, exists_eq_left]

/-- What the two loops call: `take` reads the sequence in front of a text and gives what follows it too, `put` writes
the sequence of a number. Either may fail. -/
structure Codec where
  take : Bytes → Option (CodePoint × Bytes)
  put : CodePoint → Option Bytes

namespace Codec

/-- Strict UTF-8: the sequences of the table are taken and put, with the numbers they stand for, and all else fails. -/
structure Strict (k : Codec) : Prop where
  take_eq_some_iff (s rest : Bytes) (c : CodePoint) :
    k.take s = some (c, rest) ↔ ∃ q, (IsSequence q ∧ valueOf q = c) ∧ s = q ++ rest
  put_eq_some_iff (c : CodePoint) (q : Bytes) : k.put c = some q ↔ IsSequence q ∧ valueOf q = c

variable {k : Codec}

/-- Being strict leaves `take` no choice. -/
theorem Strict.take_eq (hk : k.Strict) (s : Bytes) : k.take s = first? s := by
  refine Option.ext fun ⟨c, rest⟩ => ?_
  rw [hk.take_eq_some_iff, first?_eq_some_iff_isSequence]

theorem Strict.put_of_isScalar (hk : k.Strict) {c : CodePoint} (hc : IsScalar c) : k.put c = some (sequence c) :=
  (hk.put_eq_some_iff c _).mpr (isSequence_valueOf_iff.mpr ⟨hc, rfl⟩)

theorem Strict.put_of_not_isScalar (hk : k.Strict) {c : CodePoint} (hc : ¬ IsScalar c) : k.put c = none := by
  refine Option.eq_none_iff_forall_ne_some.mpr fun q hq => hc ?_
  exact (isSequence_valueOf_iff.mp ((hk.put_eq_some_iff c q).mp hq)).1

end Codec

/-- The functions of this library for one sequence. -/
def codec : Codec := ⟨first?, fun c => if IsScalar c then some (sequence c) else none⟩

theorem strict_codec : codec.Strict where
  take_eq_some_iff _ _ _ := first?_eq_some_iff_isSequence
  put_eq_some_iff c q := by
    rw [codec, isSequence_valueOf_iff, Option.ite_none_right_eq_some, Option.some_inj, eq_comm (a := q)]

/-! ## The loops -/

namespace Codec

variable {k : Codec}

/-- One turn of the loop that decodes: a byte of ASCII is taken as it is, otherwise the sequence in front, or one byte of
what is no sequence. -/
def turn (k : Codec) : Bytes × List CodePoint → Bytes × List CodePoint
  | ([], out) => ([], out)
  | (a :: rest, out) =>
    if a < 0x80 then (rest, out ++ [a.toNat])
    else
      match k.take (a :: rest) with
      | some (c, rest') => (rest', out ++ [c])
      | none => (rest, out ++ [replacement])

/-- One turn of the loop that encodes: U+FFFD is put for what cannot be put. -/
def append (k : Codec) (out : Bytes) (c : CodePoint) : Bytes := out ++ ((k.put c).or (k.put replacement)).getD []

theorem Strict.turn_of_first? (hk : k.Strict) {a : UInt8} {s rest : Bytes} {c : CodePoint}
    (h : first? (a :: s) = some (c, rest)) (out : List CodePoint) : k.turn (a :: s, out) = (rest, out ++ [c]) := by
  by_cases ha : a < 0x80
  · obtain ⟨rfl, rfl⟩ := Prod.mk.inj (Option.some.inj ((first?_one ha s).symm.trans h))
    rw [turn, if_pos ha]
  · simp only [turn, if_neg ha, hk.take_eq, h]

theorem Strict.turn_of_first?_eq_none (hk : k.Strict) {a : UInt8} {s : Bytes} (h : first? (a :: s) = none)
    (out : List CodePoint) : k.turn (a :: s, out) = (s, out ++ [replacement]) := by
  have ha : ¬ a < 0x80 := fun ha => Option.some_ne_none _ ((first?_one ha s).symm.trans h)
  simp only [turn, if_neg ha, hk.take_eq, h]

/-- The loop ends: each turn takes a byte at least, and gives the next code point. -/
theorem Strict.iterate_turn (hk : k.Strict) (b : Bytes) (out : List CodePoint) :
    ∃ n ≤ b.length, k.turn^[n] (b, out) = ([], out ++ decode b) := by
  induction b using decode.induct generalizing out with
  | case1 s c rest h hlt ih =>
    obtain ⟨n, hn, hturn⟩ := ih (out ++ [c])
    cases s with
    | nil => cases h
    | cons a s =>
      refine ⟨n + 1, by omega, ?_⟩
      rw [Function.iterate_succ_apply, hk.turn_of_first? h, hturn, decode_of_first? h]
      simp
  | case2 h => exact ⟨0, Nat.le_refl _, by rw [decode_nil, List.append_nil]; rfl⟩
  | case3 a rest h ih =>
    obtain ⟨n, hn, hturn⟩ := ih (out ++ [replacement])
    refine ⟨n + 1, by rw [List.length_cons]; omega, ?_⟩
    rw [Function.iterate_succ_apply, hk.turn_of_first?_eq_none h, hturn, decode_of_first?_eq_none h]
    simp

theorem Strict.append_eq (hk : k.Strict) (out : Bytes) (c : CodePoint) : k.append out c = out ++ encodeOne c := by
  by_cases hc : IsScalar c
  · rw [append, hk.put_of_isScalar hc, encodeOne_of_isScalar hc]
    rfl
  · rw [append, hk.put_of_not_isScalar hc, hk.put_of_isScalar (c := replacement) (by decide), encodeOne, if_neg hc]
    rfl

theorem Strict.foldl_append (hk : k.Strict) (cs : List CodePoint) (out : Bytes) :
    cs.foldl k.append out = out ++ encode cs := by
  induction cs generalizing out with
  | nil => exact (List.append_nil out).symm
  | cons c cs ih => rw [List.foldl_cons, ih, hk.append_eq, List.append_assoc]; rfl

end Codec

/-! ## Both ways -/

/-- **Conversion is exact.** Code points come back from their encoding, with U+FFFD for surrogates and for what is above
U+10FFFF. The loops encode and decode if they call strict functions for one sequence, and the one that decodes ends.
What it gives is encoded as well-formed UTF-8, which is decoded alike. This is the same text just if the text was
well-formed. -/
theorem conversion_exact (cs : List CodePoint) (b : Bytes) :
    decode (encode cs) = cs.map scalarOf ∧
      (∀ k : Codec, k.Strict →
        cs.foldl k.append [] = encode cs ∧ ∃ n ≤ b.length, k.turn^[n] (b, []) = ([], decode b)) ∧
      WellFormed (encode (decode b)) ∧ decode (encode (decode b)) = decode b ∧
      (encode (decode b) = b ↔ WellFormed b) := by
  refine ⟨decode_encode_eq_map cs, ?_, wellFormed_encode _, decode_encode isScalar_of_mem_decode, ?_, ?_⟩
  · exact fun k hk => ⟨hk.foldl_append cs [], hk.iterate_turn b []⟩
  · intro h
    rw [← h]
    exact wellFormed_encode _
  · intro h
    obtain ⟨cs, hcs, rfl⟩ := h.exists_encode
    rw [decode_encode hcs]

/-- A surrogate is put as U+FFFD; its sequence is taken byte by byte, and what comes before it is taken whole. -/
theorem codec_refuses_surrogate :
    codec.Strict ∧ [0x41, 0xD800].foldl codec.append [] = [0x41, 0xEF, 0xBF, 0xBD] ∧
      ∃ n ≤ 5, codec.turn^[n] ([0xC3, 0xA9, 0xED, 0xA0, 0x80], []) = ([], [0xE9, 0xFFFD, 0xFFFD, 0xFFFD]) := by
  obtain ⟨-, hloops, -⟩ := conversion_exact [0x41, 0xD800] [0xC3, 0xA9, 0xED, 0xA0, 0x80]
  obtain ⟨happend, hturn⟩ := hloops codec strict_codec
  have hdecode : decode [0xC3, 0xA9, 0xED, 0xA0, 0x80] = [0xE9, 0xFFFD, 0xFFFD, 0xFFFD] := by
    have hfirst : first? [0xC3, 0xA9, 0xED, 0xA0, 0x80] = some (0xE9, [0xED, 0xA0, 0x80]) := by decide
    rw [decode_of_first? hfirst, decode_of_first?_eq_none (by decide), decode_of_first?_eq_none (by decide),
      decode_of_first?_eq_none (by decide), decode_nil]
    rfl
  rw [hdecode] at hturn
  exact ⟨strict_codec, happend.trans (by decide), hturn⟩

end Typewright.Utf8
