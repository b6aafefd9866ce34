import Mathlib
import Typewright.Text.Utf8

/-!
# Encoding and decoding

* `Utf8.first?_sequence` : the sequence of a scalar value is read back as the value, whatever follows it;
* `Utf8.decode_encode` : so scalar values that are encoded are decoded again;
* `Utf8.encode_eq_flatMap` : scalar values are the numbers of characters, and encoding them gives the UTF-8 that the
  standard library gives for the characters;
* `Utf8.first?_eq_some_iff` : what is read at the front is just the sequence of a scalar value;
* `Utf8.isScalar_of_mem_decode` : whatever is decoded, the outcome consists of scalar values.
-/

namespace Typewright.Utf8

/-! ## One sequence -/

theorem toNat_toUInt8 {n : Nat} (h : n < 256) : n.toUInt8.toNat = n := by
  rw [Nat.toUInt8, UInt8.toNat_ofNat', Nat.mod_eq_of_lt h]

theorem tailBits_eq (b : UInt8) : tailBits b = b.toNat - 0x80 := rfl

theorem isTail_iff (b : UInt8) : IsTail b ↔ 0x80 ≤ b.toNat ∧ b.toNat < 0xC0 := Iff.rfl

/-- Six bits make a byte that continues a sequence, and the byte carries them. -/
theorem isTail_toUInt8 {n : Nat} (h : n < 0x40) : IsTail (0x80 + n).toUInt8 ∧ tailBits (0x80 + n).toUInt8 = n := by
  have hbyte : (0x80 + n).toUInt8.toNat = 0x80 + n := toNat_toUInt8 (by omega)
  have hbits := tailBits_eq (0x80 + n).toUInt8
  rw [isTail_iff]
  omega

theorem first?_one {a : UInt8} (h : a.toNat < 0x80) (rest : Bytes) : first? (a :: rest) = some (a.toNat, rest) := by
  have h1 : a < 0x80 := h
  simp only [first?, h1, if_true]

theorem first?_two {a b : UInt8} (h : 0xC2 ≤ a.toNat) (h' : a.toNat < 0xE0) (hb : IsTail b) (rest : Bytes) :
    first? (a :: b :: rest) = some ((a.toNat - 0xC0) * 0x40 + tailBits b, rest) := by
  have h1 : ¬ a < 0x80 := fun hlt => Nat.not_lt.mpr h (Nat.lt_of_lt_of_le (show a.toNat < 0x80 from hlt) (by decide))
  have h2 : a < 0xE0 := h'
  have h3 : 0xC2 ≤ a := h
  simp only [first?, h1, h2, h3, hb, if_true, if_false, and_self]

theorem first?_three {a b b' : UInt8} (h : 0xE0 ≤ a.toNat) (h' : a.toNat < 0xF0) (hb : IsTail b) (hb' : IsTail b')
    {c : Nat} (hc : (a.toNat - 0xE0) * 0x1000 + tailBits b * 0x40 + tailBits b' = c) (hlow : 0x800 ≤ c)
    (hscalar : ¬ IsSurrogate c) (rest : Bytes) : first? (a :: b :: b' :: rest) = some (c, rest) := by
  have h1 : ¬ a < 0x80 := fun hlt => Nat.not_lt.mpr h (Nat.lt_of_lt_of_le (show a.toNat < 0x80 from hlt) (by decide))
  have h2 : ¬ a < 0xE0 := Nat.not_lt.mpr h
  have h3 : a < 0xF0 := h'
  simp only [first?, h1, h2, h3, hb, hb', hc, hscalar, if_true, if_false, not_false_eq_true, true_and, and_true]
  exact if_pos hlow

theorem first?_four {a b b' b'' : UInt8} (h : 0xF0 ≤ a.toNat) (hb : IsTail b) (hb' : IsTail b') (hb'' : IsTail b'')
    {c : Nat} (hc : (a.toNat - 0xF0) * 0x40000 + tailBits b * 0x1000 + tailBits b' * 0x40 + tailBits b'' = c)
    (hlow : 0x10000 ≤ c) (hhigh : c < 0x110000) (rest : Bytes) :
    first? (a :: b :: b' :: b'' :: rest) = some (c, rest) := by
  have h1 : ¬ a < 0x80 := fun hlt => Nat.not_lt.mpr h (Nat.lt_of_lt_of_le (show a.toNat < 0x80 from hlt) (by decide))
  have h2 : ¬ a < 0xE0 := fun hlt => Nat.not_lt.mpr h (Nat.lt_of_lt_of_le (show a.toNat < 0xE0 from hlt) (by decide))
  have h3 : ¬ a < 0xF0 := Nat.not_lt.mpr h
  simp only [first?, h1, h2, h3, hb, hb', hb'', hc, if_false, true_and]
  exact if_pos ⟨hlow, hhigh⟩

/-- **A sequence is read back as its scalar value.** -/
theorem first?_sequence {c : Nat} (hc : IsScalar c) (rest : Bytes) : first? (sequence c ++ rest) = some (c, rest) := by
  have hmax : c < 0x110000 := hc.1
  rcases Nat.lt_or_ge c 0x80 with h1 | h1
  · have ha : c.toUInt8.toNat = c := toNat_toUInt8 (by omega)
    have hfirst := first?_one (a := c.toUInt8) (by omega) rest
    rw [ha] at hfirst
    rw [sequence, if_pos h1]
    exact hfirst
  rcases Nat.lt_or_ge c 0x800 with h2 | h2
  · have ha : (0xC0 + c / 0x40).toUInt8.toNat = 0xC0 + c / 0x40 := toNat_toUInt8 (by omega)
    obtain ⟨hb, hbits⟩ := isTail_toUInt8 (n := c % 0x40) (by omega)
    have hfirst := first?_two (a := (0xC0 + c / 0x40).toUInt8) (by omega) (by omega) hb rest
    rw [hbits, ha, Nat.add_sub_cancel_left, Nat.div_add_mod'] at hfirst
    rw [sequence, if_neg (Nat.not_lt.mpr h1), if_pos h2]
    exact hfirst
  obtain ⟨hlast, hlastBits⟩ := isTail_toUInt8 (n := c % 0x40) (by omega)
  obtain ⟨hmiddle, hmiddleBits⟩ := isTail_toUInt8 (n := c / 0x40 % 0x40) (by omega)
  rcases Nat.lt_or_ge c 0x10000 with h3 | h3
  · have ha : (0xE0 + c / 0x1000).toUInt8.toNat = 0xE0 + c / 0x1000 := toNat_toUInt8 (by omega)
    rw [sequence, if_neg (Nat.not_lt.mpr h1), if_neg (Nat.not_lt.mpr h2), if_pos h3]
    refine first?_three (by omega) (by omega) hmiddle hlast ?_ h2 hc.2 rest
    rw [hmiddleBits, hlastBits, ha]
    omega
  · have ha : (0xF0 + c / 0x40000).toUInt8.toNat = 0xF0 + c / 0x40000 := toNat_toUInt8 (by omega)
    obtain ⟨hsecond, hsecondBits⟩ := isTail_toUInt8 (n := c / 0x1000 % 0x40) (by omega)
    rw [sequence, if_neg (Nat.not_lt.mpr h1), if_neg (Nat.not_lt.mpr h2), if_neg (Nat.not_lt.mpr h3)]
    refine first?_four (by omega) hsecond hmiddle hlast ?_ h3 hmax rest
    rw [hsecondBits, hmiddleBits, hlastBits, ha]
    omega

/-! ## Texts -/

theorem encodeOne_of_isScalar {c : CodePoint} (h : IsScalar c) : encodeOne c = sequence c := by
  rw [encodeOne, if_pos h]

theorem encode_append (cs ds : List CodePoint) : encode (cs ++ ds) = encode cs ++ encode ds := List.flatMap_append

theorem decode_nil : decode [] = [] := by
  rw [decode]
  rfl

theorem decode_of_first? {s rest : Bytes} {c : CodePoint} (h : first? s = some (c, rest)) :
    decode s = c :: decode rest := by
  rw [decode]
  split <;> simp_all

theorem decode_of_first?_eq_none {a : UInt8} {rest : Bytes} (h : first? (a :: rest) = none) :
    decode (a :: rest) = replacement :: decode rest := by
  rw [decode]
  split <;> simp_all

theorem decode_encode {cs : List CodePoint} (h : ∀ c ∈ cs, IsScalar c) : decode (encode cs) = cs := by
  induction cs with
  | nil => exact decode_nil
  | cons c cs ih =>
    have hc : IsScalar c := h c List.mem_cons_self
    have hfirst : first? (encode (c :: cs)) = some (c, encode cs) := by
      rw [encode, List.flatMap_cons, encodeOne_of_isScalar hc]
      exact first?_sequence hc (encode cs)
    rw [decode_of_first? hfirst, ih fun x hx => h x (List.mem_cons_of_mem c hx)]

/-! ## Characters -/

theorem isScalar_iff_isValidChar (c : Nat) : IsScalar c ↔ c.isValidChar := by
  change c < 0x110000 ∧ ¬ (0xD800 ≤ c ∧ c < 0xE000) ↔ c < 0xD800 ∨ 0xDFFF < c ∧ c < 0x110000
  omega

/-- The sequence of a character is the one of the standard library. -/
theorem sequence_toNat (c : Char) : sequence c.toNat = String.utf8EncodeChar c := by
  have hmax : c.toNat < 0x110000 := ((isScalar_iff_isValidChar c.toNat).mpr c.valid).1
  have hvalue : c.val.toNat = c.toNat := rfl
  simp only [String.utf8EncodeChar, hvalue]
  generalize c.toNat = n at hmax ⊢
  rcases Nat.lt_or_ge n 0x80 with h1 | h1
  · rw [sequence, if_pos h1, if_pos (show n ≤ 127 by omega)]
  rw [sequence, if_neg (Nat.not_lt.mpr h1), if_neg (show ¬ n ≤ 127 by omega)]
  rcases Nat.lt_or_ge n 0x800 with h2 | h2
  · rw [if_pos h2, if_pos (show n ≤ 2047 by omega), show n / 64 % 32 + 192 = 0xC0 + n / 0x40 by omega,
      Nat.add_comm (n % 64)]
  rw [if_neg (Nat.not_lt.mpr h2), if_neg (show ¬ n ≤ 2047 by omega), Nat.add_comm (n % 64), Nat.add_comm (n / 64 % 64)]
  rcases Nat.lt_or_ge n 0x10000 with h3 | h3
  · rw [if_pos h3, if_pos (show n ≤ 65535 by omega), show n / 4096 % 16 + 224 = 0xE0 + n / 0x1000 by omega]
  · rw [if_neg (Nat.not_lt.mpr h3), if_neg (show ¬ n ≤ 65535 by omega),
      show n / 262144 % 8 + 240 = 0xF0 + n / 0x40000 by omega, Nat.add_comm (n / 4096 % 64)]

/-- **Scalar values are the numbers of characters, and their encoding is the UTF-8 of the characters.** -/
theorem encode_eq_flatMap {cs : List CodePoint} (h : ∀ c ∈ cs, IsScalar c) :
    ∃ chars : List Char, chars.map Char.toNat = cs ∧ encode cs = chars.flatMap String.utf8EncodeChar := by
  induction cs with
  | nil => exact ⟨[], rfl, rfl⟩
  | cons c cs ih =>
    obtain ⟨chars, rfl, hencode⟩ := ih fun x hx => h x (List.mem_cons_of_mem c hx)
    have hc : IsScalar c := h c List.mem_cons_self
    have hchar : (Char.ofNat c).toNat = c := by
      rw [Char.toNat_ofNat, if_pos ((isScalar_iff_isValidChar c).mp hc)]
    refine ⟨Char.ofNat c :: chars, by rw [List.map_cons, hchar], ?_⟩
    rw [encode, List.flatMap_cons, List.flatMap_cons, ← hencode, ← sequence_toNat, hchar, encodeOne_of_isScalar hc]
    rfl

/-! ## What is decoded -/

theorem toUInt8_eq {b : UInt8} {n : Nat} (h : n = b.toNat) : n.toUInt8 = b := by
  rw [h, Nat.toUInt8, UInt8.ofNat_toNat]

theorem isScalar_of_lt {c : Nat} (h : c < 0xD800) : IsScalar c := (isScalar_iff_isValidChar c).mpr (.inl h)

theorem isScalar_of_ge {c : Nat} (h : 0xE000 ≤ c) (h' : c < 0x110000) : IsScalar c :=
  (isScalar_iff_isValidChar c).mpr (.inr ⟨h, h'⟩)

theorem exists_scalar_one {a : UInt8} (ha : a.toNat ≤ 0x7F) : ∃ c, IsScalar c ∧ sequence c = [a] := by
  have h1 : a.toNat < 0x80 := by omega
  refine ⟨a.toNat, isScalar_of_lt (by omega), ?_⟩
  rw [sequence, if_pos h1, toUInt8_eq rfl]

theorem exists_scalar_two {a b : UInt8} (ha : 0xC2 ≤ a.toNat ∧ a.toNat ≤ 0xDF) (hb : 0x80 ≤ b.toNat ∧ b.toNat ≤ 0xBF) :
    ∃ c, IsScalar c ∧ sequence c = [a, b] := by
  obtain ⟨c, hc⟩ : ∃ c, c = (a.toNat - 0xC0) * 0x40 + (b.toNat - 0x80) := ⟨_, rfl⟩
  have h1 : ¬ c < 0x80 := by omega
  have h2 : c < 0x800 := by omega
  refine ⟨c, isScalar_of_lt (by omega), ?_⟩
  rw [sequence, if_neg h1, if_pos h2, toUInt8_eq (b := a) (by omega), toUInt8_eq (b := b) (by omega)]

/-- Three bytes: the second one is restricted behind `E0`, where shorter sequences do, and behind `ED`, where the
surrogates would be. -/
theorem exists_scalar_three {a b b' : UInt8} (ha : 0xE0 ≤ a.toNat ∧ a.toNat ≤ 0xEF)
    (hb : 0x80 ≤ b.toNat ∧ b.toNat ≤ 0xBF) (hb' : 0x80 ≤ b'.toNat ∧ b'.toNat ≤ 0xBF)
    (hE0 : a.toNat = 0xE0 → 0xA0 ≤ b.toNat) (hED : a.toNat = 0xED → b.toNat ≤ 0x9F) :
    ∃ c, IsScalar c ∧ sequence c = [a, b, b'] := by
  obtain ⟨c, hc⟩ : ∃ c, c = (a.toNat - 0xE0) * 0x1000 + (b.toNat - 0x80) * 0x40 + (b'.toNat - 0x80) := ⟨_, rfl⟩
  have h1 : ¬ c < 0x80 := by omega
  have h2 : ¬ c < 0x800 := by omega
  have h3 : c < 0x10000 := by omega
  refine ⟨c, ?_, ?_⟩
  · rcases Nat.lt_or_ge a.toNat 0xEE with hlt | hge
    · exact isScalar_of_lt (by omega)
    · exact isScalar_of_ge (by omega) (by omega)
  · rw [sequence, if_neg h1, if_neg h2, if_pos h3, toUInt8_eq (b := a) (by omega), toUInt8_eq (b := b) (by omega),
      toUInt8_eq (b := b') (by omega)]

/-- Four bytes: the second one is restricted behind `F0`, where shorter sequences do, and behind `F4`, where the code
points end. -/
theorem exists_scalar_four {a b b' b'' : UInt8} (ha : 0xF0 ≤ a.toNat ∧ a.toNat ≤ 0xF4)
    (hb : 0x80 ≤ b.toNat ∧ b.toNat ≤ 0xBF) (hb' : 0x80 ≤ b'.toNat ∧ b'.toNat ≤ 0xBF)
    (hb'' : 0x80 ≤ b''.toNat ∧ b''.toNat ≤ 0xBF) (hF0 : a.toNat = 0xF0 → 0x90 ≤ b.toNat)
    (hF4 : a.toNat = 0xF4 → b.toNat ≤ 0x8F) : ∃ c, IsScalar c ∧ sequence c = [a, b, b', b''] := by
  obtain ⟨c, hc⟩ : ∃ c, c = (a.toNat - 0xF0) * 0x40000 + (b.toNat - 0x80) * 0x1000 + (b'.toNat - 0x80) * 0x40
      + (b''.toNat - 0x80) := ⟨_, rfl⟩
  have h1 : ¬ c < 0x80 := by omega
  have h2 : ¬ c < 0x800 := by omega
  have h3 : ¬ c < 0x10000 := by omega
  refine ⟨c, isScalar_of_ge (by omega) (by omega), ?_⟩
  rw [sequence, if_neg h1, if_neg h2, if_neg h3, toUInt8_eq (b := a) (by omega), toUInt8_eq (b := b) (by omega),
    toUInt8_eq (b := b') (by omega), toUInt8_eq (b := b'') (by omega)]

theorem IsTail.bounds {b : UInt8} (h : IsTail b) : 0x80 ≤ b.toNat ∧ b.toNat ≤ 0xBF := ⟨h.1, Nat.le_of_lt_succ h.2⟩

theorem isSurrogate_iff (c : Nat) : IsSurrogate c ↔ 0xD800 ≤ c ∧ c < 0xE000 := Iff.rfl

/-- What is read at the front is the sequence of a scalar value. -/
theorem exists_sequence_of_first? {s rest : Bytes} {c : Nat} (h : first? s = some (c, rest)) :
    ∃ c', IsScalar c' ∧ s = sequence c' ++ rest := by
  cases s with
  | nil => cases h
  | cons a s =>
    simp only [first?] at h
    split at h
    · next ha =>
      obtain ⟨-, rfl⟩ := Prod.mk.inj (Option.some.inj h)
      obtain ⟨c', hc', hone⟩ := exists_scalar_one (Nat.le_of_lt_succ (show a.toNat < 0x80 from ha))
      exact ⟨c', hc', by rw [hone]; rfl⟩
    split at h
    · next ha =>
      have ha' : a.toNat < 0xE0 := ha
      split at h
      · next b rest =>
        obtain ⟨⟨hlow, hb⟩, h⟩ := Option.ite_none_right_eq_some.mp h
        obtain ⟨-, rfl⟩ := Prod.mk.inj (Option.some.inj h)
        have hlow' : 0xC2 ≤ a.toNat := hlow
        obtain ⟨c', hc', htwo⟩ := exists_scalar_two (a := a) (by omega) hb.bounds
        exact ⟨c', hc', by rw [htwo]; rfl⟩
      · cases h
    split at h
    · next ha ha3 =>
      have ha' : 0xE0 ≤ a.toNat ∧ a.toNat < 0xF0 := ⟨Nat.not_lt.mp ha, ha3⟩
      split at h
      · next b b' rest =>
        obtain ⟨⟨hb, hb', hlow, hscalar⟩, h⟩ := Option.ite_none_right_eq_some.mp h
        obtain ⟨-, rfl⟩ := Prod.mk.inj (Option.some.inj h)
        have hbounds := hb.bounds
        have hbounds' := hb'.bounds
        simp only [isSurrogate_iff, tailBits_eq] at hlow hscalar
        obtain ⟨c', hc', hthree⟩ := exists_scalar_three (a := a) (by omega) hbounds hbounds' (by omega) (by omega)
        exact ⟨c', hc', by rw [hthree]; rfl⟩
      · cases h
    · next ha =>
      have ha' : 0xF0 ≤ a.toNat := Nat.not_lt.mp ha
      split at h
      · next b b' b'' rest =>
        obtain ⟨⟨hb, hb', hb'', hlow, hhigh⟩, h⟩ := Option.ite_none_right_eq_some.mp h
        obtain ⟨-, rfl⟩ := Prod.mk.inj (Option.some.inj h)
        have hbounds := hb.bounds
        have hbounds' := hb'.bounds
        have hbounds'' := hb''.bounds
        simp only [tailBits_eq] at hlow hhigh
        obtain ⟨c', hc', hfour⟩ := exists_scalar_four (a := a) (by omega) hbounds hbounds' hbounds'' (by omega)
          (by omega)
        exact ⟨c', hc', by rw [hfour]; rfl⟩
      · cases h

/-- **What is read at the front is a scalar value, and it is read from its sequence.** -/
theorem first?_eq_some_iff {s rest : Bytes} {c : Nat} :
    first? s = some (c, rest) ↔ IsScalar c ∧ s = sequence c ++ rest := by
  constructor
  · intro h
    obtain ⟨c', hc', rfl⟩ := exists_sequence_of_first? h
    obtain ⟨rfl, -⟩ := Prod.mk.inj (Option.some.inj ((first?_sequence hc' rest).symm.trans h))
    exact ⟨hc', rfl⟩
  · rintro ⟨hc, rfl⟩
    exact first?_sequence hc rest

theorem isScalar_of_mem_decode {s : Bytes} : ∀ c ∈ decode s, IsScalar c := by
  induction s using decode.induct with
  | case1 s c rest h hlt ih =>
    rw [decode_of_first? h]
    exact List.forall_mem_cons.mpr ⟨(first?_eq_some_iff.mp h).1, ih⟩
  | case2 h =>
    rw [decode_nil]
    exact fun x hx => absurd hx List.not_mem_nil
  | case3 a rest h ih =>
    rw [decode_of_first?_eq_none h]
    exact List.forall_mem_cons.mpr ⟨by decide, ih⟩

end Typewright.Utf8
