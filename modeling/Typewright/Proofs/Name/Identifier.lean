import Mathlib
import Typewright.Name.Identifier
import Typewright.Proofs.Text.Bytes
import Typewright.Proofs.Text.CharacterTable

/-!
# Styled labels are identifiers

* `CharacterData.KnowsAscii.ascii_classes`, `CharacterData.KnowsAscii.apply_eq` : what a database says of ASCII
  characters;
* `Identifier.IsIdentifier u o s` : `s` is the UTF-8 of characters that may stand in identifiers, and the first of them
  may start one;
* `Identifier.Spelled`, `Identifier.Named` : the same in terms of code points, without and with a first one;
* `Identifier.isPart_toUpper`, `Identifier.isPart_toLower` : changing the case of a character of identifiers gives
  another;
* `Identifier.Named.append`, `Identifier.named_combine` : names are closed under what styling does;
* `Identifier.isIdentifier_of_label` : every label is styled into identifiers.
-/

namespace Typewright

variable {u : CharacterData} {o : Options}

/-! ## ASCII characters -/

namespace CharacterData

theorem lt_of_isAsciiWord {c : Nat} (h : Character.isAsciiWord c = true) : c < 128 := by
  have h' : ((97 ≤ c ∧ c ≤ 122 ∨ 65 ≤ c ∧ c ≤ 90) ∨ 48 ≤ c ∧ c ≤ 57) ∨ c = 95 := by
    simpa [Character.isAsciiWord, Character.isAsciiLetter] using h
  omega

theorem isAsciiWord_ascii : ∀ c < 128, Character.isAsciiWord c = true →
    ascii.category c ≠ .other ∧ Character.isAsciiWord (ascii.toUpper c) = true ∧
      Character.isAsciiWord (ascii.toLower c) = true ∧
      (Character.isAsciiLetter c = true → ascii.isAlphabetic c = true) := by
  decide +kernel

/-- The letters and digits of ASCII have a category, and changing case leads to others of them. -/
theorem KnowsAscii.ascii_classes (hu : u.KnowsAscii) {c : CodePoint} (h : Character.isAsciiWord c = true) :
    u.category c ≠ .other ∧ Character.isAsciiWord (u.toUpper c) = true ∧ Character.isAsciiWord (u.toLower c) = true ∧
      (Character.isAsciiLetter c = true → u.isAlphabetic c = true) := by
  have hc := lt_of_isAsciiWord h
  rw [isAlphabetic, isLetter, hu.category_ascii c hc, hu.toUpper_ascii c hc, hu.toLower_ascii c hc]
  exact isAsciiWord_ascii c hc h

/-- ASCII texts are styled alike, whatever else a database knows. -/
theorem KnowsAscii.apply_eq (hu : u.KnowsAscii) (style : WordStyle) {s : Bytes} (hs : ∀ c ∈ Utf8.decode s, c < 128) :
    style.apply u s = style.apply ascii s := by
  have hupper : ∀ {cs : List CodePoint}, (∀ c ∈ cs, c < 128) → cs.map u.toUpper = cs.map ascii.toUpper :=
    fun h => List.map_congr_left fun c hc => hu.toUpper_ascii c (h c hc)
  have hlower : ∀ {cs : List CodePoint}, (∀ c ∈ cs, c < 128) → cs.map u.toLower = cs.map ascii.toLower :=
    fun h => List.map_congr_left fun c hc => hu.toLower_ascii c (h c hc)
  cases style with
  | unchanged => rfl
  | allUpper => rw [WordStyle.apply, WordStyle.apply, hupper hs]
  | allLower => rw [WordStyle.apply, WordStyle.apply, hlower hs]
  | firstUpper =>
    rw [WordStyle.apply, WordStyle.apply]
    cases hdecode : Utf8.decode s with
    | nil => rfl
    | cons c cs =>
      rw [hdecode] at hs
      obtain ⟨hc, hcs⟩ := List.forall_mem_cons.mp hs
      dsimp only
      rw [hu.toUpper_ascii c hc, hlower hcs]

theorem category_ascii_iff (c : Nat) :
    ascii.category c ≠ .other ↔ (65 ≤ c ∧ c ≤ 90) ∨ (97 ≤ c ∧ c ≤ 122) ∨ (48 ≤ c ∧ c ≤ 57) ∨ c = 95 := by
  simp only [ascii]
  split_ifs <;> simp_all

theorem standard_ascii : ascii.Standard where
  category_ascii _ _ := rfl
  toUpper_ascii _ _ := rfl
  toLower_ascii _ _ := rfl
  isScalar := fun (c : Nat) h => by
    rw [category_ascii_iff] at h
    rw [Utf8.isScalar_iff_isValidChar]
    exact Or.inl (by omega)
  category_toUpper := fun (c : Nat) h => by
    rw [category_ascii_iff] at h
    rw [category_ascii_iff, show ascii.toUpper c = if 97 ≤ c ∧ c ≤ 122 then c - 32 else c from rfl]
    split_ifs <;> omega
  category_toLower := fun (c : Nat) h => by
    rw [category_ascii_iff] at h
    rw [category_ascii_iff, show ascii.toLower c = if 65 ≤ c ∧ c ≤ 90 then c + 32 else c from rfl]
    split_ifs <;> omega

end CharacterData

namespace Identifier

open CharacterData (lt_of_isAsciiWord)

/-- A text that is an identifier: UTF-8, with a first character that may start an identifier and only characters that
may stand in one. -/
def IsIdentifier (u : CharacterData) (o : Options) (s : Bytes) : Prop :=
  ∃ (c : Char) (cs : List Char), s = (c :: cs).flatMap String.utf8EncodeChar ∧ isStart u o c.toNat = true ∧
    ∀ x ∈ c :: cs, isPart u o x.toNat = true

/-- A text of characters that may stand in identifiers. -/
def Spelled (u : CharacterData) (o : Options) (s : Bytes) : Prop :=
  ∃ cs : List CodePoint, s = Utf8.encode cs ∧ ∀ c ∈ cs, isPart u o c = true

/-- A text of such characters, of which the first may start an identifier. -/
def Named (u : CharacterData) (o : Options) (s : Bytes) : Prop :=
  ∃ (c : CodePoint) (cs : List CodePoint), s = Utf8.encode (c :: cs) ∧ isStart u o c = true ∧
    ∀ x ∈ c :: cs, isPart u o x = true

/-! ## The characters of identifiers -/

/-- Without the restriction to ASCII, identifiers hold the characters of every category but `other`. -/
theorem isPart_iff_category (hu : u.KnowsAscii) (ho : o.asciiIdentifiers = false) (c : CodePoint) :
    isPart u o c = true ↔ u.category c ≠ .other := by
  by_cases hc : c = 95
  · have hline : u.category 95 = .connector := hu.category_ascii 95 (by decide)
    simp [hc, isPart, isStart, ho, hline]
  · rw [isPart, isStart, ho]
    cases hk : u.category c <;>
      simp [hc, hk, CharacterData.isAlphabetic, CharacterData.isLetter, CharacterData.isDigit,
        CharacterData.isConnector, CharacterData.isMark]

theorem category_of_isPart (hu : u.KnowsAscii) {c : CodePoint} (h : isPart u o c = true) : u.category c ≠ .other := by
  cases ho : o.asciiIdentifiers with
  | false => exact (isPart_iff_category hu ho c).mp h
  | true =>
    rw [isPart, ho] at h
    exact (hu.ascii_classes h).1

theorem isPart_of_isAsciiWord (hu : u.KnowsAscii) {c : CodePoint} (h : Character.isAsciiWord c = true) :
    isPart u o c = true := by
  cases ho : o.asciiIdentifiers with
  | false => exact (isPart_iff_category hu ho c).mpr (hu.ascii_classes h).1
  | true =>
    rw [isPart, ho]
    exact h

theorem isPart_toUpper (hu : u.Standard) {c : CodePoint} (h : isPart u o c = true) :
    isPart u o (u.toUpper c) = true := by
  have hcategory := category_of_isPart hu.toKnowsAscii h
  cases ho : o.asciiIdentifiers with
  | false => exact (isPart_iff_category hu.toKnowsAscii ho _).mpr (hu.category_toUpper c hcategory)
  | true =>
    rw [isPart, ho] at h ⊢
    exact (hu.ascii_classes h).2.1

theorem isPart_toLower (hu : u.Standard) {c : CodePoint} (h : isPart u o c = true) :
    isPart u o (u.toLower c) = true := by
  have hcategory := category_of_isPart hu.toKnowsAscii h
  cases ho : o.asciiIdentifiers with
  | false => exact (isPart_iff_category hu.toKnowsAscii ho _).mpr (hu.category_toLower c hcategory)
  | true =>
    rw [isPart, ho] at h ⊢
    exact (hu.ascii_classes h).2.2.1

/-! ## Texts -/

theorem isScalar_of_forall (hu : u.Standard) {cs : List CodePoint} (h : ∀ c ∈ cs, isPart u o c = true) :
    ∀ c ∈ cs, Utf8.IsScalar c :=
  fun c hc => hu.isScalar c (category_of_isPart hu.toKnowsAscii (h c hc))

theorem spelled_legalize (s : Bytes) : Spelled u o (legalize (isPart u o) s) :=
  ⟨_, rfl, fun _ hc => (List.mem_filter.mp hc).2⟩

theorem spelled_nil : Spelled u o [] := ⟨[], rfl, fun _ hc => absurd hc List.not_mem_nil⟩

theorem Spelled.append {s t : Bytes} (hs : Spelled u o s) (ht : Spelled u o t) : Spelled u o (s ++ t) := by
  obtain ⟨cs, rfl, hcs⟩ := hs
  obtain ⟨ds, rfl, hds⟩ := ht
  refine ⟨cs ++ ds, (Utf8.encode_append cs ds).symm, fun c hc => ?_⟩
  rcases List.mem_append.mp hc with hc | hc
  · exact hcs c hc
  · exact hds c hc

theorem Spelled.apply (hu : u.Standard) {s : Bytes} (hs : Spelled u o s) (style : WordStyle) :
    Spelled u o (style.apply u s) := by
  obtain ⟨cs, rfl, hcs⟩ := hs
  have hdecode := Utf8.decode_encode (isScalar_of_forall hu hcs)
  cases style with
  | unchanged => exact ⟨cs, rfl, hcs⟩
  | allUpper =>
    rw [WordStyle.apply, hdecode]
    refine ⟨_, rfl, List.forall_mem_map.mpr fun c hc => isPart_toUpper hu (hcs c hc)⟩
  | allLower =>
    rw [WordStyle.apply, hdecode]
    refine ⟨_, rfl, List.forall_mem_map.mpr fun c hc => isPart_toLower hu (hcs c hc)⟩
  | firstUpper =>
    rw [WordStyle.apply, hdecode]
    cases cs with
    | nil => exact ⟨[], rfl, hcs⟩
    | cons c cs =>
      obtain ⟨hc, hcs⟩ := List.forall_mem_cons.mp hcs
      refine ⟨_, rfl, List.forall_mem_cons.mpr ⟨isPart_toUpper hu hc, ?_⟩⟩
      exact List.forall_mem_map.mpr fun x hx => isPart_toLower hu (hcs x hx)

theorem spelled_join {sep : Bytes} (hsep : Spelled u o sep) {l : List Bytes} (hl : ∀ s ∈ l, Spelled u o s) :
    Spelled u o (Bytes.join sep l) := by
  induction l using Bytes.join.induct with
  | case1 => exact spelled_nil
  | case2 s => exact hl s List.mem_cons_self
  | case3 s t rest ih =>
    obtain ⟨hs, hrest⟩ := List.forall_mem_cons.mp hl
    exact (hs.append hsep).append (ih hrest)

theorem Named.append {s t : Bytes} (hs : Named u o s) (ht : Spelled u o t) : Named u o (s ++ t) := by
  obtain ⟨c, cs, rfl, hstart, hcs⟩ := hs
  obtain ⟨ds, rfl, hds⟩ := ht
  refine ⟨c, cs ++ ds, ?_, hstart, fun x hx => ?_⟩
  · rw [← Utf8.encode_append]
    rfl
  · rcases List.mem_append.mp (List.cons_append ▸ hx) with hx | hx
    · exact hcs x hx
    · exact hds x hx

/-- Behind a name further words may follow. -/
theorem Named.join {sep s : Bytes} (hs : Named u o s) (hsep : Spelled u o sep) {l : List Bytes}
    (hl : ∀ t ∈ l, Spelled u o t) : Named u o (Bytes.join sep (s :: l)) := by
  cases l with
  | nil => exact hs
  | cons t l =>
    rw [Bytes.join]
    exact (hs.append hsep).append (spelled_join hsep hl)

theorem Named.isIdentifier (hu : u.Standard) {s : Bytes} (h : Named u o s) : IsIdentifier u o s := by
  obtain ⟨c, cs, rfl, hstart, hpart⟩ := h
  obtain ⟨chars, hchars, hencode⟩ := Utf8.encode_eq_flatMap (isScalar_of_forall hu hpart)
  obtain ⟨x, xs, rfl, rfl, rfl⟩ := List.map_eq_cons_iff.mp hchars
  exact ⟨x, xs, hencode, hstart, fun y hy => hpart y.toNat (List.mem_map_of_mem hy)⟩

/-! ## Styled labels -/

theorem Spelled.named_of_startsWith (hu : u.Standard) {s : Bytes} (hs : Spelled u o s)
    (hstart : startsWith (isStart u o) s = true) : Named u o s := by
  obtain ⟨cs, rfl, hcs⟩ := hs
  rw [startsWith, Utf8.decode_encode (isScalar_of_forall hu hcs)] at hstart
  cases cs with
  | nil => cases hstart
  | cons c cs => exact ⟨c, cs, rfl, hstart, hcs⟩

theorem isStart_of_isAsciiLetter (hu : u.KnowsAscii) {c : CodePoint} (h : Character.isAsciiLetter c = true) :
    isStart u o c = true := by
  have hword : Character.isAsciiWord c = true := by rw [Character.isAsciiWord, h, Bool.true_or, Bool.true_or]
  unfold isStart
  split
  · rw [h, Bool.or_true]
  · rw [(hu.ascii_classes hword).2.2.2 h, Bool.or_true]

theorem decode_the : Utf8.decode (Bytes.ascii "the") = [116, 104, 101] := by cbv

theorem legalize_the (hu : u.KnowsAscii) : legalize (isPart u o) (Bytes.ascii "the") = Bytes.ascii "the" := by
  have hpart : ∀ c ∈ [116, 104, 101], isPart u o c = true := by
    intro c hc
    refine isPart_of_isAsciiWord hu ?_
    revert c
    decide
  rw [legalize, decode_the, List.filter_eq_self.mpr hpart]
  decide

/-- The word that is put in front of a name starts an identifier, however it is styled. -/
theorem named_the (hu : u.Standard) (style : WordStyle) :
    Named u o (style.apply u (legalize (isPart u o) (Bytes.ascii "the"))) := by
  have hletter : ∃ c cs, Utf8.decode (style.apply .ascii (Bytes.ascii "the")) = c :: cs ∧
      Character.isAsciiLetter c = true := by
    cases style with
    | firstUpper => exact ⟨84, [104, 101], by cbv, by decide⟩
    | allUpper => exact ⟨84, [72, 69], by cbv, by decide⟩
    | allLower => exact ⟨116, [104, 101], by cbv, by decide⟩
    | unchanged => exact ⟨116, [104, 101], by cbv, by decide⟩
  obtain ⟨c, cs, hdecode, hc⟩ := hletter
  refine ((spelled_legalize (Bytes.ascii "the")).apply hu style).named_of_startsWith hu ?_
  rw [legalize_the hu.toKnowsAscii, hu.apply_eq style (by rw [decode_the]; decide), startsWith, hdecode]
  exact isStart_of_isAsciiLetter hu.toKnowsAscii hc

theorem spelled_legalWords (words : List Word) :
    ∀ w ∈ (legalWords (isPart u o) words).1 :: (legalWords (isPart u o) words).2, Spelled u o w.text := by
  unfold legalWords
  split
  · exact List.forall_mem_singleton.mpr (spelled_legalize _)
  · next v vs heq =>
    intro w hw
    rw [← heq] at hw
    obtain ⟨x, -, rfl⟩ := List.mem_map.mp (List.mem_filter.mp hw).1
    exact spelled_legalize _

/-- **The words of a label are combined into a name**, whichever of them lose characters: what is left either starts
as an identifier may, or `the` is put in front of it. -/
theorem named_combine (hu : u.Standard) {style : NameStyle} (hsep : Spelled u o style.separator) (words : List Word) :
    Named u o (combine u style (isPart u o) (isStart u o) words) := by
  have hwords := spelled_legalWords (u := u) (o := o) words
  unfold combine
  generalize legalWords (isPart u o) words = lw at hwords
  obtain ⟨w, ws⟩ := lw
  obtain ⟨hfirst, hrest⟩ := List.forall_mem_cons.mp hwords
  have hlater : ∀ {l : List Word}, (∀ v ∈ l, Spelled u o v.text) → ∀ s ∈ l.map (style.later u), Spelled u o s :=
    fun hl => List.forall_mem_map.mpr fun v hv => (hl v hv).apply hu _
  dsimp only
  split
  · next hstart => exact ((hfirst.apply hu _).named_of_startsWith hu hstart).join hsep (hlater hrest)
  · exact (named_the hu style.firstWord).join hsep (hlater hwords)

theorem named_ofLabel (hu : u.Standard) {style : NameStyle} (hsep : style.separator = []) (label : Bytes) :
    Named u o (ofLabel u o style label) :=
  named_combine hu (hsep ▸ spelled_nil) (splitWords u label)

/-! ## Numbers behind names -/

theorem spelled_digit (hu : u.KnowsAscii) {k : Nat} (hk : k < 10) : Spelled u o [Bytes.digit k] := by
  have hdigit : ∀ k < 10, [Bytes.digit k] = Utf8.encode [48 + k] ∧ Character.isAsciiWord (48 + k) = true := by decide
  obtain ⟨hencode, hword⟩ := hdigit k hk
  exact ⟨[48 + k], hencode, List.forall_mem_singleton.mpr (isPart_of_isAsciiWord hu hword)⟩

theorem spelled_decimal (hu : u.KnowsAscii) (n : Nat) : Spelled u o (Bytes.decimal n) := by
  induction n using Bytes.decimal.induct with
  | case1 n h =>
    rw [Bytes.decimal, if_pos h]
    exact spelled_digit hu h
  | case2 n h ih =>
    rw [Bytes.decimal, if_neg h]
    exact ih.append (spelled_digit hu (Nat.mod_lt n (by decide)))

/-- **Every label is styled into identifiers**, with or without a number behind them: as the name of a type, of a
property and of an enum case, and whichever characters identifiers may hold. -/
theorem isIdentifier_of_label (hu : u.Standard) (o : Options) (label : Bytes) (k : Nat) :
    (IsIdentifier u o (typeName u o label) ∧ IsIdentifier u o (typeName u o label ++ Bytes.decimal k)) ∧
    (IsIdentifier u o (propertyName u o label) ∧ IsIdentifier u o (propertyName u o label ++ Bytes.decimal k)) ∧
    (IsIdentifier u o (caseName u o label) ∧ IsIdentifier u o (caseName u o label ++ Bytes.decimal k)) := by
  have hsuffix : ∀ {s}, Named u o s → IsIdentifier u o s ∧ IsIdentifier u o (s ++ Bytes.decimal k) :=
    fun hs => ⟨hs.isIdentifier hu, (hs.append (spelled_decimal hu.toKnowsAscii k)).isIdentifier hu⟩
  exact ⟨hsuffix (named_ofLabel hu rfl label), hsuffix (named_ofLabel hu rfl label),
    hsuffix (named_ofLabel hu rfl label)⟩

/-- A mark at the front, a digit, a small letter beyond ASCII and a byte that is no text. -/
def strayLabel : Bytes := [0xCC, 0x81] ++ Bytes.ascii "2" ++ [0xC3, 0xBF, 0xFF] ++ Bytes.ascii "k!"

/-- The mark goes, the letters become capitals, and `the` keeps the digit from the front. -/
theorem strayLabel_isIdentifier :
    CharacterData.table.Standard ∧
      typeName .table ⟨false, false, []⟩ strayLabel = Bytes.ascii "The2" ++ [0xC5, 0xB8] ++ Bytes.ascii "K" ∧
      IsIdentifier .table ⟨false, false, []⟩ (typeName .table ⟨false, false, []⟩ strayLabel ++ Bytes.decimal 7) :=
  ⟨CharacterData.standard_table, by decide +kernel,
    (isIdentifier_of_label CharacterData.standard_table ⟨false, false, []⟩ strayLabel 7).1.2⟩

end Identifier

end Typewright
