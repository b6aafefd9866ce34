import Typewright.Proofs.Name.Assign
import Typewright.Proofs.Name.Identifier

/-!
# What names are made of

* `Bytes.isNameByte` : the ASCII letters and digits, the underscore, and the bytes of all other characters;
* `IsName s` : `s` is not empty and consists of such bytes;
* `Fit c` : the code points that are written in such bytes, as those of identifiers are;
* `isName_typeName`, `IsName.suffixed` : styled labels are names, also with a number behind them.
-/

namespace Typewright

variable {u : CharacterData} {o : Options}

/-- The bytes of names: ASCII letters and digits, the underscore, and everything beyond ASCII. -/
def Bytes.isNameByte (b : UInt8) : Bool := Character.isAsciiWord b.toNat || 128 ≤ b.toNat

/-- A text that may stand as a name. -/
def IsName (s : Bytes) : Prop := s ≠ [] ∧ ∀ b ∈ s, Bytes.isNameByte b = true

instance (s : Bytes) : Decidable (IsName s) :=
  decidable_of_iff (s.isEmpty = false ∧ s.all Bytes.isNameByte = true) (by simp [IsName])

/-- The code points that are written in the bytes of names. -/
def Fit (c : CodePoint) : Prop := Character.isAsciiWord c = true ∨ 128 ≤ c

/-! ## Encoding -/

theorem isNameByte_toUInt8 {n : Nat} (h : 128 ≤ n) (h' : n < 256) : Bytes.isNameByte n.toUInt8 = true := by
  have hn : n.toUInt8.toNat = n := by rw [Nat.toUInt8, UInt8.toNat_ofNat', Nat.mod_eq_of_lt h']
  simp [Bytes.isNameByte, hn, h]

theorem isNameByte_of_mem_sequence {c : Nat} (h : Fit c) (hc : c < 0x110000) :
    ∀ b ∈ Utf8.sequence c, Bytes.isNameByte b = true := by
  intro b hb
  by_cases h1 : c < 0x80
  · rw [Utf8.sequence, if_pos h1, List.mem_singleton] at hb
    rw [hb, Bytes.isNameByte, Nat.toUInt8, UInt8.toNat_ofNat', Nat.mod_eq_of_lt (by omega)]
    rcases h with h | h
    · rw [h, Bool.true_or]
    · exact absurd h (Nat.not_le.mpr h1)
  by_cases h2 : c < 0x800
  · rw [Utf8.sequence, if_neg h1, if_pos h2] at hb
    simp only [List.mem_cons, List.not_mem_nil, or_false] at hb
    rcases hb with rfl | rfl <;> exact isNameByte_toUInt8 (by omega) (by omega)
  by_cases h3 : c < 0x10000
  · rw [Utf8.sequence, if_neg h1, if_neg h2, if_pos h3] at hb
    simp only [List.mem_cons, List.not_mem_nil, or_false] at hb
    rcases hb with rfl | rfl | rfl <;> exact isNameByte_toUInt8 (by omega) (by omega)
  · rw [Utf8.sequence, if_neg h1, if_neg h2, if_neg h3] at hb
    simp only [List.mem_cons, List.not_mem_nil, or_false] at hb
    rcases hb with rfl | rfl | rfl | rfl <;> exact isNameByte_toUInt8 (by omega) (by omega)

theorem isNameByte_of_mem_encode {cs : List CodePoint} (h : ∀ c ∈ cs, Fit c ∧ Utf8.IsScalar c) :
    ∀ b ∈ Utf8.encode cs, Bytes.isNameByte b = true := by
  intro b hb
  obtain ⟨c, hc, hb⟩ := List.mem_flatMap.mp hb
  obtain ⟨hfit, hscalar⟩ := h c hc
  rw [Utf8.encodeOne_of_isScalar hscalar] at hb
  exact isNameByte_of_mem_sequence hfit hscalar.1 b hb

/-! ## Styled labels -/

theorem isAsciiWord_of_category_ascii :
    ∀ c < 128, CharacterData.ascii.category c ≠ .other → Character.isAsciiWord c = true := by
  decide +kernel

/-- The characters of identifiers are written in the bytes of names. -/
theorem fit_of_isPart (hu : u.KnowsAscii) {c : CodePoint} (h : Identifier.isPart u o c = true) : Fit c := by
  rcases Nat.lt_or_ge c 128 with hc | hc
  · have hcategory := Identifier.category_of_isPart hu h
    rw [hu.category_ascii c hc] at hcategory
    exact Or.inl (isAsciiWord_of_category_ascii c hc hcategory)
  · exact Or.inr hc

theorem Identifier.Named.isName (hu : u.Standard) {s : Bytes} (h : Named u o s) : IsName s := by
  obtain ⟨c, cs, rfl, -, hpart⟩ := h
  have hscalar := isScalar_of_forall hu hpart
  refine ⟨fun hnil => ?_, isNameByte_of_mem_encode fun x hx => ⟨fit_of_isPart hu.toKnowsAscii (hpart x hx), hscalar x hx⟩⟩
  have hdecode := Utf8.decode_encode hscalar
  rw [hnil, Utf8.decode_nil] at hdecode
  cases hdecode

theorem isName_typeName (hu : u.Standard) (label : Bytes) : IsName (Identifier.typeName u o label) :=
  (Identifier.named_ofLabel hu rfl label).isName hu

theorem isName_propertyName (hu : u.Standard) (label : Bytes) : IsName (Identifier.propertyName u o label) :=
  (Identifier.named_ofLabel hu rfl label).isName hu

theorem isName_caseName (hu : u.Standard) (label : Bytes) : IsName (Identifier.caseName u o label) :=
  (Identifier.named_ofLabel hu rfl label).isName hu

/-! ## Numbers behind names -/

theorem isNameByte_of_mem_decimal (n : Nat) : ∀ b ∈ Bytes.decimal n, Bytes.isNameByte b = true := by
  have hdigit : ∀ b, Bytes.isDigit b = true → Bytes.isNameByte b = true := by
    intro b hb
    have hrange : 48 ≤ b.toNat ∧ b.toNat ≤ 57 := by simpa [Bytes.isDigit, UInt8.le_iff_toNat_le] using hb
    simp [Bytes.isNameByte, Character.isAsciiWord, hrange]
  exact fun b hb => hdigit b (Bytes.isDigit_of_mem_decimal n b hb)

theorem IsName.suffixed {candidate name : Bytes} (h : IsName candidate) (hs : Suffixed candidate name) :
    IsName name := by
  rcases hs with rfl | ⟨k, rfl⟩
  · exact h
  · refine ⟨List.append_ne_nil_of_left_ne_nil h.1 _, fun b hb => ?_⟩
    rcases List.mem_append.mp hb with hb | hb
    · exact h.2 b hb
    · exact isNameByte_of_mem_decimal k b hb

/-- Names that are assigned to names are names. -/
theorem isName_of_mem_assignNames {candidates reserved : List Bytes} (h : ∀ c ∈ candidates, IsName c) :
    ∀ name ∈ assignNames candidates reserved, IsName name := by
  have hsuffixed := assignNames_suffixed candidates reserved
  generalize assignNames candidates reserved = names at hsuffixed ⊢
  induction hsuffixed with
  | nil => exact fun name hname => absurd hname List.not_mem_nil
  | cons hs _ ih =>
    intro name hname
    rcases List.mem_cons.mp hname with rfl | hname
    · exact (h _ List.mem_cons_self).suffixed hs
    · exact ih (fun c hc => h c (List.mem_cons_of_mem _ hc)) name hname

end Typewright
