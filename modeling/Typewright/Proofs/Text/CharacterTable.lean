import Mathlib
import Typewright.CharacterTable
import Typewright.Proofs.Text.Utf8

/-!
# The table is a character database

What the library assumes of a character database is decided on the rows of the table.

* `CharacterTable.range?_eq_some` : a code point is in one range at most;
* `CharacterTable.category_toUpper`, `CharacterTable.category_toLower` : changing the case of a character keeps it in a
  category;
* `CharacterData.standard_table` : the table has what the databases of Unicode have in common.
-/

namespace Typewright

namespace CharacterTable

/-! ## Ranges -/

theorem mem_of_range? {c : Nat} {r : Range} (h : range? c = some r) :
    r ∈ ranges ∧ r.first ≤ c ∧ c ≤ r.last := by
  have hc := List.find?_some h
  rw [Bool.and_eq_true, decide_eq_true_eq, decide_eq_true_eq] at hc
  exact ⟨List.mem_of_find?_eq_some h, hc⟩

theorem ranges_pairwise : ranges.Pairwise fun r r' => r.last < r'.first := by
  decide +kernel

/-- The ranges do not overlap, so a code point is in one of them only. -/
theorem range?_eq_some {c : Nat} {r : Range} (hr : r ∈ ranges) (hfirst : r.first ≤ c) (hlast : c ≤ r.last) :
    range? c = some r := by
  obtain ⟨before, behind, hranges⟩ := List.append_of_mem hr
  have hpairwise := ranges_pairwise
  rw [hranges, List.pairwise_append] at hpairwise
  rw [range?, List.find?_eq_some_iff_append]
  refine ⟨by simp [hfirst, hlast], before, behind, hranges, fun r' hr' => ?_⟩
  have hlt : r'.last < r.first := hpairwise.2.2 r' hr' r List.mem_cons_self
  simp [Nat.not_le.mpr (Nat.lt_of_lt_of_le hlt hfirst)]

/-- Whether the code points of a range have a category. -/
def Range.hasCategory (r : Range) : Bool :=
  match r.kind with
  | .plain k => k != .other
  | .cased k _ _ => k != .other
  | .alternating => true

theorem category_ne_other_iff (c : Nat) : category c ≠ .other ↔ ∃ r, range? c = some r ∧ r.hasCategory = true := by
  unfold category
  cases range? c with
  | none => simp
  | some r =>
    simp only [Option.some.injEq, exists_eq_left', Range.hasCategory]
    cases r.kind with
    | plain k => simp
    | cased k up low => simp
    | alternating => simp only; split <;> simp

/-- The ranges hold scalar values. -/
theorem ranges_isScalar : ∀ r ∈ ranges, r.last < 0xD800 ∨ 0xE000 ≤ r.first ∧ r.last < 0x110000 := by
  decide +kernel

theorem isScalar_of_category {c : Nat} (h : category c ≠ .other) : Utf8.IsScalar c := by
  obtain ⟨r, hr, -⟩ := (category_ne_other_iff c).mp h
  obtain ⟨hmem, hfirst, hlast⟩ := mem_of_range? hr
  have hrange := ranges_isScalar r hmem
  rw [Utf8.isScalar_iff_isValidChar]
  rcases hrange with hrange | ⟨hrange, hrange'⟩
  · exact Or.inl (Nat.lt_of_le_of_lt hlast hrange)
  · exact Or.inr ⟨Nat.lt_of_lt_of_le (Nat.lt_of_lt_of_le (by decide) hrange) hfirst, Nat.lt_of_le_of_lt hlast hrange'⟩

/-! ## Case -/

/-- Changing case moves a range with a category into another one, and an alternating range ends with a small letter. -/
def Range.staysInside (r : Range) : Bool :=
  match r.kind with
  | .plain _ => true
  | .cased k up low => k == .other || [up, low].all fun d =>
    ranges.any fun r' => r'.hasCategory && (r'.first ≤ r.first + d && r.last + d ≤ r'.last)
  | .alternating => (r.last - r.first) % 2 == 1

theorem ranges_staysInside : ∀ r ∈ ranges, r.staysInside = true := by
  rw [← List.all_eq_true]
  decide +kernel

/-- A code point that is moved with its range keeps a category. -/
theorem category_shift {c : Nat} {r : Range} {k : Category} {up low d : Int} (hr : range? c = some r)
    (hk : r.kind = .cased k up low) (hother : k ≠ .other) (hd : d = up ∨ d = low) :
    category (c + d).toNat ≠ .other := by
  obtain ⟨hmem, hfirst, hlast⟩ := mem_of_range? hr
  have hstays := ranges_staysInside r hmem
  rw [Range.staysInside, hk, Bool.or_eq_true, beq_iff_eq] at hstays
  have hshift := List.all_eq_true.mp (hstays.resolve_left hother) d (by simpa using hd)
  obtain ⟨r', hmem', hinside⟩ := List.any_eq_true.mp hshift
  simp only [Bool.and_eq_true, decide_eq_true_eq] at hinside
  obtain ⟨hcategory, hlow, hhigh⟩ := hinside
  have hfirst' := Int.ofNat_le.mpr hfirst
  have hlast' := Int.ofNat_le.mpr hlast
  refine (category_ne_other_iff _).mpr ⟨r', range?_eq_some hmem' ?_ ?_, hcategory⟩
  · exact (Int.le_toNat (by omega)).mpr (by omega)
  · exact Int.toNat_le.mpr (by omega)

theorem category_of_alternating {c : Nat} {r : Range} (hr : r ∈ ranges) (hk : r.kind = .alternating)
    (hfirst : r.first ≤ c) (hlast : c ≤ r.last) : category c ≠ .other :=
  (category_ne_other_iff c).mpr ⟨r, range?_eq_some hr hfirst hlast, by rw [Range.hasCategory, hk]⟩

theorem kind_ne_other {c : Nat} {r : Range} {k : Category} {up low : Int} (hr : range? c = some r)
    (hk : r.kind = .cased k up low) (h : category c ≠ .other) : k ≠ .other := by
  unfold category at h
  rw [hr] at h
  simpa only [hk] using h

/-- **Changing the case of a character keeps it in a category.** -/
theorem category_toUpper {c : Nat} (h : category c ≠ .other) : category (toUpper c) ≠ .other := by
  unfold toUpper
  split
  · exact h
  · next r hr =>
    split
    · exact h
    · next hk => exact category_shift hr hk (kind_ne_other hr hk h) (Or.inl rfl)
    · next hk =>
      obtain ⟨hmem, hfirst, hlast⟩ := mem_of_range? hr
      split
      · exact h
      · next hodd =>
        have hback : ∀ {first last : Nat}, first ≤ c → c ≤ last → (c - first) % 2 ≠ 0 → first ≤ c - 1 ∧ c - 1 ≤ last := by
          omega
        obtain ⟨hfirst', hlast'⟩ := hback hfirst hlast hodd
        exact category_of_alternating hmem hk hfirst' hlast'

theorem category_toLower {c : Nat} (h : category c ≠ .other) : category (toLower c) ≠ .other := by
  unfold toLower
  split
  · exact h
  · next r hr =>
    split
    · exact h
    · next hk => exact category_shift hr hk (kind_ne_other hr hk h) (Or.inr rfl)
    · next hk =>
      obtain ⟨hmem, hfirst, hlast⟩ := mem_of_range? hr
      have hstays := ranges_staysInside r hmem
      rw [Range.staysInside, hk, beq_iff_eq] at hstays
      split
      · next heven =>
        have hforth : ∀ {first last : Nat}, first ≤ c → c ≤ last → (c - first) % 2 = 0 → (last - first) % 2 = 1 →
            first ≤ c + 1 ∧ c + 1 ≤ last := by
          omega
        obtain ⟨hfirst', hlast'⟩ := hforth hfirst hlast heven hstays
        exact category_of_alternating hmem hk hfirst' hlast'
      · exact h

end CharacterTable

theorem CharacterData.standard_table : table.Standard where
  category_ascii := by decide +kernel
  toUpper_ascii := by decide +kernel
  toLower_ascii := by decide +kernel
  isScalar _ := CharacterTable.isScalar_of_category
  category_toUpper _ := CharacterTable.category_toUpper
  category_toLower _ := CharacterTable.category_toLower

end Typewright
