import Mathlib.Logic.Function.Basic
import Typewright.Text.Bytes

/-!
# Numbers and texts in bytes

* `Bytes.ofDecimal_decimal` : decimal digits can be read back, so different numbers are written differently;
* `Bytes.isDigit_of_mem_decimal`, `Bytes.exists_cons_decimal` : a number is written in digits, without leading zeros;
* `Bytes.eq_minus_or_isDigit_of_mem_decimalInt` : an integer is written in digits and a minus sign;
* `Bytes.forall_mem_join` : what holds of the bytes of some texts and of a separator holds of the texts joined with it.
-/

namespace Typewright.Bytes

/-! ## Numbers in decimal -/

theorem toNat_digit {n : Nat} (h : n < 10) : (digit n).toNat = 48 + n := by
  rw [digit, Nat.toUInt8, UInt8.toNat_ofNat', Nat.mod_eq_of_lt (by omega)]

theorem ofDecimal_append_digit (s : Bytes) {n : Nat} (h : n < 10) :
    ofDecimal (s ++ [digit n]) = 10 * ofDecimal s + n := by
  rw [ofDecimal, List.foldl_append, List.foldl_cons, List.foldl_nil, toNat_digit h, Nat.add_sub_cancel_left]
  rfl

theorem ofDecimal_decimal (n : Nat) : ofDecimal (decimal n) = n := by
  induction n using decimal.induct with
  | case1 n h =>
    rw [decimal, if_pos h]
    simpa [ofDecimal] using ofDecimal_append_digit [] h
  | case2 n h ih =>
    rw [decimal, if_neg h, ofDecimal_append_digit _ (Nat.mod_lt n (by decide)), ih]
    exact Nat.div_add_mod n 10

theorem decimal_injective : Function.Injective decimal := by
  intro m n h
  rw [← ofDecimal_decimal m, h, ofDecimal_decimal]

theorem isDigit_of_mem_decimal (n : Nat) : ∀ b ∈ decimal n, isDigit b = true := by
  have hdigit : ∀ k < 10, isDigit (digit k) = true := by decide
  induction n using decimal.induct with
  | case1 n h =>
    rw [decimal, if_pos h]
    intro b hb
    rw [List.mem_singleton.mp hb]
    exact hdigit n h
  | case2 n h ih =>
    rw [decimal, if_neg h]
    intro b hb
    rcases List.mem_append.mp hb with hb | hb
    · exact ih b hb
    · rw [List.mem_singleton.mp hb]
      exact hdigit _ (Nat.mod_lt n (by decide))

theorem exists_cons_decimal {n : Nat} (hn : n ≠ 0) : ∃ b s, decimal n = b :: s ∧ b ≠ byte '0' := by
  have hdigit : ∀ k < 10, k ≠ 0 → digit k ≠ byte '0' := by decide
  induction n using decimal.induct with
  | case1 n h =>
    rw [decimal, if_pos h]
    exact ⟨digit n, [], rfl, hdigit n h hn⟩
  | case2 n h ih =>
    obtain ⟨b, s, hs, hb⟩ := ih (by omega)
    rw [decimal, if_neg h, hs]
    exact ⟨b, _, List.cons_append, hb⟩

theorem eq_minus_or_isDigit_of_mem_decimalInt (i : Int) : ∀ b ∈ decimalInt i, b = byte '-' ∨ isDigit b = true := by
  intro b hb
  cases i with
  | ofNat n => exact .inr (isDigit_of_mem_decimal n b hb)
  | negSucc n =>
    rcases List.mem_cons.mp hb with rfl | hb
    · exact .inl rfl
    · exact .inr (isDigit_of_mem_decimal (n + 1) b hb)

/-! ## Joined texts -/

theorem forall_mem_join {P : UInt8 → Prop} {sep : Bytes} (hsep : ∀ b ∈ sep, P b) {l : List Bytes}
    (hl : ∀ s ∈ l, ∀ b ∈ s, P b) : ∀ b ∈ join sep l, P b := by
  induction l using join.induct with
  | case1 => exact fun b hb => absurd hb List.not_mem_nil
  | case2 s => exact hl s List.mem_cons_self
  | case3 s t rest ih =>
    intro b hb
    rw [join, List.mem_append, List.mem_append] at hb
    rcases hb with (hb | hb) | hb
    · exact hl s List.mem_cons_self b hb
    · exact hsep b hb
    · exact ih (fun x hx => hl x (List.mem_cons_of_mem s hx)) b hb

end Typewright.Bytes
