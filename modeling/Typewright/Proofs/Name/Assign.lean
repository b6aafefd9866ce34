import Mathlib.Data.List.Forall2
import Mathlib.Data.List.Nodup
import Typewright.Name.Assign
import Typewright.Proofs.Text.Bytes

/-!
# Assigned names are free

* `nextSuffix_not_mem` : among one number more than there are taken names, one makes a candidate free;
* `Suffixed candidate name` : the name is the candidate, or the candidate with a number behind it;
* `assignNames_nodup`, `assignNames_not_mem`, `assignNames_suffixed` : one name for each candidate, all different, and
  none of them reserved.
-/

namespace Typewright

/-! ## One candidate -/

/-- The number that is found is greater than the last one tried, and every number between makes a taken name. It
makes a free one unless the steps are used up. -/
theorem nextSuffix_spec (taken : List Bytes) (candidate : Bytes) (steps n : Nat) :
    (∀ m, n < m → m < nextSuffix taken candidate steps n → candidate ++ Bytes.decimal m ∈ taken) ∧
      (candidate ++ Bytes.decimal (nextSuffix taken candidate steps n) ∉ taken ∨
        nextSuffix taken candidate steps n = n + steps + 1) := by
  induction steps generalizing n with
  | zero =>
    rw [nextSuffix]
    exact ⟨fun m h₁ h₂ => absurd h₂ (by omega), Or.inr rfl⟩
  | succ steps ih =>
    rw [nextSuffix]
    by_cases h : candidate ++ Bytes.decimal (n + 1) ∈ taken
    · rw [if_pos h]
      obtain ⟨hbelow, hfree⟩ := ih (n + 1)
      refine ⟨fun m h₁ h₂ => ?_, ?_⟩
      · rcases Nat.eq_or_lt_of_le (show n + 1 ≤ m from h₁) with rfl | h₁
        · exact h
        · exact hbelow m h₁ h₂
      · rcases hfree with hfree | hfree
        · exact Or.inl hfree
        · exact Or.inr (by omega)
    · rw [if_neg h]
      exact ⟨fun m h₁ h₂ => absurd h₂ (by omega), Or.inl h⟩

/-- With as many steps as there are taken names a free one is found. -/
theorem nextSuffix_not_mem (taken : List Bytes) (candidate : Bytes) (n : Nat) :
    candidate ++ Bytes.decimal (nextSuffix taken candidate taken.length n) ∉ taken := by
  obtain ⟨hbelow, hfree | hlast⟩ := nextSuffix_spec taken candidate taken.length n
  · exact hfree
  · intro hmem
    -- Otherwise all of `taken.length + 1` different names would be taken.
    have hsub : (List.range' (n + 1) (taken.length + 1)).map (candidate ++ Bytes.decimal ·) ⊆ taken := by
      intro s hs
      obtain ⟨m, hm, rfl⟩ := List.mem_map.mp hs
      obtain ⟨h₁, h₂⟩ := List.mem_range'_1.mp hm
      rcases Nat.lt_or_ge m (nextSuffix taken candidate taken.length n) with h | h
      · exact hbelow m (by omega) h
      · rwa [show m = nextSuffix taken candidate taken.length n by omega]
    have hnodup : ((List.range' (n + 1) (taken.length + 1)).map (candidate ++ Bytes.decimal ·)).Nodup :=
      List.Nodup.map (fun _ _ h => Bytes.decimal_injective (List.append_cancel_left h)) List.nodup_range'
    have hlen := hnodup.length_le_of_subset hsub
    rw [List.length_map, List.length_range'] at hlen
    omega

/-- A candidate as it is, or with a number behind it. -/
def Suffixed (candidate name : Bytes) : Prop := name = candidate ∨ ∃ k, name = candidate ++ Bytes.decimal k

theorem NamingState.assign_spec (s : NamingState) (candidate : Bytes) :
    (s.assign candidate).1 ∉ s.taken ∧ Suffixed candidate (s.assign candidate).1 ∧
      (s.assign candidate).2.taken = (s.assign candidate).1 :: s.taken := by
  unfold assign
  split
  · exact ⟨nextSuffix_not_mem s.taken candidate _, Or.inr ⟨_, rfl⟩, rfl⟩
  · next h => exact ⟨h, Or.inl rfl, rfl⟩

/-! ## All candidates -/

theorem NamingState.assignAll_not_mem (s : NamingState) (cs : List Bytes) :
    ∀ name ∈ s.assignAll cs, name ∉ s.taken := by
  induction cs generalizing s with
  | nil => exact fun name h => absurd h List.not_mem_nil
  | cons c cs ih =>
    obtain ⟨hfree, -, htaken⟩ := s.assign_spec c
    intro name hname
    rcases List.mem_cons.mp hname with rfl | hname
    · exact hfree
    · intro h
      refine ih (s.assign c).2 name hname ?_
      rw [htaken]
      exact List.mem_cons_of_mem _ h

theorem NamingState.assignAll_nodup (s : NamingState) (cs : List Bytes) : (s.assignAll cs).Nodup := by
  induction cs generalizing s with
  | nil => exact List.nodup_nil
  | cons c cs ih =>
    obtain ⟨-, -, htaken⟩ := s.assign_spec c
    refine List.nodup_cons.mpr ⟨fun h => (s.assign c).2.assignAll_not_mem cs _ h ?_, ih (s.assign c).2⟩
    rw [htaken]
    exact List.mem_cons_self

theorem NamingState.assignAll_suffixed (s : NamingState) (cs : List Bytes) :
    List.Forall₂ Suffixed cs (s.assignAll cs) := by
  induction cs generalizing s with
  | nil => exact .nil
  | cons c cs ih => exact .cons (s.assign_spec c).2.1 (ih (s.assign c).2)

variable (candidates reserved : List Bytes)

theorem assignNames_nodup : (assignNames candidates reserved).Nodup := NamingState.assignAll_nodup _ _

theorem assignNames_not_mem : ∀ name ∈ assignNames candidates reserved, name ∉ reserved :=
  NamingState.assignAll_not_mem _ _

theorem assignNames_suffixed : List.Forall₂ Suffixed candidates (assignNames candidates reserved) :=
  NamingState.assignAll_suffixed _ _

theorem length_assignNames : (assignNames candidates reserved).length = candidates.length :=
  (assignNames_suffixed candidates reserved).length_eq.symm

end Typewright
