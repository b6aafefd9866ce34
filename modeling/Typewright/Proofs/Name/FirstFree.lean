import Typewright.Proofs.Name.Assign

/-!
# Assigned names are the first free ones

The numbers behind a candidate are not tried from one on each time: a counter says how far they were tried before. No
free name is skipped that way.

* `FirstFree taken candidate name` : `name` is what a search from the beginning finds;
* `NamingState.Tried` : every number up to a counter makes a taken name; `NamingState.Tried.assign` says that this is
  kept, and `NamingState.Tried.counter_le` that counters are then no larger than the number of taken names;
* `NamingState.after` : the state after several candidates;
* `assignNames_finds_first_free` : the names that are assigned are those of the search, whatever was assigned before.
-/

namespace Typewright

/-! ## The search from the beginning -/

/-- The candidate itself if it is free, otherwise the candidate with the least number from one on that makes it free. -/
inductive FirstFree (taken : List Bytes) (candidate : Bytes) : Bytes → Prop where
  | unchanged (free : candidate ∉ taken) : FirstFree taken candidate candidate
  | numbered (k : Nat) (clash : candidate ∈ taken) (pos : 1 ≤ k) (free : candidate ++ Bytes.decimal k ∉ taken)
      (least : ∀ j, 1 ≤ j → j < k → candidate ++ Bytes.decimal j ∈ taken) :
      FirstFree taken candidate (candidate ++ Bytes.decimal k)

variable {taken : List Bytes} {candidate : Bytes}

/-- There is only one such name. -/
theorem FirstFree.eq {name name' : Bytes} (h : FirstFree taken candidate name) (h' : FirstFree taken candidate name') :
    name = name' := by
  cases h with
  | unchanged free =>
    cases h' with
    | unchanged _ => rfl
    | numbered _ clash _ _ _ => exact absurd clash free
  | numbered k clash pos free least =>
    cases h' with
    | unchanged free' => exact absurd clash free'
    | numbered k' _ pos' free' least' =>
      have hk : ¬ k < k' := fun hlt => free (least' k pos hlt)
      have hk' : ¬ k' < k := fun hlt => free' (least k' pos' hlt)
      rw [show k = k' by omega]

/-- What is taken counts, not in which order or how often. -/
theorem FirstFree.congr {taken' : List Bytes} {name : Bytes} (h : FirstFree taken candidate name)
    (hmem : ∀ n, n ∈ taken ↔ n ∈ taken') : FirstFree taken' candidate name := by
  cases h with
  | unchanged free => exact .unchanged (by rwa [← hmem])
  | numbered k clash pos free least =>
    exact .numbered k ((hmem _).mp clash) pos (by rwa [← hmem]) fun j h₁ h₂ => (hmem _).mp (least j h₁ h₂)

/-- As many numbers from one on as make taken names, as many names are taken. -/
theorem le_length_of_forall_mem {n : Nat} (h : ∀ j, 1 ≤ j → j ≤ n → candidate ++ Bytes.decimal j ∈ taken) :
    n ≤ taken.length := by
  have hsub : (List.range' 1 n).map (candidate ++ Bytes.decimal ·) ⊆ taken := by
    intro s hs
    obtain ⟨j, hj, rfl⟩ := List.mem_map.mp hs
    obtain ⟨h₁, h₂⟩ := List.mem_range'_1.mp hj
    exact h j h₁ (by omega)
  have hnodup : ((List.range' 1 n).map (candidate ++ Bytes.decimal ·)).Nodup :=
    List.Nodup.map (fun _ _ h => Bytes.decimal_injective (List.append_cancel_left h)) List.nodup_range'
  simpa using hnodup.length_le_of_subset hsub

/-! ## The counters -/

namespace NamingState

def counter (s : NamingState) (candidate : Bytes) : Nat := (s.counters.lookup candidate).getD 0

/-- Every number up to a counter makes a taken name. -/
def Tried (s : NamingState) : Prop :=
  ∀ c j, 1 ≤ j → j ≤ s.counter c → c ++ Bytes.decimal j ∈ s.taken

theorem Tried.counter_le {s : NamingState} (h : s.Tried) (c : Bytes) : s.counter c ≤ s.taken.length :=
  le_length_of_forall_mem (h c)

theorem lt_nextSuffix (taken : List Bytes) (candidate : Bytes) (steps n : Nat) :
    n < nextSuffix taken candidate steps n := by
  induction steps generalizing n with
  | zero => exact Nat.lt_succ_self n
  | succ steps ih =>
    rw [nextSuffix]
    split
    · exact Nat.lt_of_succ_lt (ih (n + 1))
    · exact Nat.lt_succ_self n

/-- All numbers below the one that is found make taken names: up to the counter they were tried before, and from there
on they are tried now. -/
theorem Tried.mem_of_lt_nextSuffix {s : NamingState} (h : s.Tried) {c : Bytes} {j : Nat} (hpos : 1 ≤ j)
    (hlt : j < nextSuffix s.taken c s.taken.length (s.counter c)) : c ++ Bytes.decimal j ∈ s.taken := by
  rcases Nat.lt_or_ge (s.counter c) j with hnew | hold
  · exact (nextSuffix_spec s.taken c s.taken.length (s.counter c)).1 j hnew hlt
  · exact h c j hpos hold

theorem assign_of_not_mem {s : NamingState} {c : Bytes} (hc : c ∉ s.taken) :
    s.assign c = (c, ⟨c :: s.taken, s.counters⟩) := by
  rw [assign, if_neg hc]

theorem assign_of_mem {s : NamingState} {c : Bytes} (hc : c ∈ s.taken) {n : Nat}
    (hn : n = nextSuffix s.taken c s.taken.length (s.counter c)) :
    s.assign c = (c ++ Bytes.decimal n, ⟨(c ++ Bytes.decimal n) :: s.taken, (c, n) :: s.counters⟩) := by
  rw [assign, if_pos hc, hn]
  rfl

/-- **One candidate gets what the search from the beginning finds**, and the counters stay right. -/
theorem Tried.assign {s : NamingState} (h : s.Tried) (c : Bytes) :
    FirstFree s.taken c (s.assign c).1 ∧ (s.assign c).2.Tried := by
  by_cases hc : c ∈ s.taken
  · generalize hn : nextSuffix s.taken c s.taken.length (s.counter c) = n
    have hbelow : ∀ j, 1 ≤ j → j < n → c ++ Bytes.decimal j ∈ s.taken :=
      fun j hpos hlt => h.mem_of_lt_nextSuffix hpos (hn ▸ hlt)
    rw [assign_of_mem hc hn.symm]
    constructor
    · have hpos : 1 ≤ n := hn ▸ Nat.one_le_of_lt (lt_nextSuffix _ _ _ _)
      exact .numbered n hc hpos (hn ▸ nextSuffix_not_mem _ _ _) hbelow
    · intro d j hpos hle
      by_cases hd : d = c
      · subst hd
        have hcounter : (⟨(d ++ Bytes.decimal n) :: s.taken, (d, n) :: s.counters⟩ : NamingState).counter d = n := by
          simp [counter]
        rcases Nat.eq_or_lt_of_le (hcounter ▸ hle) with rfl | hlt
        · exact List.mem_cons_self
        · exact List.mem_cons_of_mem _ (hbelow j hpos hlt)
      · have hcounter : (⟨(c ++ Bytes.decimal n) :: s.taken, (c, n) :: s.counters⟩ : NamingState).counter d =
            s.counter d := by
          rw [counter, counter, List.lookup_cons, beq_eq_false_iff_ne.mpr hd]
        exact List.mem_cons_of_mem _ (h d j hpos (hcounter ▸ hle))
  · rw [assign_of_not_mem hc]
    exact ⟨.unchanged hc, fun d j hpos hle => List.mem_cons_of_mem _ (h d j hpos hle)⟩

/-! ## All candidates -/

def after (s : NamingState) (cs : List Bytes) : NamingState := cs.foldl (fun s c => (s.assign c).2) s

theorem Tried.after {s : NamingState} (h : s.Tried) (cs : List Bytes) : (s.after cs).Tried := by
  induction cs generalizing s with
  | nil => exact h
  | cons c cs ih => exact ih (h.assign c).2

theorem length_taken_after (s : NamingState) (cs : List Bytes) :
    (s.after cs).taken.length = s.taken.length + cs.length := by
  induction cs generalizing s with
  | nil => rfl
  | cons c cs ih =>
    have htaken := (s.assign_spec c).2.2
    rw [after, List.foldl_cons, ← after, ih, htaken, List.length_cons, List.length_cons]
    omega

/-- The `i`-th name is the first free one when the names before it are taken. -/
theorem Tried.firstFree_assignAll {s : NamingState} (h : s.Tried) {cs : List Bytes} {i : Nat} {c n : Bytes}
    (hc : cs[i]? = some c) (hn : (s.assignAll cs)[i]? = some n) :
    FirstFree (s.taken ++ (s.assignAll cs).take i) c n := by
  induction cs generalizing s i with
  | nil => cases hc
  | cons d cs ih =>
    obtain ⟨hfirst, hnext⟩ := h.assign d
    cases i with
    | zero =>
      obtain rfl := Option.some.inj hc
      obtain rfl := Option.some.inj hn
      rw [List.take_zero, List.append_nil]
      exact hfirst
    | succ i =>
      refine (ih hnext hc hn).congr fun m => ?_
      rw [(s.assign_spec d).2.2, assignAll, List.take_succ_cons]
      simp only [List.mem_append, List.mem_cons]
      tauto

end NamingState

/-- Nothing was tried at the start. -/
theorem tried_initial (reserved : List Bytes) : NamingState.Tried ⟨reserved, []⟩ := by
  intro c j hpos hle
  rw [NamingState.counter, List.lookup_nil, Option.getD_none] at hle
  omega

/-- The search from the beginning determines all names, one after the other. -/
theorem eq_of_firstFree {candidates names names' reserved : List Bytes} (hlen : names.length = candidates.length)
    (hlen' : names'.length = candidates.length)
    (h : ∀ i c n, candidates[i]? = some c → names[i]? = some n → FirstFree (reserved ++ names.take i) c n)
    (h' : ∀ i c n, candidates[i]? = some c → names'[i]? = some n → FirstFree (reserved ++ names'.take i) c n) :
    names = names' := by
  have htake : ∀ i, names.take i = names'.take i := by
    intro i
    induction i with
    | zero => rfl
    | succ i ih =>
      rcases Nat.lt_or_ge i candidates.length with hi | hi
      · have hn : names[i]? = some names[i] := List.getElem?_eq_getElem (hlen ▸ hi)
        have hn' : names'[i]? = some names'[i] := List.getElem?_eq_getElem (hlen' ▸ hi)
        have hc : candidates[i]? = some candidates[i] := List.getElem?_eq_getElem hi
        have heq : names[i] = names'[i] := (h i _ _ hc hn).eq (ih ▸ h' i _ _ hc hn')
        rw [List.take_add_one, List.take_add_one, ih, hn, hn', heq]
      · rw [List.take_of_length_le (by omega), List.take_of_length_le (by omega)] at ih ⊢
        exact ih
  have hall := htake candidates.length
  rwa [List.take_of_length_le (by omega), List.take_of_length_le (by omega)] at hall

/-- **Each candidate gets the name that a search from the beginning finds**: itself if it is neither reserved nor among
the names before, otherwise itself with the least number from one on that makes it so. There is one name for each
candidate, all names differ and none is reserved, and no other list of names is found that way. No counter is ever
larger than the number of names in use, so 32 bits hold every counter as long as they hold that number. -/
theorem assignNames_finds_first_free (candidates reserved : List Bytes) :
    let names := assignNames candidates reserved
    names.length = candidates.length ∧ names.Nodup ∧ (∀ n ∈ names, n ∉ reserved) ∧
      (∀ i c n, candidates[i]? = some c → names[i]? = some n → FirstFree (reserved ++ names.take i) c n) ∧
      (∀ names' : List Bytes, names'.length = candidates.length →
        (∀ i c n, candidates[i]? = some c → names'[i]? = some n → FirstFree (reserved ++ names'.take i) c n) →
        names' = names) ∧
      ∀ i ≤ candidates.length, ∀ c,
        (NamingState.after ⟨reserved, []⟩ (candidates.take i)).counter c ≤ reserved.length + i := by
  intro names
  have hlen : names.length = candidates.length := length_assignNames candidates reserved
  have hfirst : ∀ i c n, candidates[i]? = some c → names[i]? = some n → FirstFree (reserved ++ names.take i) c n :=
    fun i c n hc hn => (tried_initial reserved).firstFree_assignAll hc hn
  refine ⟨hlen, assignNames_nodup _ _, assignNames_not_mem _ _, hfirst, fun names' hlen' h' => ?_, fun i hi c => ?_⟩
  · exact eq_of_firstFree hlen' hlen h' hfirst
  · have hle := ((tried_initial reserved).after (candidates.take i)).counter_le c
    rwa [NamingState.length_taken_after, List.length_take_of_le hi] at hle

end Typewright
