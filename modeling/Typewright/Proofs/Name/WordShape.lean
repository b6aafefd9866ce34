import Mathlib
import Typewright.Name.Word

/-!
# The shape of a word

* `Cluster.flat`, `Cluster.flat_clusters` : the code points of clusters, and which of them clusters leave out;
* `take_runEnd`, `drop_runEnd` : a run of clusters as a part of the list;
* `AllOf u k l` : all clusters are of one kind;
* `WordShape` : what the clusters of a word are; `wordShape_take` and `wordShape_of_mem_segments` say that words have
  such a shape;
* `kind_of_next` : what stands behind a word;
* `casingOf_allUpper`, `casingOf_capitalized` : how words of letters with case are cased.
-/

namespace Typewright

section Lists

variable {α : Type} {p : α → Bool} {l : List α}

theorem drop_length_takeWhile (p : α → Bool) (l : List α) : l.drop (l.takeWhile p).length = l.dropWhile p := by
  have h := congrArg (List.drop (l.takeWhile p).length) (List.takeWhile_append_dropWhile (p := p) (l := l))
  rwa [List.drop_left, eq_comm] at h

theorem take_length_takeWhile (p : α → Bool) (l : List α) : l.take (l.takeWhile p).length = l.takeWhile p :=
  (List.prefix_iff_eq_take.mp (List.takeWhile_prefix p)).symm

theorem eq_false_of_head?_dropWhile {x : α} (h : (l.dropWhile p).head? = some x) : p x = false := by
  have hnot := List.head?_dropWhile_not p l
  rwa [h] at hnot

end Lists

/-! ## Clusters -/

namespace Cluster

def flat (l : List Cluster) : List CodePoint := l.flatMap codePoints

/-- A character that is no mark, with marks behind it. -/
def IsMarked (u : CharacterData) (c : Cluster) : Prop := u.isMark c.base = false ∧ ∀ m ∈ c.marks, u.isMark m = true

theorem isMarked_of_mem_clusters {u : CharacterData} {cs : List CodePoint} : ∀ c ∈ clusters u cs, IsMarked u c := by
  induction cs with
  | nil => exact fun c hc => absurd hc List.not_mem_nil
  | cons d cs ih =>
    rw [clusters]
    split
    · exact ih
    · next hd => exact List.forall_mem_cons.mpr ⟨⟨Bool.eq_false_iff.mpr hd, fun m => List.mem_takeWhile_imp⟩, ih⟩

/-- Only the marks at the front are lost. -/
theorem flat_clusters (u : CharacterData) (cs : List CodePoint) : flat (clusters u cs) = cs.dropWhile u.isMark := by
  induction cs with
  | nil => rfl
  | cons c cs ih =>
    rw [clusters]
    split
    · next hc => rw [ih, List.dropWhile_cons_of_pos hc]
    · next hc =>
      rw [List.dropWhile_cons_of_neg hc, flat, List.flatMap_cons, ← flat, ih, codePoints, List.cons_append,
        List.takeWhile_append_dropWhile]

theorem flat_append (l l' : List Cluster) : flat (l ++ l') = flat l ++ flat l' := List.flatMap_append

theorem flat_cons (c : Cluster) (l : List Cluster) : flat (c :: l) = c.base :: (c.marks ++ flat l) := rfl

end Cluster

/-! ## Runs -/

variable {u : CharacterData} {c : Cluster} {l rest : List Cluster} {k : LetterKind} {n : Nat}

theorem take_runEnd (l : List Cluster) (k : LetterKind) (n : Nat) :
    l.take (runEnd u l k n) = l.take n ++ (l.drop n).takeWhile fun c => c.kind u == k := by
  rw [runEnd, List.take_add, take_length_takeWhile]

theorem drop_runEnd (l : List Cluster) (k : LetterKind) (n : Nat) :
    l.drop (runEnd u l k n) = (l.drop n).dropWhile fun c => c.kind u == k := by
  rw [runEnd, ← List.drop_drop, drop_length_takeWhile]

def AllOf (u : CharacterData) (k : LetterKind) (l : List Cluster) : Prop := ∀ c ∈ l, c.kind u = k

theorem allOf_takeWhile (k : LetterKind) (l : List Cluster) : AllOf u k (l.takeWhile fun c => c.kind u == k) :=
  fun _ hc => by simpa using List.mem_takeWhile_imp hc

theorem AllOf.cons (hc : c.kind u = k) (hl : AllOf u k l) : AllOf u k (c :: l) := List.forall_mem_cons.mpr ⟨hc, hl⟩

theorem AllOf.kind_ne {k' : LetterKind} (h : AllOf u k l) (hk : k ≠ k') : ∀ x ∈ l, x.kind u ≠ k' :=
  fun x hx => h x hx ▸ hk

theorem kind_ne_of_head?_dropWhile (h : (l.dropWhile fun c => c.kind u == k).head? = some c) : c.kind u ≠ k := by
  simpa using eq_false_of_head?_dropWhile h

/-- A run and the digits behind it. What follows is no digit, and it is not of the kind of the run unless there are
digits. -/
structure RunDigits (u : CharacterData) (k : LetterKind) (l a d rest : List Cluster) : Prop where
  behind : l.drop (runEnd u l k 0) = d ++ rest
  run : AllOf u k a
  digits : AllOf u .digit d
  not_digit : ∀ x, rest.head? = some x → x.kind u ≠ .digit
  not_run : ∀ x, rest.head? = some x → x.kind u = k → d ≠ []

theorem exists_runDigits (l : List Cluster) (k : LetterKind) :
    ∃ a d rest, RunDigits u k l a d rest ∧
      l.take (runEnd u l .digit (runEnd u l k 0)) = a ++ d ∧ l.drop (runEnd u l .digit (runEnd u l k 0)) = rest := by
  have hdrop : l.drop (runEnd u l k 0) = l.dropWhile fun c => c.kind u == k := by rw [drop_runEnd, List.drop_zero]
  have htake : l.take (runEnd u l k 0) = l.takeWhile fun c => c.kind u == k := by
    rw [take_runEnd, List.take_zero, List.drop_zero, List.nil_append]
  refine ⟨l.takeWhile fun c => c.kind u == k, (l.dropWhile fun c => c.kind u == k).takeWhile fun c => c.kind u == .digit,
    (l.dropWhile fun c => c.kind u == k).dropWhile fun c => c.kind u == .digit, ?_, ?_, ?_⟩
  · refine ⟨?_, allOf_takeWhile k l, allOf_takeWhile _ _, fun x => kind_ne_of_head?_dropWhile, fun x hx hk hnil => ?_⟩
    · rw [hdrop, List.takeWhile_append_dropWhile]
    · have hrest := List.takeWhile_append_dropWhile (p := fun c : Cluster => c.kind u == .digit)
        (l := l.dropWhile fun c => c.kind u == k)
      rw [hnil, List.nil_append] at hrest
      rw [hrest] at hx
      exact kind_ne_of_head?_dropWhile hx hk
  · rw [take_runEnd, htake, hdrop]
  · rw [drop_runEnd, hdrop]

/-! ## Words -/

/-- The clusters of a word: digits; letters of one kind with digits behind them; or a capital, small letters and digits
behind them. -/
inductive WordShape (u : CharacterData) : List Cluster → Prop where
  | digits {d : List Cluster} (ne : d ≠ []) (digits : AllOf u .digit d) : WordShape u d
  | run {k : LetterKind} {a d : List Cluster} (separator : k ≠ .separator) (digit : k ≠ .digit) (ne : a ≠ [])
      (letters : AllOf u k a) (digits : AllOf u .digit d) : WordShape u (a ++ d)
  | capitalized {x : Cluster} {a d : List Cluster} (capital : x.kind u = .upper) (ne : a ≠ []) (small : AllOf u .lower a)
      (digits : AllOf u .digit d) : WordShape u (x :: (a ++ d))

/-- A word is letters of some kinds with digits behind them. -/
theorem WordShape.exists_digits_last {s : List Cluster} (h : WordShape u s) :
    ∃ a d, s = a ++ d ∧ (∀ x ∈ a, x.kind u ≠ .digit) ∧ AllOf u .digit d := by
  cases h with
  | digits _ hd => exact ⟨[], s, rfl, fun x hx => absurd hx List.not_mem_nil, hd⟩
  | run hsep hdigit _ ha hd => exact ⟨_, _, rfl, ha.kind_ne hdigit, hd⟩
  | capitalized hu _ ha hd =>
    exact ⟨_ :: _, _, rfl, List.forall_mem_cons.mpr ⟨by rw [hu]; decide, ha.kind_ne (by decide)⟩, hd⟩

theorem WordShape.ne_nil {s : List Cluster} (h : WordShape u s) : s ≠ [] := by
  cases h with
  | digits hne _ => exact hne
  | run _ _ hne _ _ => exact List.append_ne_nil_of_left_ne_nil hne _
  | capitalized _ _ _ _ => exact List.cons_ne_nil _ _

theorem WordShape.kind_ne_separator {s : List Cluster} (h : WordShape u s) : ∀ x ∈ s, x.kind u ≠ .separator := by
  cases h with
  | digits _ hd => exact hd.kind_ne (by decide)
  | run hsep _ _ ha hd => exact List.forall_mem_append.mpr ⟨ha.kind_ne hsep, hd.kind_ne (by decide)⟩
  | capitalized hu _ ha hd =>
    refine List.forall_mem_cons.mpr ⟨by rw [hu]; decide, ?_⟩
    exact List.forall_mem_append.mpr ⟨ha.kind_ne (by decide), hd.kind_ne (by decide)⟩

/-- A word with a capital in front is all capitals and digits, or small letters and digits follow. -/
theorem WordShape.of_upper {s : List Cluster} (h : WordShape u s) (hhead : s.head? = some c) (hc : c.kind u = .upper) :
    (∀ x ∈ s, x.kind u ≠ .lower) ∨ (∃ x ∈ s.tail, x.kind u = .lower) ∧ ∀ x ∈ s.tail, x.kind u ≠ .upper := by
  cases h with
  | digits _ hd => exact absurd hc (hd.kind_ne (by decide) c (List.mem_of_head? hhead))
  | @run k a d _ _ hne ha hd =>
    rw [List.head?_append_of_ne_nil a hne] at hhead
    obtain rfl : k = .upper := (ha c (List.mem_of_head? hhead)).symm.trans hc
    exact Or.inl (List.forall_mem_append.mpr ⟨ha.kind_ne (by decide), hd.kind_ne (by decide)⟩)
  | @capitalized y a d _ hne ha hd =>
    obtain ⟨x, hx⟩ := List.exists_mem_of_ne_nil a hne
    refine Or.inr ⟨⟨x, List.mem_append_left d hx, ha x hx⟩, ?_⟩
    exact List.forall_mem_append.mpr ⟨ha.kind_ne (by decide), hd.kind_ne (by decide)⟩

/-- A word with a small letter in front has no capitals. -/
theorem WordShape.of_lower {s : List Cluster} (h : WordShape u s) (hhead : s.head? = some c) (hc : c.kind u = .lower) :
    ∀ x ∈ s, x.kind u ≠ .upper := by
  cases h with
  | digits _ hd => exact hd.kind_ne (by decide)
  | @run k a d _ _ hne ha hd =>
    rw [List.head?_append_of_ne_nil a hne] at hhead
    obtain rfl : k = .lower := (ha c (List.mem_of_head? hhead)).symm.trans hc
    exact List.forall_mem_append.mpr ⟨ha.kind_ne (by decide), hd.kind_ne (by decide)⟩
  | @capitalized y a d hu _ _ _ =>
    obtain rfl : y = c := Option.some.inj hhead
    rw [hu] at hc
    cases hc

theorem tailSize_digit (rest : List Cluster) (h : c.kind u = .digit) : tailSize u c rest = runEnd u rest .digit 0 := by
  rw [tailSize, h]

theorem tailSize_lower (rest : List Cluster) (h : c.kind u = .lower) :
    tailSize u c rest = runEnd u rest .digit (runEnd u rest .lower 0) := by
  rw [tailSize, h]

theorem tailSize_caseless (rest : List Cluster) (h : c.kind u = .caseless) :
    tailSize u c rest = runEnd u rest .digit (runEnd u rest .caseless 0) := by
  rw [tailSize, h]

/-- Behind a capital there are small letters, or capitals with or without the last one. -/
theorem tailSize_upper (rest : List Cluster) (h : c.kind u = .upper) :
    tailSize u c rest = runEnd u rest .digit (runEnd u rest .lower 0) ∨
      (tailSize u c rest = runEnd u rest .digit (runEnd u rest .upper 0) ∧
        rest[runEnd u rest .upper 0]?.map (Cluster.kind u) ≠ some .lower) ∨
      tailSize u c rest + 1 = runEnd u rest .upper 0 := by
  have heq : tailSize u c rest =
      if runEnd u rest .upper 0 = 0 then runEnd u rest .digit (runEnd u rest .lower 0)
      else if rest[runEnd u rest .upper 0]?.map (Cluster.kind u) = some .lower then runEnd u rest .upper 0 - 1
      else runEnd u rest .digit (runEnd u rest .upper 0) := by
    rw [tailSize, h]
  rw [heq]
  split
  · exact Or.inl rfl
  split
  · exact Or.inr (Or.inr (by omega))
  · next hlower => exact Or.inr (Or.inl ⟨rfl, hlower⟩)

/-- Of several capitals some are in the word, and the next one is not. -/
theorem allOf_take_of_runEnd {t : Nat} (h : t + 1 = runEnd u rest k 0) :
    AllOf u k (rest.take t) ∧ ∀ x, (rest.drop t).head? = some x → x.kind u = k := by
  have htake : rest.take (t + 1) = rest.takeWhile fun c => c.kind u == k := by
    rw [h, take_runEnd, List.take_zero, List.drop_zero, List.nil_append]
  have hall := allOf_takeWhile (u := u) k rest
  rw [← htake] at hall
  refine ⟨fun x hx => hall x (List.take_subset_take_left _ (Nat.le_succ t) hx), fun x hx => hall x ?_⟩
  rw [List.head?_drop] at hx
  rw [List.take_add_one, hx]
  simp

/-- **A word has the shape of a word.** -/
theorem wordShape_take (rest : List Cluster) (hc : c.kind u ≠ .separator) :
    WordShape u (c :: rest.take (tailSize u c rest)) := by
  cases hk : c.kind u with
  | separator => exact absurd hk hc
  | digit =>
    rw [tailSize_digit rest hk, take_runEnd, List.take_zero, List.drop_zero, List.nil_append]
    exact .digits (List.cons_ne_nil _ _) ((allOf_takeWhile _ rest).cons hk)
  | lower =>
    obtain ⟨a, d, tail, h, htake, -⟩ := exists_runDigits rest .lower
    rw [tailSize_lower rest hk, htake]
    exact .run (by decide) (by decide) (List.cons_ne_nil c a) (h.run.cons hk) h.digits
  | caseless =>
    obtain ⟨a, d, tail, h, htake, -⟩ := exists_runDigits rest .caseless
    rw [tailSize_caseless rest hk, htake]
    exact .run (by decide) (by decide) (List.cons_ne_nil c a) (h.run.cons hk) h.digits
  | upper =>
    rcases tailSize_upper rest hk with ht | ⟨ht, -⟩ | ht
    · obtain ⟨a, d, tail, h, htake, -⟩ := exists_runDigits rest .lower
      rw [ht, htake]
      by_cases ha : a = []
      · rw [ha]
        exact .run (by decide) (by decide) (List.cons_ne_nil c []) (List.forall_mem_singleton.mpr hk) h.digits
      · exact .capitalized hk ha h.run h.digits
    · obtain ⟨a, d, tail, h, htake, -⟩ := exists_runDigits rest .upper
      rw [ht, htake]
      exact .run (by decide) (by decide) (List.cons_ne_nil c a) (h.run.cons hk) h.digits
    · have hall := (allOf_take_of_runEnd ht).1.cons hk
      rw [← List.append_nil (c :: _)]
      exact .run (by decide) (by decide) (List.cons_ne_nil _ _) hall fun x hx => absurd hx List.not_mem_nil

theorem wordShape_of_mem_segments {s : List Cluster} (hs : s ∈ segments u l) : WordShape u s := by
  induction l using segments.induct u with
  | case1 =>
    rw [segments] at hs
    cases hs
  | case2 c rest hc ih =>
    rw [segments, if_pos hc] at hs
    exact ih hs
  | case3 c rest hc ih =>
    rw [segments, if_neg hc] at hs
    rcases List.mem_cons.mp hs with rfl | hs
    · exact wordShape_take rest hc
    · exact ih hs

theorem subset_of_mem_segments {s : List Cluster} (hs : s ∈ segments u l) : s ⊆ l := by
  induction l using segments.induct u with
  | case1 =>
    rw [segments] at hs
    cases hs
  | case2 c rest hc ih =>
    rw [segments, if_pos hc] at hs
    exact List.subset_cons_of_subset c (ih hs)
  | case3 c rest hc ih =>
    rw [segments, if_neg hc] at hs
    rcases List.mem_cons.mp hs with rfl | hs
    · exact List.cons_subset_cons c (List.take_subset _ _)
    · exact List.subset_cons_of_subset c (List.Subset.trans (ih hs) (List.drop_subset _ _))

/-- The last of some clusters is a digit. -/
def EndsInDigit (u : CharacterData) (l : List Cluster) : Prop := ∃ x, l.getLast? = some x ∧ x.kind u = .digit

theorem EndsInDigit.of_append (a : List Cluster) {d : List Cluster} (hne : d ≠ []) (hd : AllOf u .digit d) :
    EndsInDigit u (a ++ d) := by
  refine ⟨d.getLast hne, ?_, hd _ (List.getLast_mem hne)⟩
  rw [List.getLast?_append, List.getLast?_eq_getLast_of_ne_nil hne, Option.some_or]

theorem RunDigits.endsInDigit {a d : List Cluster} {x : Cluster} (h : RunDigits u k l a d rest)
    (hx : rest.head? = some x) (hk : x.kind u = k) (c : Cluster) : EndsInDigit u (c :: (a ++ d)) :=
  EndsInDigit.of_append (c :: a) (h.not_run x hx hk) h.digits

/-- **What stands behind a word** is no digit, and a small letter only if the word ends in a digit or consists of
letters without case. -/
theorem kind_of_next {x : Cluster} (hc : c.kind u ≠ .separator) (hx : (rest.drop (tailSize u c rest)).head? = some x) :
    x.kind u ≠ .digit ∧
      (x.kind u = .lower → c.kind u = .caseless ∨ EndsInDigit u (c :: rest.take (tailSize u c rest))) := by
  cases hk : c.kind u with
  | separator => exact absurd hk hc
  | digit =>
    rw [tailSize_digit rest hk] at hx ⊢
    rw [drop_runEnd] at hx
    rw [take_runEnd, List.take_zero, List.drop_zero, List.nil_append]
    refine ⟨kind_ne_of_head?_dropWhile hx, fun _ => Or.inr ?_⟩
    exact EndsInDigit.of_append [] (List.cons_ne_nil _ _) ((allOf_takeWhile _ rest).cons hk)
  | lower =>
    obtain ⟨a, d, tail, h, htake, rfl⟩ := exists_runDigits rest .lower
    rw [tailSize_lower rest hk] at hx ⊢
    rw [htake]
    exact ⟨h.not_digit x hx, fun hlower => Or.inr (h.endsInDigit hx hlower c)⟩
  | caseless =>
    obtain ⟨a, d, tail, h, htake, rfl⟩ := exists_runDigits rest .caseless
    rw [tailSize_caseless rest hk] at hx
    exact ⟨h.not_digit x hx, fun _ => Or.inl rfl⟩
  | upper =>
    rcases tailSize_upper rest hk with ht | ⟨ht, hnext⟩ | ht
    · obtain ⟨a, d, tail, h, htake, rfl⟩ := exists_runDigits rest .lower
      rw [ht] at hx ⊢
      rw [htake]
      exact ⟨h.not_digit x hx, fun hlower => Or.inr (h.endsInDigit hx hlower c)⟩
    · obtain ⟨a, d, tail, h, htake, rfl⟩ := exists_runDigits rest .upper
      rw [ht] at hx ⊢
      rw [htake]
      refine ⟨h.not_digit x hx, fun hlower => Or.inr (EndsInDigit.of_append (c :: a) ?_ h.digits)⟩
      -- Without digits, the small letter would stand right behind the capitals.
      rintro rfl
      have hbehind := h.behind
      rw [List.nil_append] at hbehind
      rw [← hbehind, List.head?_drop] at hx
      exact hnext (by rw [hx, Option.map_some, hlower])
    · rw [(allOf_take_of_runEnd ht).2 x hx]
      exact ⟨by decide, fun hlower => by cases hlower⟩

/-- Without separators nothing is lost. -/
theorem flatten_segments (h : ∀ c ∈ l, c.kind u ≠ .separator) : (segments u l).flatten = l := by
  induction l using segments.induct u with
  | case1 =>
    rw [segments]
    rfl
  | case2 c rest hc ih => exact absurd hc (h c List.mem_cons_self)
  | case3 c rest hc ih =>
    rw [segments, if_neg hc, List.flatten_cons,
      ih fun x hx => h x (List.mem_cons_of_mem c (List.mem_of_mem_drop hx)), List.cons_append, List.take_append_drop]

/-! ## Casing -/

theorem isUpper_iff (c : CodePoint) : u.isUpper c = true ↔ letterKind u c = .upper := by
  unfold CharacterData.isUpper letterKind
  cases u.category c <;> simp

theorem isLower_iff (c : CodePoint) : u.isLower c = true ↔ letterKind u c = .lower := by
  unfold CharacterData.isLower letterKind
  cases u.category c <;> simp

/-- Capitals without small letters. -/
theorem casingOf_allUpper {cs : List CodePoint} {x : CodePoint} (hx : x ∈ cs) (hupper : letterKind u x = .upper)
    (h : ∀ c ∈ cs, letterKind u c ≠ .lower) : casingOf u cs = .allUpper := by
  have hcased : ∀ c ∈ cs.filter fun c => u.isUpper c || u.isLower c, u.isUpper c = true := by
    intro c hc
    obtain ⟨hmem, hc⟩ := List.mem_filter.mp hc
    have hlower : ¬ u.isLower c = true := fun hlower => h c hmem ((isLower_iff c).mp hlower)
    simpa [hlower] using hc
  have hmem : x ∈ cs.filter fun c => u.isUpper c || u.isLower c := by
    rw [List.mem_filter, (isUpper_iff x).mpr hupper]
    exact ⟨hx, rfl⟩
  unfold casingOf
  split
  · next hnil =>
    rw [hnil] at hmem
    cases hmem
  · next first rest hfilter =>
    rw [hfilter] at hcased
    rw [if_pos (List.all_eq_true.mpr hcased)]

/-- A capital in front of small letters. -/
theorem casingOf_capitalized {cs : List CodePoint} {y x : CodePoint} (hy : letterKind u y = .upper) (hx : x ∈ cs)
    (hlower : letterKind u x = .lower) (h : ∀ c ∈ cs, letterKind u c ≠ .upper) :
    casingOf u (y :: cs) = .capitalized := by
  have hupper : u.isUpper y = true := (isUpper_iff y).mpr hy
  have hnot : ∀ c ∈ cs, u.isUpper c = false := fun c hc =>
    Bool.eq_false_iff.mpr fun hc' => h c hc ((isUpper_iff c).mp hc')
  have hy' : u.isLower y = false := Bool.eq_false_iff.mpr fun hc => by simp [(isLower_iff y).mp hc] at hy
  have hx' : u.isLower x = true := (isLower_iff x).mpr hlower
  have hfilter : ((y :: cs).filter fun c => u.isUpper c || u.isLower c) =
      y :: cs.filter fun c => u.isUpper c || u.isLower c :=
    List.filter_cons_of_pos (by simp [hupper])
  have hmem : x ∈ cs.filter fun c => u.isUpper c || u.isLower c := by simp [hx, hx']
  have hrest : ∀ c ∈ cs.filter (fun c => u.isUpper c || u.isLower c), u.isUpper c = false :=
    fun c hc => hnot c (List.mem_filter.mp hc).1
  unfold casingOf
  rw [hfilter]
  dsimp only
  generalize cs.filter (fun c => u.isUpper c || u.isLower c) = rest at hmem hrest ⊢
  rw [if_neg, if_neg, if_pos]
  · simpa [hupper] using hrest
  · simp [hy']
  · simp only [List.all_cons, hupper, Bool.true_and, List.all_eq_true]
    exact fun hall => by simpa [hrest x hmem] using hall x hmem

end Typewright
