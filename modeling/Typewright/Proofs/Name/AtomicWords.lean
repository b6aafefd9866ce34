import Typewright.CharacterTable
import Typewright.Proofs.Name.Scanner

/-!
# Words are not split any further

A word is letters of one kind with digits behind them, a capital with small letters and digits behind it, or only
digits, where marks may follow each character. The form tells how the word is cased, and a text of such a form is one
word. So the words of a label stay as they are when they are split again.

* `Scanner.CasedWord` : the forms of words, by their casing;
* `Scanner.exists_casedWord` : the cursor stops behind a text of such a form, also where it goes back by a capital;
* `Scanner.CasedWord.scan_eq` : in a text of such a form it only stops at the end;
* `Scanner.casingIn`, `Scanner.CasedWord.casing_eq` : the form tells the casing;
* `Scanner.splitWords_atomic` : splitting a word gives the word, and no word is mixed.
-/

namespace Typewright

/-- Capitals and small letters. -/
def LetterKind.isCased : LetterKind → Bool
  | .upper | .lower => true
  | _ => false

/-- How a text is cased whose letters with case are of these kinds, in this order. -/
def Casing.ofKinds : List LetterKind → Casing
  | [] => .caseless
  | first :: rest =>
    if .lower ∉ first :: rest then .allUpper
    else if .upper ∉ first :: rest then .allLower
    else if first = .upper ∧ .upper ∉ rest then .capitalized
    else .mixed

namespace Scanner

variable {category : CodePoint → Category} {k : LetterKind} {n m : Nat} {a d u run rest w : List CodePoint}
  {casing : Casing}

/-! ## Runs in a text -/

/-- A text falls into a run and a part that does not go on with it. -/
theorem exists_run (k : LetterKind) (cs : List CodePoint) (hfront : ∀ c, cs[0]? = some c → isMark category c = false) :
    ∃ n run rest, cs = run ++ rest ∧ Run category k n run ∧ Stops category k rest := by
  -- By induction on the length: behind a character and its marks there is less left, and no mark at the front.
  induction hlength : cs.length using Nat.strongRecOn generalizing cs with
  | ind len ih =>
    cases cs with
    | nil => exact ⟨0, [], [], rfl, .nil, .nil⟩
    | cons c cs =>
      by_cases hc : kind category c = k
      · have hlt : (cs.dropWhile (isMark category)).length < len := by
          have hle := (List.dropWhile_sublist (isMark category) (l := cs)).length_le
          rw [List.length_cons] at hlength
          omega
        have hnext : ∀ d, (cs.dropWhile (isMark category))[0]? = some d → isMark category d = false := by
          intro d hd
          rw [← List.head?_eq_getElem?] at hd
          exact eq_false_of_head?_dropWhile hd
        obtain ⟨n, run, rest, heq, hrun, hstops⟩ := ih _ hlt _ hnext rfl
        refine ⟨n + 1, c :: (cs.takeWhile (isMark category) ++ run), rest, ?_,
          .cons hc (fun m hm => List.mem_takeWhile_imp hm) hrun, hstops⟩
        rw [List.cons_append, List.append_assoc, ← heq, List.takeWhile_append_dropWhile]
      · refine ⟨0, [], c :: cs, rfl, .nil, fun d hd => ?_⟩
        obtain rfl := Option.some.inj hd
        exact ⟨hfront c rfl, hc⟩

/-- In front of a character of the kind, the run is not empty. -/
theorem exists_run_succ {c : CodePoint} (cs : List CodePoint) (hc : kind category c = k) (hk : k ≠ .separator) :
    ∃ n run rest, c :: cs = run ++ rest ∧ Run category k (n + 1) run ∧ Stops category k rest := by
  have hfront : ∀ d, (c :: cs)[0]? = some d → isMark category d = false := by
    intro d hd
    obtain rfl := Option.some.inj hd
    exact isMark_eq_false_of_isWord (isWord_of_kind hc hk)
  obtain ⟨n, run, rest, heq, hrun, hstops⟩ := exists_run k (c :: cs) hfront
  cases n with
  | succ n => exact ⟨n, run, rest, heq, hrun, hstops⟩
  | zero =>
    rw [hrun.eq_nil, List.nil_append] at heq
    exact absurd hc (hstops c (by rw [← heq]; rfl)).2

/-- The last character of a run and its marks. -/
theorem Run.exists_last (h : Run category k (n + 1) run) :
    ∃ front c marks, run = front ++ c :: marks ∧ Run category k n front ∧ kind category c = k ∧
      ∀ m ∈ marks, isMark category m = true := by
  induction n generalizing run with
  | zero =>
    cases h with
    | @cons _ c marks cs hc hmarks hrest =>
      rw [hrest.eq_nil, List.append_nil]
      exact ⟨[], c, marks, rfl, .nil, hc, hmarks⟩
  | succ n ih =>
    cases h with
    | @cons _ c marks cs hc hmarks hrest =>
      obtain ⟨front, d, marks', rfl, hfront, hd, hmarks'⟩ := ih hrest
      refine ⟨c :: (marks ++ front), d, marks', ?_, .cons hc hmarks hfront, hd, hmarks'⟩
      rw [List.cons_append, List.append_assoc]

theorem Run.skipRun_zero (h : Run category k n run) (hk : k ≠ .separator) (hrest : Stops category k rest) :
    skipRun category k (run ++ rest) 0 = (run.length, n) :=
  h.skipRun_append hk hrest []

/-! ## Where a word ends

There is one lemma for each branch of `wordEnd`. What follows the word is a parameter: in a label it is the next word or
a separator, and in the text of the word alone there is nothing. -/

theorem wordEnd_digits (hd : Run category .digit (n + 1) d) (hrest : Stops category .digit rest) :
    wordEnd category (d ++ rest) = d.length := by
  unfold wordEnd
  rw [hd.map_kind_front rest]
  dsimp only
  rw [hd.skipRun_zero (by decide) hrest]

theorem wordEnd_letters (hk : k = .lower ∨ k = .caseless) (ha : Run category k (n + 1) a)
    (hd : Run category .digit m d) (hstops : Stops category k (d ++ rest)) (hrest : Stops category .digit rest) :
    wordEnd category (a ++ (d ++ rest)) = (a ++ d).length := by
  have hdigits := hd.skipRun_append (by decide) hrest a
  unfold wordEnd
  rw [ha.map_kind_front (d ++ rest)]
  rcases hk with rfl | rfl
  · dsimp only
    rw [ha.skipRun_zero (by decide) hstops, hdigits]
  · dsimp only
    rw [ha.skipRun_zero (by decide) hstops, hdigits]

/-- The word of small letters or of letters without case that starts at the front. -/
theorem exists_letters {c : CodePoint} (cs : List CodePoint) (hc : kind category c = k)
    (hk : k = .lower ∨ k = .caseless) :
    ∃ n m a d rest, c :: cs = a ++ d ++ rest ∧ Run category k (n + 1) a ∧ Run category .digit m d ∧
      wordEnd category (c :: cs) = (a ++ d).length := by
  have hsep : k ≠ .separator := by rcases hk with rfl | rfl <;> decide
  obtain ⟨n, a, tail, heq, ha, hstops⟩ := exists_run_succ cs hc hsep
  obtain ⟨m, d, rest, rfl, hd, hrest⟩ := exists_run .digit tail hstops.not_mark
  rw [heq]
  exact ⟨n, m, a, d, rest, (List.append_assoc a d rest).symm, ha, hd, wordEnd_letters hk ha hd hstops hrest⟩

theorem wordEnd_upper (hu : Run category .upper (n + 1) u) (hrest : Stops category .upper rest) :
    wordEnd category (u ++ rest) =
      if n = 0 then
        (skipRun category .digit (u ++ rest) (skipRun category .lower (u ++ rest) u.length).1).1
      else if (rest[0]?).map (kind category) = some .digit then (skipRun category .digit (u ++ rest) u.length).1
      else if (rest[0]?).map (kind category) = some .lower then back category (u ++ rest) u.length
      else u.length := by
  have hnext : (u ++ rest)[u.length]? = rest[0]? := by
    rw [List.getElem?_append_right (Nat.le_refl _), Nat.sub_self]
  unfold wordEnd
  rw [hu.map_kind_front]
  simp only [hu.skipRun_zero (by decide) hrest, hnext, Nat.add_eq_right]

/-- Behind a single capital, small letters and digits belong to the word. -/
theorem wordEnd_capital (hu : Run category .upper 1 u) (ha : Run category .lower n a) (hd : Run category .digit m d)
    (hupper : Stops category .upper (a ++ (d ++ rest))) (hlower : Stops category .lower (d ++ rest))
    (hrest : Stops category .digit rest) : wordEnd category (u ++ (a ++ (d ++ rest))) = (u ++ (a ++ d)).length := by
  have hletters := ha.skipRun_append (by decide) hlower u
  have hdigits := hd.skipRun_append (by decide) hrest (u ++ a)
  rw [List.append_assoc, List.append_assoc] at hdigits
  rw [wordEnd_upper hu hupper, if_pos rfl, hletters, hdigits]

/-- Behind several capitals, digits belong to the word. -/
theorem wordEnd_capitals (hu : Run category .upper (n + 2) u) (hd : Run category .digit m d)
    (hupper : Stops category .upper (d ++ rest)) (hlower : Stops category .lower (d ++ rest))
    (hrest : Stops category .digit rest) : wordEnd category (u ++ (d ++ rest)) = (u ++ d).length := by
  rw [wordEnd_upper hu hupper, if_neg (by omega), if_neg hlower.map_kind_ne]
  split
  · rw [hd.skipRun_append (by decide) hrest u]
  · next hdigit =>
    cases m with
    | zero => rw [hd.eq_nil, List.append_nil]
    | succ m => exact absurd (hd.map_kind_front rest) hdigit

/-- In front of a small letter, the last of several capitals does not belong to the word. -/
theorem wordEnd_back (hu : Run category .upper (n + 2) u) (hrest : Stops category .upper rest)
    (hlower : (rest[0]?).map (kind category) = some .lower) :
    wordEnd category (u ++ rest) = back category (u ++ rest) u.length := by
  rw [wordEnd_upper hu hrest, if_neg (by omega), hlower, if_neg (by decide), if_pos rfl]

/-! ## The forms of words -/

/-- The texts that are words, by how they are cased. -/
inductive CasedWord (category : CodePoint → Category) : Casing → List CodePoint → Prop where
  | allLower {n m : Nat} {a d : List CodePoint} (letters : Run category .lower (n + 1) a)
      (digits : Run category .digit m d) : CasedWord category .allLower (a ++ d)
  | capitalized {n m : Nat} {u a d : List CodePoint} (capital : Run category .upper 1 u)
      (letters : Run category .lower (n + 1) a) (digits : Run category .digit m d) :
      CasedWord category .capitalized (u ++ (a ++ d))
  | allUpper {n m : Nat} {u d : List CodePoint} (capitals : Run category .upper (n + 1) u)
      (digits : Run category .digit m d) : CasedWord category .allUpper (u ++ d)
  | letters {n m : Nat} {a d : List CodePoint} (letters : Run category .caseless (n + 1) a)
      (digits : Run category .digit m d) : CasedWord category .caseless (a ++ d)
  | digits {n : Nat} {d : List CodePoint} (digits : Run category .digit (n + 1) d) : CasedWord category .caseless d

/-- **The cursor stops behind a word of one of the forms.** -/
theorem exists_casedWord {c : CodePoint} (hc : isWord category c = true) (cs : List CodePoint) :
    ∃ casing w rest, c :: cs = w ++ rest ∧ CasedWord category casing w ∧ wordEnd category (c :: cs) = w.length := by
  cases hkind : kind category c with
  | separator => simp [isWord_eq, hkind] at hc
  | digit =>
    obtain ⟨n, d, rest, heq, hd, hrest⟩ := exists_run_succ cs hkind (by decide)
    rw [heq]
    exact ⟨_, d, rest, rfl, .digits hd, wordEnd_digits hd hrest⟩
  | lower =>
    obtain ⟨n, m, a, d, rest, heq, ha, hd, hend⟩ := exists_letters cs hkind (Or.inl rfl)
    exact ⟨_, a ++ d, rest, heq, .allLower ha hd, hend⟩
  | caseless =>
    obtain ⟨n, m, a, d, rest, heq, ha, hd, hend⟩ := exists_letters cs hkind (Or.inr rfl)
    exact ⟨_, a ++ d, rest, heq, .letters ha hd, hend⟩
  | upper =>
    obtain ⟨n, u, tail, heq, hu, hupper⟩ := exists_run_succ cs hkind (by decide)
    rw [heq]
    cases n with
    | zero =>
      obtain ⟨n, a, tail, rfl, ha, hlower⟩ := exists_run .lower tail hupper.not_mark
      obtain ⟨m, d, rest, rfl, hd, hrest⟩ := exists_run .digit tail hlower.not_mark
      have hword : ∃ casing, CasedWord category casing (u ++ (a ++ d)) := by
        cases n with
        | zero =>
          rw [ha.eq_nil, List.nil_append]
          exact ⟨_, .allUpper hu hd⟩
        | succ n => exact ⟨_, .capitalized hu ha hd⟩
      obtain ⟨casing, hword⟩ := hword
      refine ⟨casing, u ++ (a ++ d), rest, ?_, hword, wordEnd_capital hu ha hd hupper hlower hrest⟩
      rw [List.append_assoc, List.append_assoc]
    | succ n =>
      by_cases hlower : (tail[0]?).map (kind category) = some .lower
      · -- The last capital is given back with its marks; at least one capital is left.
        obtain ⟨front, e, marks, rfl, hfront, he, hmarks⟩ := hu.exists_last
        have hback := back_append front (isMark_eq_false_of_isWord (isWord_of_kind he (by decide))) hmarks tail
        have hend := wordEnd_back hu hupper hlower
        have hword : CasedWord category .allUpper (front ++ []) := .allUpper hfront .nil
        rw [List.append_nil] at hword
        rw [List.append_assoc, List.cons_append] at hend ⊢
        exact ⟨_, front, _, rfl, hword, hend.trans hback⟩
      · obtain ⟨m, d, rest, rfl, hd, hrest⟩ := exists_run .digit tail hupper.not_mark
        have hstops : Stops category .lower (d ++ rest) := fun x hx =>
          ⟨hupper.not_mark x hx, fun hk => hlower (Option.map_eq_some_iff.mpr ⟨x, hx, hk⟩)⟩
        exact ⟨_, u ++ d, rest, (List.append_assoc u d rest).symm, .allUpper hu hd,
          wordEnd_capitals hu hd hupper hstops hrest⟩

/-- In a text of one of the forms the cursor stops at the end. -/
theorem CasedWord.wordEnd_eq (h : CasedWord category casing w) : wordEnd category w = w.length := by
  cases h with
  | digits hd =>
    have hend := wordEnd_digits hd Stops.nil
    rwa [List.append_nil] at hend
  | allLower ha hd =>
    have hend := wordEnd_letters (Or.inl rfl) ha hd (hd.stops (by decide) (by decide) .nil) .nil
    rwa [List.append_nil] at hend
  | letters ha hd =>
    have hend := wordEnd_letters (Or.inr rfl) ha hd (hd.stops (by decide) (by decide) .nil) .nil
    rwa [List.append_nil] at hend
  | capitalized hu ha hd =>
    have hlower : Stops category .lower _ := hd.stops (by decide) (by decide) .nil
    have hupper : Stops category .upper _ := hd.stops (by decide) (by decide) .nil
    have hend := wordEnd_capital hu ha hd (ha.stops (by decide) (by decide) hupper) hlower .nil
    rwa [List.append_nil] at hend
  | @allUpper n _ _ _ hu hd =>
    have hlower : Stops category .lower _ := hd.stops (by decide) (by decide) .nil
    have hupper : Stops category .upper _ := hd.stops (by decide) (by decide) .nil
    cases n with
    | zero =>
      have hend := wordEnd_capital hu .nil hd hupper hlower .nil
      rwa [List.nil_append, List.nil_append, List.append_nil] at hend
    | succ n =>
      have hend := wordEnd_capitals hu hd hupper hlower .nil
      rwa [List.append_nil] at hend

theorem Run.exists_cons (h : Run category k (n + 1) run) (hk : k ≠ .separator) (rest : List CodePoint) :
    ∃ c cs, run ++ rest = c :: cs ∧ isWord category c = true := by
  cases h with
  | cons hc _ _ => exact ⟨_, _, rfl, isWord_of_kind hc hk⟩

theorem CasedWord.exists_cons (h : CasedWord category casing w) : ∃ c cs, w = c :: cs ∧ isWord category c = true := by
  cases h with
  | allLower ha _ => exact ha.exists_cons (by decide) _
  | capitalized hu _ _ => exact hu.exists_cons (by decide) _
  | allUpper hu _ => exact hu.exists_cons (by decide) _
  | letters ha _ => exact ha.exists_cons (by decide) _
  | digits hd =>
    have hcons := hd.exists_cons (by decide) []
    rwa [List.append_nil] at hcons

/-- **A text of one of the forms is one word.** -/
theorem CasedWord.scan_eq (h : CasedWord category casing w) : scan category w = [w] := by
  have hend := h.wordEnd_eq
  obtain ⟨c, cs, rfl, hc⟩ := h.exists_cons
  have hfront : ((c :: cs).dropWhile fun c => !isWord category c) = c :: cs :=
    List.dropWhile_cons_of_neg (by simp [hc])
  rw [scan_of_cons hfront, hend, List.take_length, List.drop_length, scan_of_nil rfl]

/-- Every word has one of the forms. -/
theorem exists_casedWord_of_mem_scan {cs : List CodePoint} (hw : w ∈ scan category cs) :
    ∃ casing, CasedWord category casing w := by
  induction cs using scan.induct category with
  | case1 cs h =>
    rw [scan_of_nil h] at hw
    cases hw
  | case2 cs c rest h hlt ih =>
    rw [scan_of_cons h] at hw
    rcases List.mem_cons.mp hw with rfl | hw
    · obtain ⟨casing, v, tail, heq, hv, hend⟩ := exists_casedWord (isWord_of_dropWhile h) rest
      rw [hend, heq, List.take_left]
      exact ⟨casing, hv⟩
    · exact ih hw

/-! ## Casing -/

variable (category) in
/-- The kinds of the letters with case. -/
def caseKinds (cs : List CodePoint) : List LetterKind := (cs.map (kind category)).filter LetterKind.isCased

variable (category) in
def casingIn (cs : List CodePoint) : Casing := Casing.ofKinds (caseKinds category cs)

theorem caseKinds_append (cs ds : List CodePoint) :
    caseKinds category (cs ++ ds) = caseKinds category cs ++ caseKinds category ds := by
  rw [caseKinds, List.map_append, List.filter_append]
  rfl

theorem isCased_kind_of_isMark {c : CodePoint} (h : isMark category c = true) :
    (kind category c).isCased = false := by
  have hword := isWord_eq_false_of_isMark h
  rw [isWord_eq] at hword
  have hkind : kind category c = .separator := by simpa using hword
  rw [hkind]
  rfl

theorem Run.caseKinds_eq (h : Run category k n run) :
    caseKinds category run = if k.isCased then List.replicate n k else [] := by
  rw [← List.filter_replicate]
  induction h with
  | nil => rfl
  | @cons n c marks cs hc hmarks _ ih =>
    have hnone : caseKinds category marks = [] := by
      rw [caseKinds, List.filter_eq_nil_iff, List.forall_mem_map]
      intro m hm
      rw [isCased_kind_of_isMark (hmarks m hm)]
      decide
    rw [← List.singleton_append, caseKinds_append, caseKinds_append, hnone, List.nil_append, ih, caseKinds,
      List.map_singleton, hc, ← List.filter_append, List.singleton_append, List.replicate_succ]

/-- **The form of a word tells its casing.** -/
theorem CasedWord.casing_eq (h : CasedWord category casing w) : casingIn category w = casing := by
  unfold casingIn
  cases h with
  | allLower ha hd =>
    simp [caseKinds_append, ha.caseKinds_eq, hd.caseKinds_eq, LetterKind.isCased, List.replicate_succ, Casing.ofKinds]
  | capitalized hu ha hd =>
    simp [caseKinds_append, hu.caseKinds_eq, ha.caseKinds_eq, hd.caseKinds_eq, LetterKind.isCased, List.replicate_succ,
      Casing.ofKinds]
  | allUpper hu hd =>
    simp [caseKinds_append, hu.caseKinds_eq, hd.caseKinds_eq, LetterKind.isCased, List.replicate_succ, Casing.ofKinds]
  | letters ha hd =>
    simp [caseKinds_append, ha.caseKinds_eq, hd.caseKinds_eq, LetterKind.isCased, Casing.ofKinds]
  | digits hd => simp [hd.caseKinds_eq, LetterKind.isCased, Casing.ofKinds]

theorem CasedWord.casing_ne_mixed (h : CasedWord category casing w) : casing ≠ .mixed := by
  cases h <;> decide

variable {u : CharacterData}

theorem all_iff_not_mem_map {p : CodePoint → Bool} {l : List CodePoint}
    (hp : ∀ c ∈ l, p c = true ↔ letterKind u c ≠ k) : l.all p = true ↔ k ∉ l.map (letterKind u) := by
  rw [List.all_eq_true, List.mem_map]
  constructor
  · rintro hall ⟨c, hc, hk⟩
    exact (hp c hc).mp (hall c hc) hk
  · intro hnot c hc
    exact (hp c hc).mpr fun hk => hnot ⟨c, hc, hk⟩

theorem isCased_kind_category (c : CodePoint) :
    (kind u.category c).isCased = (u.isUpper c || u.isLower c) := by
  unfold kind Category.letterKind CharacterData.isUpper CharacterData.isLower
  cases u.category c <;> rfl

theorem caseKinds_category (cs : List CodePoint) :
    caseKinds u.category cs =
      (cs.filter fun c => u.isUpper c || u.isLower c).map (letterKind u) := by
  rw [caseKinds, List.filter_map, show kind u.category = letterKind u from funext kind_category]
  refine congrArg (List.map (letterKind u)) (List.filter_congr fun c _ => ?_)
  rw [← isCased_kind_category, kind_category]
  rfl

/-- With the categories of a database, texts are cased as the splitter says. -/
theorem casingIn_category (cs : List CodePoint) : casingIn u.category cs = casingOf u cs := by
  have hcased : ∀ c ∈ cs.filter fun c => u.isUpper c || u.isLower c,
      letterKind u c = .upper ∨ letterKind u c = .lower :=
    fun c hc => by simpa [isUpper_iff, isLower_iff] using (List.mem_filter.mp hc).2
  rw [casingIn, caseKinds_category, casingOf]
  generalize cs.filter (fun c => u.isUpper c || u.isLower c) = l at hcased
  cases l with
  | nil => rfl
  | cons first rest =>
    -- Among letters with case, a capital is what is no small letter, and a small letter what is no capital.
    have hupper : (first :: rest).all u.isUpper = true ↔ .lower ∉ (first :: rest).map (letterKind u) :=
      all_iff_not_mem_map fun c hc => by rcases hcased c hc with h | h <;> simp [isUpper_iff, h]
    have hlower : (first :: rest).all u.isLower = true ↔ .upper ∉ (first :: rest).map (letterKind u) :=
      all_iff_not_mem_map fun c hc => by rcases hcased c hc with h | h <;> simp [isLower_iff, h]
    have hfirst : (u.isUpper first && !rest.any u.isUpper) = true ↔
        letterKind u first = .upper ∧ .upper ∉ rest.map (letterKind u) := by
      rw [Bool.and_eq_true, isUpper_iff, List.not_any_eq_all_not, all_iff_not_mem_map]
      intro c hc
      rw [ne_eq, ← isUpper_iff, Bool.not_eq_true, Bool.not_eq_true']
    simp only [hupper, hlower, hfirst]
    rfl

/-! ## The words of a label -/

variable (category) in
/-- The words of a label, if code points are of these categories. -/
def words (label : Bytes) : List Word :=
  (scan category (Utf8.decode label)).map fun cs => ⟨Utf8.encode cs, casingIn category cs⟩

theorem splitWords_eq_words (u : CharacterData) (label : Bytes) : splitWords u label = words u.category label := by
  rw [splitWords_eq, words]
  refine List.map_congr_left fun cs _ => ?_
  rw [wordOf, casingIn_category]

/-- A word that splitting leaves as it is. It is not mixed, and its text has the form that goes with its casing, and no
other. -/
structure Atomic (category : CodePoint → Category) (split : Bytes → List Word) (w : Word) : Prop where
  split_text : split w.text = [w]
  not_mixed : w.casing ≠ .mixed
  casing_iff : ∀ casing, w.casing = casing ↔ CasedWord category casing (Utf8.decode w.text)

/-- Whatever categories the code points have, words are not split any further. -/
theorem atomic_of_mem_words {label : Bytes} {w : Word} (hw : w ∈ words category label) :
    Atomic category (words category) w := by
  obtain ⟨cs, hcs, rfl⟩ := List.mem_map.mp hw
  obtain ⟨casing, hword⟩ := exists_casedWord_of_mem_scan hcs
  have hdecode : Utf8.decode (Utf8.encode cs) = cs := decode_encode_of_mem_scan hcs
  refine ⟨?_, ?_, fun casing' => ?_⟩
  · rw [words, hdecode, hword.scan_eq]
    rfl
  · dsimp only
    rw [hword.casing_eq]
    exact hword.casing_ne_mixed
  · dsimp only
    rw [hdecode]
    refine ⟨?_, CasedWord.casing_eq⟩
    rintro rfl
    rw [hword.casing_eq]
    exact hword

/-- **The words of a label are not split any further, and none is mixed.** Splitting the text of a word gives the word
with its casing. Small letters with digits behind them are in lower case, a capital with small letters and digits behind
it is capitalized, capitals with digits behind them are in upper case, and digits alone or letters without case with
digits behind them are caseless. The words are those that the cursor finds, and with other categories they would not be
split any further either. -/
theorem splitWords_atomic (u : CharacterData) (label : Bytes) :
    (∀ w ∈ splitWords u label, Atomic u.category (splitWords u) w) ∧
      splitWords u label = words u.category label ∧
      ∀ category, ∀ w ∈ words category label, Atomic category (words category) w := by
  refine ⟨fun w hw => ?_, splitWords_eq_words u label, fun category w hw => atomic_of_mem_words hw⟩
  rw [funext (splitWords_eq_words u)] at hw ⊢
  exact atomic_of_mem_words hw

/-- Behind several capitals, the last one is given back with its mark, and both words stay as they are. -/
theorem splitWords_atomic_marked_capital :
    splitWords .table (Bytes.ascii "XMLE" ++ [0xCC, 0x81] ++ Bytes.ascii "cole2") =
        [⟨Bytes.ascii "XML", .allUpper⟩, ⟨Bytes.ascii "E" ++ [0xCC, 0x81] ++ Bytes.ascii "cole2", .capitalized⟩] ∧
      Atomic CharacterData.table.category (splitWords .table) ⟨Bytes.ascii "XML", .allUpper⟩ ∧
      Atomic CharacterData.table.category (splitWords .table)
        ⟨Bytes.ascii "E" ++ [0xCC, 0x81] ++ Bytes.ascii "cole2", .capitalized⟩ := by
  have hwords : splitWords .table (Bytes.ascii "XMLE" ++ [0xCC, 0x81] ++ Bytes.ascii "cole2") =
      [⟨Bytes.ascii "XML", .allUpper⟩, ⟨Bytes.ascii "E" ++ [0xCC, 0x81] ++ Bytes.ascii "cole2", .capitalized⟩] := by
    decide +kernel
  have hatomic := (splitWords_atomic .table (Bytes.ascii "XMLE" ++ [0xCC, 0x81] ++ Bytes.ascii "cole2")).1
  rw [hwords] at hatomic
  exact ⟨hwords, hatomic _ (by simp), hatomic _ (by simp)⟩

end Scanner

end Typewright
