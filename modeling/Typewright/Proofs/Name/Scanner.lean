import Typewright.Proofs.Name.WordShape
import Typewright.Proofs.Text.Utf8

/-!
# Scanning a label for words

The words of a label can be found with a cursor that moves over its code points. Behind several capitals the cursor goes
back, over the marks of the last one, to let that one start the next word.

* `Scanner.skipRun`, `Scanner.back`, `Scanner.wordEnd`, `Scanner.scan` : the moves of the cursor;
* `Scanner.Within` : what the cursor keeps while it is in a word, with one lemma for each move;
* `Scanner.within_wordEnd` : the cursor never goes back to where the word starts, so every round moves ahead;
* `Scanner.Run`, `Scanner.Stops` : characters of one kind, and where they end; `Scanner.Run.skipRun_append` says that the
  cursor moves over them;
* `Scanner.wordParts` : the code points that belong to words, by what stands before them;
* `Scanner.flatten_scan` : the words hold these code points, in their order;
* `Scanner.splitWords_eq` : the splitting into clusters finds the same words.

Which category a code point has does not matter for this, as long as it has one.
-/

namespace Typewright

/-- What characters of a category are to the splitter. -/
def Category.letterKind : Category → LetterKind
  | .upper | .title => .upper
  | .lower => .lower
  | .letter => .caseless
  | .digit => .digit
  | _ => .separator

def Category.isWord : Category → Bool
  | .upper | .lower | .title | .letter | .digit => true
  | _ => false

def Category.isMark : Category → Bool
  | .nonspacing | .spacing => true
  | _ => false

theorem Category.isWord_eq (k : Category) : k.isWord = (k.letterKind != .separator) := by
  cases k <;> rfl

theorem Category.isWord_eq_false_of_isMark {k : Category} (h : k.isMark = true) : k.isWord = false := by
  cases k <;> first | rfl | cases h

namespace Scanner

/-! ## The moves of the cursor -/

section Moves

variable (category : CodePoint → Category)

def kind (c : CodePoint) : LetterKind := (category c).letterKind

def isMark (c : CodePoint) : Bool := (category c).isMark

def isWord (c : CodePoint) : Bool := (category c).isWord

def skipMarks (cs : List CodePoint) (i : Nat) : Nat := i + ((cs.drop i).takeWhile (isMark category)).length

/-- Moves over characters of one kind, each with its marks; also returns how many characters they were. -/
def skipRun (k : LetterKind) (cs : List CodePoint) (i : Nat) : Nat × Nat :=
  if h : i < cs.length then
    if kind category cs[i] = k then
      let r := skipRun k cs (skipMarks category cs (i + 1))
      (r.1, r.2 + 1)
    else (i, 0)
  else (i, 0)
termination_by cs.length - i
decreasing_by
  unfold skipMarks
  omega

/-- Moves back by one character, over its marks. -/
def back (cs : List CodePoint) : Nat → Nat
  | 0 => 0
  | i + 1 => if (cs[i]?).any (isMark category) then back cs i else i

/-- Where the word that starts at the front ends. -/
def wordEnd (cs : List CodePoint) : Nat :=
  let skip (k : LetterKind) (i : Nat) := (skipRun category k cs i).1
  match (cs[0]?).map (kind category) with
  | some .lower => skip .digit (skip .lower 0)
  | some .digit => skip .digit 0
  | some .caseless => skip .digit (skip .caseless 0)
  | some .upper =>
    let i := skip .upper 0
    if (skipRun category .upper cs 0).2 = 1 then skip .digit (skip .lower i)
    else if (cs[i]?).map (kind category) = some .digit then skip .digit i
    else if (cs[i]?).map (kind category) = some .lower then back category cs i
    else i
  | _ => 0

end Moves

variable {category : CodePoint → Category} {cs : List CodePoint} {k : LetterKind} {i : Nat}

theorem isWord_eq (category : CodePoint → Category) (c : CodePoint) :
    isWord category c = (kind category c != .separator) :=
  (category c).isWord_eq

theorem isWord_eq_false_of_isMark {c : CodePoint} (h : isMark category c = true) : isWord category c = false :=
  Category.isWord_eq_false_of_isMark h

theorem isMark_eq_false_of_isWord {c : CodePoint} (h : isWord category c = true) : isMark category c = false := by
  cases hm : isMark category c with
  | false => rfl
  | true =>
    rw [isWord_eq_false_of_isMark hm] at h
    cases h

theorem isWord_of_kind {c : CodePoint} (hc : kind category c = k) (hk : k ≠ .separator) : isWord category c = true := by
  simp [isWord_eq, hc, hk]

theorem skipRun_of_kind {c : CodePoint} (hi : cs[i]? = some c) (hc : kind category c = k) :
    skipRun category k cs i = ((skipRun category k cs (skipMarks category cs (i + 1))).1,
      (skipRun category k cs (skipMarks category cs (i + 1))).2 + 1) := by
  obtain ⟨hlt, rfl⟩ := List.getElem?_eq_some_iff.mp hi
  rw [skipRun, dif_pos hlt, if_pos hc]

theorem skipRun_of_not_kind (h : (cs[i]?).map (kind category) ≠ some k) : skipRun category k cs i = (i, 0) := by
  rw [skipRun]
  split
  · next hlt =>
    rw [if_neg]
    simpa [List.getElem?_eq_getElem hlt] using h
  · rfl

/-! ## What the cursor keeps -/

/-- The cursor is in a word: all code points before it belong to the word, and it does not stand at a mark. -/
structure Within (category : CodePoint → Category) (cs : List CodePoint) (i : Nat) : Prop where
  le_length : i ≤ cs.length
  word : ∀ c ∈ cs.take i, isWord category c = true ∨ isMark category c = true
  not_mark : ∀ c, cs[i]? = some c → isMark category c = false

/-- Behind a character of a word and its marks the cursor is in the word again. -/
theorem Within.skipMarks {c : CodePoint} (h : Within category cs i) (hi : cs[i]? = some c)
    (hc : isWord category c = true) : Within category cs (skipMarks category cs (i + 1)) := by
  obtain ⟨hlt, rfl⟩ := List.getElem?_eq_some_iff.mp hi
  refine ⟨?_, fun d hd => ?_, fun d hd => ?_⟩
  · have hle := (List.takeWhile_sublist (isMark category) (l := cs.drop (i + 1))).length_le
    rw [List.length_drop] at hle
    unfold Scanner.skipMarks
    omega
  · rw [Scanner.skipMarks, List.take_add, List.take_add_one, hi, take_length_takeWhile] at hd
    simp only [List.mem_append, Option.toList_some, List.mem_singleton] at hd
    rcases hd with (hd | rfl) | hd
    · exact h.word d hd
    · exact Or.inl hc
    · exact Or.inr (List.mem_takeWhile_imp hd)
  · rw [Scanner.skipMarks, ← List.getElem?_drop, ← List.head?_drop, drop_length_takeWhile] at hd
    exact eq_false_of_head?_dropWhile hd

theorem lt_skipMarks (category : CodePoint → Category) (cs : List CodePoint) (i : Nat) :
    i < skipMarks category cs (i + 1) := by
  unfold skipMarks
  omega

/-- Moving over a run keeps the cursor in the word. -/
theorem Within.skipRun (h : Within category cs i) (hk : k ≠ .separator) :
    Within category cs (skipRun category k cs i).1 ∧ i ≤ (skipRun category k cs i).1 := by
  induction i using skipRun.induct category k cs with
  | case1 i hlt hkind ih =>
    have hi : cs[i]? = some cs[i] := List.getElem?_eq_getElem hlt
    obtain ⟨hwithin, hle⟩ := ih (h.skipMarks hi (isWord_of_kind hkind hk))
    rw [skipRun_of_kind hi hkind]
    exact ⟨hwithin, Nat.le_trans (Nat.le_of_lt (lt_skipMarks category cs i)) hle⟩
  | case2 i hlt hkind =>
    rw [Scanner.skipRun, dif_pos hlt, if_neg hkind]
    exact ⟨h, Nat.le_refl i⟩
  | case3 i hlt =>
    rw [Scanner.skipRun, dif_neg hlt]
    exact ⟨h, Nat.le_refl i⟩

theorem Within.lt_skipRun {c : CodePoint} (h : Within category cs i) (hi : cs[i]? = some c)
    (hc : kind category c = k) (hk : k ≠ .separator) : i < (Scanner.skipRun category k cs i).1 := by
  have hle := ((h.skipMarks hi (isWord_of_kind hc hk)).skipRun hk).2
  rw [skipRun_of_kind hi hc]
  exact Nat.lt_of_lt_of_le (lt_skipMarks category cs i) hle

/-- A run of at least one character starts with one of its kind. -/
theorem exists_kind_of_pos (hn : 0 < (skipRun category k cs i).2) : ∃ c, cs[i]? = some c ∧ kind category c = k := by
  by_cases h : (cs[i]?).map (kind category) = some k
  · exact Option.map_eq_some_iff.mp h
  · rw [skipRun_of_not_kind h] at hn
    exact absurd hn (Nat.lt_irrefl 0)

/-- In a run of two characters or more there is a second one. -/
theorem Within.exists_second (h : Within category cs i) (hk : k ≠ .separator)
    (hn : 2 ≤ (Scanner.skipRun category k cs i).2) :
    ∃ m c, i < m ∧ m < (Scanner.skipRun category k cs i).1 ∧ cs[m]? = some c ∧ isMark category c = false := by
  obtain ⟨c, hi, hc⟩ := exists_kind_of_pos (Nat.zero_lt_of_lt hn)
  have hwithin := h.skipMarks hi (isWord_of_kind hc hk)
  rw [skipRun_of_kind hi hc] at hn ⊢
  obtain ⟨d, hm, hd⟩ := exists_kind_of_pos (Nat.lt_of_succ_lt_succ hn)
  exact ⟨_, d, lt_skipMarks category cs i, hwithin.lt_skipRun hm hd hk, hm, hwithin.not_mark d hm⟩

/-- Going back stops at the nearest character that is no mark. -/
theorem le_back {m : Nat} {c : CodePoint} (hm : cs[m]? = some c) (hc : isMark category c = false) (hlt : m < i) :
    m ≤ back category cs i ∧ back category cs i < i ∧
      ∀ d, cs[back category cs i]? = some d → isMark category d = false := by
  induction i with
  | zero => exact absurd hlt (Nat.not_lt_zero m)
  | succ i ih =>
    rw [back]
    split
    · next hmark =>
      have hne : m ≠ i := by
        rintro rfl
        rw [hm, Option.any_some, hc] at hmark
        cases hmark
      obtain ⟨hle, hback, hnot⟩ := ih (by omega)
      exact ⟨hle, by omega, hnot⟩
    · next hmark =>
      refine ⟨Nat.le_of_lt_succ hlt, Nat.lt_succ_self i, fun d hd => ?_⟩
      rw [hd, Option.any_some] at hmark
      exact Bool.eq_false_iff.mpr hmark

/-- **Where a word ends.** The cursor is in the word all the time, and ends behind its first character: of two capitals
or more, the last one stands behind the first. -/
theorem within_wordEnd {c : CodePoint} (hc : isWord category c = true) (cs : List CodePoint) :
    Within category (c :: cs) (wordEnd category (c :: cs)) ∧ 0 < wordEnd category (c :: cs) := by
  have hstart : Within category (c :: cs) 0 :=
    ⟨Nat.zero_le _, fun d hd => absurd hd (by simp), fun d hd => by
      obtain rfl := Option.some.inj hd
      exact isMark_eq_false_of_isWord hc⟩
  have hrun : ∀ {k i}, k ≠ .separator → Within category (c :: cs) i ∧ 0 < i →
      Within category (c :: cs) (skipRun category k (c :: cs) i).1 ∧ 0 < (skipRun category k (c :: cs) i).1 := by
    intro k i hk h
    obtain ⟨hwithin, hle⟩ := h.1.skipRun hk
    exact ⟨hwithin, Nat.lt_of_lt_of_le h.2 hle⟩
  have hfirst : ∀ {k}, kind category c = k → k ≠ .separator →
      Within category (c :: cs) (skipRun category k (c :: cs) 0).1 ∧ 0 < (skipRun category k (c :: cs) 0).1 :=
    fun hkind hk => ⟨(hstart.skipRun hk).1, hstart.lt_skipRun rfl hkind hk⟩
  unfold wordEnd
  rw [List.getElem?_cons_zero, Option.map_some]
  cases hkind : kind category c with
  | separator => simp [isWord_eq, hkind] at hc
  | digit => exact hfirst hkind (by decide)
  | lower => exact hrun (by decide) (hfirst hkind (by decide))
  | caseless => exact hrun (by decide) (hfirst hkind (by decide))
  | upper =>
    have hupper := hfirst hkind (by decide)
    dsimp only
    split
    · exact hrun (by decide) (hrun (by decide) hupper)
    split
    · exact hrun (by decide) hupper
    split
    · next hone _ _ =>
      have htwo : 2 ≤ (skipRun category .upper (c :: cs) 0).2 := by
        rw [skipRun_of_kind rfl hkind] at hone ⊢
        omega
      obtain ⟨m, d, hm, hlt, hd, hmark⟩ := hstart.exists_second (by decide) htwo
      obtain ⟨hle, hback, hnot⟩ := le_back hd hmark hlt
      refine ⟨⟨?_, fun x hx => hupper.1.word x ?_, hnot⟩, by omega⟩
      · exact Nat.le_trans (Nat.le_of_lt hback) hupper.1.le_length
      · exact (List.take_subset_take_left _ (Nat.le_of_lt hback)) hx
    · exact hupper

/-! ## Runs -/

section Runs

variable {n : Nat} {run rest : List CodePoint}

/-- Characters of one kind, each with marks behind it, and how many characters they are. -/
inductive Run (category : CodePoint → Category) (k : LetterKind) : Nat → List CodePoint → Prop where
  | nil : Run category k 0 []
  | cons {n : Nat} {c : CodePoint} {marks cs : List CodePoint} (character : kind category c = k)
      (following : ∀ m ∈ marks, isMark category m = true) (later : Run category k n cs) :
      Run category k (n + 1) (c :: (marks ++ cs))

/-- A text that does not go on with a run: there is neither a mark nor a character of the kind at its front. -/
def Stops (category : CodePoint → Category) (k : LetterKind) (cs : List CodePoint) : Prop :=
  ∀ c, cs[0]? = some c → isMark category c = false ∧ kind category c ≠ k

theorem Stops.nil : Stops category k [] := by
  intro c hc
  cases hc

theorem Stops.not_mark (h : Stops category k rest) : ∀ c, rest[0]? = some c → isMark category c = false :=
  fun c hc => (h c hc).1

theorem Stops.map_kind_ne (h : Stops category k rest) : (rest[0]?).map (kind category) ≠ some k := by
  intro hkind
  obtain ⟨c, hc, hk⟩ := Option.map_eq_some_iff.mp hkind
  exact (h c hc).2 hk

theorem Run.eq_nil (h : Run category k 0 run) : run = [] := by
  cases h
  rfl

/-- A run of at least one character starts with a character of its kind. -/
theorem Run.map_kind_front (h : Run category k (n + 1) run) (cs : List CodePoint) :
    ((run ++ cs)[0]?).map (kind category) = some k := by
  cases h with
  | cons hc _ _ => exact congrArg some hc

theorem Run.front_not_mark (h : Run category k n run) (hk : k ≠ .separator)
    (hrest : ∀ c, rest[0]? = some c → isMark category c = false) :
    ∀ c, (run ++ rest)[0]? = some c → isMark category c = false := by
  cases h with
  | nil => exact hrest
  | cons hc _ _ =>
    intro c hget
    obtain rfl := Option.some.inj hget
    exact isMark_eq_false_of_isWord (isWord_of_kind hc hk)

/-- In front of a run of another kind, a run stops. -/
theorem Run.stops {k' : LetterKind} (h : Run category k' n run) (hk' : k' ≠ .separator) (hne : k' ≠ k)
    (hrest : Stops category k rest) : Stops category k (run ++ rest) := by
  intro c hget
  refine ⟨h.front_not_mark hk' hrest.not_mark c hget, ?_⟩
  cases h with
  | nil => exact (hrest c hget).2
  | cons hc _ _ =>
    obtain rfl := Option.some.inj hget
    rw [hc]
    exact hne

theorem skipMarks_append (before : List CodePoint) (c : CodePoint) {marks : List CodePoint}
    (hmarks : ∀ m ∈ marks, isMark category m = true) (hrest : ∀ c, rest[0]? = some c → isMark category c = false) :
    skipMarks category (before ++ c :: (marks ++ rest)) (before.length + 1) = (before ++ c :: marks).length := by
  have hstop : rest.takeWhile (isMark category) = [] := by
    cases rest with
    | nil => rfl
    | cons d rest => rw [List.takeWhile_cons_of_neg (by simp [hrest d rfl])]
  have hdrop : (before ++ c :: (marks ++ rest)).drop (before.length + 1) = marks ++ rest := by
    rw [List.drop_append, List.drop_eq_nil_of_le (by omega), Nat.add_sub_cancel_left, List.nil_append]
    rfl
  rw [skipMarks, hdrop, List.takeWhile_append_of_pos hmarks, hstop, List.append_nil, List.length_append,
    List.length_cons]
  omega

/-- **The cursor moves over a run and counts its characters.** -/
theorem Run.skipRun_append (h : Run category k n run) (hk : k ≠ .separator) (hrest : Stops category k rest)
    (before : List CodePoint) :
    skipRun category k (before ++ (run ++ rest)) before.length = ((before ++ run).length, n) := by
  induction h generalizing before with
  | nil =>
    rw [List.nil_append, List.append_nil]
    refine skipRun_of_not_kind ?_
    rw [List.getElem?_append_right (Nat.le_refl _), Nat.sub_self]
    exact hrest.map_kind_ne
  | @cons n c marks cs hc hmarks hrun ih =>
    have hget : (before ++ (c :: (marks ++ cs) ++ rest))[before.length]? = some c := by
      rw [List.getElem?_append_right (Nat.le_refl _), Nat.sub_self]
      rfl
    have hnext := ih (before ++ c :: marks)
    rw [List.append_assoc, List.cons_append] at hnext
    rw [skipRun_of_kind hget hc, List.cons_append, List.append_assoc,
      skipMarks_append before c hmarks (hrun.front_not_mark hk hrest.not_mark), hnext, List.append_assoc]
    rfl

/-- Going back from behind a character and its marks leads to its front. -/
theorem back_append (before : List CodePoint) {c : CodePoint} (hc : isMark category c = false) {marks : List CodePoint}
    (hmarks : ∀ m ∈ marks, isMark category m = true) (rest : List CodePoint) :
    back category (before ++ c :: (marks ++ rest)) (before ++ c :: marks).length = before.length := by
  induction marks using List.reverseRecOn generalizing rest with
  | nil => simp [back, hc]
  | append_singleton marks m ih =>
    have hget : (before ++ c :: (marks ++ [m] ++ rest))[(before ++ c :: marks).length]? = some m := by
      rw [List.append_assoc marks, ← List.cons_append, ← List.append_assoc before,
        List.getElem?_append_right (Nat.le_refl _), Nat.sub_self]
      rfl
    have hlength : (before ++ c :: (marks ++ [m])).length = (before ++ c :: marks).length + 1 := by
      simp only [List.length_append, List.length_cons, List.length_nil]
      omega
    rw [hlength, back, hget, Option.any_some, hmarks m (by simp), if_pos rfl, List.append_assoc, List.singleton_append]
    exact ih (fun m' hm' => hmarks m' (List.mem_append_left _ hm')) (m :: rest)

end Runs

/-! ## All words -/

theorem isWord_of_dropWhile {c : CodePoint} {rest : List CodePoint}
    (h : (cs.dropWhile fun c => !isWord category c) = c :: rest) : isWord category c = true := by
  simpa using eq_false_of_head?_dropWhile (congrArg List.head? h)

/-- Every round moves ahead. -/
theorem length_drop_wordEnd_lt {c : CodePoint} {rest : List CodePoint}
    (h : (cs.dropWhile fun c => !isWord category c) = c :: rest) :
    ((c :: rest).drop (wordEnd category (c :: rest))).length < cs.length := by
  have hle := (List.dropWhile_sublist (fun c => !isWord category c) (l := cs)).length_le
  have hpos := (within_wordEnd (isWord_of_dropWhile h) rest).2
  rw [h] at hle
  rw [List.length_drop]
  simp only [List.length_cons] at hle ⊢
  omega

variable (category) in
/-- The words from the cursor on. -/
def scan (cs : List CodePoint) : List (List CodePoint) :=
  match h : cs.dropWhile fun c => !isWord category c with
  | [] => []
  | c :: rest =>
    have := length_drop_wordEnd_lt h
    (c :: rest).take (wordEnd category (c :: rest)) :: scan ((c :: rest).drop (wordEnd category (c :: rest)))
termination_by cs.length
decreasing_by exact this

theorem scan_of_nil (h : (cs.dropWhile fun c => !isWord category c) = []) : scan category cs = [] := by
  rw [scan]
  split
  · rfl
  · next heq => rw [h] at heq; cases heq

theorem scan_of_cons {c : CodePoint} {rest : List CodePoint}
    (h : (cs.dropWhile fun c => !isWord category c) = c :: rest) :
    scan category cs =
      (c :: rest).take (wordEnd category (c :: rest)) ::
        scan category ((c :: rest).drop (wordEnd category (c :: rest))) := by
  rw [scan]
  split
  · next heq => rw [h] at heq; cases heq
  · next heq =>
    rw [h] at heq
    obtain ⟨rfl, rfl⟩ := List.cons.inj heq
    rfl

variable (category) in
/-- Whether a code point belongs to a word of the text in which it has this index: it is a letter or a digit, or a mark
for which the nearest code point before it that is no mark is a letter or a digit. -/
def belongs (cs : List CodePoint) (c : CodePoint × Nat) : Bool :=
  isWord category c.1 ||
    isMark category c.1 && ((cs.take c.2).reverse.find? fun d => !isMark category d).any (isWord category)

variable (category) in
/-- The code points that belong to words. -/
def wordParts (cs : List CodePoint) : List CodePoint := (cs.zipIdx.filter (belongs category cs)).map Prod.fst

variable (category) in
/-- The same from the front on, if it is known whether a mark at the front belongs to a word. -/
def wordPartsAfter : Bool → List CodePoint → List CodePoint
  | _, [] => []
  | inWord, c :: cs =>
    if isMark category c then if inWord then c :: wordPartsAfter inWord cs else wordPartsAfter inWord cs
    else if isWord category c then c :: wordPartsAfter true cs
    else wordPartsAfter false cs

/-- Whether a mark behind a text belongs to a word is known from the text. -/
theorem map_filter_belongs (before cs : List CodePoint) :
    ((cs.zipIdx before.length).filter (belongs category (before ++ cs))).map Prod.fst =
      wordPartsAfter category ((before.reverse.find? fun d => !isMark category d).any (isWord category)) cs := by
  induction cs generalizing before with
  | nil => rfl
  | cons c cs ih =>
    have hnext := ih (before ++ [c])
    rw [List.length_append, List.length_singleton, List.append_assoc, List.singleton_append, List.reverse_append,
      List.reverse_singleton, List.singleton_append] at hnext
    rw [List.zipIdx_cons, List.filter_cons, belongs, List.take_left, wordPartsAfter]
    cases hm : isMark category c with
    | true =>
      rw [List.find?_cons_of_neg (by simp [hm])] at hnext
      simp only [isWord_eq_false_of_isMark hm, Bool.false_or, Bool.true_and, if_true]
      split
      · next hb => rw [List.map_cons, hnext, hb]
      · next hb => rw [hnext]
    | false =>
      rw [List.find?_cons_of_pos (by simp [hm]), Option.any_some] at hnext
      simp only [Bool.false_and, Bool.or_false, Bool.false_eq_true, if_false]
      split
      · next hw => rw [List.map_cons, hnext, hw]
      · next hw => rw [hnext, Bool.eq_false_iff.mpr hw]

theorem wordParts_eq (cs : List CodePoint) : wordParts category cs = wordPartsAfter category false cs :=
  map_filter_belongs [] cs

/-- Outside of words nothing is kept. -/
theorem wordPartsAfter_of_not_word {cs : List CodePoint} (h : ∀ c ∈ cs, isWord category c = false)
    (rest : List CodePoint) :
    wordPartsAfter category false (cs ++ rest) = wordPartsAfter category false rest := by
  induction cs with
  | nil => rfl
  | cons c cs ih =>
    obtain ⟨hc, hcs⟩ := List.forall_mem_cons.mp h
    rw [List.cons_append, wordPartsAfter, hc]
    simp only [Bool.false_eq_true, if_false, ih hcs, ite_self]

/-- In a word everything is kept. -/
theorem wordPartsAfter_of_word {cs : List CodePoint}
    (h : ∀ c ∈ cs, isWord category c = true ∨ isMark category c = true) (rest : List CodePoint) :
    wordPartsAfter category true (cs ++ rest) = cs ++ wordPartsAfter category true rest := by
  induction cs with
  | nil => rfl
  | cons c cs ih =>
    obtain ⟨hc, hcs⟩ := List.forall_mem_cons.mp h
    rw [List.cons_append, wordPartsAfter]
    rcases hc with hc | hc
    · simp [isMark_eq_false_of_isWord hc, hc, ih hcs]
    · simp [hc, ih hcs]

/-- In front of a code point that is no mark, it does not matter whether a word ends there. -/
theorem wordPartsAfter_of_not_mark {cs : List CodePoint} (h : ∀ c, cs[0]? = some c → isMark category c = false) :
    wordPartsAfter category true cs = wordPartsAfter category false cs := by
  cases cs with
  | nil => rfl
  | cons c cs =>
    rw [wordPartsAfter, wordPartsAfter, h c rfl]
    rfl

/-- **The words hold the code points that belong to words, in their order.** -/
theorem flatten_scan (cs : List CodePoint) : (scan category cs).flatten = wordParts category cs := by
  rw [wordParts_eq]
  induction cs using scan.induct category with
  | case1 cs h =>
    have hnot : ∀ c ∈ cs, isWord category c = false := by simpa using h
    rw [scan_of_nil h]
    simpa [wordPartsAfter] using (wordPartsAfter_of_not_word hnot []).symm
  | case2 cs c rest h hlt ih =>
    have hword := isWord_of_dropWhile h
    obtain ⟨hwithin, hpos⟩ := within_wordEnd hword rest
    have hbefore : ∀ d ∈ cs.takeWhile fun c => !isWord category c, isWord category d = false :=
      fun d hd => by simpa using List.mem_takeWhile_imp hd
    have hcs : cs = (cs.takeWhile fun c => !isWord category c) ++ c :: rest := by
      rw [← h, List.takeWhile_append_dropWhile]
    rw [scan_of_cons h, List.flatten_cons, ih, hcs, wordPartsAfter_of_not_word hbefore]
    obtain ⟨e, he⟩ := Nat.exists_eq_add_one_of_ne_zero (Nat.ne_of_gt hpos)
    rw [he] at hwithin ⊢
    have hrest : ∀ d, (rest.drop e)[0]? = some d → isMark category d = false := by
      intro d hd
      rw [List.getElem?_drop, Nat.add_zero] at hd
      exact hwithin.not_mark d hd
    have hparts : wordPartsAfter category true (rest.take e ++ rest.drop e) = _ :=
      wordPartsAfter_of_word (fun d hd => hwithin.word d (List.mem_cons_of_mem c hd)) (rest.drop e)
    rw [List.take_append_drop] at hparts
    rw [List.take_succ_cons, List.drop_succ_cons, wordPartsAfter, isMark_eq_false_of_isWord hword, hword, hparts,
      wordPartsAfter_of_not_mark hrest]
    rfl

/-- Every word starts with a letter or a digit. -/
theorem exists_cons_of_mem_scan {w : List CodePoint} (hw : w ∈ scan category cs) :
    ∃ c rest, w = c :: rest ∧ isWord category c = true := by
  induction cs using scan.induct category with
  | case1 cs h =>
    rw [scan_of_nil h] at hw
    cases hw
  | case2 cs c rest h hlt ih =>
    rw [scan_of_cons h] at hw
    rcases List.mem_cons.mp hw with rfl | hw
    · have hword := isWord_of_dropWhile h
      obtain ⟨e, he⟩ := Nat.exists_eq_add_one_of_ne_zero (Nat.ne_of_gt (within_wordEnd hword rest).2)
      rw [he]
      exact ⟨c, rest.take e, rfl, hword⟩
    · exact ih hw

/-! ## The words of clusters -/

section Clusters

variable {u : CharacterData}

open Cluster (flat flat_append flat_cons flat_clusters IsMarked isMarked_of_mem_clusters)

theorem kind_category (c : CodePoint) : kind u.category c = letterKind u c := by
  unfold kind letterKind Category.letterKind
  cases u.category c <;> rfl

theorem isMark_category (c : CodePoint) : isMark u.category c = u.isMark c := by
  unfold isMark CharacterData.isMark Category.isMark
  cases u.category c <;> rfl

/-- Behind some clusters stands the character of the next one. -/
theorem getElem?_flat (a b : List Cluster) : (flat (a ++ b))[(flat a).length]? = b[0]?.map Cluster.base := by
  rw [flat_append, List.getElem?_append_right (Nat.le_refl _), Nat.sub_self]
  cases b with
  | nil => rfl
  | cons c b => rfl

theorem run_flat {l : List Cluster} (hl : ∀ c ∈ l, IsMarked u c) (hk : AllOf u k l) :
    Run u.category k l.length (flat l) := by
  induction l with
  | nil => exact .nil
  | cons c l ih =>
    obtain ⟨hc, hl'⟩ := List.forall_mem_cons.mp hl
    obtain ⟨hkind, hk'⟩ := List.forall_mem_cons.mp hk
    refine .cons ?_ (fun m hm => ?_) (ih hl' hk')
    · rw [kind_category]
      exact hkind
    · rw [isMark_category]
      exact hc.2 m hm

theorem stops_flat {l : List Cluster} (hl : ∀ c ∈ l, IsMarked u c) (hk : ∀ c, l.head? = some c → c.kind u ≠ k) :
    Stops u.category k (flat l) := by
  cases l with
  | nil => exact .nil
  | cons c l =>
    intro d hd
    obtain rfl := Option.some.inj hd
    rw [isMark_category, kind_category]
    exact ⟨(hl c List.mem_cons_self).1, hk c rfl⟩

/-- The cursor moves over a run of clusters. -/
theorem skipRun_flat (hk : k ≠ .separator) (a b : List Cluster) (hb : ∀ c ∈ b, IsMarked u c) :
    skipRun u.category k (flat (a ++ b)) (flat a).length =
      ((flat (a ++ b.takeWhile fun c => c.kind u == k)).length, (b.takeWhile fun c => c.kind u == k).length) := by
  have hrun : Run u.category k _ (flat (b.takeWhile fun c => c.kind u == k)) :=
    run_flat (fun c hc => hb c (List.takeWhile_subset _ hc)) (allOf_takeWhile k b)
  have hstops : Stops u.category k (flat (b.dropWhile fun c => c.kind u == k)) :=
    stops_flat (fun c hc => hb c ((List.dropWhile_sublist _).subset hc)) fun c => kind_ne_of_head?_dropWhile
  have hskip := hrun.skipRun_append hk hstops (flat a)
  rwa [← flat_append, List.takeWhile_append_dropWhile, ← flat_append, ← flat_append] at hskip

/-- Going back from behind a cluster leads to its front. -/
theorem back_flat (a b : List Cluster) {c : Cluster} (hc : IsMarked u c) :
    back u.category (flat (a ++ c :: b)) (flat (a ++ [c])).length = (flat a).length := by
  have hlast : flat [c] = c.base :: c.marks := by rw [flat_cons, flat, List.flatMap_nil, List.append_nil]
  rw [flat_append, flat_append, hlast, flat_cons]
  refine back_append (flat a) ?_ (fun m hm => ?_) (flat b)
  · rw [isMark_category]
    exact hc.1
  · rw [isMark_category]
    exact hc.2 m hm

theorem runEnd_of_not_kind {l : List Cluster} {k : LetterKind} {n : Nat} (h : l[n]?.map (Cluster.kind u) ≠ some k) :
    runEnd u l k n = n := by
  have hhead : ((l.drop n).takeWhile fun c => c.kind u == k) = [] := by
    cases hl : l.drop n with
    | nil => rfl
    | cons c rest =>
      have hget : l[n]? = some c := by rw [← List.head?_drop, hl, List.head?_cons]
      rw [List.takeWhile_cons_of_neg]
      simpa [hget] using h
  rw [runEnd, hhead, List.length_nil, Nat.add_zero]

/-- The cursor moves as far as the run of clusters reaches. -/
theorem skipRun_flat_take {c : Cluster} {rest : List Cluster} (hrest : ∀ d ∈ rest, IsMarked u d)
    (hk : k ≠ .separator) (n : Nat) :
    (skipRun u.category k (flat (c :: rest)) (flat (c :: rest.take n)).length).1 =
      (flat (c :: rest.take (runEnd u rest k n))).length := by
  have hrun := skipRun_flat hk (c :: rest.take n) (rest.drop n) fun d hd => hrest d (List.mem_of_mem_drop hd)
  rw [List.cons_append, List.take_append_drop, List.cons_append, ← take_runEnd] at hrun
  rw [hrun]

theorem skipRun_flat_zero {c : Cluster} {rest : List Cluster} (hc : IsMarked u c) (hrest : ∀ d ∈ rest, IsMarked u d)
    (hkind : c.kind u ≠ .separator) (hk : c.kind u = k) :
    skipRun u.category k (flat (c :: rest)) 0 =
      ((flat (c :: rest.take (runEnd u rest k 0))).length, runEnd u rest k 0 + 1) := by
  have hrun := skipRun_flat (hk ▸ hkind) [] (c :: rest) (List.forall_mem_cons.mpr ⟨hc, hrest⟩)
  rw [List.takeWhile_cons_of_pos (by simpa using hk), List.nil_append, List.nil_append] at hrun
  rw [take_runEnd, List.take_zero, List.nil_append, List.drop_zero, runEnd, Nat.zero_add, List.drop_zero]
  exact hrun

/-- **The cursor finds the end of the first word of some clusters.** -/
theorem wordEnd_flat {c : Cluster} {rest : List Cluster} (hc : IsMarked u c) (hrest : ∀ d ∈ rest, IsMarked u d)
    (hkind : c.kind u ≠ .separator) :
    wordEnd u.category (flat (c :: rest)) = (flat (c :: rest.take (tailSize u c rest))).length := by
  have hfirst : (flat (c :: rest))[0]?.map (kind u.category) = some (c.kind u) := by
    rw [flat_cons, List.getElem?_cons_zero, Option.map_some, kind_category]
    rfl
  have hnext : ∀ n, (flat (c :: rest))[(flat (c :: rest.take n)).length]?.map (kind u.category) =
      rest[n]?.map (Cluster.kind u) := by
    intro n
    have hget := getElem?_flat (c :: rest.take n) (rest.drop n)
    rw [List.cons_append, List.take_append_drop, List.getElem?_drop, Nat.add_zero] at hget
    rw [hget, Option.map_map,
      show kind u.category ∘ Cluster.base = (Cluster.kind u) from funext fun d => kind_category d.base]
  have hdigits := skipRun_flat_take (c := c) hrest (k := .digit) (by decide)
  unfold wordEnd tailSize
  rw [hfirst]
  cases hk : c.kind u with
  | separator => exact absurd hk hkind
  | digit => simp only [skipRun_flat_zero hc hrest hkind hk]
  | lower => simp only [skipRun_flat_zero hc hrest hkind hk, hdigits]
  | caseless => simp only [skipRun_flat_zero hc hrest hkind hk, hdigits]
  | upper =>
    have hlowers := skipRun_flat_take (c := c) hrest (k := .lower) (by decide)
    simp only [skipRun_flat_zero hc hrest hkind hk, hlowers, hdigits, Nat.add_eq_right, hnext]
    by_cases hone : runEnd u rest .upper 0 = 0
    · rw [if_pos hone, if_pos hone, hone]
    rw [if_neg hone, if_neg hone]
    by_cases hlower : rest[runEnd u rest .upper 0]?.map (Cluster.kind u) = some .lower
    · -- The last capital starts the next word.
      have hdigit : rest[runEnd u rest .upper 0]?.map (Cluster.kind u) ≠ some .digit := by
        rw [hlower]
        decide
      rw [if_neg hdigit, if_pos hlower, if_pos hlower]
      obtain ⟨n, hn⟩ := Nat.exists_eq_add_one_of_ne_zero hone
      rw [hn] at hlower ⊢
      obtain ⟨d, hd, -⟩ := Option.map_eq_some_iff.mp hlower
      have hlt : n < rest.length := Nat.lt_of_succ_lt (List.getElem?_eq_some_iff.mp hd).1
      have hback := back_flat (c :: rest.take n) (rest.drop (n + 1)) (hrest rest[n] (List.getElem_mem hlt))
      rw [List.cons_append, List.cons_append, ← List.drop_eq_getElem_cons hlt, List.take_append_drop,
        List.take_append_getElem hlt] at hback
      exact hback
    · rw [if_neg hlower, if_neg hlower]
      split
      · rfl
      · next hdigit => rw [runEnd_of_not_kind hdigit]

theorem isWord_base {c : Cluster} (h : c.kind u ≠ .separator) : isWord u.category c.base = true :=
  isWord_of_kind (kind_category c.base) h

/-- What is no letter and no digit is passed over. -/
theorem scan_append {a : List CodePoint} (ha : ∀ c ∈ a, isWord category c = false) (b : List CodePoint) :
    scan category (a ++ b) = scan category b := by
  have hdrop : ((a ++ b).dropWhile fun c => !isWord category c) = b.dropWhile fun c => !isWord category c :=
    List.dropWhile_append_of_pos fun c hc => by simp [ha c hc]
  cases h : b.dropWhile fun c => !isWord category c with
  | nil => rw [scan_of_nil h, scan_of_nil (hdrop.trans h)]
  | cons c rest => rw [scan_of_cons h, scan_of_cons (hdrop.trans h)]

theorem isWord_eq_false_of_isMark_category {c : CodePoint} (h : u.isMark c = true) :
    isWord u.category c = false :=
  isWord_eq_false_of_isMark ((isMark_category c).trans h)

/-- **The cursor finds the segments u of some clusters.** -/
theorem scan_flat {l : List Cluster} (hl : ∀ c ∈ l, IsMarked u c) :
    scan u.category (flat l) = (segments u l).map flat := by
  induction l using segments.induct u with
  | case1 =>
    rw [segments]
    exact scan_of_nil rfl
  | case2 c rest hkind ih =>
    obtain ⟨hc, hrest⟩ := List.forall_mem_cons.mp hl
    have hnot : ∀ d ∈ c.codePoints, isWord u.category d = false := by
      refine List.forall_mem_cons.mpr ⟨?_, fun m hm => isWord_eq_false_of_isMark_category (hc.2 m hm)⟩
      rw [isWord_eq, kind_category, show letterKind u c.base = .separator from hkind]
      rfl
    rw [segments, if_pos hkind, ← ih hrest]
    exact scan_append hnot (flat rest)
  | case3 c rest hkind ih =>
    obtain ⟨hc, hrest⟩ := List.forall_mem_cons.mp hl
    have hfront : ((flat (c :: rest)).dropWhile fun d => !isWord u.category d) =
        c.base :: (c.marks ++ flat rest) := by
      rw [flat_cons, List.dropWhile_cons_of_neg]
      simp [isWord_base hkind]
    have hsplit : flat (c :: rest) =
        flat (c :: rest.take (tailSize u c rest)) ++ flat (rest.drop (tailSize u c rest)) := by
      rw [← flat_append, List.cons_append, List.take_append_drop]
    rw [segments, if_neg hkind, List.map_cons, scan_of_cons hfront, ← flat_cons, wordEnd_flat hc hrest hkind, hsplit,
      List.take_left, List.drop_left, ih fun d hd => hrest d (List.mem_of_mem_drop hd)]

def wordOf (u : CharacterData) (cs : List CodePoint) : Word := ⟨Utf8.encode cs, casingOf u cs⟩

/-- **Splitting into clusters and scanning find the same words.** -/
theorem splitWords_eq (u : CharacterData) (label : Bytes) :
    splitWords u label = (scan u.category (Utf8.decode label)).map (wordOf u) := by
  have hmarks : ∀ c ∈ (Utf8.decode label).takeWhile u.isMark, isWord u.category c = false :=
    fun c hc => isWord_eq_false_of_isMark_category (List.mem_takeWhile_imp hc)
  have hscan := scan_append hmarks ((Utf8.decode label).dropWhile u.isMark)
  rw [List.takeWhile_append_dropWhile] at hscan
  rw [hscan, ← flat_clusters, scan_flat isMarked_of_mem_clusters, List.map_map]
  rfl

end Clusters

/-! ## The words of a label -/

/-- Texts that hold all that belongs to words of a label: none is empty, each starts with a letter or a digit, and
behind one another they are the code points that belong to words. -/
structure Conserves (category : CodePoint → Category) (label : Bytes) (texts : List Bytes) : Prop where
  ne_nil : ∀ t ∈ texts, t ≠ []
  starts : ∀ t ∈ texts, ∃ c cs, Utf8.decode t = c :: cs ∧ isWord category c = true
  flatMap_decode : texts.flatMap Utf8.decode = wordParts category (Utf8.decode label)

theorem mem_of_mem_wordParts {c : CodePoint} (h : c ∈ wordParts category cs) : c ∈ cs := by
  obtain ⟨⟨d, i⟩, hd, rfl⟩ := List.mem_map.mp h
  exact List.fst_mem_of_mem_zipIdx (List.mem_filter.mp hd).1

/-- The text of a word is read as the word again. -/
theorem decode_encode_of_mem_scan {label : Bytes} {w : List CodePoint} (hw : w ∈ scan category (Utf8.decode label)) :
    Utf8.decode (Utf8.encode w) = w := by
  refine Utf8.decode_encode fun c hc => Utf8.isScalar_of_mem_decode (s := label) c ?_
  have hmem : c ∈ (scan category (Utf8.decode label)).flatten := List.mem_flatten_of_mem hw hc
  rw [flatten_scan] at hmem
  exact mem_of_mem_wordParts hmem

/-- Whatever categories the code points have, nothing is lost. -/
theorem conserves_scan (category : CodePoint → Category) (label : Bytes) :
    Conserves category label ((scan category (Utf8.decode label)).map Utf8.encode) := by
  have hdecode : ∀ w ∈ scan category (Utf8.decode label), Utf8.decode (Utf8.encode w) = w :=
    fun w hw => decode_encode_of_mem_scan hw
  have hstarts : ∀ t ∈ (scan category (Utf8.decode label)).map Utf8.encode,
      ∃ c cs, Utf8.decode t = c :: cs ∧ isWord category c = true := by
    intro t ht
    obtain ⟨w, hw, rfl⟩ := List.mem_map.mp ht
    rw [hdecode w hw]
    exact exists_cons_of_mem_scan hw
  refine ⟨?_, hstarts, ?_⟩
  · rintro t ht rfl
    obtain ⟨c, cs, hnil, -⟩ := hstarts [] ht
    rw [Utf8.decode_nil] at hnil
    cases hnil
  · rw [← flatten_scan, List.flatMap_map, List.flatMap_def, List.map_congr_left hdecode, List.map_id']

/-- **Splitting a label into words loses, doubles and moves nothing.** No word is empty, each starts with a letter or a
digit, and together they are the letters, the digits and the marks behind them. The words are those that the cursor
finds, and with other categories nothing would be lost either. -/
theorem splitWords_conserves (u : CharacterData) (label : Bytes) :
    Conserves u.category label ((splitWords u label).map Word.text) ∧
      splitWords u label = (scan u.category (Utf8.decode label)).map (wordOf u) ∧
      ∀ category, Conserves category label ((scan category (Utf8.decode label)).map Utf8.encode) := by
  refine ⟨?_, splitWords_eq u label, fun category => conserves_scan category label⟩
  rw [splitWords_eq, List.map_map]
  exact conserves_scan u.category label

end Scanner

end Typewright
