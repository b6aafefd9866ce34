import Typewright.Proofs.Name.Spelling
import Typewright.Proofs.Name.WordShape

/-!
# Styling a styled name changes nothing

The words of a name are joined without a separator, so a second styling may cut the name elsewhere. It does not matter
where: in the names that styling makes of ASCII characters, no small letter stands behind a digit, and then every word
but the first starts with a capital.

* `WordStyle.recase` : what a style does to code points;
* `Identifier.Stem` : letters with digits behind them, which is what words are made of and what styles keep;
* `Identifier.Humps` : no small letter stands behind a digit; `Identifier.camelName_ofLabel` says that styling makes
  such names;
* `Identifier.Bare.upper_of_next` : whichever way such a name is cut, a capital stands behind each cut;
* `Identifier.ofLabel_camelName` : so such names are styled into themselves;
* `Identifier.style_idempotent` : a second styling changes nothing.
-/

namespace Typewright

variable {u : CharacterData} {o : Options}

/-! ## Styles and code points -/

/-- What a style does to the code points of a word. -/
def WordStyle.recase (u : CharacterData) : WordStyle → List CodePoint → List CodePoint
  | .unchanged, cs => cs
  | .allUpper, cs => cs.map u.toUpper
  | .allLower, cs => cs.map u.toLower
  | .firstUpper, [] => []
  | .firstUpper, c :: cs => u.toUpper c :: cs.map u.toLower

theorem WordStyle.apply_encode (style : WordStyle) {cs : List CodePoint} (h : ∀ c ∈ cs, Utf8.IsScalar c) :
    style.apply u (Utf8.encode cs) = Utf8.encode (style.recase u cs) := by
  have hdecode := Utf8.decode_encode h
  cases style with
  | unchanged => rfl
  | allUpper => rw [apply, hdecode, recase]
  | allLower => rw [apply, hdecode, recase]
  | firstUpper =>
    rw [apply, hdecode]
    cases cs with
    | nil => rfl
    | cons c cs => rfl

theorem join_nil_separator (l : List Bytes) : Bytes.join [] l = l.flatten := by
  induction l using Bytes.join.induct with
  | case1 => rfl
  | case2 s => simp [Bytes.join]
  | case3 s t rest ih =>
    rw [Bytes.join, ih, List.append_nil]
    rfl

namespace Identifier

open CharacterData (lt_of_isAsciiWord)

/-! ## ASCII letters and digits -/

def isAlnum (c : CodePoint) : Bool := Character.isAsciiLetter c || (48 ≤ c && c ≤ 57)

theorem isAlnum_iff (c : Nat) : isAlnum c = true ↔ Character.isAsciiWord c = true ∧ c ≠ 95 := by
  have h : isAlnum c = true ↔ (97 ≤ c ∧ c ≤ 122 ∨ 65 ≤ c ∧ c ≤ 90) ∨ 48 ≤ c ∧ c ≤ 57 := by
    simp [isAlnum, Character.isAsciiLetter]
  have h' : Character.isAsciiWord c = true ↔ ((97 ≤ c ∧ c ≤ 122 ∨ 65 ≤ c ∧ c ≤ 90) ∨ 48 ≤ c ∧ c ≤ 57) ∨ c = 95 := by
    simp [Character.isAsciiWord, Character.isAsciiLetter]
  rw [h, h']
  omega

/-- What the splitter and the styles see in an ASCII letter or digit. -/
structure AlnumCase (u : CharacterData) (c : CodePoint) : Prop where
  kind : letterKind u c = .upper ∨ letterKind u c = .lower ∨ letterKind u c = .digit
  letter : letterKind u c ≠ .digit → Character.isAsciiLetter c = true
  digit : letterKind u c = .digit → Character.isAsciiLetter c = false ∧ u.isAlphabetic c = false ∧ c ≠ 95
  toUpper : isAlnum (u.toUpper c) = true ∧ letterKind u (u.toUpper c) ≠ .lower ∧
    (letterKind u (u.toUpper c) = .digit ↔ letterKind u c = .digit)
  toLower : isAlnum (u.toLower c) = true ∧ letterKind u (u.toLower c) ≠ .upper ∧
    (letterKind u (u.toLower c) = .digit ↔ letterKind u c = .digit)
  toUpper_eq : letterKind u c ≠ .lower → u.toUpper c = c
  toLower_eq : letterKind u c ≠ .upper → u.toLower c = c

theorem lt_of_isAlnum {c : Nat} (h : isAlnum c = true) : c < 128 := lt_of_isAsciiWord ((isAlnum_iff c).mp h).1

theorem letterKind_ascii (hu : u.KnowsAscii) {c : CodePoint} (h : c < 128) : letterKind u c = letterKind .ascii c := by
  rw [letterKind, hu.category_ascii c h, letterKind]

theorem isMark_ascii (hu : u.KnowsAscii) {c : CodePoint} (h : c < 128) : u.isMark c = false := by
  have hascii : ∀ c < 128, CharacterData.ascii.isMark c = false := by decide +kernel
  rw [CharacterData.isMark, hu.category_ascii c h]
  exact hascii c h

theorem alnumCase_ascii {c : Nat} (h : isAlnum c = true) : AlnumCase .ascii c := by
  have hlt := lt_of_isAlnum h
  have hkind : ∀ c < 128, isAlnum c = true →
      (letterKind .ascii c = .upper ∨ letterKind .ascii c = .lower ∨ letterKind .ascii c = .digit) ∧
      (letterKind .ascii c ≠ .digit → Character.isAsciiLetter c = true) := by
    decide +kernel
  have hdigit : ∀ c < 128, isAlnum c = true → letterKind .ascii c = .digit →
      Character.isAsciiLetter c = false ∧ CharacterData.ascii.isAlphabetic c = false ∧ c ≠ 95 := by
    decide +kernel
  have hupper : ∀ c < 128, isAlnum c = true → isAlnum (CharacterData.ascii.toUpper c) = true ∧
      letterKind .ascii (CharacterData.ascii.toUpper c) ≠ .lower ∧
      (letterKind .ascii (CharacterData.ascii.toUpper c) = .digit ↔ letterKind .ascii c = .digit) := by
    decide +kernel
  have hlower : ∀ c < 128, isAlnum c = true → isAlnum (CharacterData.ascii.toLower c) = true ∧
      letterKind .ascii (CharacterData.ascii.toLower c) ≠ .upper ∧
      (letterKind .ascii (CharacterData.ascii.toLower c) = .digit ↔ letterKind .ascii c = .digit) := by
    decide +kernel
  have hsame : ∀ c < 128, isAlnum c = true → (letterKind .ascii c ≠ .lower → CharacterData.ascii.toUpper c = c) ∧
      (letterKind .ascii c ≠ .upper → CharacterData.ascii.toLower c = c) := by
    decide +kernel
  obtain ⟨h₁, h₂⟩ := hkind c hlt h
  obtain ⟨h₃, h₄⟩ := hsame c hlt h
  exact ⟨h₁, h₂, hdigit c hlt h, hupper c hlt h, hlower c hlt h, h₃, h₄⟩

theorem alnumCase (hu : u.KnowsAscii) {c : CodePoint} (h : isAlnum c = true) : AlnumCase u c := by
  have hascii := alnumCase_ascii h
  have hkind : ∀ {x : CodePoint}, isAlnum x = true → letterKind u x = letterKind .ascii x :=
    fun hx => letterKind_ascii hu (lt_of_isAlnum hx)
  have hupper : u.toUpper c = CharacterData.ascii.toUpper c := hu.toUpper_ascii c (lt_of_isAlnum h)
  have hlower : u.toLower c = CharacterData.ascii.toLower c := hu.toLower_ascii c (lt_of_isAlnum h)
  have halphabetic : u.isAlphabetic c = CharacterData.ascii.isAlphabetic c := by
    rw [CharacterData.isAlphabetic, CharacterData.isLetter, hu.category_ascii c (lt_of_isAlnum h)]
    rfl
  constructor
  · rw [hkind h]
    exact hascii.kind
  · rw [hkind h]
    exact hascii.letter
  · rw [hkind h, halphabetic]
    exact hascii.digit
  · rw [hupper, hkind h, hkind hascii.toUpper.1]
    exact hascii.toUpper
  · rw [hlower, hkind h, hkind hascii.toLower.1]
    exact hascii.toLower
  · rw [hkind h, hupper]
    exact hascii.toUpper_eq
  · rw [hkind h, hlower]
    exact hascii.toLower_eq

theorem isPart_of_isAlnum (hu : u.KnowsAscii) {c : CodePoint} (h : isAlnum c = true) : isPart u o c = true :=
  isPart_of_isAsciiWord hu ((isAlnum_iff c).mp h).1

/-- Of the ASCII letters and digits, the letters may start an identifier. -/
theorem isStart_iff_of_isAlnum (hu : u.KnowsAscii) {c : CodePoint} (h : isAlnum c = true) :
    isStart u o c = true ↔ letterKind u c ≠ .digit := by
  refine ⟨fun hstart hdigit => ?_, fun hletter => isStart_of_isAsciiLetter hu ((alnumCase hu h).letter hletter)⟩
  obtain ⟨hletter, halphabetic, hunderscore⟩ := (alnumCase hu h).digit hdigit
  simp [isStart, hletter, halphabetic, hunderscore] at hstart

theorem isScalar_of_isAlnum {cs : List CodePoint} (h : ∀ c ∈ cs, isAlnum c = true) : ∀ c ∈ cs, Utf8.IsScalar c := by
  intro c hc
  have hlt := lt_of_isAlnum (h c hc)
  exact (Utf8.isScalar_iff_isValidChar c).mpr (Or.inl (Nat.lt_trans hlt (by decide)))

theorem legalize_encode (hu : u.KnowsAscii) {cs : List CodePoint} (h : ∀ c ∈ cs, isAlnum c = true) :
    legalize (isPart u o) (Utf8.encode cs) = Utf8.encode cs := by
  rw [legalize, Utf8.decode_encode (isScalar_of_isAlnum h),
    List.filter_eq_self.mpr fun c hc => isPart_of_isAlnum hu (h c hc)]

/-! ## Stems -/

/-- ASCII letters with digits behind them. -/
structure Stem (u : CharacterData) (cs : List CodePoint) : Prop where
  alnum : ∀ c ∈ cs, isAlnum c = true
  digits_last : cs.Pairwise fun a b => letterKind u a = .digit → letterKind u b = .digit

theorem stem_of_ascii (hu : u.KnowsAscii) {cs : List CodePoint} (h : ∀ c ∈ cs, isAlnum c = true)
    (hlast : cs.Pairwise fun a b => letterKind .ascii a = .digit → letterKind .ascii b = .digit) : Stem u cs := by
  refine ⟨h, hlast.imp_of_mem fun ha hb hab => ?_⟩
  rw [letterKind_ascii hu (lt_of_isAlnum (h _ ha)), letterKind_ascii hu (lt_of_isAlnum (h _ hb))]
  exact hab

theorem Stem.map {f : CodePoint → CodePoint} {cs : List CodePoint} (h : Stem u cs)
    (hf : ∀ c, isAlnum c = true → isAlnum (f c) = true ∧ (letterKind u (f c) = .digit ↔ letterKind u c = .digit)) :
    Stem u (cs.map f) := by
  refine ⟨List.forall_mem_map.mpr fun c hc => (hf c (h.alnum c hc)).1, ?_⟩
  rw [List.pairwise_map]
  refine h.digits_last.imp_of_mem fun ha hb hab => ?_
  rw [(hf _ (h.alnum _ ha)).2, (hf _ (h.alnum _ hb)).2]
  exact hab

/-- Styles keep letters letters and digits digits. -/
theorem Stem.recase (hu : u.KnowsAscii) {cs : List CodePoint} (h : Stem u cs) (style : WordStyle) :
    Stem u (style.recase u cs) := by
  have hupper : ∀ c, isAlnum c = true → _ := fun c hc => (alnumCase hu hc).toUpper
  have hlower : ∀ c, isAlnum c = true → _ := fun c hc => (alnumCase hu hc).toLower
  cases style with
  | unchanged => exact h
  | allUpper => exact h.map fun c hc => ⟨(hupper c hc).1, (hupper c hc).2.2⟩
  | allLower => exact h.map fun c hc => ⟨(hlower c hc).1, (hlower c hc).2.2⟩
  | firstUpper =>
    cases cs with
    | nil => exact h
    | cons c cs =>
      obtain ⟨hc, hcs⟩ := List.forall_mem_cons.mp h.alnum
      obtain ⟨hfirst, hrest⟩ := List.pairwise_cons.mp h.digits_last
      have htail := Stem.map ⟨hcs, hrest⟩ fun c hc => ⟨(hlower c hc).1, (hlower c hc).2.2⟩
      refine ⟨List.forall_mem_cons.mpr ⟨(hupper c hc).1, htail.alnum⟩,
        List.pairwise_cons.mpr ⟨List.forall_mem_map.mpr fun d hd => ?_, htail.digits_last⟩⟩
      rw [(hupper c hc).2.2, (hlower d (hcs d hd)).2.2]
      exact hfirst d hd

/-! ## The words of a label -/

/-- Either identifiers are restricted to ASCII, or the label is ASCII already. -/
def AsciiOnly (o : Options) (label : Bytes) : Prop := o.asciiIdentifiers = true ∨ ∀ b ∈ label, b < 128

theorem decode_ascii {s : Bytes} (h : ∀ b ∈ s, b < 128) : Utf8.decode s = s.map UInt8.toNat := by
  induction s with
  | nil => exact Utf8.decode_nil
  | cons b s ih =>
    obtain ⟨hb, hs⟩ := List.forall_mem_cons.mp h
    rw [Utf8.decode_of_first? (Utf8.first?_one hb s), ih hs, List.map_cons]

theorem isAsciiWord_of_isPart (hu : u.KnowsAscii) {label : Bytes} (h : AsciiOnly o label) {c : Nat}
    (hc : c ∈ Utf8.decode label) (hpart : isPart u o c = true) : Character.isAsciiWord c = true := by
  rcases h with h | h
  · rwa [isPart, if_pos h] at hpart
  · rw [decode_ascii h] at hc
    obtain ⟨b, hb, rfl⟩ := List.mem_map.mp hc
    have hcategory := category_of_isPart hu hpart
    rw [hu.category_ascii b.toNat (h b hb)] at hcategory
    exact isAsciiWord_of_category_ascii b.toNat (h b hb) hcategory

/-- The code points that a word keeps are letters with digits behind them. -/
theorem stem_filter (hu : u.KnowsAscii) {label : Bytes} (h : AsciiOnly o label) {s : List Cluster} (hshape : WordShape u s)
    (hs : ∀ c ∈ s, c.IsMarked u ∧ c.kind u ≠ .separator ∧ c.codePoints ⊆ Utf8.decode label) :
    Stem u ((Cluster.flat s).filter (isPart u o)) := by
  have hmem : ∀ {c x}, c ∈ s → x ∈ c.codePoints → isPart u o x = true → x = c.base ∧ isAlnum x = true := by
    intro c x hc hx hpart
    obtain ⟨hmarked, hkind, hsub⟩ := hs c hc
    have hword := isAsciiWord_of_isPart hu h (hsub hx) hpart
    have hbase : x = c.base := by
      rcases List.mem_cons.mp hx with rfl | hx
      · rfl
      · have hmark := (isMark_ascii hu (lt_of_isAsciiWord hword)).symm.trans (hmarked.2 x hx)
        cases hmark
    refine ⟨hbase, (isAlnum_iff x).mpr ⟨hword, ?_⟩⟩
    rintro rfl
    exact hkind (by rw [Cluster.kind, ← hbase, letterKind_ascii hu (by decide)]; decide)
  have hkind : ∀ {l x}, l ⊆ s → x ∈ (Cluster.flat l).filter (isPart u o) →
      isAlnum x = true ∧ ∃ c ∈ l, letterKind u x = c.kind u := by
    intro l x hl hx
    obtain ⟨hx, hpart⟩ := List.mem_filter.mp hx
    obtain ⟨c, hc, hx⟩ := List.mem_flatMap.mp hx
    obtain ⟨rfl, halnum⟩ := hmem (hl hc) hx hpart
    exact ⟨halnum, c, hc, rfl⟩
  refine ⟨fun x hx => (hkind (List.Subset.refl s) hx).1, ?_⟩
  obtain ⟨a, d, rfl, ha, hd⟩ := hshape.exists_digits_last
  have hletter : ∀ x ∈ (Cluster.flat a).filter (isPart u o), letterKind u x ≠ .digit := by
    intro x hx
    obtain ⟨-, c, hc, hx⟩ := hkind (List.subset_append_left a d) hx
    exact hx ▸ ha c hc
  have hdigit : ∀ x ∈ (Cluster.flat d).filter (isPart u o), letterKind u x = .digit := by
    intro x hx
    obtain ⟨-, c, hc, hx⟩ := hkind (List.subset_append_right a d) hx
    exact hx.trans (hd c hc)
  rw [Cluster.flat_append, List.filter_append, List.pairwise_append]
  refine ⟨?_, ?_, fun x hx y hy hkind => absurd hkind (hletter x hx)⟩
  · exact List.pairwise_of_forall_mem_list fun x hx y hy hkind => absurd hkind (hletter x hx)
  · exact List.pairwise_of_forall_mem_list fun x hx y hy hkind => hdigit y hy

/-- **What is left of the words of a label are stems.** -/
theorem stem_legalWords (hu : u.KnowsAscii) {label : Bytes} (h : AsciiOnly o label) :
    ∀ w ∈ (legalWords (isPart u o) (splitWords u label)).1 :: (legalWords (isPart u o) (splitWords u label)).2,
      ∃ c cs, w.text = Utf8.encode (c :: cs) ∧ Stem u (c :: cs) := by
  unfold legalWords
  split
  · refine List.forall_mem_singleton.mpr ⟨101, [109, 112, 116, 121], ?_, stem_of_ascii hu (by decide) (by decide)⟩
    have hencode : Bytes.ascii "empty" = Utf8.encode [101, 109, 112, 116, 121] := by decide
    rw [hencode]
    exact legalize_encode hu (by decide)
  · next v vs heq =>
    intro w hw
    rw [← heq] at hw
    obtain ⟨hw, hne⟩ := List.mem_filter.mp hw
    obtain ⟨x, hx, rfl⟩ := List.mem_map.mp hw
    obtain ⟨s, hs, rfl⟩ := List.mem_map.mp hx
    have hsub : ∀ c ∈ s, c ∈ clusters u (Utf8.decode label) := fun c hc => subset_of_mem_segments hs hc
    have hcodes : ∀ c ∈ s, c.codePoints ⊆ Utf8.decode label := by
      intro c hc x hx
      have hflat : x ∈ Cluster.flat (clusters u (Utf8.decode label)) := List.mem_flatMap.mpr ⟨c, hsub c hc, hx⟩
      rw [Cluster.flat_clusters] at hflat
      exact (List.dropWhile_sublist _).subset hflat
    have hscalar : ∀ x ∈ Cluster.flat s, Utf8.IsScalar x := by
      intro x hx
      obtain ⟨c, hc, hx⟩ := List.mem_flatMap.mp hx
      exact Utf8.isScalar_of_mem_decode x (hcodes c hc hx)
    have hshape := wordShape_of_mem_segments hs
    have hstem := stem_filter hu h hshape fun c hc =>
      ⟨Cluster.isMarked_of_mem_clusters c (hsub c hc), hshape.kind_ne_separator c hc, hcodes c hc⟩
    have htext : legalize (isPart u o) (Word.ofClusters u s).text =
        Utf8.encode ((Cluster.flat s).filter (isPart u o)) := by
      rw [legalize, Word.ofClusters, ← Cluster.flat, Utf8.decode_encode hscalar]
    dsimp only at hne ⊢
    rw [htext] at hne ⊢
    cases hcs : (Cluster.flat s).filter (isPart u o) with
    | nil =>
      rw [hcs] at hne
      cases hne
    | cons c cs => exact ⟨c, cs, rfl, hcs ▸ hstem⟩

/-! ## Humps -/

/-- ASCII letters and digits where no small letter stands behind a digit. -/
structure Humps (u : CharacterData) (cs : List CodePoint) : Prop where
  alnum : ∀ c ∈ cs, isAlnum c = true
  chain : cs.IsChain fun a b => letterKind u a = .digit → letterKind u b ≠ .lower

theorem Stem.humps {cs : List CodePoint} (h : Stem u cs) : Humps u cs := by
  refine ⟨h.alnum, h.digits_last.isChain.imp fun a b hab ha => ?_⟩
  rw [hab ha]
  decide

/-- Humps u may follow one another unless a small letter is the first. -/
theorem Humps.append {cs ds : List CodePoint} (hc : Humps u cs) (hd : Humps u ds)
    (hhead : ∀ x ∈ ds.head?, letterKind u x ≠ .lower) : Humps u (cs ++ ds) :=
  ⟨List.forall_mem_append.mpr ⟨hc.alnum, hd.alnum⟩,
    List.isChain_append.mpr ⟨hc.chain, hd.chain, fun _ _ x hx _ => hhead x hx⟩⟩

/-- The styles of names: types start with a capital, properties with a small letter, and all later words with
capitals. -/
inductive CamelStyle : NameStyle → LetterKind → Prop where
  | type : CamelStyle typeStyle .upper
  | property : CamelStyle propertyStyle .lower

/-- A name that starts with a letter of some kind and goes on in humps. -/
def CamelName (u : CharacterData) (front : LetterKind) (s : Bytes) : Prop :=
  ∃ c cs, s = Utf8.encode (c :: cs) ∧ letterKind u c = front ∧ Humps u (c :: cs)

/-- What may stand behind such a name. -/
def CamelTail (u : CharacterData) (s : Bytes) : Prop :=
  ∃ cs, s = Utf8.encode cs ∧ (∀ x ∈ cs.head?, letterKind u x ≠ .lower) ∧ Humps u cs

theorem CamelName.append {front : LetterKind} {s t : Bytes} (hs : CamelName u front s) (ht : CamelTail u t) :
    CamelName u front (s ++ t) := by
  obtain ⟨c, cs, rfl, hc, hcs⟩ := hs
  obtain ⟨ds, rfl, hd, hds⟩ := ht
  exact ⟨c, cs ++ ds, (Utf8.encode_append (c :: cs) ds).symm, hc, hcs.append hds hd⟩

theorem CamelTail.append {s t : Bytes} (hs : CamelTail u s) (ht : CamelTail u t) : CamelTail u (s ++ t) := by
  obtain ⟨cs, rfl, hc, hcs⟩ := hs
  obtain ⟨ds, rfl, hd, hds⟩ := ht
  refine ⟨cs ++ ds, (Utf8.encode_append cs ds).symm, ?_, hcs.append hds hd⟩
  cases cs with
  | nil => exact hd
  | cons c cs => exact hc

theorem camelTail_flatten {l : List Bytes} (h : ∀ s ∈ l, CamelTail u s) : CamelTail u l.flatten := by
  induction l with
  | nil => exact ⟨[], rfl, by simp, by simp, .nil⟩
  | cons s l ih =>
    obtain ⟨hs, hl⟩ := List.forall_mem_cons.mp h
    exact hs.append (ih hl)

theorem CamelName.join {front : LetterKind} {s : Bytes} {l : List Bytes} (hs : CamelName u front s)
    (hl : ∀ t ∈ l, CamelTail u t) : CamelName u front (Bytes.join [] (s :: l)) := by
  rw [join_nil_separator, List.flatten_cons]
  exact hs.append (camelTail_flatten hl)

/-! ## Styling makes humps -/

variable {style : NameStyle} {front : LetterKind}

theorem Stem.capital (hu : u.KnowsAscii) {c : CodePoint} {cs : List CodePoint} (h : Stem u (c :: cs)) (acronym : Bool) :
    ∃ d ds, (if acronym then WordStyle.allUpper else .firstUpper).recase u (c :: cs) = d :: ds ∧
      letterKind u d ≠ .lower ∧ Humps u (d :: ds) := by
  have hc := (alnumCase hu (h.alnum c List.mem_cons_self)).toUpper.2.1
  cases acronym with
  | true => exact ⟨_, _, rfl, hc, (h.recase hu .allUpper).humps⟩
  | false => exact ⟨_, _, rfl, hc, (h.recase hu .firstUpper).humps⟩

theorem CamelStyle.later_eq (h : CamelStyle style front) (w : Word) :
    style.later u w = (if w.isAcronym then WordStyle.allUpper else .firstUpper).apply u w.text := by
  cases h with
  | type => rfl
  | property => rfl

theorem CamelStyle.camelTail_later (hu : u.KnowsAscii) (h : CamelStyle style front) {w : Word} {c : CodePoint}
    {cs : List CodePoint} (htext : w.text = Utf8.encode (c :: cs)) (hstem : Stem u (c :: cs)) :
    CamelTail u (style.later u w) := by
  obtain ⟨d, ds, hrecase, hd, hds⟩ := hstem.capital hu w.isAcronym
  refine ⟨d :: ds, ?_, by simpa using hd, hds⟩
  rw [h.later_eq, htext, WordStyle.apply_encode _ (isScalar_of_isAlnum hstem.alnum), hrecase]

/-- The first word starts with a letter of the right kind or with a digit. -/
theorem CamelStyle.exists_first (hu : u.KnowsAscii) (h : CamelStyle style front) {w : Word} {c : CodePoint}
    {cs : List CodePoint} (htext : w.text = Utf8.encode (c :: cs)) (hstem : Stem u (c :: cs)) :
    ∃ d ds, style.first u w = Utf8.encode (d :: ds) ∧ (letterKind u d = front ∨ letterKind u d = .digit) ∧
      Humps u (d :: ds) := by
  have hscalar := isScalar_of_isAlnum hstem.alnum
  cases h with
  | type =>
    obtain ⟨d, ds, hrecase, hd, hds⟩ := hstem.capital hu w.isAcronym
    refine ⟨d, ds, ?_, ?_, hds⟩
    · rw [← hrecase, ← WordStyle.apply_encode _ hscalar, ← htext]
      rfl
    · rcases (alnumCase hu (hds.alnum d List.mem_cons_self)).kind with hk | hk | hk
      · exact Or.inl hk
      · exact absurd hk hd
      · exact Or.inr hk
  | property =>
    have hds := (hstem.recase hu .allLower).humps
    refine ⟨_, _, ?_, ?_, hds⟩
    · rw [NameStyle.first, propertyStyle, ite_self, htext, WordStyle.apply_encode _ hscalar]
      rfl
    · rcases (alnumCase hu (hds.alnum _ List.mem_cons_self)).kind with hk | hk | hk
      · exact absurd hk (alnumCase hu (hstem.alnum c List.mem_cons_self)).toLower.2.1
      · exact Or.inl hk
      · exact Or.inr hk

theorem startsWith_encode {start : CodePoint → Bool} {c : CodePoint} {cs : List CodePoint}
    (h : ∀ x ∈ c :: cs, isAlnum x = true) : startsWith start (Utf8.encode (c :: cs)) = start c := by
  rw [startsWith, Utf8.decode_encode (isScalar_of_isAlnum h)]

theorem CamelStyle.camelName_the (hu : u.KnowsAscii) (h : CamelStyle style front) :
    CamelName u front (style.firstWord.apply u (legalize (isPart u o) (Bytes.ascii "the"))) := by
  rw [legalize_the hu, hu.apply_eq _ (by rw [decode_the]; decide)]
  cases h with
  | type =>
    refine ⟨84, [104, 101], by cbv, ?_, (stem_of_ascii hu (by decide) (by decide)).humps⟩
    rw [letterKind_ascii hu (by decide)]
    decide
  | property =>
    refine ⟨116, [104, 101], by cbv, ?_, (stem_of_ascii hu (by decide) (by decide)).humps⟩
    rw [letterKind_ascii hu (by decide)]
    decide

/-- **Styling makes names in humps.** -/
theorem camelName_ofLabel (hu : u.KnowsAscii) {label : Bytes} (h : AsciiOnly o label) (hstyle : CamelStyle style front) :
    CamelName u front (ofLabel u o style label) := by
  have hwords := stem_legalWords hu h
  have hsep : style.separator = [] := by cases hstyle <;> rfl
  unfold ofLabel combine
  generalize legalWords (isPart u o) (splitWords u label) = lw at hwords
  obtain ⟨w, ws⟩ := lw
  have hlater : ∀ s ∈ (w :: ws).map (style.later u), CamelTail u s := by
    refine List.forall_mem_map.mpr fun v hv => ?_
    obtain ⟨c, cs, htext, hstem⟩ := hwords v hv
    exact hstyle.camelTail_later hu htext hstem
  obtain ⟨c, cs, htext, hstem⟩ := hwords w List.mem_cons_self
  obtain ⟨d, ds, hfirst, hd, hds⟩ := hstyle.exists_first hu htext hstem
  dsimp only
  rw [hsep]
  split
  · next hstart =>
    rw [hfirst, startsWith_encode hds.alnum, isStart_iff_of_isAlnum hu (hds.alnum d List.mem_cons_self)] at hstart
    refine CamelName.join ⟨d, ds, hfirst, hd.resolve_right hstart, hds⟩ (List.forall_mem_cons.mp hlater).2
  · exact (hstyle.camelName_the hu).join hlater

/-! ## Humps u stay as they are -/

/-- ASCII letters and digits without marks, where no small letter stands behind a digit. -/
structure Bare (u : CharacterData) (l : List Cluster) : Prop where
  alnum : ∀ c ∈ l, isAlnum c.base = true
  marks : ∀ c ∈ l, c.marks = []
  chain : l.IsChain fun a b => a.kind u = .digit → b.kind u ≠ .lower

theorem Bare.of_append {l l' : List Cluster} (h : Bare u (l ++ l')) : Bare u l ∧ Bare u l' := by
  obtain ⟨halnum, halnum'⟩ := List.forall_mem_append.mp h.alnum
  obtain ⟨hmarks, hmarks'⟩ := List.forall_mem_append.mp h.marks
  obtain ⟨hchain, hchain', -⟩ := List.isChain_append.mp h.chain
  exact ⟨⟨halnum, hmarks, hchain⟩, halnum', hmarks', hchain'⟩

theorem Bare.split {c : Cluster} {rest : List Cluster} (h : Bare u (c :: rest)) (n : Nat) :
    Bare u (c :: rest.take n) ∧ Bare u (rest.drop n) := by
  rw [← List.take_append_drop n rest, ← List.cons_append] at h
  exact h.of_append

theorem Bare.kind_ne_separator (hu : u.KnowsAscii) {l : List Cluster} (h : Bare u l) : ∀ c ∈ l, c.kind u ≠ .separator := by
  intro c hc
  rcases (alnumCase hu (h.alnum c hc)).kind with hk | hk | hk <;> rw [Cluster.kind, hk] <;> decide

theorem Humps.clusters (hu : u.KnowsAscii) {cs : List CodePoint} (h : Humps u cs) :
    clusters u cs = cs.map (fun c => ⟨c, []⟩) ∧ Bare u (clusters u cs) := by
  have hmark : ∀ c ∈ cs, u.isMark c = false := fun c hc => isMark_ascii hu (lt_of_isAlnum (h.alnum c hc))
  have heq : ∀ cs : List CodePoint, (∀ c ∈ cs, u.isMark c = false) →
      Typewright.clusters u cs = cs.map fun c => ⟨c, []⟩ := by
    intro cs hmark
    induction cs with
    | nil => rfl
    | cons c cs ih =>
      obtain ⟨hc, hcs⟩ := List.forall_mem_cons.mp hmark
      have hmarks : cs.takeWhile u.isMark = [] := by
        cases cs with
        | nil => rfl
        | cons d cs => rw [List.takeWhile_cons_of_neg (by simp [hcs d List.mem_cons_self])]
      rw [Typewright.clusters, if_neg (by simp [hc]), hmarks, ih hcs, List.map_cons]
  refine ⟨heq cs hmark, ?_⟩
  rw [heq cs hmark]
  exact ⟨List.forall_mem_map.mpr h.alnum, List.forall_mem_map.mpr fun _ _ => rfl, List.isChain_map _ |>.mpr h.chain⟩

/-- Behind a word there is a capital. -/
theorem Bare.upper_of_next (hu : u.KnowsAscii) {c x : Cluster} {rest : List Cluster} (h : Bare u (c :: rest))
    (hx : (rest.drop (tailSize u c rest)).head? = some x) : x.kind u = .upper := by
  have hkind : ∀ y ∈ c :: rest, y.kind u = .upper ∨ y.kind u = .lower ∨ y.kind u = .digit := fun y hy =>
    (alnumCase hu (h.alnum y hy)).kind
  have hmem : x ∈ c :: rest := List.mem_cons_of_mem c (List.mem_of_mem_drop (List.mem_of_head? hx))
  obtain ⟨hdigit, hlower⟩ := kind_of_next (h.kind_ne_separator hu c List.mem_cons_self) hx
  rcases hkind x hmem with hk | hk | hk
  · exact hk
  · rcases hlower hk with hcaseless | ⟨y, hy, hydigit⟩
    · have hc := hkind c List.mem_cons_self
      rw [hcaseless] at hc
      rcases hc with hc | hc | hc <;> cases hc
    · have hchain := h.chain
      rw [← List.take_append_drop (tailSize u c rest) rest, ← List.cons_append, List.isChain_append] at hchain
      exact absurd hk (hchain.2.2 y hy x hx hydigit)
  · exact absurd hk hdigit

theorem Bare.upper_of_mem_segments (hu : u.KnowsAscii) {l s : List Cluster} (h : Bare u l)
    (hhead : ∀ x ∈ l.head?, x.kind u = .upper) (hs : s ∈ segments u l) : ∃ c, s.head? = some c ∧ c.kind u = .upper := by
  induction l using segments.induct u with
  | case1 =>
    rw [segments] at hs
    cases hs
  | case2 c rest hc ih =>
    rw [hhead c rfl] at hc
    cases hc
  | case3 c rest hc ih =>
    rw [segments, if_neg hc] at hs
    rcases List.mem_cons.mp hs with rfl | hs
    · exact ⟨c, rfl, hhead c rfl⟩
    · exact ih (h.split _).2 (fun x hx => h.upper_of_next hu hx) hs

theorem Bare.of_mem_segments {l s : List Cluster} (h : Bare u l) (hs : s ∈ segments u l) : Bare u s := by
  induction l using segments.induct u with
  | case1 =>
    rw [segments] at hs
    cases hs
  | case2 c rest hc ih =>
    rw [segments, if_pos hc] at hs
    exact ih (Bare.of_append (l := [c]) h).2 hs
  | case3 c rest hc ih =>
    rw [segments, if_neg hc] at hs
    rcases List.mem_cons.mp hs with rfl | hs
    · exact (h.split _).1
    · exact ih (h.split _).2 hs

theorem Bare.mem_flat {l : List Cluster} (h : Bare u l) {x : CodePoint} (hx : x ∈ Cluster.flat l) :
    ∃ c ∈ l, x = c.base := by
  obtain ⟨c, hc, hx⟩ := List.mem_flatMap.mp hx
  rw [Cluster.codePoints, h.marks c hc, List.mem_singleton] at hx
  exact ⟨c, hc, hx⟩

theorem Bare.isAlnum_of_mem_flat {l : List Cluster} (h : Bare u l) : ∀ x ∈ Cluster.flat l, isAlnum x = true := by
  intro x hx
  obtain ⟨c, hc, rfl⟩ := h.mem_flat hx
  exact h.alnum c hc

theorem map_toUpper_eq (hu : u.KnowsAscii) {cs : List CodePoint} (halnum : ∀ c ∈ cs, isAlnum c = true)
    (h : ∀ c ∈ cs, letterKind u c ≠ .lower) : cs.map u.toUpper = cs :=
  (List.map_congr_left fun c hc => (alnumCase hu (halnum c hc)).toUpper_eq (h c hc)).trans cs.map_id'

theorem map_toLower_eq (hu : u.KnowsAscii) {cs : List CodePoint} (halnum : ∀ c ∈ cs, isAlnum c = true)
    (h : ∀ c ∈ cs, letterKind u c ≠ .upper) : cs.map u.toLower = cs :=
  (List.map_congr_left fun c hc => (alnumCase hu (halnum c hc)).toLower_eq (h c hc)).trans cs.map_id'

/-- A word with a capital in front is in the style of its casing. -/
theorem apply_of_upper (hu : u.KnowsAscii) {s : List Cluster} {c : Cluster} (h : Bare u s) (hshape : WordShape u s)
    (hhead : s.head? = some c) (hc : c.kind u = .upper) :
    (if (Word.ofClusters u s).isAcronym then WordStyle.allUpper else .firstUpper).apply u (Word.ofClusters u s).text =
      Utf8.encode (Cluster.flat s) := by
  have halnum := h.isAlnum_of_mem_flat
  have hcasing : (Word.ofClusters u s).casing = casingOf u (Cluster.flat s) := rfl
  have htext : (Word.ofClusters u s).text = Utf8.encode (Cluster.flat s) := rfl
  obtain ⟨t, rfl⟩ : ∃ t, s = c :: t := ⟨s.tail, (List.cons_head?_tail hhead).symm⟩
  have hflat : Cluster.flat (c :: t) = c.base :: Cluster.flat t := by
    rw [Cluster.flat_cons, h.marks c List.mem_cons_self, List.nil_append]
  have htail : Bare u t := (Bare.of_append (l := [c]) h).2
  rw [htext, WordStyle.apply_encode _ (isScalar_of_isAlnum halnum), Word.isAcronym, hcasing]
  rcases hshape.of_upper hhead hc with hlower | ⟨⟨x, hx, hxlower⟩, hupper⟩
  · have hflat_lower : ∀ y ∈ Cluster.flat (c :: t), letterKind u y ≠ .lower := by
      intro y hy
      obtain ⟨d, hd, rfl⟩ := h.mem_flat hy
      exact hlower d hd
    rw [casingOf_allUpper (hflat ▸ List.mem_cons_self) hc hflat_lower]
    exact congrArg Utf8.encode (map_toUpper_eq hu halnum hflat_lower)
  · have hflat_upper : ∀ y ∈ Cluster.flat t, letterKind u y ≠ .upper := by
      intro y hy
      obtain ⟨d, hd, rfl⟩ := htail.mem_flat hy
      exact hupper d hd
    have hmem : x.base ∈ Cluster.flat t := List.mem_flatMap.mpr ⟨x, hx, List.mem_cons_self⟩
    have hbase : u.toUpper c.base = c.base :=
      (alnumCase hu (h.alnum c List.mem_cons_self)).toUpper_eq (by rw [← Cluster.kind, hc]; decide)
    rw [hflat, casingOf_capitalized hc hmem hxlower hflat_upper]
    refine congrArg Utf8.encode ?_
    exact congrArg₂ List.cons hbase (map_toLower_eq hu htail.isAlnum_of_mem_flat hflat_upper)

/-- The first word of a name is in its style already. -/
theorem CamelStyle.first_eq (hu : u.KnowsAscii) (hstyle : CamelStyle style front) {s : List Cluster} {c : Cluster}
    (h : Bare u s) (hshape : WordShape u s) (hhead : s.head? = some c) (hc : c.kind u = front) :
    style.first u (Word.ofClusters u s) = Utf8.encode (Cluster.flat s) := by
  cases hstyle with
  | type => exact apply_of_upper hu h hshape hhead hc
  | property =>
    have halnum := h.isAlnum_of_mem_flat
    have htext : (Word.ofClusters u s).text = Utf8.encode (Cluster.flat s) := rfl
    have hupper : ∀ y ∈ Cluster.flat s, letterKind u y ≠ .upper := by
      intro y hy
      obtain ⟨d, hd, rfl⟩ := h.mem_flat hy
      exact hshape.of_lower hhead hc d hd
    rw [NameStyle.first, propertyStyle, ite_self, htext, WordStyle.apply_encode _ (isScalar_of_isAlnum halnum)]
    exact congrArg Utf8.encode (map_toLower_eq hu halnum hupper)

theorem legalWords_of_forall {allowed : CodePoint → Bool} {w : Word} {ws : List Word}
    (h : ∀ v ∈ w :: ws, legalize allowed v.text = v.text ∧ v.text ≠ []) : legalWords allowed (w :: ws) = (w, ws) := by
  have hmap : ((w :: ws).map fun v => { v with text := legalize allowed v.text }) = w :: ws :=
    (List.map_congr_left fun v hv => by rw [(h v hv).1]).trans (List.map_id' _)
  have hfilter : ((w :: ws).filter fun v => !v.text.isEmpty) = w :: ws :=
    List.filter_eq_self.mpr fun v hv => by simpa using (h v hv).2
  rw [legalWords, hmap, hfilter]

theorem flatten_map_encode (l : List (List Cluster)) :
    (l.map fun s => Utf8.encode (Cluster.flat s)).flatten = Utf8.encode (Cluster.flat l.flatten) := by
  induction l with
  | nil => rfl
  | cons s l ih =>
    rw [List.map_cons, List.flatten_cons, List.flatten_cons, ih, Cluster.flat_append, Utf8.encode_append]

/-- The first word starts where the text does, and the others start with capitals. -/
theorem Bare.exists_segments (hu : u.KnowsAscii) {c : Cluster} {rest : List Cluster} (h : Bare u (c :: rest)) :
    ∃ first later, segments u (c :: rest) = first :: later ∧ first.head? = some c ∧
      ∀ s ∈ later, ∃ x, s.head? = some x ∧ x.kind u = .upper := by
  rw [segments, if_neg (h.kind_ne_separator hu c List.mem_cons_self)]
  exact ⟨_, _, rfl, rfl, fun s hs => (h.split _).2.upper_of_mem_segments hu (fun x hx => h.upper_of_next hu hx) hs⟩

theorem Bare.legalWords_eq (hu : u.KnowsAscii) {l s : List Cluster} {ss : List (List Cluster)} (h : Bare u l)
    (hsegments : segments u l = s :: ss) :
    legalWords (isPart u o) ((segments u l).map (Word.ofClusters u)) =
      (Word.ofClusters u s, ss.map (Word.ofClusters u)) := by
  have hwords : ∀ v ∈ (segments u l).map (Word.ofClusters u), legalize (isPart u o) v.text = v.text ∧ v.text ≠ [] := by
    refine List.forall_mem_map.mpr fun t ht => ?_
    have halnum := (h.of_mem_segments ht).isAlnum_of_mem_flat
    refine ⟨legalize_encode hu halnum, fun hnil => ?_⟩
    have hflat : Cluster.flat t = [] := by
      rw [← Utf8.decode_encode (isScalar_of_isAlnum halnum)]
      exact (congrArg Utf8.decode hnil).trans Utf8.decode_nil
    cases t with
    | nil => exact (wordShape_of_mem_segments ht).ne_nil rfl
    | cons c t => cases hflat
  rw [hsegments] at hwords ⊢
  exact legalWords_of_forall hwords

/-- **A name in humps is styled into itself.** It may be cut at other places than before, but behind each cut there is a
capital. -/
theorem ofLabel_camelName (hu : u.KnowsAscii) (hstyle : CamelStyle style front) {s : Bytes} (h : CamelName u front s) :
    ofLabel u o style s = s := by
  obtain ⟨c, cs, rfl, hc, hcs⟩ := h
  obtain ⟨hclusters, hbare⟩ := hcs.clusters hu
  have hletter : letterKind u c ≠ .digit := by cases hstyle <;> rw [hc] <;> decide
  have hsep : style.separator = [] := by cases hstyle <;> rfl
  have hflat : Cluster.flat (segments u (clusters u (c :: cs))).flatten = c :: cs := by
    have hmark : ¬ u.isMark c = true := by simp [isMark_ascii hu (lt_of_isAlnum (hcs.alnum c List.mem_cons_self))]
    rw [flatten_segments (hbare.kind_ne_separator hu), Cluster.flat_clusters, List.dropWhile_cons_of_neg hmark]
  obtain ⟨first, later, hsegments, hhead, hheads⟩ : ∃ first later, segments u (clusters u (c :: cs)) = first :: later ∧
      first.head? = some ⟨c, []⟩ ∧ ∀ s ∈ later, ∃ x, s.head? = some x ∧ x.kind u = .upper := by
    rw [hclusters, List.map_cons] at hbare ⊢
    exact hbare.exists_segments hu
  have hword : ∀ s ∈ first :: later, Bare u s ∧ WordShape u s := fun s hs =>
    ⟨hbare.of_mem_segments (hsegments ▸ hs), wordShape_of_mem_segments (hsegments ▸ hs)⟩
  obtain ⟨hfirst, hlater⟩ := List.forall_mem_cons.mp hword
  have hfront : style.first u (Word.ofClusters u first) = Utf8.encode (Cluster.flat first) :=
    hstyle.first_eq hu hfirst.1 hfirst.2 hhead hc
  have hrest : (later.map (Word.ofClusters u)).map (style.later u) = later.map fun s => Utf8.encode (Cluster.flat s) := by
    rw [List.map_map]
    refine List.map_congr_left fun s hs => ?_
    obtain ⟨x, hx, hupper⟩ := hheads s hs
    rw [Function.comp_apply, hstyle.later_eq, apply_of_upper hu (hlater s hs).1 (hlater s hs).2 hx hupper]
  have hstart : startsWith (isStart u o) (Utf8.encode (Cluster.flat first)) = true := by
    obtain ⟨t, rfl⟩ : ∃ t, first = ⟨c, []⟩ :: t := ⟨first.tail, (List.cons_head?_tail hhead).symm⟩
    have halnum := hfirst.1.isAlnum_of_mem_flat
    rw [Cluster.flat_cons] at halnum ⊢
    rw [startsWith_encode halnum]
    exact (isStart_iff_of_isAlnum hu (halnum c List.mem_cons_self)).mpr hletter
  have hjoin := flatten_map_encode (first :: later)
  rw [← hsegments, hflat, hsegments, List.map_cons] at hjoin
  rw [ofLabel, combine, splitWords, Utf8.decode_encode (isScalar_of_isAlnum hcs.alnum), hbare.legalWords_eq hu hsegments]
  dsimp only
  rw [hfront, if_pos hstart, hsep, join_nil_separator, hrest, hjoin]

/-- **Styling a name again changes nothing**, if the label is ASCII or identifiers are restricted to it. -/
theorem style_idempotent (hu : u.KnowsAscii) (o : Options) (label : Bytes)
    (h : o.asciiIdentifiers = true ∨ ∀ b ∈ label, b < 128) :
    typeName u o (typeName u o label) = typeName u o label ∧
      propertyName u o (propertyName u o label) = propertyName u o label :=
  ⟨ofLabel_camelName hu .type (camelName_ofLabel hu h .type),
    ofLabel_camelName hu .property (camelName_ofLabel hu h .property)⟩

/-- A digit, a letter outside ASCII and a byte that is no UTF-8 in front of words. -/
def mixedLabel : Bytes := [0x32, 0xC3, 0x89, 0xFF] ++ Bytes.ascii "XMLHttp4u"

theorem style_idempotent_mixed_label :
    CharacterData.table.KnowsAscii ∧
    (typeName .table ⟨false, true, []⟩ mixedLabel = Bytes.ascii "The2XMLHttp4U" ∧
      propertyName .table ⟨false, true, []⟩ mixedLabel = Bytes.ascii "the2XMLHttp4U") ∧
    typeName .table ⟨false, true, []⟩ (typeName .table ⟨false, true, []⟩ mixedLabel) =
      typeName .table ⟨false, true, []⟩ mixedLabel ∧
    propertyName .table ⟨false, true, []⟩ (propertyName .table ⟨false, true, []⟩ mixedLabel) =
      propertyName .table ⟨false, true, []⟩ mixedLabel :=
  ⟨CharacterData.standard_table.toKnowsAscii, by decide +kernel,
    style_idempotent CharacterData.standard_table.toKnowsAscii _ _ (Or.inl rfl)⟩

end Identifier

end Typewright
