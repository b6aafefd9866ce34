import Mathlib
import Typewright.Proofs.Edn.Building

/-!
# What the parser has read, and where

The parser is at a suffix of its source at all times, and the place of a suffix is the position behind all that was read.
So its state is described by the source and the suffix alone.

* `placeOf src s` : the position where the suffix `s` of a source starts;
* `Stands src f s rest`, `StandsAll src fs s rest` : the grammar of forms, in which a form has the place where it starts;
* `Opened src stack s` : reading is at `s`, and `stack` holds the collections that are open there. It is what every step
  keeps;
* `Told src fault s` : what is wrong with a source, and the suffix at which it is told;
* `Opened.outcome` : reading ends with a form that is spelled, or with an error that is told.
-/

namespace Typewright.Edn

/-! ## Places -/

/-- The position where a suffix of a source starts. -/
def placeOf (src s : Bytes) : Position := Position.start.after (src.take (src.length - s.length))

theorem placeOf_append (t s : Bytes) : placeOf (t ++ s) s = Position.start.after t := by
  rw [placeOf, List.length_append, Nat.add_sub_cancel, List.take_left]

theorem placeOf_self (src : Bytes) : placeOf src src = .start := placeOf_append [] src

theorem placeOf_nil (src : Bytes) : placeOf src [] = Position.start.after src := by
  rw [placeOf, List.length_nil, Nat.sub_zero, List.take_length]

theorem after_placeOf {src t s : Bytes} (h : t ++ s <:+ src) : (placeOf src (t ++ s)).after t = placeOf src s := by
  obtain ⟨u, rfl⟩ := h
  rw [placeOf_append, ← Position.after_append, ← List.append_assoc, placeOf_append]

/-! ## Forms with their places -/

mutual

/-- A suffix of a source starts with the spelling of a form, which has the place of the suffix; the rest is behind it. -/
inductive Stands (src : Bytes) : Form → Bytes → Bytes → Prop
  | atom {a : Atom} {s rest : Bytes} (h : Lexeme a s rest) : Stands src (.atom (placeOf src s) a) s rest
  | seq {k : Bracket} {items : List Form} {s rest : Bytes} (h : StandsAll src items s (k.closer :: rest))
      (hk : k = .curly → items.length % 2 = 0) :
      Stands src (.seq (placeOf src (k.opener :: s)) k items) (k.opener :: s) rest

/-- A suffix of a source starts with several forms and trivia before, between and behind them, and then comes the rest. -/
inductive StandsAll (src : Bytes) : List Form → Bytes → Bytes → Prop
  | nil {t rest : Bytes} (ht : Trivia t) : StandsAll src [] (t ++ rest) rest
  | cons {f : Form} {fs : List Form} {t s s' rest : Bytes} (ht : Trivia t) (hf : Stands src f s s')
      (hfs : StandsAll src fs s' rest) : StandsAll src (f :: fs) (t ++ s) rest

end

section Standing

variable {src : Bytes}

theorem Lexeme.exists_text {a : Atom} {s rest : Bytes} (h : Lexeme a s rest) : ∃ text, text ≠ [] ∧ s = text ++ rest := by
  obtain ⟨b, text, _, rfl, _⟩ := h.scanToken_eq
  exact ⟨b :: text, by simp, rfl⟩

mutual

/-- A form takes at least one byte. -/
theorem Stands.exists_text {f : Form} {s rest : Bytes} : Stands src f s rest → ∃ text, text ≠ [] ∧ s = text ++ rest
  | .atom h => h.exists_text
  | .seq (k := k) h _ => by
    obtain ⟨text, rfl⟩ := h.exists_text
    exact ⟨k.opener :: (text ++ [k.closer]), by simp, by simp⟩

theorem StandsAll.exists_text {fs : List Form} {s rest : Bytes} : StandsAll src fs s rest → ∃ text, s = text ++ rest
  | .nil (t := t) _ => ⟨t, rfl⟩
  | .cons (t := t) _ hf hfs => by
    obtain ⟨text, -, rfl⟩ := hf.exists_text
    obtain ⟨texts, rfl⟩ := hfs.exists_text
    exact ⟨t ++ (text ++ texts), by simp⟩

end

theorem exists_ofItems {k : Bracket} {ns : List Tree} (hk : k = .curly → ns.length % 2 = 0) :
    ∃ n, Tree.ofItems? k ns = some n := by
  cases k with
  | round => exact ⟨_, rfl⟩
  | square => exact ⟨_, rfl⟩
  | curly =>
    obtain ⟨entries, rfl⟩ := exists_unpaired ns (hk rfl)
    exact ⟨.map entries, by rw [Tree.ofItems?, pairs?_unpaired]; rfl⟩

mutual

/-- Without its places a form is derived. -/
theorem Stands.derives {f : Form} {s rest : Bytes} : Stands src f s rest → ∃ n, f.tree? = some n ∧ Derives n s rest
  | .atom h => ⟨_, rfl, .atom h⟩
  | .seq h hk => by
    obtain ⟨ns, hns, hderives⟩ := h.derives
    rw [Form.length_of_trees? hns] at hk
    obtain ⟨n, hn⟩ := exists_ofItems hk
    refine ⟨n, ?_, (derives_ofItems_iff hn).mpr ⟨_, rfl, hderives⟩⟩
    rw [Form.tree?_seq, hns, Option.bind_some, hn]

theorem StandsAll.derives {fs : List Form} {s rest : Bytes} :
    StandsAll src fs s rest → ∃ ns, Form.trees? fs = some ns ∧ DerivesAll ns s rest
  | .nil ht => ⟨[], rfl, .nil ht⟩
  | .cons ht hf hfs => by
    obtain ⟨n, hn, hderives⟩ := hf.derives
    obtain ⟨ns, hns, hall⟩ := hfs.derives
    exact ⟨n :: ns, by rw [Form.trees?, hn, hns]; rfl, .cons ht hderives hall⟩

end

/-- Trivia behind the last form belong to the forms. -/
theorem StandsAll.trivia {fs : List Form} {s t rest : Bytes} (h : StandsAll src fs s (t ++ rest)) (ht : Trivia t) :
    StandsAll src fs s rest := by
  induction fs generalizing s with
  | nil =>
    cases h with
    | nil ht' =>
      rw [← List.append_assoc]
      exact .nil (ht'.append ht)
  | cons f fs ih =>
    cases h with
    | cons ht' hf hfs => exact .cons ht' hf (ih hfs)

theorem StandsAll.concat {fs : List Form} {f : Form} {s s' rest : Bytes} (h : StandsAll src fs s s')
    (hf : Stands src f s' rest) : StandsAll src (fs ++ [f]) s rest := by
  induction fs generalizing s with
  | nil =>
    cases h with
    | nil ht => exact .cons ht hf (.nil .nil)
  | cons g fs ih =>
    cases h with
    | cons ht hg hfs => exact .cons ht hg (ih hfs)

end Standing

/-! ## Faults and where they are told -/

/-- Reading comes to a suffix of a source: before it are trivia, opening brackets, and items behind each of these. -/
inductive Reaches (src : Bytes) : Bytes → Prop
  | start {t s : Bytes} (hs : src = t ++ s) (ht : Trivia t) : Reaches src s
  | inside {k : Bracket} {ns : List Tree} {s s' : Bytes} (h : Reaches src (k.opener :: s)) (hns : DerivesAll ns s s') :
      Reaches src s'

/-- What is wrong with a source, and the suffix where this is told: what is left unfinished at its opening bracket or
quotation mark, and all else where it is met. -/
inductive Told (src : Bytes) : SyntaxFault → Bytes → Prop
  /-- There is no form. -/
  | empty (hs : Trailing src) : Told src .endOfInput []
  /-- Something is behind the form. -/
  | trailing {t s t' rest : Bytes} {n : Tree} {b : UInt8} (hs : src = t ++ s) (ht : Trivia t)
      (hn : Derives n s (t' ++ b :: rest)) (ht' : Trivia t') (hb : b ∉ blanks ∧ b ≠ Bytes.byte ';') :
      Told src .trailingText (b :: rest)
  /-- A token is malformed. -/
  | token {fault : SyntaxFault} {s : Bytes} (h : Reaches src s) (hs : Malformed fault s) (hfault : fault ≠ .badEscape) :
      Told src fault s
  /-- The source ends inside an escape. -/
  | escape {s : Bytes} (h : Reaches src s) (hs : Malformed .badEscape s) : Told src .badEscape []
  /-- Nothing is open that a bracket could close. -/
  | unopened {t s : Bytes} {k : Bracket} (hs : src = t ++ k.closer :: s) (ht : Trivia t) :
      Told src (.unexpected k.closer) (k.closer :: s)
  /-- Another bracket is open than the one that is closed. -/
  | mismatch {k k' : Bracket} {ns : List Tree} {s rest : Bytes} (h : Reaches src (k.opener :: s))
      (hns : DerivesAll ns s (k'.closer :: rest)) (hk : k ≠ k') : Told src (.unexpected k'.closer) (k'.closer :: rest)
  /-- The source ends inside a collection. -/
  | unclosed {k : Bracket} {ns : List Tree} {s rest : Bytes} (h : Reaches src (k.opener :: s)) (hns : DerivesAll ns s rest)
      (hrest : Trailing rest) : Told src .unterminatedCollection (k.opener :: s)
  /-- A key has no value. -/
  | odd {ns : List Tree} {s rest : Bytes} (h : Reaches src (Bracket.opener .curly :: s))
      (hns : DerivesAll ns s (Bracket.closer .curly :: rest)) (hodd : ns.length % 2 = 1) :
      Told src .oddMap (Bracket.opener .curly :: s)

/-! ## The state of the parser -/

/-- Reading is at a suffix of a source, and the stack holds the collections that are open there, the innermost first. -/
inductive Opened (src : Bytes) : List OpenSeq → Bytes → Prop
  | outside {t s : Bytes} (hs : src = t ++ s) (ht : Trivia t) : Opened src [] s
  | inside {stack : List OpenSeq} {k : Bracket} {items : List Form} {s s' : Bytes} (h : Opened src stack (k.opener :: s))
      (hitems : StandsAll src items s s') : Opened src (⟨placeOf src (k.opener :: s), k, items.reverse⟩ :: stack) s'

namespace Opened

variable {src s : Bytes} {stack : List OpenSeq}

theorem isSuffix (h : Opened src stack s) : s <:+ src := by
  induction h with
  | outside hs _ => exact ⟨_, hs.symm⟩
  | inside _ hitems ih =>
    obtain ⟨text, rfl⟩ := hitems.exists_text
    exact ((List.suffix_append text _).trans (List.suffix_cons _ _)).trans ih

theorem reaches (h : Opened src stack s) : Reaches src s := by
  induction h with
  | outside hs ht => exact .start hs ht
  | inside _ hitems ih =>
    obtain ⟨ns, -, hns⟩ := hitems.derives
    exact .inside ih hns

theorem trivia {t : Bytes} (h : Opened src stack (t ++ s)) (ht : Trivia t) : Opened src stack s := by
  generalize hs : t ++ s = s' at h
  cases h with
  | outside hsrc ht' =>
    subst hs
    exact .outside (by rw [hsrc, List.append_assoc]) (ht'.append ht)
  | inside h hitems =>
    subst hs
    exact .inside h (hitems.trivia ht)

theorem opening {k : Bracket} (h : Opened src stack (k.opener :: s)) :
    Opened src (⟨placeOf src (k.opener :: s), k, []⟩ :: stack) s :=
  .inside h (.nil (t := []) .nil)

theorem item {f : OpenSeq} {form : Form} {rest : Bytes} (h : Opened src (f :: stack) s) (hform : Stands src form s rest) :
    Opened src ({ f with items := form :: f.items } :: stack) rest := by
  cases h with
  | inside h hitems => simpa using h.inside (hitems.concat hform)

end Opened

/-! ## The next token -/

section Tokens

variable {src s : Bytes}

/-- The tokens that are still to come at a suffix of a source. -/
def tokensAt (src s : Bytes) : List Token := tokens (placeOf src []) (locate (placeOf src s) s)

theorem tokensAt_trivia {t : Bytes} (h : t ++ s <:+ src) (ht : Trivia t) : tokensAt src (t ++ s) = tokensAt src s := by
  rw [tokensAt, tokens_trivia ht, after_placeOf h]
  rfl

theorem next_placeOf {b : UInt8} (h : b :: s <:+ src) : (placeOf src (b :: s)).next b = placeOf src s :=
  after_placeOf (t := [b]) h

theorem tokensAt_opener {k : Bracket} (h : k.opener :: s <:+ src) :
    tokensAt src (k.opener :: s) = ⟨placeOf src (k.opener :: s), .opening k⟩ :: tokensAt src s := by
  rw [tokensAt, tokens_opener, next_placeOf h]
  rfl

theorem tokensAt_closer {k : Bracket} (h : k.closer :: s <:+ src) :
    tokensAt src (k.closer :: s) = ⟨placeOf src (k.closer :: s), .closing k⟩ :: tokensAt src s := by
  rw [tokensAt, tokens_closer, next_placeOf h]
  rfl

theorem tokensAt_lexeme {a : Atom} {rest : Bytes} (h : s <:+ src) (ha : Lexeme a s rest) :
    tokensAt src s = ⟨placeOf src s, .atom a⟩ :: tokensAt src rest := by
  obtain ⟨b, text, hb, rfl, hscan⟩ := ha.scanToken_eq
  obtain ⟨hblank, hsemi, _⟩ := startsAtom_apart hb
  have hplace := after_placeOf (t := b :: text) h
  rw [tokensAt, tokens_cons hblank hsemi, hscan]
  rw [List.cons_append] at hplace
  rw [hplace]
  rfl

theorem tokensAt_malformed (src : Bytes) {fault : SyntaxFault} {b : UInt8} (hblank : b ∉ blanks)
    (hsemi : b ≠ Bytes.byte ';') (hs : Malformed fault (b :: s)) :
    ∃ ts, tokensAt src (b :: s) =
      ⟨placeOf src (b :: s), .broken ⟨fault, fault.told (placeOf src (b :: s)) (placeOf src [])⟩⟩ :: ts := by
  obtain ⟨b', s', heq, hscan⟩ := hs.scanToken_eq
  obtain ⟨rfl, rfl⟩ := List.cons.inj heq
  rw [tokensAt, tokens_cons hblank hsemi, hscan]
  exact ⟨_, rfl⟩

end Tokens

/-! ## The run of the parser -/

/-- What holds when reading is over: the form is spelled, and the tokens behind it are left; or an error is told. -/
def Settled (src : Bytes) : Except SyntaxError (Form × List Token) → Prop
  | .ok (f, ts) => ∃ t s rest, src = t ++ s ∧ Trivia t ∧ Stands src f s rest ∧ ts = tokensAt src rest
  | .error e => ∃ s, s <:+ src ∧ e.pos = placeOf src s ∧ Told src e.fault s

namespace Opened

variable {src s : Bytes} {stack : List OpenSeq}

/-- Behind a form that is no item reading is over, and behind an item it goes on. -/
theorem deliver {form : Form} {rest : Bytes} (h : Opened src stack s) (hform : Stands src form s rest)
    (ih : ∀ stack', Opened src stack' rest → Settled src (build (placeOf src []) stack' (tokensAt src rest))) :
    Settled src (Edn.deliver (placeOf src []) form stack (tokensAt src rest)) := by
  cases stack with
  | nil =>
    cases h with
    | outside hs ht => exact ⟨_, _, rest, hs, ht, hform, rfl⟩
  | cons f stack => exact ih _ (h.item hform)

/-- Reading is over where only trivia are left. -/
theorem settled_of_trailing (h : Opened src stack s) (hs : Trailing s) :
    Settled src (build (placeOf src []) stack (tokensAt src s)) := by
  rw [tokensAt, tokens_trailing hs]
  cases h with
  | outside hsrc ht => exact ⟨[], List.nil_suffix, rfl, .empty (hsrc ▸ hs.append ht)⟩
  | inside h hitems =>
    obtain ⟨ns, -, hns⟩ := hitems.derives
    exact ⟨_, h.isSuffix, rfl, .unclosed h.reaches hns hs⟩

/-- A closing bracket completes the innermost collection, or it is an error. -/
theorem settled_of_closer {k : Bracket} (h : Opened src stack (k.closer :: s))
    (ih : ∀ stack', Opened src stack' s → Settled src (build (placeOf src []) stack' (tokensAt src s))) :
    Settled src (build (placeOf src []) stack (tokensAt src (k.closer :: s))) := by
  have hsuffix := h.isSuffix
  rw [tokensAt_closer hsuffix]
  cases h with
  | outside hs ht => exact ⟨_, hsuffix, rfl, .unopened hs ht⟩
  | @inside stack k' items s₀ _ h hitems =>
    obtain ⟨ns, hns, hderives⟩ := hitems.derives
    by_cases hk : k' = k
    · subst hk
      by_cases hodd : k' = .curly ∧ items.length % 2 = 1
      · have hclose : (OpenSeq.mk (placeOf src (k'.opener :: s₀)) k' items.reverse).close =
            .error ⟨.oddMap, placeOf src (k'.opener :: s₀)⟩ := by
          simp [OpenSeq.close, hodd]
        rw [build_closing_error hclose]
        obtain ⟨rfl, hodd⟩ := hodd
        rw [Form.length_of_trees? hns] at hodd
        exact ⟨_, h.isSuffix, rfl, .odd h.reaches hderives hodd⟩
      · have hclose : (OpenSeq.mk (placeOf src (k'.opener :: s₀)) k' items.reverse).close =
            .ok (.seq (placeOf src (k'.opener :: s₀)) k' items) := by
          simpa [OpenSeq.close] using hodd
        rw [build_closing hclose]
        have heven : k' = .curly → items.length % 2 = 0 := by
          intro hcurly
          have hnot := not_and.mp hodd hcurly
          omega
        exact h.deliver (.seq hitems heven) ih
    · rw [build_mismatch hk]
      exact ⟨_, hsuffix, rfl, .mismatch h.reaches hderives hk⟩

theorem settled_of_malformed {fault : SyntaxFault} {b : UInt8} (h : Opened src stack (b :: s)) (hblank : b ∉ blanks)
    (hsemi : b ≠ Bytes.byte ';') (hs : Malformed fault (b :: s)) :
    Settled src (build (placeOf src []) stack (tokensAt src (b :: s))) := by
  obtain ⟨ts, htokens⟩ := tokensAt_malformed src hblank hsemi hs
  rw [htokens, build_broken]
  by_cases hfault : fault = .badEscape
  · subst hfault
    exact ⟨[], List.nil_suffix, rfl, .escape h.reaches hs⟩
  · exact ⟨_, h.isSuffix, if_neg hfault, .token h.reaches hs hfault⟩

/-- **Reading ends with a form that is spelled, or with an error that is told.** -/
theorem settled (h : Opened src stack s) : Settled src (build (placeOf src []) stack (tokensAt src s)) := by
  -- every token takes at least one byte
  induction hlen : s.length using Nat.strongRecOn generalizing s stack with
  | ind len ih =>
  subst hlen
  rcases trailing_or_token s with hs | ⟨t, b, s', rfl, ht, hblank, hsemi⟩
  · exact h.settled_of_trailing hs
  rw [tokensAt_trivia h.isSuffix ht]
  have hshort : s'.length < (t ++ b :: s').length := by simp; omega
  replace h := h.trivia ht
  have hbehind : ∀ stack', Opened src stack' s' → Settled src (build (placeOf src []) stack' (tokensAt src s')) :=
    fun stack' h' => ih s'.length hshort h' rfl
  by_cases hopen : ∃ k : Bracket, k.opener = b
  · obtain ⟨k, rfl⟩ := hopen
    rw [tokensAt_opener h.isSuffix, build_opening]
    exact hbehind _ h.opening
  by_cases hclose : ∃ k : Bracket, k.closer = b
  · obtain ⟨k, rfl⟩ := hclose
    exact h.settled_of_closer hbehind
  have hbracket : ∀ k : Bracket, k.opener ≠ b ∧ k.closer ≠ b :=
    fun k => ⟨fun h => hopen ⟨k, h⟩, fun h => hclose ⟨k, h⟩⟩
  rcases lexeme_or_malformed s' hbracket with ⟨a, rest, ha⟩ | ⟨fault, hbad⟩
  · rw [tokensAt_lexeme h.isSuffix ha, build_atom]
    refine h.deliver (.atom ha) fun stack' h' => ih rest.length ?_ h' rfl
    obtain ⟨text, hne, htext⟩ := ha.exists_text
    have hpos := List.length_pos_of_ne_nil hne
    have hlen := congrArg List.length htext
    rw [List.length_append, List.length_cons] at hlen
    omega
  · exact h.settled_of_malformed hblank hsemi hbad

end Opened

/-! ## Whole sources -/

theorem settled_source (src : Bytes) :
    Settled src (build (Position.start.after src) [] (tokens (Position.start.after src) (locate .start src))) := by
  have hopened : Opened src [] src := .outside (t := []) rfl .nil
  have hsettled := hopened.settled
  rwa [tokensAt, placeOf_self, placeOf_nil] at hsettled

theorem scanToken_pos (finish : Position) (c : Located) (l : List Located) : (scanToken finish c l).1.pos = c.pos := by
  unfold scanToken
  dsimp only
  split
  · rfl
  split
  · rfl
  split
  · split <;> rfl
  split
  · split <;> rfl
  split
  · split <;> rfl
  split <;> rfl

/-- Where tokens are left, the first one stands behind trivia. -/
theorem exists_of_tokensAt_cons {src s : Bytes} (hs : s <:+ src) {token : Token} {ts : List Token}
    (h : tokensAt src s = token :: ts) :
    ∃ t b s', s = t ++ b :: s' ∧ Trivia t ∧ (b ∉ blanks ∧ b ≠ Bytes.byte ';') ∧ token.pos = placeOf src (b :: s') := by
  rcases trailing_or_token s with htrailing | ⟨t, b, s', rfl, ht, hblank, hsemi⟩
  · rw [tokensAt, tokens_trailing htrailing] at h
    cases h
  · rw [tokensAt_trivia hs ht, tokensAt, tokens_cons hblank hsemi] at h
    rw [← (List.cons.inj h).1, scanToken_pos]
    exact ⟨t, b, s', rfl, ht, ⟨hblank, hsemi⟩, rfl⟩

theorem trailing_of_tokensAt_eq_nil {src s : Bytes} (h : tokensAt src s = []) : Trailing s := by
  rcases trailing_or_token s with hs | ⟨t, b, s', rfl, ht, hblank, hsemi⟩
  · exact hs
  · rw [tokensAt, tokens_trivia ht, tokens_cons hblank hsemi] at h
    cases h

theorem parse_eq_ok_iff {src : Bytes} {f : Form} : parse src = .ok f ↔
    build (Position.start.after src) [] (tokens (Position.start.after src) (locate .start src)) = .ok (f, []) := by
  unfold parse
  dsimp only
  split <;> simp_all

/-- What is parsed is spelled by the source, form by form at its place. -/
theorem stands_of_parse_eq {src : Bytes} {f : Form} (h : parse src = .ok f) :
    ∃ t s rest, src = t ++ s ∧ Trivia t ∧ Stands src f s rest ∧ Trailing rest := by
  have hsettled := settled_source src
  rw [parse_eq_ok_iff.mp h] at hsettled
  obtain ⟨t, s, rest, hs, ht, hf, hnil⟩ := hsettled
  exact ⟨t, s, rest, hs, ht, hf, trailing_of_tokensAt_eq_nil hnil.symm⟩

/-- An error is told at its place. -/
theorem told_of_parse_eq {src : Bytes} {e : SyntaxError} (h : parse src = .error e) :
    ∃ s, s <:+ src ∧ e.pos = placeOf src s ∧ Told src e.fault s := by
  have hsettled := settled_source src
  unfold parse at h
  dsimp only at h
  split at h
  · rename_i heq
    rw [heq] at hsettled
    obtain rfl := Except.error.inj h
    exact hsettled
  · cases h
  · rename_i heq
    rw [heq] at hsettled
    obtain rfl := Except.error.inj h
    obtain ⟨t, s, rest, hs, ht, hf, htokens⟩ := hsettled
    obtain ⟨text, -, rfl⟩ := hf.exists_text
    have hrest : rest <:+ src := hs ▸ (List.suffix_append text rest).trans (List.suffix_append t _)
    obtain ⟨t', b, s', rfl, ht', hb, hpos⟩ := exists_of_tokensAt_cons hrest htokens.symm
    obtain ⟨n, -, hn⟩ := hf.derives
    exact ⟨b :: s', (List.suffix_append t' _).trans hrest, hpos, .trailing hs ht hn ht' hb⟩

end Typewright.Edn
