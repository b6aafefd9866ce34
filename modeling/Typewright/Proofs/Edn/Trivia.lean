import Mathlib
import Typewright.Proofs.Edn.Grammar

/-!
# Runs of bytes and trivia

* `spanBytes_locate`, `exists_run` : a run of bytes of a class is read up to its end, and every source starts with one;
* `tokens_trivia`, `tokens_trailing`, `tokens_cons` : the reader passes over trivia, to the end of the source or to the
  next token;
* `trailing_or_token` : these are the two cases.
-/

namespace Typewright

theorem Position.after_append (p : Position) (s t : Bytes) : p.after (s ++ t) = (p.after s).after t :=
  List.foldl_append

namespace Edn

variable {p : Position}

/-! ## Runs of bytes -/

/-- The next byte is not in a class of bytes, or there is none. -/
def Stops (c : UInt8 → Bool) (s : Bytes) : Prop := ∀ b ∈ s.head?, c b = false

theorem stops_cons {c : UInt8 → Bool} {b : UInt8} (h : c b = false) (s : Bytes) : Stops c (b :: s) := by
  intro b' hb'
  rw [List.head?_cons, Option.mem_some_iff] at hb'
  rw [← hb']
  exact h

/-- Bytes of a class are read up to the first byte outside of it. -/
theorem spanBytes_locate {c : UInt8 → Bool} {t rest : Bytes} (ht : ∀ b ∈ t, c b = true) (hrest : Stops c rest) :
    spanBytes c (locate p (t ++ rest)) = (t, locate (p.after t) rest) := by
  induction t generalizing p with
  | nil =>
    cases rest with
    | nil => rfl
    | cons b rest =>
      have hb : c b = false := hrest b rfl
      simp [spanBytes, locate, hb, Located.bytes, Position.after]
  | cons b t ih =>
    have hb : c b = true := ht b List.mem_cons_self
    have hspan := ih (p := p.next b) fun b' hb' => ht b' (List.mem_cons_of_mem b hb')
    have htake := congrArg Prod.fst hspan
    have hdrop := congrArg Prod.snd hspan
    simp only [spanBytes] at htake hdrop
    simp only [spanBytes, List.cons_append, locate, List.takeWhile_cons, List.dropWhile_cons, hb, if_true, hdrop]
    show (b :: Located.bytes _, _) = _
    rw [htake]
    rfl

/-- Every source starts with a run of bytes of a class. -/
theorem exists_run (c : UInt8 → Bool) (s : Bytes) :
    ∃ t rest, s = t ++ rest ∧ (∀ b ∈ t, c b = true) ∧ Stops c rest := by
  refine ⟨s.takeWhile c, s.dropWhile c, (List.takeWhile_append_dropWhile).symm, fun b => List.mem_takeWhile_imp, ?_⟩
  intro b hb
  have hnot := List.head?_dropWhile_not c s
  rw [hb] at hnot
  simpa using hnot

/-! ## Trivia -/

theorem isBlank_iff {b : UInt8} : isBlank b = true ↔ b ∈ blanks := by
  simp only [isBlank, blanks, Bool.or_eq_true, beq_iff_eq, List.mem_cons, List.not_mem_nil, or_false,
    show Bytes.byte ',' = 44 from rfl]
  tauto

theorem skipBlank_comment {text s : Bytes} (ht : Bytes.lineFeed ∉ text) :
    skipBlank true (locate p (text ++ Bytes.lineFeed :: s)) =
      skipBlank false (locate (p.after (text ++ [Bytes.lineFeed])) s) := by
  induction text generalizing p with
  | nil => rfl
  | cons b text ih =>
    rw [List.cons_append, locate, skipBlank, bne_iff_ne.mpr (List.ne_of_not_mem_cons ht).symm,
      ih (List.not_mem_of_not_mem_cons ht)]
    rfl

theorem skipBlank_open_comment {text : Bytes} (ht : Bytes.lineFeed ∉ text) : skipBlank true (locate p text) = [] := by
  induction text generalizing p with
  | nil => rfl
  | cons b text ih =>
    rw [locate, skipBlank, bne_iff_ne.mpr (List.ne_of_not_mem_cons ht).symm]
    exact ih (List.not_mem_of_not_mem_cons ht)

theorem skipBlank_blank {b : UInt8} (hb : b ∈ blanks) (s : Bytes) :
    skipBlank false (locate p (b :: s)) = skipBlank false (locate (p.next b) s) := by
  have hne : b ≠ Bytes.byte ';' := by
    rintro rfl
    exact absurd hb (by decide)
  rw [locate, skipBlank, if_neg hne, if_pos (isBlank_iff.mpr hb)]

theorem skipBlank_trivia {t : Bytes} (ht : Trivia t) (s : Bytes) :
    skipBlank false (locate p (t ++ s)) = skipBlank false (locate (p.after t) s) := by
  induction ht generalizing p with
  | nil => rfl
  | blank hb _ ih =>
    rw [List.cons_append, skipBlank_blank hb, ih]
    rfl
  | @comment text t htext _ ih =>
    rw [List.cons_append, List.append_assoc, locate, skipBlank, if_pos rfl, List.cons_append, skipBlank_comment htext,
      ih, ← Position.after_append]
    simp [Position.after]

theorem skipBlank_trailing {s : Bytes} (hs : Trailing s) : skipBlank false (locate p s) = [] := by
  cases hs with
  | trivia hs => simpa [locate, skipBlank] using skipBlank_trivia (p := p) hs []
  | comment hs ht =>
    rw [skipBlank_trivia hs, locate, skipBlank, if_pos rfl]
    exact skipBlank_open_comment ht

theorem Trivia.append {t s : Bytes} (ht : Trivia t) (hs : Trivia s) : Trivia (t ++ s) := by
  induction ht with
  | nil => exact hs
  | blank hb _ ih => exact .blank hb ih
  | comment htext _ ih => simpa using Trivia.comment htext ih

theorem Trailing.append {t s : Bytes} (ht : Trivia t) (hs : Trailing s) : Trailing (t ++ s) := by
  cases hs with
  | trivia hs => exact .trivia (ht.append hs)
  | comment hs htext =>
    rw [← List.append_assoc]
    exact .comment (ht.append hs) htext

/-- A source is trivia, or there is a byte behind trivia that starts something. -/
theorem trailing_or_token (s : Bytes) :
    Trailing s ∨ ∃ t b s', s = t ++ b :: s' ∧ Trivia t ∧ b ∉ blanks ∧ b ≠ Bytes.byte ';' := by
  induction hlen : s.length using Nat.strongRecOn generalizing s with
  | ind len ih =>
  have hbehind : ∀ u rest, Trivia u → u ≠ [] → s = u ++ rest →
      Trailing s ∨ ∃ t b s', s = t ++ b :: s' ∧ Trivia t ∧ b ∉ blanks ∧ b ≠ Bytes.byte ';' := by
    intro u rest hu hne hs
    have hpos := List.length_pos_of_ne_nil hne
    have hshort : rest.length < len := by
      rw [← hlen, hs, List.length_append]
      omega
    rcases ih rest.length hshort rest rfl with hrest | ⟨t, b, s', rfl, ht, hb⟩
    · rw [hs]
      exact .inl (hrest.append hu)
    · exact .inr ⟨u ++ t, b, s', by rw [hs, List.append_assoc], hu.append ht, hb⟩
  cases s with
  | nil => exact .inl (.trivia .nil)
  | cons b s =>
    by_cases hb : b ∈ blanks
    · exact hbehind [b] s (.blank hb .nil) (by simp) rfl
    by_cases hsemi : b = Bytes.byte ';'
    · subst hsemi
      obtain ⟨text, rest, rfl, htext, hrest⟩ := exists_run (· != Bytes.lineFeed) s
      have hfree : Bytes.lineFeed ∉ text := fun h => absurd (htext _ h) (by simp)
      cases rest with
      | nil =>
        rw [List.append_nil]
        exact .inl (.comment .nil hfree)
      | cons c rest =>
        obtain rfl : c = Bytes.lineFeed := by simpa using hrest c rfl
        exact hbehind (Bytes.byte ';' :: (text ++ [Bytes.lineFeed])) rest (.comment hfree .nil) (by simp) (by simp)
    · exact .inr ⟨[], b, s, rfl, .nil, hb, hsemi⟩

/-! ## The next token -/

theorem tokens_congr {finish : Position} {l l' : List Located} (h : skipBlank false l = skipBlank false l') :
    tokens finish l = tokens finish l' := by
  rw [tokens.eq_def finish l, tokens.eq_def finish l']
  split <;> split <;> simp_all

theorem tokens_trivia {finish : Position} {t : Bytes} (ht : Trivia t) (s : Bytes) :
    tokens finish (locate p (t ++ s)) = tokens finish (locate (p.after t) s) :=
  tokens_congr (skipBlank_trivia ht s)

theorem tokens_trailing {finish : Position} {s : Bytes} (hs : Trailing s) : tokens finish (locate p s) = [] := by
  have hnil : tokens finish (locate p s) = tokens finish [] := tokens_congr (skipBlank_trailing hs)
  rw [hnil, tokens.eq_def]
  rfl

/-- A byte that is not trivia starts a token. -/
theorem tokens_cons {finish : Position} {b : UInt8} {s : Bytes} (hb : b ∉ blanks) (hsemi : b ≠ Bytes.byte ';') :
    tokens finish (locate p (b :: s)) = (scanToken finish ⟨b, p⟩ (locate (p.next b) s)).1 ::
      tokens finish (scanToken finish ⟨b, p⟩ (locate (p.next b) s)).2 := by
  have hskip : skipBlank false (locate p (b :: s)) = ⟨b, p⟩ :: locate (p.next b) s := by
    have hblank : ¬ isBlank b = true := fun h => hb (isBlank_iff.mp h)
    rw [locate, skipBlank, if_neg hsemi, if_neg hblank]
  rw [tokens.eq_def]
  split
  · rename_i hnil
    rw [hskip] at hnil
    exact absurd hnil (by simp)
  · rename_i c rest hcons
    rw [hskip] at hcons
    obtain ⟨rfl, rfl⟩ := List.cons.inj hcons
    rfl

end Edn
end Typewright
