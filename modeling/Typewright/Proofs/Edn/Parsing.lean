import Mathlib
import Typewright.Proofs.Edn.Located

/-!
# The parser accepts the grammar

`build` keeps the open collections on a stack. What it does with a form of the grammar does not depend on that stack:
`deliver` is how it goes on behind the form.

* `Derives.reads`, `DerivesAll.reads` : a form and several forms of the grammar are read as such;
* `Source.parse_eq`, `source_of_parse_eq` : a source of the grammar is parsed, and what is parsed is one;
* `parse_accepts_grammar` : so the parser accepts exactly the grammar.
-/

namespace Typewright.Edn

/-! ## Forms of the grammar are read -/

/-- A source is read as several forms that spell `ns`, whatever is open; it goes on with `rest`. -/
def ReadsAll (ns : List Tree) (s rest : Bytes) : Prop :=
  ∃ text, s = text ++ rest ∧ ∀ finish p, ∃ forms, Form.trees? forms = some ns ∧ ∀ f stack,
    build finish (f :: stack) (tokens finish (locate p s)) =
      build finish (f.add forms :: stack) (tokens finish (locate (p.after text) rest))

/-- A source is read as a form that spells `n`, whatever is open; it goes on with `rest`. -/
def Reads (n : Tree) (s rest : Bytes) : Prop :=
  ∃ text, text ≠ [] ∧ s = text ++ rest ∧ ∀ finish p, ∃ form, Form.tree? form = some n ∧ ∀ stack,
    build finish stack (tokens finish (locate p s)) =
      deliver finish form stack (tokens finish (locate (p.after text) rest))

theorem Lexeme.reads {a : Atom} {s rest : Bytes} (h : Lexeme a s rest) : Reads (.atom a) s rest := by
  obtain ⟨b, text, hb, rfl, hscan⟩ := h.scanToken_eq
  obtain ⟨hblank, hsemi, _⟩ := startsAtom_apart hb
  refine ⟨b :: text, by simp, rfl, fun finish p => ⟨.atom p a, rfl, fun stack => ?_⟩⟩
  rw [tokens_cons hblank hsemi, hscan, build_atom]

/-- A collection is read once its items are. -/
theorem ReadsAll.reads {ns : List Tree} {n : Tree} {s rest : Bytes} {k : Bracket}
    (h : ReadsAll ns s (k.closer :: rest)) (hk : k = .curly → ns.length % 2 = 0)
    (hn : ∀ p forms, Form.trees? forms = some ns → Form.tree? (.seq p k forms) = some n) :
    Reads n (k.opener :: s) rest := by
  obtain ⟨text, rfl, hread⟩ := h
  refine ⟨k.opener :: (text ++ [k.closer]), by simp, by simp, fun finish p => ?_⟩
  obtain ⟨forms, hforms, hbuild⟩ := hread finish (p.next k.opener)
  refine ⟨.seq p k forms, hn p forms hforms, fun stack => ?_⟩
  have hclose : (OpenSeq.add ⟨p, k, []⟩ forms).close = .ok (.seq p k forms) := by
    have heven : ¬ (k = .curly ∧ forms.length % 2 = 1) := by
      rintro ⟨hcurly, hodd⟩
      rw [Form.length_of_trees? hforms, hk hcurly] at hodd
      exact absurd hodd (by decide)
    simpa [OpenSeq.close, OpenSeq.add] using heven
  rw [tokens_opener, build_opening, hbuild, tokens_closer]
  refine (build_closing hclose).trans ?_
  simp [Position.after]

theorem ReadsAll.nil {t : Bytes} (ht : Trivia t) (rest : Bytes) : ReadsAll [] (t ++ rest) rest := by
  refine ⟨t, rfl, fun finish p => ⟨[], rfl, fun f stack => ?_⟩⟩
  rw [tokens_trivia ht]
  rfl

theorem ReadsAll.cons {n : Tree} {ns : List Tree} {t s s' rest : Bytes} (ht : Trivia t) (hn : Reads n s s')
    (hns : ReadsAll ns s' rest) : ReadsAll (n :: ns) (t ++ s) rest := by
  obtain ⟨text, _, rfl, hread⟩ := hn
  obtain ⟨texts, rfl, hreads⟩ := hns
  refine ⟨t ++ (text ++ texts), by simp, fun finish p => ?_⟩
  obtain ⟨form, hform, hbuild⟩ := hread finish (p.after t)
  obtain ⟨forms, hforms, hbuilds⟩ := hreads finish ((p.after t).after text)
  refine ⟨form :: forms, by rw [Form.trees?, hform, hforms]; rfl, fun f stack => ?_⟩
  rw [tokens_trivia ht, hbuild, deliver, hbuilds, ← Position.after_append, ← Position.after_append]
  simp [OpenSeq.add]

mutual

/-- A form of the grammar is read. -/
theorem Derives.reads {n : Tree} {s rest : Bytes} : Derives n s rest → Reads n s rest
  | .atom h => h.reads
  | .list h => h.reads.reads (by simp) fun p forms hforms => by rw [Form.tree?, hforms]; rfl
  | .vector h => h.reads.reads (by simp) fun p forms hforms => by rw [Form.tree?, hforms]; rfl
  | .map h => h.reads.reads (fun _ => by rw [length_unpaired]; omega) fun p forms hforms => by
    rw [Form.tree?, hforms, Option.bind_some, pairs?_unpaired]; rfl

/-- Several forms of the grammar are read. -/
theorem DerivesAll.reads {ns : List Tree} {s rest : Bytes} : DerivesAll ns s rest → ReadsAll ns s rest
  | .nil ht => .nil ht rest
  | .cons ht hn hns => .cons ht hn.reads hns.reads

end

/-! ## Whole sources -/

/-- A source of the grammar is parsed. -/
theorem Source.parse_eq {n : Tree} {src : Bytes} (h : Source n src) : ∃ f, parse src = .ok f ∧ f.tree? = some n := by
  obtain ⟨t, s, rest, rfl, ht, hn, hrest⟩ := h
  obtain ⟨text, _, rfl, hread⟩ := hn.reads
  obtain ⟨form, hform, hbuild⟩ := hread (Position.start.after (t ++ (text ++ rest))) (Position.start.after t)
  refine ⟨form, ?_, hform⟩
  rw [parse_eq_ok_iff, tokens_trivia ht, hbuild, deliver, tokens_trailing hrest]

/-- What is parsed is a source of the grammar. -/
theorem source_of_parse_eq {src : Bytes} {f : Form} (h : parse src = .ok f) :
    ∃ n, f.tree? = some n ∧ Source n src := by
  obtain ⟨t, s, rest, hs, ht, hf, hrest⟩ := stands_of_parse_eq h
  obtain ⟨n, hn, hderives⟩ := hf.derives
  exact ⟨n, hn, t, s, rest, hs, ht, hderives, hrest⟩

/-- **The parser accepts exactly the grammar**: it returns a tree where the source spells that tree, and an error where
the source spells none. -/
theorem parse_accepts_grammar (src : Bytes) :
    (∀ n, (∃ f, parse src = .ok f ∧ f.tree? = some n) ↔ Source n src) ∧
      ((∃ e, parse src = .error e) ↔ ¬ ∃ n, Source n src) := by
  refine ⟨fun n => ⟨?_, Source.parse_eq⟩, ?_, ?_⟩
  · rintro ⟨f, hparse, hf⟩
    obtain ⟨n', hf', hsource⟩ := source_of_parse_eq hparse
    rw [hf] at hf'
    rw [Option.some.inj hf']
    exact hsource
  · rintro ⟨e, he⟩ ⟨n, hsource⟩
    obtain ⟨f, hf, _⟩ := hsource.parse_eq
    rw [he] at hf
    exact absurd hf (by simp)
  · intro hnone
    cases hparse : parse src with
    | error e => exact ⟨e, rfl⟩
    | ok f =>
      obtain ⟨n, _, hsource⟩ := source_of_parse_eq hparse
      exact absurd ⟨n, hsource⟩ hnone

end Typewright.Edn
