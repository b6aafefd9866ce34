import Mathlib
import Typewright.CommandLine

/-!
# What the arguments ask for

* `Argument` : one thing that the arguments say, and the words for it;
* `Argument.inputs`, `Argument.outputs`, `Argument.comments` : what several of them name;
* `Accepted args as input` : the words `args` say `as`, and name one input;
* `parseArgs_eq_job_iff` : reading the arguments gives a job just if they are accepted, and the job is what they say.
-/

namespace Typewright

/-- One thing that the arguments say. -/
inductive Argument where
  | comment (text : Bytes)
  | output (file : Bytes)
  | declareUnions
  | asciiIdentifiers
  | input (path : Bytes)
  deriving DecidableEq

namespace Argument

def words : Argument → List Bytes
  | .comment text => [Bytes.ascii "--comment", text]
  | .output file => [Bytes.ascii "-o", file]
  | .declareUnions => [Bytes.ascii "--declare-unions"]
  | .asciiIdentifiers => [Bytes.ascii "--ascii-identifiers"]
  | .input path => [path]

def comments (as : List Argument) : List Bytes := as.filterMap fun
  | .comment text => some text
  | _ => none

def outputs (as : List Argument) : List Bytes := as.filterMap fun
  | .output file => some file
  | _ => none

def inputs (as : List Argument) : List Bytes := as.filterMap fun
  | .input path => some path
  | _ => none

/-- A word that is taken for an input: it has no dash in front, or is nothing but a dash. -/
def IsPath (word : Bytes) : Prop := word.length ≤ 1 ∨ word.head? ≠ some (Bytes.byte '-')

instance (word : Bytes) : Decidable (IsPath word) := inferInstanceAs (Decidable (_ ∨ _))

end Argument

open Argument

def Job.take (j : Job) : Argument → Job
  | .comment text => { j with options := { j.options with comments := j.options.comments ++ [text] } }
  | .output file => { j with output := file }
  | .declareUnions => { j with options := { j.options with declareUnions := true } }
  | .asciiIdentifiers => { j with options := { j.options with asciiIdentifiers := true } }
  | .input path => { j with input := path }

/-- Some words say `as`, and `input` is the input. Empty inputs may come before it, and none after it. -/
structure Accepted (args : List Bytes) (as : List Argument) (input : Bytes) : Prop where
  words : args = as.flatMap Argument.words
  paths : ∀ path ∈ inputs as, IsPath path
  empty : ∀ path ∈ (inputs as).dropLast, path = []
  last : (inputs as).getLast? = some input
  given : input ≠ []

/-- The same where an input was named before. -/
structure AcceptedAfter (before : Bytes) (args : List Bytes) (as : List Argument) (input : Bytes) : Prop where
  words : args = as.flatMap Argument.words
  paths : ∀ path ∈ inputs as, IsPath path
  empty : ∀ path ∈ (before :: inputs as).dropLast, path = []
  last : (before :: inputs as).getLast? = some input
  given : input ≠ []

theorem acceptedAfter_nil_iff {args : List Bytes} {as : List Argument} {input : Bytes} :
    AcceptedAfter [] args as input ↔ Accepted args as input := by
  cases hinputs : inputs as with
  | nil =>
    constructor
    · intro h
      have hlast := h.last
      rw [hinputs] at hlast
      exact absurd (Option.some.inj hlast).symm h.given
    · intro h
      have hlast := h.last
      rw [hinputs] at hlast
      cases hlast
  | cons path paths =>
    have hlast : ([] :: inputs as).getLast? = (inputs as).getLast? := by rw [hinputs, List.getLast?_cons_cons]
    have hempty : (∀ p ∈ ([] :: inputs as).dropLast, p = []) ↔ ∀ p ∈ (inputs as).dropLast, p = [] := by
      rw [hinputs, List.dropLast_cons_cons, List.forall_mem_cons]
      simp
    exact ⟨fun h => ⟨h.words, h.paths, hempty.mp h.empty, hlast ▸ h.last, h.given⟩,
      fun h => ⟨h.words, h.paths, hempty.mpr h.empty, hlast ▸ h.last, h.given⟩⟩

/-! ## One argument -/

theorem Options.setByArgument?_eq_some_iff {o o' : Options} {a : Bytes} :
    o.setByArgument? a = some o' ↔
      a = Bytes.ascii "--declare-unions" ∧ o' = { o with declareUnions := true } ∨
        a = Bytes.ascii "--ascii-identifiers" ∧ o' = { o with asciiIdentifiers := true } := by
  constructor
  · intro h
    obtain ⟨hdashes, h⟩ := Option.ite_none_right_eq_some.mp h
    obtain ⟨name, rfl⟩ := List.isPrefixOf_iff_prefix.mp hdashes
    rw [show (Bytes.ascii "--" ++ name).drop 2 = name from rfl, Options.set?] at h
    split at h
    · next hname =>
      subst hname
      exact .inl ⟨rfl, (Option.some.inj h).symm⟩
    · obtain ⟨rfl, h⟩ := Option.ite_none_right_eq_some.mp h
      exact .inr ⟨rfl, (Option.some.inj h).symm⟩
  · rintro (⟨rfl, rfl⟩ | ⟨rfl, rfl⟩) <;> rfl

theorem isPath_iff (a : Bytes) : IsPath a ↔ ¬ (1 < a.length ∧ a.startsWith (Bytes.ascii "-") = true) := by
  have hdash : a.startsWith (Bytes.ascii "-") = true ↔ a.head? = some (Bytes.byte '-') := by
    cases a with
    | nil => decide
    | cons b a =>
      rw [Bytes.startsWith, show Bytes.ascii "-" = [Bytes.byte '-'] from rfl, List.isPrefixOf_cons_cons,
        List.isPrefixOf_nil_left, Bool.and_true, beq_iff_eq, List.head?_cons, Option.some.injEq, eq_comm]
  rw [IsPath, hdash, not_and_or, Nat.not_lt]

theorem Argument.IsPath.ne {a b : Bytes} (ha : IsPath a) (hb : ¬ IsPath b) : a ≠ b := by
  rintro rfl
  exact hb ha

theorem parseArgs_input {j : Job} {a : Bytes} (ha : IsPath a) (hj : j.input = []) (rest : List Bytes) :
    parseArgs j (a :: rest) = parseArgs { j with input := a } rest := by
  have hnone : j.options.setByArgument? a = none := by
    refine Option.eq_none_iff_forall_ne_some.mpr fun o ho => ?_
    rcases Options.setByArgument?_eq_some_iff.mp ho with ⟨heq, -⟩ | ⟨heq, -⟩
    · exact ha.ne (by decide) heq
    · exact ha.ne (by decide) heq
  rw [parseArgs.eq_def]
  dsimp only
  rw [if_neg (ha.ne (by decide)), if_neg (ha.ne (by decide)),
    if_neg (not_or.mpr ⟨ha.ne (by decide), ha.ne (by decide)⟩), hnone]
  dsimp only
  rw [if_neg ((isPath_iff a).mp ha), hj]
  rfl

/-- A word that sets an option. -/
theorem parseArgs_option {j : Job} {a : Bytes} {o : Options} (ha : j.options.setByArgument? a = some o)
    (rest : List Bytes) : parseArgs j (a :: rest) = parseArgs { j with options := o } rest := by
  have hother : a ≠ Bytes.ascii "--comment" ∧ a ≠ Bytes.ascii "-o" ∧
      ¬ (a = Bytes.ascii "-h" ∨ a = Bytes.ascii "--help") := by
    rcases Options.setByArgument?_eq_some_iff.mp ha with ⟨rfl, -⟩ | ⟨rfl, -⟩ <;> decide
  rw [parseArgs.eq_def]
  dsimp only
  rw [if_neg hother.1, if_neg hother.2.1, if_neg hother.2.2, ha]

theorem Job.parseArgs_take (j : Job) {a : Argument} (ha : ∀ path, a ≠ .input path) (rest : List Bytes) :
    parseArgs j (a.words ++ rest) = parseArgs (j.take a) rest := by
  cases a with
  | comment text => rfl
  | output file => rfl
  | declareUnions => exact parseArgs_option rfl rest
  | asciiIdentifiers => exact parseArgs_option rfl rest
  | input path => exact absurd rfl (ha path)

/-! ## All arguments -/

theorem AcceptedAfter.parseArgs_eq {j : Job} {args : List Bytes} {as : List Argument} {input : Bytes}
    (h : AcceptedAfter j.input args as input) : parseArgs j args = .job (as.foldl Job.take j) := by
  obtain ⟨rfl, hpaths, hempty, hlast, hgiven⟩ := h
  induction as generalizing j with
  | nil =>
    obtain rfl : j.input = input := Option.some.inj hlast
    have hne : j.input.isEmpty = false := by simpa using hgiven
    rw [List.flatMap_nil, parseArgs, hne]
    rfl
  | cons a as ih =>
    rw [List.flatMap_cons, List.foldl_cons]
    cases a with
    | input path =>
      have hj : j.input = [] := hempty j.input List.mem_cons_self
      obtain ⟨hpath, hpaths⟩ := List.forall_mem_cons.mp hpaths
      rw [Argument.words, List.singleton_append, parseArgs_input hpath hj]
      exact ih (j := j.take (.input path)) hpaths (fun p hp => hempty p (List.mem_cons_of_mem _ hp)) hlast
    | _ =>
      rw [j.parseArgs_take (by simp)]
      exact ih hpaths hempty hlast

theorem inputs_cons {a : Argument} (ha : ∀ path, a ≠ .input path) (as : List Argument) :
    inputs (a :: as) = inputs as := by
  cases a with
  | input path => exact absurd rfl (ha path)
  | _ => rfl

theorem AcceptedAfter.cons {before : Bytes} {args : List Bytes} {as : List Argument} {input : Bytes}
    (h : AcceptedAfter before args as input) (a : Argument) (ha : ∀ path, a ≠ .input path) :
    AcceptedAfter before (a.words ++ args) (a :: as) input where
  words := by rw [h.words, List.flatMap_cons]
  paths := inputs_cons ha as ▸ h.paths
  empty := inputs_cons ha as ▸ h.empty
  last := inputs_cons ha as ▸ h.last
  given := h.given

theorem AcceptedAfter.cons_input {path : Bytes} {args : List Bytes} {as : List Argument} {input : Bytes}
    (h : AcceptedAfter path args as input) (hpath : IsPath path) :
    AcceptedAfter [] (path :: args) (.input path :: as) input where
  words := by rw [h.words]; rfl
  paths := List.forall_mem_cons.mpr ⟨hpath, h.paths⟩
  empty := List.forall_mem_cons.mpr ⟨rfl, h.empty⟩
  last := h.last
  given := h.given

theorem exists_acceptedAfter {j j' : Job} {args : List Bytes} (h : parseArgs j args = .job j') :
    ∃ as, AcceptedAfter j.input args as j'.input ∧ j' = as.foldl Job.take j := by
  fun_induction parseArgs j args with
  | case1 => cases h
  | case2 j hgiven =>
    cases h
    exact ⟨[], ⟨rfl, by simp [inputs], by simp [inputs], rfl, by simpa using hgiven⟩, rfl⟩
  | case3 => cases h
  | case4 j text rest ih =>
    obtain ⟨as, hacc, hj⟩ := ih h
    exact ⟨.comment text :: as, hacc.cons (.comment text) (by simp), hj⟩
  | case5 => cases h
  | case6 j file rest hne ih =>
    obtain ⟨as, hacc, hj⟩ := ih h
    exact ⟨.output file :: as, hacc.cons (.output file) (by simp), hj⟩
  | case7 => cases h
  | case8 j a rest hcomment houtput hhelp o ho ih =>
    obtain ⟨as, hacc, hj⟩ := ih h
    rcases Options.setByArgument?_eq_some_iff.mp ho with ⟨rfl, rfl⟩ | ⟨rfl, rfl⟩
    · exact ⟨.declareUnions :: as, hacc.cons .declareUnions (by simp), hj⟩
    · exact ⟨.asciiIdentifiers :: as, hacc.cons .asciiIdentifiers (by simp), hj⟩
  | case9 => cases h
  | case10 j a rest hcomment houtput hhelp hnone hpath hempty ih =>
    obtain ⟨as, hacc, hj⟩ := ih h
    rw [List.isEmpty_iff.mp hempty]
    exact ⟨.input a :: as, hacc.cons_input ((isPath_iff a).mpr hpath), hj⟩
  | case11 => cases h

/-! ## What the arguments say together -/

/-- The last file counts, flags only switch on, and comments add up. -/
theorem foldl_take (j : Job) (as : List Argument) :
    as.foldl Job.take j =
      { options := {
          declareUnions := j.options.declareUnions || decide (Argument.declareUnions ∈ as)
          asciiIdentifiers := j.options.asciiIdentifiers || decide (Argument.asciiIdentifiers ∈ as)
          comments := j.options.comments ++ comments as }
        input := (inputs as).getLast?.getD j.input
        output := (outputs as).getLast?.getD j.output } := by
  induction as generalizing j with
  | nil => simp [comments, inputs, outputs]
  | cons a as ih =>
    rw [List.foldl_cons, ih]
    cases a with
    | comment text => simp [Job.take, comments, inputs, outputs]
    | output file => simp [Job.take, comments, inputs, outputs, List.getLast?_cons]
    | declareUnions => simp [Job.take, comments, inputs, outputs]
    | asciiIdentifiers => simp [Job.take, comments, inputs, outputs]
    | input path => simp [Job.take, comments, inputs, outputs, List.getLast?_cons]

def Argument.jobOf (o : Options) (as : List Argument) (input : Bytes) : Job where
  options := {
    declareUnions := o.declareUnions || decide (Argument.declareUnions ∈ as)
    asciiIdentifiers := o.asciiIdentifiers || decide (Argument.asciiIdentifiers ∈ as)
    comments := o.comments ++ comments as }
  input := input
  output := (outputs as).getLast?.getD []

/-- **Reading the arguments gives a job just if they are accepted**, and it is the one that they ask for. -/
theorem parseArgs_eq_job_iff {o : Options} {args : List Bytes} {j : Job} :
    parseArgs ⟨o, [], []⟩ args = .job j ↔ ∃ as, Accepted args as j.input ∧ j = jobOf o as j.input := by
  have hjob : ∀ as, (inputs as).getLast? = some j.input → as.foldl Job.take ⟨o, [], []⟩ = jobOf o as j.input := by
    intro as hlast
    rw [foldl_take, hlast]
    rfl
  constructor
  · intro h
    obtain ⟨as, hacc, hj⟩ := exists_acceptedAfter h
    have hacc' := acceptedAfter_nil_iff.mp hacc
    exact ⟨as, hacc', hj.trans (hjob as hacc'.last)⟩
  · rintro ⟨as, hacc, hj⟩
    rw [AcceptedAfter.parseArgs_eq (j := ⟨o, [], []⟩) (acceptedAfter_nil_iff.mpr hacc), hjob as hacc.last, ← hj]

end Typewright
