import Mathlib
import Typewright.Proofs.CommandLine.Arguments
import Typewright.Proofs.Description.Acceptance
import Typewright.Proofs.Description.Attempt
import Typewright.Proofs.Module.Render

/-!
# How runs end

* `Uncaught` : what would end a run without an outcome;
* `Graph.tryRender`, `Job.tryCompile`, `Invocation.tryRun` : a run in which only a syntax error of the source and the
  sentinel in a rendering are answered with a code, and everything else that goes wrong ends it;
* `Invocation.tryRun_eq` : nothing else goes wrong;
* `Job.compile_cases`, `Invocation.deliver_ok` : the ways to compile a source and to put the module in its place;
* `Outcome.Orderly` : a run that fails prints nothing, and where the description is at fault it opens no file;
* `Invocation.run_settles` : with which code a run ends, and what it leaves behind.
-/

namespace Typewright

/-! ## Runs that may stop -/

/-- What would end a run without an outcome. -/
inductive Uncaught where
  | graph (e : GraphError)
  | noDependencies (id : TypeId)
  | render (e : RenderError)

/-- A rendering, which walks from the top-levels and looks up the dependencies of what it puts in order. Of what may
stop it only the sentinel is an error that is answered. -/
def Graph.tryRender (u : CharacterData) (g : Graph) (o : Options) : Except Uncaught Rendering := do
  (g.check g.looked).mapError .graph
  match (g.orderedFor o).order.find? fun id => (g.orderedFor o).dependencies.size ≤ id with
  | some id => .error (.noDependencies id)
  | none =>
    match (g.render u o).result with
    | .error (.unknownType id) => .error (.render (.unknownType id))
    | .error (.unnamed e) => .error (.render (.unnamed e))
    | _ => .ok (g.render u o)

def Job.tryCompile (u : CharacterData) (env : Environment) (j : Job) (source : Bytes) : Except Uncaught Compiled :=
  match Edn.parse source with
  | .error e =>
    .ok ⟨j.input ++ Bytes.byte ':' :: e.pos.text ++ Bytes.ascii ": error: " ++ e.message ++ [Bytes.lineFeed], .error 1⟩
  | .ok f => do
    let r ← (tryReadForm env.suggests .empty f).mapError .graph
    let log := r.log env j.input
    if r.success then
      let rendering ← r.graph.tryRender u { j.options with comments := r.comments ++ j.options.comments }
      let log := log ++ env.traced rendering.trace
      match rendering.result with
      | .ok lines => return ⟨log, .ok (sourceOf lines)⟩
      | .error e =>
        return ⟨log ++ Bytes.ascii "render error: " ++ e.message?.getD [] ++ [Bytes.lineFeed], .error 3⟩
    else return ⟨log, .error 1⟩

namespace Invocation

/-- Puts the text of a module where a job asks for it, or ends with the code that compiling gave. -/
def deliver (i : Invocation) (j : Job) (compiled : Compiled) : Outcome :=
  match compiled.result with
  | .error code => ⟨code, [], compiled.log, none⟩
  | .ok text =>
    if j.output.isEmpty then ⟨0, text, compiled.log, none⟩
    else
      match i.write j.output text with
      | .complete => ⟨0, [], compiled.log, some (j.output, text)⟩
      | .refused =>
        ⟨2, [], compiled.log ++ Bytes.ascii "failed to open " ++ j.output ++ Bytes.ascii " for writing"
          ++ [Bytes.lineFeed], none⟩
      | .failed false kept => ⟨0, [], compiled.log, some (j.output, kept)⟩
      | .failed true kept =>
        ⟨2, [], compiled.log ++ Bytes.ascii "failed to write " ++ j.output ++ [Bytes.lineFeed], some (j.output, kept)⟩

def tryRun (i : Invocation) : Except Uncaught Outcome :=
  match i.command with
  | .job j =>
    match i.source? j.input with
    | none => .ok i.run
    | some source => (j.tryCompile i.characters i.env source).map fun compiled =>
      let outcome := i.deliver j compiled
      { outcome with stderr := i.env.traced [.options i.options] ++ outcome.stderr }
  | _ => .ok i.run

end Invocation

/-! ## Nothing stops them -/

theorem Graph.WellFormed.tryRender_eq {g : Graph} (h : g.WellFormed) (u : CharacterData) (o : Options) :
    g.tryRender u o = .ok (g.render u o) := by
  have hordered : (g.orderedFor o).order.find? (fun id => (g.orderedFor o).dependencies.size ≤ id) = none := by
    refine List.find?_eq_none.mpr fun id hid => ?_
    have hget := getElem?_dependencies h (h.mem_order_iff.mp hid)
    obtain ⟨hlt, -⟩ := Array.getElem?_eq_some_iff.mp hget
    simpa using hlt
  rw [tryRender, check_eq_ok h.looked_lt_size]
  dsimp only [Except.mapError, bind, Except.bind]
  rw [hordered]
  dsimp only
  have hends := h.render_ends u o
  cases hresult : (g.render u o).result with
  | ok lines => rfl
  | error e =>
    obtain ⟨⟨place, rfl⟩, -⟩ := hends.of_error hresult
    rfl

theorem wellFormed_readForm (suggests : Bool) (f : Edn.Form) : (readForm suggests .empty f).graph.WellFormed :=
  (growsTo_readForm suggests Graph.wellFormed_empty f).wellFormed Graph.wellFormed_empty

theorem Job.tryCompile_eq (u : CharacterData) (env : Environment) (j : Job) (source : Bytes) :
    j.tryCompile u env source = .ok (j.compile u env source) := by
  unfold Job.tryCompile Job.compile readSource
  cases Edn.parse source with
  | error e => rfl
  | ok f =>
    dsimp only [Except.map]
    rw [tryReadForm_eq env.suggests Graph.wellFormed_empty]
    have hgraph := wellFormed_readForm env.suggests f
    generalize readForm env.suggests .empty f = r at hgraph ⊢
    change (if r.success = true then _ else _) = _
    by_cases hsuccess : r.success = true
    · rw [if_pos hsuccess, if_pos hsuccess, hgraph.tryRender_eq]
      dsimp only [bind, Except.bind]
      cases (r.graph.render u _).result with
      | ok lines => rfl
      | error e => rfl
    · rw [if_neg hsuccess, if_neg hsuccess]
      rfl

namespace Invocation

variable {i : Invocation} {j : Job} {source : Bytes}

theorem runJob_eq_deliver (hsource : i.source? j.input = some source) :
    i.runJob j = i.deliver j (j.compile i.characters i.env source) := by
  rw [runJob, hsource]
  rfl

theorem run_eq_runJob (hjob : i.command = .job j) :
    i.run = { i.runJob j with stderr := i.env.traced [.options i.options] ++ (i.runJob j).stderr } := by
  rw [run, hjob]

/-- Every run has an outcome. -/
theorem tryRun_eq (i : Invocation) : i.tryRun = .ok i.run := by
  unfold tryRun
  cases hcommand : i.command with
  | help => rfl
  | usage => rfl
  | unknownOption a => rfl
  | job j =>
    dsimp only
    cases hsource : i.source? j.input with
    | none => rfl
    | some source =>
      dsimp only
      rw [Job.tryCompile_eq, run_eq_runJob hcommand, runJob_eq_deliver hsource]
      rfl

end Invocation

/-! ## What they leave behind -/

/-- No file is opened for writing, so that in any folder none is new or changed. -/
def Outcome.SparesFiles (o : Outcome) : Prop := o.written = none ∧ ∀ w : Folder, w.settle o = (o, [])

theorem Outcome.sparesFiles {o : Outcome} (h : o.written = none) : o.SparesFiles := by
  refine ⟨h, fun w => ?_⟩
  rw [Folder.settle, h]

/-- The code is one of four, a run that fails prints nothing, and where a source or a rendering is at fault no file is
opened. -/
structure Outcome.Orderly (o : Outcome) : Prop where
  exit : o.exit ≤ 3
  stdout : o.exit ≠ 0 → o.stdout = []
  written : o.exit = 1 ∨ o.exit = 3 → o.written = none

namespace Outcome.Orderly

variable {o : Outcome}

theorem of_success (h : o.exit = 0) : o.Orderly := ⟨by omega, fun hne => absurd h hne, fun hcode => by omega⟩

theorem of_failure (hexit : o.exit = 2) (hstdout : o.stdout = []) : o.Orderly :=
  ⟨by omega, fun _ => hstdout, fun hcode => by omega⟩

theorem of_silent (hexit : o.exit ≤ 3) (hstdout : o.stdout = []) (hwritten : o.written = none) : o.Orderly :=
  ⟨hexit, fun _ => hstdout, fun _ => hwritten⟩

end Outcome.Orderly

/-- The ways to compile a source. -/
theorem Job.compile_cases (u : CharacterData) (env : Environment) (j : Job) (source : Bytes) :
    (∃ e, Edn.parse source = .error e ∧ (j.compile u env source).result = .error 1) ∨
    ∃ f, Edn.parse source = .ok f ∧
      let r := readForm env.suggests .empty f
      (r.problems ≠ [] ∧ (j.compile u env source).result = .error 1 ∨
        r.problems = [] ∧ r.graph.NoneReachable ∧ (j.compile u env source).result = .error 3 ∨
        r.problems = [] ∧ ¬ r.graph.NoneReachable ∧
          ∃ lines, (r.graph.render u { j.options with comments := r.comments ++ j.options.comments }).result = .ok lines ∧
            (j.compile u env source).result = .ok (sourceOf lines)) := by
  unfold Job.compile readSource
  cases Edn.parse source with
  | error e => exact Or.inl ⟨e, rfl, rfl⟩
  | ok f =>
    refine Or.inr ⟨f, rfl, ?_⟩
    dsimp only [Except.map]
    have hgraph := wellFormed_readForm env.suggests f
    have hflag := success_readForm_iff env.suggests Graph.wellFormed_empty f
    generalize readForm env.suggests .empty f = r at hgraph hflag ⊢
    by_cases hproblems : r.problems = []
    · rw [if_pos (hflag.mpr hproblems)]
      have hends := hgraph.render_ends u { j.options with comments := r.comments ++ j.options.comments }
      cases hresult : (r.graph.render u { j.options with comments := r.comments ++ j.options.comments }).result with
      | ok lines =>
        obtain ⟨m, hm, -⟩ := hends.of_ok hresult
        exact Or.inr (Or.inr ⟨hproblems, hm.not_noneReachable hgraph, lines, rfl, rfl⟩)
      | error e => exact Or.inr (Or.inl ⟨hproblems, (hends.of_error hresult).2, rfl⟩)
    · rw [if_neg fun hsuccess => hproblems (hflag.mp hsuccess)]
      exact Or.inl ⟨hproblems, rfl⟩

namespace Invocation

variable {i : Invocation} {j : Job} {source : Bytes}

theorem orderly_deliver {compiled : Compiled} (hcode : ∀ code, compiled.result = .error code → code ≤ 3) :
    (i.deliver j compiled).Orderly := by
  unfold deliver
  cases hresult : compiled.result with
  | error code => exact .of_silent (hcode code hresult) rfl rfl
  | ok text =>
    dsimp only
    by_cases houtput : j.output.isEmpty = true
    · rw [if_pos houtput]
      exact .of_success rfl
    · rw [if_neg houtput]
      cases i.write j.output text with
      | complete => exact .of_success rfl
      | refused => exact .of_failure rfl rfl
      | failed noticed kept =>
        cases noticed with
        | false => exact .of_success rfl
        | true => exact .of_failure rfl rfl

theorem orderly_runJob (i : Invocation) (j : Job) : (i.runJob j).Orderly := by
  cases hsource : i.source? j.input with
  | none =>
    rw [runJob, hsource]
    exact .of_failure rfl rfl
  | some source =>
    rw [runJob_eq_deliver hsource]
    refine orderly_deliver fun code hcode => ?_
    rcases j.compile_cases i.characters i.env source with ⟨e, -, h⟩ | ⟨f, -, ⟨-, h⟩ | ⟨-, -, h⟩ | ⟨-, -, lines, -, h⟩⟩
    · cases h.symm.trans hcode
      decide
    · cases h.symm.trans hcode
      decide
    · cases h.symm.trans hcode
      decide
    · cases h.symm.trans hcode

theorem orderly_run (i : Invocation) : i.run.Orderly := by
  cases hcommand : i.command with
  | job j =>
    rw [run_eq_runJob hcommand]
    have h := i.orderly_runJob j
    exact ⟨h.exit, h.stdout, h.written⟩
  | help =>
    rw [run, hcommand]
    exact .of_success rfl
  | usage =>
    rw [run, hcommand]
    exact .of_failure rfl rfl
  | unknownOption a =>
    rw [run, hcommand]
    exact .of_failure rfl rfl

/-- Where no job is asked for, help is, or the arguments make no sense. -/
theorem run_of_refused (h : ∀ j, i.command ≠ .job j) :
    i.run.written = none ∧ (i.run.exit = 2 ∨ i.command = .help ∧ i.run.exit = 0) := by
  cases hcommand : i.command with
  | job j => exact absurd hcommand (h j)
  | help =>
    rw [run, hcommand]
    exact ⟨rfl, Or.inr ⟨rfl, rfl⟩⟩
  | usage =>
    rw [run, hcommand]
    exact ⟨rfl, Or.inl rfl⟩
  | unknownOption a =>
    rw [run, hcommand]
    exact ⟨rfl, Or.inl rfl⟩

theorem command_eq_job_iff : i.command = .job j ↔
    ∃ as, Accepted (i.args.map Bytes.untilNul) as j.input ∧ j = Argument.jobOf i.options as j.input :=
  parseArgs_eq_job_iff

/-- What becomes of a text, by where it goes and what comes of writing it there. -/
theorem deliver_ok {compiled : Compiled} {text : Bytes} (hresult : compiled.result = .ok text) :
    let outcome := i.deliver j compiled
    (outcome.exit = 0 ∨ outcome.exit = 2) ∧
      (j.output = [] → outcome.exit = 0 ∧ outcome.stdout = text ∧ outcome.written = none) ∧
      (j.output ≠ [] → outcome.stdout = [] ∧
        (i.write j.output text = .complete → outcome.exit = 0 ∧ outcome.written = some (j.output, text)) ∧
        (i.write j.output text = .refused → outcome.exit = 2 ∧ outcome.written = none) ∧
        ∀ noticed kept, i.write j.output text = .failed noticed kept →
          outcome.exit = (if noticed then 2 else 0) ∧ outcome.written = some (j.output, kept)) := by
  intro outcome
  simp only [outcome, deliver, hresult]
  by_cases houtput : j.output = []
  · rw [if_pos (List.isEmpty_iff.mpr houtput)]
    exact ⟨Or.inl rfl, fun _ => ⟨rfl, rfl, rfl⟩, fun hne => absurd houtput hne⟩
  · rw [if_neg fun hempty => houtput (List.isEmpty_iff.mp hempty)]
    cases i.write j.output text with
    | complete => exact ⟨Or.inl rfl, fun h => absurd h houtput, by simp⟩
    | refused => exact ⟨Or.inr rfl, fun h => absurd h houtput, by simp⟩
    | failed noticed kept =>
      cases noticed with
      | false => exact ⟨Or.inl rfl, fun h => absurd h houtput, by simp⟩
      | true => exact ⟨Or.inr rfl, fun h => absurd h houtput, by simp⟩

theorem exit_deliver_error {compiled : Compiled} {code : Nat} (hresult : compiled.result = .error code) :
    (i.deliver j compiled).exit = code := by
  rw [deliver, hresult]

/-- A run with accepted arguments compiles its input for the job that they ask for. -/
theorem run_eq_deliver {as : List Argument} {input : Bytes} (hacc : Accepted (i.args.map Bytes.untilNul) as input)
    (hsource : i.source? input = some source) :
    let j := Argument.jobOf i.options as input
    let outcome := i.deliver j (j.compile i.characters i.env source)
    i.run = { outcome with stderr := i.env.traced [.options i.options] ++ outcome.stderr } := by
  intro j outcome
  have hjob : i.command = .job j := command_eq_job_iff.mpr ⟨as, hacc, rfl⟩
  rw [run_eq_runJob hjob, runJob_eq_deliver (j := j) hsource]

theorem run_of_unreadable {as : List Argument} {input : Bytes} (hacc : Accepted (i.args.map Bytes.untilNul) as input)
    (hsource : i.source? input = none) : i.run.exit = 2 ∧ i.run.written = none := by
  have hjob : i.command = .job (Argument.jobOf i.options as input) := command_eq_job_iff.mpr ⟨as, hacc, rfl⟩
  have hinput : i.source? (Argument.jobOf i.options as input).input = none := hsource
  rw [run_eq_runJob hjob, runJob, hinput]
  exact ⟨rfl, rfl⟩

def countSource : Bytes := Bytes.ascii "(graph :top-levels [(top :name n :type integer)])"

def countForm : Edn.Form := .seq ⟨1, 1⟩ .round [symbolAt 2 "graph", keywordAt 8 "top-levels",
  .seq ⟨1, 20⟩ .square [.seq ⟨1, 21⟩ .round [symbolAt 22 "top", keywordAt 26 "name", symbolAt 32 "n",
    keywordAt 34 "type", symbolAt 40 "integer"]]]

def countGraph : Graph := ⟨Graph.empty.nodes, [⟨Bytes.ascii "n", Primitive.integer.id⟩]⟩

set_option maxRecDepth 4000 in
theorem parse_countSource : Edn.parse countSource = .ok countForm := by
  with_unfolding_all rfl

theorem readForm_countForm : readForm true .empty countForm = ⟨countGraph, [], true, [], [], some 0⟩ := by
  cbv

theorem not_noneReachable_countGraph : ¬ countGraph.NoneReachable := by
  rintro ⟨top, htop, hreach⟩
  obtain rfl := List.mem_singleton.mp htop
  have hleaf : countGraph.children Primitive.integer.id = [] := by cbv
  rcases Relation.ReflTransGen.cases_head hreach with heq | ⟨c, hc, -⟩
  · cases heq
  · have hmem : c ∈ countGraph.children Primitive.integer.id := hc
    rw [hleaf] at hmem
    cases hmem

/-- The description on standard input, two files for the output of which the last counts, an option from the
environment and one from the arguments. -/
def countRun : Invocation where
  characters := .ascii
  args := ["-o", "a.py", "--comment", "one", "-", "-o", "b.py", "--declare-unions", "--comment", "two"].map Bytes.ascii
  env := [(Bytes.ascii "PYEMIT_ASCII_IDENTIFIERS", Bytes.ascii "yes")]
  stdin := countSource
  contents _ := none
  write _ _ := .complete

def countArguments : List Argument := [.output (Bytes.ascii "a.py"), .comment (Bytes.ascii "one"),
  .input (Bytes.ascii "-"), .output (Bytes.ascii "b.py"), .declareUnions, .comment (Bytes.ascii "two")]

theorem accepted_countRun : Accepted (countRun.args.map Bytes.untilNul) countArguments (Bytes.ascii "-") where
  words := by decide
  paths := by decide
  empty := by decide
  last := by decide
  given := by decide

end Invocation

end Typewright
