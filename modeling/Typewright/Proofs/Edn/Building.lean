import Mathlib
import Typewright.Proofs.Edn.Lexing

/-!
# Collections and the steps of the parser

* `pairs?`, `unpaired` : the entries of a map and its items;
* `Tree.ofItems?` : a collection by its bracket and its items, and `derives_ofItems_iff`, how it is derived;
* `deliver` : how the parser goes on behind a form; `build_atom`, `build_opening`, `build_closing` and their failures are
  its steps.
-/

namespace Typewright.Edn

/-! ## Pairs -/

theorem pairs?_unpaired {α : Type} (entries : List (α × α)) : pairs? (unpaired entries) = some entries := by
  induction entries with
  | nil => rfl
  | cons e entries ih =>
    show (pairs? (unpaired entries)).map ((e.1, e.2) :: ·) = some (e :: entries)
    rw [ih]
    rfl

theorem length_unpaired {α : Type} (entries : List (α × α)) : (unpaired entries).length = 2 * entries.length := by
  induction entries with
  | nil => rfl
  | cons e entries ih =>
    show (unpaired entries).length + 1 + 1 = 2 * (entries.length + 1)
    omega

theorem exists_unpaired {α : Type} (l : List α) (h : l.length % 2 = 0) : ∃ entries, l = unpaired entries := by
  fun_induction pairs? l with
  | case1 => exact ⟨[], rfl⟩
  | case2 => exact absurd h (by simp)
  | case3 a b rest ih =>
    obtain ⟨entries, rfl⟩ := ih (by rw [List.length_cons, List.length_cons] at h; omega)
    exact ⟨(a, b) :: entries, rfl⟩

theorem eq_unpaired_of_pairs? {α : Type} {l : List α} {entries : List (α × α)} (h : pairs? l = some entries) :
    l = unpaired entries := by
  fun_induction pairs? l generalizing entries with
  | case1 =>
    obtain rfl := Option.some.inj h
    rfl
  | case2 => exact absurd h (by simp)
  | case3 a b rest ih =>
    obtain ⟨entries', hrest, rfl⟩ := Option.map_eq_some_iff.mp h
    rw [ih hrest]
    rfl

theorem Form.length_of_trees? {forms : List Form} {ns : List Tree} (h : Form.trees? forms = some ns) :
    forms.length = ns.length := by
  induction forms generalizing ns with
  | nil =>
    obtain rfl : ns = [] := by simpa [Form.trees?] using h.symm
    rfl
  | cons f forms ih =>
    simp only [Form.trees?, Option.bind_eq_some_iff, Option.map_eq_some_iff] at h
    obtain ⟨n, _, ns, hns, rfl⟩ := h
    rw [List.length_cons, List.length_cons, ih hns]

/-! ## Collections by their items -/

/-- The collection with some items; a map needs an even number of them. -/
def Tree.ofItems? : Bracket → List Tree → Option Tree
  | .round, ns => some (.list ns)
  | .square, ns => some (.vector ns)
  | .curly, ns => (pairs? ns).map .map

theorem Form.tree?_seq (p : Position) (k : Bracket) (items : List Form) :
    Form.tree? (.seq p k items) = (Form.trees? items).bind (Tree.ofItems? k) := by
  cases k with
  | round => rw [Form.tree?, Option.map_eq_bind]; rfl
  | square => rw [Form.tree?, Option.map_eq_bind]; rfl
  | curly => rw [Form.tree?, Option.map_bind]; rfl

/-- A collection is derived between its brackets. -/
theorem derives_ofItems_iff {k : Bracket} {ns : List Tree} {n : Tree} (h : Tree.ofItems? k ns = some n) {s rest : Bytes} :
    Derives n s rest ↔ ∃ s', s = k.opener :: s' ∧ DerivesAll ns s' (k.closer :: rest) := by
  cases k with
  | round =>
    obtain rfl := Option.some.inj h
    constructor
    · rintro (_ | hns)
      exact ⟨_, rfl, hns⟩
    · rintro ⟨s', rfl, hns⟩
      exact .list hns
  | square =>
    obtain rfl := Option.some.inj h
    constructor
    · rintro (_ | _ | hns)
      exact ⟨_, rfl, hns⟩
    · rintro ⟨s', rfl, hns⟩
      exact .vector hns
  | curly =>
    obtain ⟨entries, hentries, rfl⟩ := Option.map_eq_some_iff.mp h
    rw [eq_unpaired_of_pairs? hentries]
    constructor
    · rintro (_ | _ | _ | hns)
      exact ⟨_, rfl, hns⟩
    · rintro ⟨s', rfl, hns⟩
      exact .map hns

/-! ## Steps of the parser -/

section Steps

variable {finish p : Position} {stack : List OpenSeq} {rest : List Token}

/-- How reading goes on behind a form: it is an item of the innermost open collection, or all there is. -/
def deliver (finish : Position) (form : Form) : List OpenSeq → List Token → Except SyntaxError (Form × List Token)
  | [], rest => .ok (form, rest)
  | f :: stack, rest => build finish ({ f with items := form :: f.items } :: stack) rest

def OpenSeq.add (f : OpenSeq) (forms : List Form) : OpenSeq := { f with items := forms.reverse ++ f.items }

theorem build_atom (a : Atom) : build finish stack (⟨p, .atom a⟩ :: rest) = deliver finish (.atom p a) stack rest := by
  cases stack <;> rfl

theorem build_opening (k : Bracket) :
    build finish stack (⟨p, .opening k⟩ :: rest) = build finish (⟨p, k, []⟩ :: stack) rest := by
  cases stack <;> rfl

theorem build_broken (e : SyntaxError) : build finish stack (⟨p, .broken e⟩ :: rest) = .error e := by
  cases stack <;> rfl

theorem build_closing {f : OpenSeq} {form : Form} (hf : f.close = .ok form) :
    build finish (f :: stack) (⟨p, .closing f.bracket⟩ :: rest) = deliver finish form stack rest := by
  cases stack <;> simp [build, hf, deliver]

theorem build_closing_error {f : OpenSeq} {e : SyntaxError} (hf : f.close = .error e) :
    build finish (f :: stack) (⟨p, .closing f.bracket⟩ :: rest) = .error e := by
  simp [build, hf]

theorem build_mismatch {f : OpenSeq} {k : Bracket} (hk : f.bracket ≠ k) :
    build finish (f :: stack) (⟨p, .closing k⟩ :: rest) = .error ⟨.unexpected k.closer, p⟩ := by
  simp [build, hk]

theorem Bracket.apart (k : Bracket) : (k.opener ∉ blanks ∧ k.opener ≠ Bytes.byte ';') ∧
    k.closer ∉ blanks ∧ k.closer ≠ Bytes.byte ';' := by
  cases k <;> decide

theorem tokens_opener (k : Bracket) (s : Bytes) : tokens finish (locate p (k.opener :: s)) =
    ⟨p, .opening k⟩ :: tokens finish (locate (p.next k.opener) s) := by
  rw [tokens_cons k.apart.1.1 k.apart.1.2, scanToken_opener]

theorem tokens_closer (k : Bracket) (s : Bytes) : tokens finish (locate p (k.closer :: s)) =
    ⟨p, .closing k⟩ :: tokens finish (locate (p.next k.closer) s) := by
  rw [tokens_cons k.apart.2.1 k.apart.2.2, scanToken_closer]

end Steps

end Typewright.Edn
