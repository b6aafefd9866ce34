import Typewright.Description.Resolve
import Typewright.Description.Section
import Typewright.Graph.Order

/-!
# Reading descriptions

A description is a form `(graph :comments [...] :types [...] :top-levels [...])`. Declarations are collected first,
and classes get their numbers then, so that any type may refer to any declaration. Enums, unions and the
properties of classes follow in this order, then the top-levels. Reading goes on behind a problem where it can.

* `Declaration`: a declaration with its sections.
* `Reader`: what is kept of a description until the next one is read; `Reader.read`.
* `readForm`, `readSource`: reads a description into a graph with a new reader.
* `ReadResult.report`: the errors and warnings of a reading.
-/

namespace Typewright

/-- A declaration under `:types`. -/
structure Declaration where
  name : Bytes
  kind : DeclarationKind
  pos : Position
  sections : Sections

/-- The result of reading a description. -/
structure ReadResult where
  graph : Graph
  problems : List Problem
  success : Bool
  warnings : List Warning
  comments : List Bytes
  /-- How many declarations there are, if reading came that far. -/
  declarations : Option Nat

def ReadResult.report (r : ReadResult) : Report :=
  ⟨r.success, r.problems.map Problem.diagnostic, r.warnings.map Warning.diagnostic⟩

/-- A name and where it stands. -/
def nameIn? (s : Sections) : Option (Bytes × Position) :=
  match s.get? "name" with
  | none => none
  | some f => f.name?.map fun name => (name, f.pos)

/-! ## Comments -/

def readComments (f : Edn.Form) : List Bytes × List Problem :=
  match f.vector? with
  | none => ([], [⟨.commentsNotVector, f.pos⟩])
  | some items =>
    items |> gather fun c =>
      match c with
      | .atom _ (.string s) => .ok s
      | c => .error ⟨.commentNotString c.text, c.posOr f.pos⟩

/-! ## Declarations -/

/-- The declaration that a form makes, given the ones before it. -/
def readDeclaration (before : List Declaration) (f : Edn.Form) : Except Problem Declaration :=
  match f.head?.bind DeclarationKind.ofWord? with
  | none => .error ⟨.unknownDeclaration (f.head?.getD f.text), f.pos⟩
  | some kind =>
    match f.sections with
    | .error p => .error p
    | .ok sections =>
      match nameIn? sections with
      | none => .error ⟨.unnamedDeclaration kind, f.pos⟩
      | some (name, namePos) =>
        if (Primitive.ofName? name).isSome then .error ⟨.shadowsPrimitive name kind, namePos⟩
        else
          match before.find? fun d => d.name == name with
          | some d => .error ⟨.duplicateDeclaration name d.pos, f.pos⟩
          | none => .ok ⟨name, kind, f.pos, sections⟩

/-- Takes up one more declaration. A class gets its number here. -/
def declare (state : List Declaration × Reading) (f : Edn.Form) : List Declaration × Reading :=
  let (ds, r) := state
  if f.isPresent then
    match readDeclaration ds f with
    | .error p => (ds, r.report p)
    | .ok d =>
      match d.kind with
      | .record =>
        let (id, r) := r.push (.record d.name [])
        (ds ++ [d], r.define d.name (some id))
      | _ => (ds ++ [d], r)
  else (ds, r)

def readDeclarations (before : List Declaration) (r : Reading) (f : Edn.Form) : List Declaration × Reading :=
  match f.vector? with
  | none => (before, r.report ⟨.typesNotVector, f.pos⟩)
  | some items => items.foldl declare (before, r)

/-! ## Enums and unions -/

def readCases (f : Edn.Form) (items : List Edn.Form) : List Bytes × List Problem :=
  items |> gather fun c =>
    match c.name? with
    | some s => .ok s
    | none => .error ⟨.caseNotName c.text, c.posOr f.pos⟩

def buildEnum (r : Reading) (d : Declaration) : Reading :=
  match d.sections.get? "cases" with
  | none =>
    let (id, r) := r.push (.enum d.name [])
    r.define d.name (some id)
  | some f =>
    match f.vector? with
    | none => (r.report ⟨.casesNotVector, f.pos⟩).define d.name none
    | some items =>
      let (labels, problems) := readCases f items
      let (id, r) := r.push (.enum d.name labels)
      (r.reportAll problems).define d.name (some id)

/-- A declared union before its members are resolved. -/
def Declaration.unionForm (d : Declaration) : UnionForm :=
  ⟨d.pos, ((d.sections.get? "members").bind Edn.Form.vector?).map TypeForm.ofForms⟩

def ofKind (kind : DeclarationKind) (ds : List Declaration) : List Declaration := ds.filter fun d => d.kind == kind

/-- What written types may refer to. -/
def unionScope (suggests : Bool) (ds : List Declaration) : UnionScope :=
  ⟨(ofKind .union ds).map fun d => (d.name, d.unionForm), ds.map Declaration.name, suggests⟩

/-- Builds a union, unless another one needed it before. -/
def buildUnion (s : UnionScope) (r : Reading) (d : Declaration) : Reading :=
  (resolve s [] r (.named d.pos d.name)).2

/-! ## Classes -/

def readOptional (s : Sections) : Except Problem Bool :=
  match s.get? "optional" with
  | none => .ok false
  | some (.atom _ (.bool b)) => .ok b
  | some f => .error ⟨.optionalNotBool, f.pos⟩

/-- A property as it is written. -/
structure PropertyForm where
  name : Bytes
  /-- Where the name stands. -/
  namePos : Position
  type : TypeForm
  optional : Except Problem Bool

/-- The property that a form writes; `pos` is where the properties of the class stand. -/
def readProperty (pos : Position) (f : Edn.Form) : Except Problem PropertyForm :=
  if f.head? = some (Bytes.ascii "prop") then
    match f.sections with
    | .error p => .error p
    | .ok s =>
      match nameIn? s, s.get? "type" with
      | some (name, namePos), some t => .ok ⟨name, namePos, .ofForm t, readOptional s⟩
      | _, _ => .error ⟨.incompleteProperty, f.pos⟩
  else .error ⟨.malformedProperty f.text, f.posOr pos⟩

/-- The properties of a class so far, and the names that were seen. -/
structure ClassBody where
  properties : List Property
  seen : List Bytes

/-- Takes up one more property of a class. -/
def addProperty (s : UnionScope) (pos : Position) (state : ClassBody × Reading) (f : Edn.Form) :
    ClassBody × Reading :=
  let (body, r) := state
  match readProperty pos f with
  | .error p => (body, r.report p)
  | .ok p =>
    if p.name ∈ body.seen then (body, r.report ⟨.duplicateProperty p.name, p.namePos⟩)
    else
      let body := { body with seen := p.name :: body.seen }
      match p.optional with
      | .error problem => (body, r.report problem)
      | .ok optional =>
        match resolve s [] r p.type with
        | (none, r) => (body, r)
        | (some id, r) => ({ body with properties := body.properties ++ [⟨p.name, id, optional⟩] }, r)

def buildClass (s : UnionScope) (r : Reading) (d : Declaration) : Reading :=
  match d.sections.get? "properties" with
  | none => r
  | some f =>
    match f.vector? with
    | none => r.report ⟨.propertiesNotVector, f.pos⟩
    | some items =>
      let (body, r) := items.foldl (addProperty s f.pos) (⟨[], []⟩, r)
      match r.built.lookup d.name with
      | some (some id) => { r with graph := r.graph.putProperties id body.properties }
      | _ => r

/-! ## Top-levels -/

/-- The top-level that a form writes; `pos` is where the top-levels stand. -/
def readTopLevel (pos : Position) (f : Edn.Form) : Except Problem (Bytes × TypeForm) :=
  if f.head? = some (Bytes.ascii "top") then
    match f.sections with
    | .error p => .error p
    | .ok s =>
      match nameIn? s, s.get? "type" with
      | some (name, _), some t => .ok (name, .ofForm t)
      | _, _ => .error ⟨.incompleteTopLevel, f.pos⟩
  else .error ⟨.malformedTopLevel f.text, f.posOr pos⟩

def addTopLevel (s : UnionScope) (pos : Position) (r : Reading) (f : Edn.Form) : Reading :=
  match readTopLevel pos f with
  | .error p => r.report p
  | .ok (name, t) =>
    match resolve s [] r t with
    | (none, r) => r
    | (some id, r) => { r with graph := r.graph.putTop name id }

def readTopLevels (s : UnionScope) (r : Reading) (f : Edn.Form) : Reading :=
  match f.vector? with
  | none => r.report ⟨.topLevelsNotVector, f.pos⟩
  | some items => items.foldl (addTopLevel s f.pos) r

/-! ## Warnings -/

/-- Sections of the graph that mean nothing. -/
def unknownSections (s : Sections) : List Warning :=
  (s.filter fun (key, _) => key ∉ ["comments", "top-levels", "types"].map Bytes.ascii).map
    fun (key, f) => ⟨.unknownSection key, f.pos⟩

/-- Declarations that no top-level leads to. -/
def unreachable (ds : List Declaration) (r : Reading) : List Warning :=
  let reached := r.graph.marked
  (ds.filter fun d =>
      match r.built.lookup d.name with
      | some (some id) => id ∉ reached
      | _ => false).map
    fun d => ⟨.unreachable d.kind d.name, d.pos⟩

/-! ## Reading -/

/-- What a reader keeps of a description: the declarations in their order, and the types that were built for them. -/
structure Reader where
  declarations : List Declaration
  built : List (Bytes × Option TypeId)

namespace Reader

def new : Reader := ⟨[], []⟩

/-- Forgets the description before. -/
def reset (_ : Reader) : Reader := new

/-- Reads the sections of a description that stands at `pos` into a graph. -/
def readSections (k : Reader) (suggests : Bool) (graph : Graph) (pos : Position) (s : Sections) : ReadResult × Reader :=
  let (comments, problems) := ((s.get? "comments").map readComments).getD ([], [])
  let r := (⟨graph, k.built, [], true⟩ : Reading).reportAll problems
  let (ds, r) := ((s.get? "types").map (readDeclarations k.declarations r)).getD (k.declarations, r)
  let scope := unionScope suggests ds
  -- Classes have had their numbers since they were declared, so unions can have them as members before their
  -- properties are known.
  let r := (ofKind .enum ds).foldl buildEnum r
  let r := (ofKind .union ds).foldl (buildUnion scope) r
  let r := (ofKind .record ds).foldl (buildClass scope) r
  let tops := s.get? "top-levels"
  let r := (tops.map (readTopLevels scope r)).getD r
  let warnings := unknownSections s ++ (if tops.isNone then [⟨.noTopLevels, pos⟩] else [])
    ++ (if r.success then unreachable ds r else [])
  (⟨r.graph, r.problems, r.success, warnings, comments, some ds.length⟩, ⟨ds, r.built⟩)

/-- Reads a description into a graph. -/
def read (k : Reader) (suggests : Bool) (graph : Graph) (f : Edn.Form) : ReadResult × Reader :=
  let k := k.reset
  if f.head? = some (Bytes.ascii "graph") then
    match f.sections with
    | .error p => (⟨graph, [p], false, [], [], none⟩, k)
    | .ok s => k.readSections suggests graph f.pos s
  else (⟨graph, [⟨.notAGraph, f.pos⟩], false, [], [], none⟩, k)

end Reader

def readForm (suggests : Bool) (graph : Graph) (f : Edn.Form) : ReadResult := (Reader.new.read suggests graph f).1

/-- Reads the source of a description into a graph. -/
def readSource (suggests : Bool) (graph : Graph) (source : Bytes) : Except Edn.SyntaxError ReadResult :=
  (Edn.parse source).map (readForm suggests graph)

end Typewright
