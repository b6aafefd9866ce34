import Mathlib
import Typewright.Graph.Basic

/-!
# What a description says

A description apart from how it is spelled, and what makes it valid.

* `TypeTerm` : a type as it is written, with its names told apart into primitive and declared ones;
* `SameType unions t u` : types written at two places are one and the same type. Arrays and maps are shared, a union
  that is written in place is a type of its own, and `nullable` adds nothing to a type that has `null` already
  (`AllowsNull`);
* `Description` : comments, declarations and top-levels;
* `Description.Valid` : names and properties are unambiguous, every name is declared, every union has two different
  members, and no declared union needs itself.
-/

namespace Typewright

open Relation

/-- A type as it is written. -/
inductive TypeTerm where
  | primitive (p : Primitive)
  | declared (name : Bytes)
  | array (items : TypeTerm)
  | map (values : TypeTerm)
  | nullable (inner : TypeTerm)
  | union (members : List TypeTerm)

/-- Induction on a written type. -/
theorem TypeTerm.induct {motive : TypeTerm → Prop} (primitive : ∀ p, motive (.primitive p))
    (declared : ∀ name, motive (.declared name)) (array : ∀ t, motive t → motive (.array t))
    (map : ∀ t, motive t → motive (.map t)) (nullable : ∀ t, motive t → motive (.nullable t))
    (union : ∀ ts, (∀ t ∈ ts, motive t) → motive (.union ts)) (t : TypeTerm) : motive t :=
  @TypeTerm.rec motive (fun ts => ∀ t ∈ ts, motive t) primitive declared array map nullable union (by simp)
    (fun _ _ ht hts => by simpa using ⟨ht, hts⟩) t

/-- Whether a type is written as `null`, perhaps made nullable once more. -/
def TypeTerm.isNull : TypeTerm → Bool
  | .primitive p => p = .null
  | .nullable t => t.isNull
  | _ => false

/-! ## Types that are the same -/

mutual

/-- Types that are written at two places are one and the same type. The declared unions have the members `unions`. -/
inductive SameType (unions : Bytes → Option (List TypeTerm)) : TypeTerm → TypeTerm → Prop where
  | primitive (p : Primitive) : SameType unions (.primitive p) (.primitive p)
  | declared (name : Bytes) : SameType unions (.declared name) (.declared name)
  | array {t u : TypeTerm} : SameType unions t u → SameType unions (.array t) (.array u)
  | map {t u : TypeTerm} : SameType unions t u → SameType unions (.map t) (.map u)
  | left {t u : TypeTerm} : AllowsNull unions t → SameType unions t u → SameType unions (.nullable t) u
  | right {t u : TypeTerm} : AllowsNull unions u → SameType unions t u → SameType unions t (.nullable u)

/-- A type is `null`, or a union of `null` and one other type. -/
inductive AllowsNull (unions : Bytes → Option (List TypeTerm)) : TypeTerm → Prop where
  | null : AllowsNull unions (.primitive .null)
  | nullable (t : TypeTerm) : AllowsNull unions (.nullable t)
  | union {ts : List TypeTerm} : NullAndOne unions ts → AllowsNull unions (.union ts)
  | declared {name : Bytes} {ts : List TypeTerm} :
    unions name = some ts → NullAndOne unions ts → AllowsNull unions (.declared name)

/-- Some types are `null` and one other type: those that are not `null` are all the same. -/
inductive NullAndOne (unions : Bytes → Option (List TypeTerm)) : List TypeTerm → Prop where
  | intro {ts : List TypeTerm} : (∃ t ∈ ts, t.isNull = true) → (∃ t ∈ ts, t.isNull = false) →
    (∀ t u, [t, u].Sublist ts → t.isNull = false → u.isNull = false → SameType unions t u) → NullAndOne unions ts

end

/-- Two of several types are different. -/
def TwoTypes (unions : Bytes → Option (List TypeTerm)) (ts : List TypeTerm) : Prop :=
  ∃ t u, [t, u].Sublist ts ∧ ¬ SameType unions t u

/-- A type can be built: its names are declared, and every union in it has two different members. -/
inductive TypeTerm.Valid (names : List Bytes) (unions : Bytes → Option (List TypeTerm)) : TypeTerm → Prop where
  | primitive (p : Primitive) : Valid names unions (.primitive p)
  | declared {name : Bytes} : name ∈ names → Valid names unions (.declared name)
  | array {t : TypeTerm} : Valid names unions t → Valid names unions (.array t)
  | map {t : TypeTerm} : Valid names unions t → Valid names unions (.map t)
  | nullable {t : TypeTerm} : Valid names unions t → Valid names unions (.nullable t)
  | union {ts : List TypeTerm} : (∀ t ∈ ts, Valid names unions t) → TwoTypes unions ts → Valid names unions (.union ts)

/-- A declared name stands somewhere in a type. -/
inductive TypeTerm.Mentions : TypeTerm → Bytes → Prop where
  | declared (name : Bytes) : Mentions (.declared name) name
  | array {t : TypeTerm} {name : Bytes} : Mentions t name → Mentions (.array t) name
  | map {t : TypeTerm} {name : Bytes} : Mentions t name → Mentions (.map t) name
  | nullable {t : TypeTerm} {name : Bytes} : Mentions t name → Mentions (.nullable t) name
  | union {ts : List TypeTerm} {t : TypeTerm} {name : Bytes} : t ∈ ts → Mentions t name → Mentions (.union ts) name

/-! ## Descriptions -/

/-- A property that a class lists. -/
structure PropertyTerm where
  name : Bytes
  type : TypeTerm
  optional : Bool

/-- What a declaration declares. -/
inductive TypeBody where
  | record (properties : List PropertyTerm)
  | enum (cases : List Bytes)
  | union (members : List TypeTerm)

def TypeBody.terms : TypeBody → List TypeTerm
  | .record properties => properties.map PropertyTerm.type
  | .enum _ => []
  | .union members => members

/-- A declaration. -/
structure TypeDecl where
  name : Bytes
  body : TypeBody

/-- A top-level. -/
structure TopTerm where
  name : Bytes
  type : TypeTerm

/-- A description. -/
structure Description where
  comments : List Bytes
  types : List TypeDecl
  tops : List TopTerm

namespace Description

def names (d : Description) : List Bytes := d.types.map TypeDecl.name

def unions (d : Description) (name : Bytes) : Option (List TypeTerm) :=
  match d.types.find? fun t => t.name == name with
  | some ⟨_, .union members⟩ => some members
  | _ => none

/-- A declared union names another one in its members. -/
def Needs (d : Description) (a b : Bytes) : Prop :=
  ∃ members, d.unions a = some members ∧ (∃ t ∈ members, t.Mentions b) ∧ (d.unions b).isSome

/-- A description can be read. -/
structure Valid (d : Description) : Prop where
  nodup_names : d.names.Nodup
  not_primitive : ∀ name ∈ d.names, Primitive.ofName? name = none
  nodup_properties : ∀ t ∈ d.types, ∀ ps, t.body = .record ps → (ps.map PropertyTerm.name).Nodup
  terms : ∀ t ∈ d.types, ∀ u ∈ t.body.terms, u.Valid d.names d.unions
  members : ∀ t ∈ d.types, ∀ us, t.body = .union us → TwoTypes d.unions us
  acyclic : ∀ name, ¬ TransGen d.Needs name name
  tops : ∀ t ∈ d.tops, t.type.Valid d.names d.unions

end Description

end Typewright
