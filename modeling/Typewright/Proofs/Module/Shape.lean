import Typewright.Proofs.Graph.Invariant
import Typewright.Proofs.Module.Lines
import Typewright.Proofs.Module.Render

/-!
# Type expressions are unambiguous

* `Shape` : a type as far as it is written out. Primitive and declared types are leaves, and a union that is not declared
  is the list of its members, where a member that is such a union itself is replaced by its own members;
* `Graph.shape?` : the shape of a type; `Shape.text` : the text of a shape, given words for its leaves;
* `Shape.text_injective` : shapes of one text are the same, if different leaves have different words;
* `typeExpr_hasShape` : a type is written as its shape is;
* `Graph.Built.source_eq_iff_shape_eq` : after a rendering, types are written alike just if they have the same shape.
-/

namespace Typewright

open Bytes

/-! ## Shapes -/

/-- A type that is written as a word. -/
inductive Leaf where
  | primitive (p : Primitive)
  | declared (id : TypeId)
  deriving DecidableEq, Repr

/-- What is put around an expression. -/
inductive Wrapper where
  | list
  | dict
  | optional
  deriving DecidableEq, Repr

/-- A type as far as it is written out. -/
inductive Shape where
  | leaf (l : Leaf)
  | within (k : Wrapper) (inner : Shape)
  | oneOf (members : List Shape)
  deriving Repr

def Wrapper.word (k : Wrapper) : Bytes :=
  ascii <| match k with
    | .list => "list"
    | .dict => "dict"
    | .optional => "Optional"

/-- The bracket, and what stands before the expression in it. -/
def Wrapper.opening (k : Wrapper) : Bytes :=
  ascii <| match k with
    | .list => "["
    | .dict => "[str, "
    | .optional => "["

namespace Shape

/-- The shapes that are written side by side. -/
def alternatives : Shape → List Shape
  | .oneOf ss => ss
  | s => [s]

def isOneOf : Shape → Bool
  | .oneOf _ => true
  | _ => false

mutual

/-- The text of a shape, given words for its leaves. -/
def text (word : Leaf → Bytes) : Shape → Bytes
  | .leaf l => word l
  | .within k s => k.word ++ (k.opening ++ (s.text word ++ ascii "]"))
  | .oneOf ss => join (ascii " | ") (texts word ss)

def texts (word : Leaf → Bytes) : List Shape → List Bytes
  | [] => []
  | s :: ss => s.text word :: texts word ss

end

mutual

/-- The leaves are good, and where shapes are written side by side there are at least two, which are not again several
shapes side by side. -/
def Sound (good : Leaf → Prop) : Shape → Prop
  | .leaf l => good l
  | .within _ s => s.Sound good
  | .oneOf ss => 2 ≤ ss.length ∧ SoundAll good ss

/-- Each shape is sound, and stands for itself where several are written side by side. -/
def SoundAll (good : Leaf → Prop) : List Shape → Prop
  | [] => True
  | s :: ss => (s.isOneOf = false ∧ s.Sound good) ∧ SoundAll good ss

end

end Shape

/-- The shape of a type. The parts of a type other than a class have smaller numbers. -/
def Graph.shape? (g : Graph) (declareUnions : Bool) (id : TypeId) : Option Shape :=
  let part (t : TypeId) : Option Shape := if t < id then g.shape? declareUnions t else none
  match g.node? id with
  | none => none
  | some (.primitive p) => some (.leaf (.primitive p))
  | some (.array items) => (part items).map (.within .list)
  | some (.map values) => (part values).map (.within .dict)
  | some (.record _ _) | some (.enum _ _) => some (.leaf (.declared id))
  | some (.union _ members) =>
    match g.nullableInner? id with
    | some inner => (part inner).map (.within .optional)
    | none =>
      if declareUnions then some (.leaf (.declared id))
      else (members.mapM part).map fun ss => .oneOf (ss.flatMap Shape.alternatives)
termination_by id

/-! ## Unique readability -/

/-- A word that can stand for a leaf: a name that is put in front of no bracket, or a name between quotation marks. -/
def IsLeafWord (w : Bytes) : Prop := IsName w ∧ (∀ k : Wrapper, w ≠ k.word) ∨ ∃ n, IsName n ∧ w = quoted n

/-- What may follow an expression: its end, or a bracket that is closed behind it. -/
def Bytes.Closes (s : Bytes) : Prop := ∀ b ∈ s.head?, b = byte ']'

theorem Bytes.Closes.apart {s : Bytes} (h : Closes s) : Apart s := by
  intro b hb
  rw [h b hb]
  decide

theorem closes_nil : Closes [] := fun _ h => by cases h

theorem closes_bracket (s : Bytes) : Closes (ascii "]" ++ s) := by
  intro b hb
  cases hb
  rfl

theorem not_closes_bar (s : Bytes) : ¬ Closes (ascii " | " ++ s) := fun h => absurd (h _ rfl) (by decide)

theorem Wrapper.isName_word (k : Wrapper) : IsName k.word := by cases k <;> decide

theorem Wrapper.word_injective {k k' : Wrapper} (h : k.word = k'.word) : k = k' := by
  revert h
  cases k <;> cases k' <;> decide

theorem Wrapper.apart_opening (k : Wrapper) (s : Bytes) : Apart (k.opening ++ s) := by
  cases k <;> exact apart_cons (by decide) _

theorem name_append_ne_quoted {n m s s' : Bytes} (hn : IsName n) : n ++ s ≠ quoted m ++ s' := by
  intro h
  obtain ⟨b, n, rfl⟩ := List.exists_cons_of_ne_nil hn.1
  have hb : isNameByte b = true := hn.2 b List.mem_cons_self
  rw [show b = quote from (List.cons.inj h).1] at hb
  exact absurd hb (by decide)

theorem quoted_append_inj {n n' s s' : Bytes} (hn : IsName n) (hn' : IsName n') (h : quoted n ++ s = quoted n' ++ s') :
    n = n' ∧ s = s' := by
  have h : quote :: (n ++ quote :: s) = quote :: (n' ++ quote :: s') := by
    simpa [quoted] using h
  exact eq_of_name_cons_eq hn hn' (by decide) (List.cons.inj h).2

theorem leafWord_append_inj {w w' s s' : Bytes} (hw : IsLeafWord w) (hw' : IsLeafWord w') (hs : Apart s) (hs' : Apart s')
    (h : w ++ s = w' ++ s') : w = w' ∧ s = s' := by
  rcases hw with ⟨hname, -⟩ | ⟨n, hn, rfl⟩
  · rcases hw' with ⟨hname', -⟩ | ⟨n', -, rfl⟩
    · exact name_append_inj hname hname' hs hs' h
    · exact absurd h (name_append_ne_quoted hname)
  · rcases hw' with ⟨hname', -⟩ | ⟨n', hn', rfl⟩
    · exact absurd h.symm (name_append_ne_quoted hname')
    · obtain ⟨rfl, rfl⟩ := quoted_append_inj hn hn' h
      exact ⟨rfl, rfl⟩

/-- A word for a leaf is no start of an expression with a bracket. -/
theorem leafWord_append_ne {w s : Bytes} (hw : IsLeafWord w) (hs : Apart s) (k : Wrapper) (s' : Bytes) :
    w ++ s ≠ k.word ++ (k.opening ++ s') := by
  intro h
  rcases hw with ⟨hname, hne⟩ | ⟨n, -, rfl⟩
  · exact hne k (name_append_inj hname k.isName_word hs (k.apart_opening s') h).1
  · exact name_append_ne_quoted k.isName_word h.symm

namespace Shape

variable {word : Leaf → Bytes} {good : Leaf → Prop}

/-- Nothing else starts a text as a single shape does. -/
def Atomic (word : Leaf → Bytes) (good : Leaf → Prop) (s : Shape) : Prop :=
  s.isOneOf = false → s.Sound good → ∀ s' : Shape, s'.isOneOf = false → s'.Sound good → ∀ t t', Apart t → Apart t' →
    s.text word ++ t = s'.text word ++ t' → s = s' ∧ t = t'

theorem soundAll_alternatives {s : Shape} (hs : s.Sound good) : SoundAll good s.alternatives := by
  cases s with
  | leaf l => exact ⟨⟨rfl, hs⟩, trivial⟩
  | within k s => exact ⟨⟨rfl, hs⟩, trivial⟩
  | oneOf ss => exact hs.2

theorem mem_alternatives {s : Shape} (hs : s.isOneOf = false) : s ∈ s.alternatives := by
  cases s with
  | leaf l => exact List.mem_cons_self
  | within k s => exact List.mem_cons_self
  | oneOf ss => cases hs

theorem alternatives_ne_nil {s : Shape} (hs : s.Sound good) : s.alternatives ≠ [] := by
  cases s with
  | leaf l => exact List.cons_ne_nil _ _
  | within k s => exact List.cons_ne_nil _ _
  | oneOf ss =>
    rintro rfl
    exact absurd hs.1 (by decide)

/-- A shape that does not stand for itself has two alternatives. -/
theorem alternatives_injective {s s' : Shape} (hs : s.Sound good) (hs' : s'.Sound good)
    (h : s.alternatives = s'.alternatives) : s = s' := by
  have hone : ∀ {s s' : Shape}, s'.Sound good → [s] = s'.alternatives → s = s' := by
    intro s s' hs' h
    cases s' with
    | leaf l => exact (List.cons.inj h).1
    | within k s' => exact (List.cons.inj h).1
    | oneOf ss =>
      have hlength : 2 ≤ [s].length := h ▸ hs'.1
      exact absurd hlength (Nat.not_succ_le_self 1)
  cases s with
  | leaf l => exact hone hs' h
  | within k s => exact hone hs' h
  | oneOf ss =>
    cases s' with
    | leaf l => exact (hone hs h.symm).symm
    | within k s' => exact (hone hs h.symm).symm
    | oneOf ss' => rw [show ss = ss' from h]

/-- Shapes with a bar before each of them. -/
def barred (word : Leaf → Bytes) (ss : List Shape) : Bytes := ss.flatMap fun s => ascii " | " ++ s.text word

theorem bar_append_join {ss : List Shape} (hss : ss ≠ []) :
    ascii " | " ++ join (ascii " | ") (texts word ss) = barred word ss := by
  induction ss with
  | nil => exact absurd rfl hss
  | cons s ss ih =>
    cases ss with
    | nil => exact (List.append_nil _).symm
    | cons s' ss =>
      rw [barred, List.flatMap_cons, ← barred, ← ih (List.cons_ne_nil _ _), texts, texts, join]
      simp only [List.append_assoc]

theorem barred_alternatives {s : Shape} (hs : s.Sound good) : barred word s.alternatives = ascii " | " ++ s.text word := by
  rw [← bar_append_join (alternatives_ne_nil hs)]
  cases s with
  | leaf l => rfl
  | within k s => rfl
  | oneOf ss => rfl

theorem apart_barred (ss : List Shape) {t : Bytes} (ht : Apart t) : Apart (barred word ss ++ t) := by
  cases ss with
  | nil => exact ht
  | cons s ss => exact apart_cons (by decide) _

/-- Shapes side by side are read off their text one by one. -/
theorem barred_append_inj {ss ss' : List Shape} (hatomic : ∀ s ∈ ss, Atomic word good s) (hss : SoundAll good ss)
    (hss' : SoundAll good ss') {t t' : Bytes} (ht : Closes t) (ht' : Closes t')
    (h : barred word ss ++ t = barred word ss' ++ t') : ss = ss' ∧ t = t' := by
  have hcons : ∀ (s : Shape) (ss : List Shape) (t : Bytes),
      barred word (s :: ss) ++ t = ascii " | " ++ (s.text word ++ (barred word ss ++ t)) := by
    intro s ss t
    rw [barred, List.flatMap_cons, ← barred, List.append_assoc, List.append_assoc]
  induction ss generalizing ss' with
  | nil =>
    cases ss' with
    | nil => exact ⟨rfl, h⟩
    | cons s' ss' =>
      rw [hcons] at h
      exact absurd (show Closes (barred word [] ++ t) from ht) (h ▸ not_closes_bar _)
  | cons s ss ih =>
    cases ss' with
    | nil =>
      rw [hcons] at h
      exact absurd (show Closes (barred word [] ++ t') from ht') (h ▸ not_closes_bar _)
    | cons s' ss' =>
      rw [hcons, hcons] at h
      obtain ⟨rfl, hrest⟩ := hatomic s List.mem_cons_self hss.1.1 hss.1.2 s' hss'.1.1 hss'.1.2 _ _
        (apart_barred ss ht.apart) (apart_barred ss' ht'.apart) (List.append_cancel_left h)
      obtain ⟨rfl, rfl⟩ := ih (fun s hs => hatomic s (List.mem_cons_of_mem _ hs)) hss.2 hss'.2 hrest
      exact ⟨rfl, rfl⟩

theorem text_append_inj {s s' : Shape} (hatomic : ∀ x ∈ s.alternatives, Atomic word good x) (hs : s.Sound good)
    (hs' : s'.Sound good) {t t' : Bytes} (ht : Closes t) (ht' : Closes t') (h : s.text word ++ t = s'.text word ++ t') :
    s = s' ∧ t = t' := by
  have hbarred : barred word s.alternatives ++ t = barred word s'.alternatives ++ t' := by
    rw [barred_alternatives hs, barred_alternatives hs', List.append_assoc, List.append_assoc, h]
  obtain ⟨halternatives, rfl⟩ :=
    barred_append_inj hatomic (soundAll_alternatives hs) (soundAll_alternatives hs') ht ht' hbarred
  exact ⟨alternatives_injective hs hs' halternatives, rfl⟩

/-- Good leaves have words that can stand for leaves, and different ones have different words. -/
structure Legible (word : Leaf → Bytes) (good : Leaf → Prop) : Prop where
  isLeafWord : ∀ l, good l → IsLeafWord (word l)
  injective : ∀ l l', good l → good l' → word l = word l' → l = l'

theorem atomic_leaf (h : Legible word good) (l : Leaf) : Atomic word good (.leaf l) := by
  intro _ hl s' hs' hsound t t' ht ht' htext
  cases s' with
  | leaf l' =>
    obtain ⟨hwords, rfl⟩ := leafWord_append_inj (h.isLeafWord l hl) (h.isLeafWord l' hsound) ht ht' htext
    rw [h.injective l l' hl hsound hwords]
    exact ⟨rfl, rfl⟩
  | within k s' =>
    rw [text, text, List.append_assoc, List.append_assoc] at htext
    exact absurd htext (leafWord_append_ne (h.isLeafWord l hl) ht k _)
  | oneOf ss => exact absurd hs' (by simp [isOneOf])

theorem atomic_within (h : Legible word good) (k : Wrapper) {s : Shape}
    (hatomic : ∀ x ∈ s.alternatives, Atomic word good x) : Atomic word good (.within k s) := by
  intro _ hs s' hs' hsound t t' ht ht' htext
  rw [text, List.append_assoc, List.append_assoc, List.append_assoc] at htext
  cases s' with
  | leaf l =>
    exact absurd htext.symm (leafWord_append_ne (h.isLeafWord l hsound) ht' k _)
  | within k' s' =>
    rw [text, List.append_assoc, List.append_assoc, List.append_assoc] at htext
    obtain ⟨hk, hrest⟩ :=
      name_append_inj k.isName_word k'.isName_word (k.apart_opening _) (k'.apart_opening _) htext
    cases Wrapper.word_injective hk
    have hsound : s'.Sound good := hsound
    obtain ⟨rfl, ht⟩ := text_append_inj hatomic hs hsound (closes_bracket t) (closes_bracket t')
      (List.append_cancel_left hrest)
    exact ⟨rfl, List.append_cancel_left ht⟩
  | oneOf ss => exact absurd hs' (by simp [isOneOf])

mutual

theorem atomic_alternatives (h : Legible word good) (s : Shape) : ∀ x ∈ s.alternatives, Atomic word good x := by
  cases s with
  | leaf l =>
    intro x hx
    rw [List.mem_singleton.mp hx]
    exact atomic_leaf h l
  | within k s =>
    intro x hx
    rw [List.mem_singleton.mp hx]
    exact atomic_within h k (atomic_alternatives h s)
  | oneOf ss => exact atomic_all h ss

theorem atomic_all (h : Legible word good) (ss : List Shape) : ∀ x ∈ ss, Atomic word good x := by
  cases ss with
  | nil => exact fun x hx => absurd hx List.not_mem_nil
  | cons s ss =>
    intro x hx
    rcases List.mem_cons.mp hx with hx | hx
    · rw [hx]
      exact fun hone => atomic_alternatives h s s (mem_alternatives hone) hone
    · exact atomic_all h ss x hx

end

/-- **Shapes of one text are the same.** -/
theorem text_injective (h : Legible word good) {s s' : Shape} (hs : s.Sound good) (hs' : s'.Sound good)
    (htext : s.text word = s'.text word) : s = s' := by
  have htext : s.text word ++ [] = s'.text word ++ [] := by rw [htext]
  exact (text_append_inj (atomic_alternatives h s) hs hs' closes_nil closes_nil htext).1

end Shape

/-! ## Types are written as their shapes -/

/-- The word for a leaf. The sentinel has none. -/
def ExprContext.leafWord (c : ExprContext) (g : Graph) : Leaf → Bytes
  | .primitive p => ((Builtin.ofPrimitive? p).map Builtin.name).getD []
  | .declared id =>
    let name := (c.names.type id).toOption.getD []
    if c.quotes g id then quoted name else name

/-- A leaf that can be written. -/
def ExprContext.Spelled (c : ExprContext) : Leaf → Prop
  | .primitive p => p ≠ .none
  | .declared id => ∃ name, c.names.type id = .ok name

/-- An expression is written as a shape is. -/
structure Shape.WrittenAs (c : ExprContext) (g : Graph) (s : Shape) (e : TypeExpr) : Prop where
  sound : s.Sound c.Spelled
  text : e.text = s.text (c.leafWord g)

/-- There is a shape, and an expression is written as it is. -/
def TypeExpr.HasShape (c : ExprContext) (g : Graph) (x : Option Shape) (e : TypeExpr) : Prop :=
  ∃ s, x = some s ∧ s.WrittenAs c g e

variable {c : ExprContext} {g : Graph} {id : TypeId}

/-- A declared type is a leaf. -/
theorem writtenAs_declared {name : Bytes} (hname : c.names.type id = .ok name) :
    (Shape.leaf (.declared id)).WrittenAs c g (if c.quotes g id then .quoted name else .named name) := by
  refine ⟨⟨name, hname⟩, ?_⟩
  rw [Shape.text, ExprContext.leafWord, hname]
  split <;> rfl

theorem writtenAs_within (k : Wrapper) {s : Shape} {e e' : TypeExpr} (h : s.WrittenAs c g e)
    (he' : e'.text = k.word ++ (k.opening ++ (e.text ++ ascii "]"))) : (s.within k).WrittenAs c g e' :=
  ⟨h.sound, by rw [he', h.text]; rfl⟩

theorem Shape.soundAll_flatMap_alternatives {good : Leaf → Prop} {ss : List Shape} (hss : ∀ s ∈ ss, s.Sound good) :
    SoundAll good (ss.flatMap alternatives) := by
  have happend : ∀ {as bs : List Shape}, SoundAll good as → SoundAll good bs → SoundAll good (as ++ bs) := by
    intro as bs has hbs
    induction as with
    | nil => exact hbs
    | cons a as ih => exact ⟨has.1, ih has.2⟩
  induction ss with
  | nil => trivial
  | cons s ss ih =>
    exact happend (soundAll_alternatives (hss s List.mem_cons_self)) (ih fun s hs => hss s (List.mem_cons_of_mem _ hs))

theorem Shape.length_le_flatMap_alternatives {good : Leaf → Prop} {ss : List Shape} (hss : ∀ s ∈ ss, s.Sound good) :
    ss.length ≤ (ss.flatMap alternatives).length := by
  induction ss with
  | nil => exact Nat.le_refl 0
  | cons s ss ih =>
    have hs := List.length_pos_iff.mpr (alternatives_ne_nil (hss s List.mem_cons_self))
    have hrest := ih fun s hs => hss s (List.mem_cons_of_mem _ hs)
    rw [List.flatMap_cons, List.length_append, List.length_cons]
    omega

/-- Alternatives are not separated from those of a shape beside it. -/
theorem Shape.barred_flatMap_alternatives {good : Leaf → Prop} {word : Leaf → Bytes} {ss : List Shape}
    (hss : ∀ s ∈ ss, s.Sound good) : barred word (ss.flatMap alternatives) = barred word ss := by
  induction ss with
  | nil => rfl
  | cons s ss ih =>
    rw [List.flatMap_cons, barred, List.flatMap_append, ← barred, ← barred, barred_alternatives (hss s List.mem_cons_self),
      ih fun s hs => hss s (List.mem_cons_of_mem _ hs)]
    rfl

theorem texts_eq_of_writtenAs {ss : List Shape} {es : List TypeExpr}
    (h : List.Forall₂ (fun s e => s.WrittenAs c g e) ss es) : TypeExpr.texts es = Shape.texts (c.leafWord g) ss := by
  induction h with
  | nil => rfl
  | cons he _ ih => rw [TypeExpr.texts, Shape.texts, he.text, ih]

theorem writtenAs_oneOf {ss : List Shape} {es : List TypeExpr} (hlength : 2 ≤ es.length)
    (h : List.Forall₂ (fun s e => s.WrittenAs c g e) ss es) :
    (Shape.oneOf (ss.flatMap Shape.alternatives)).WrittenAs c g (.oneOf es) := by
  have hsound : ∀ s ∈ ss, s.Sound c.Spelled := by
    intro s hs
    obtain ⟨e, -, he⟩ := exists_of_forall₂_left h hs
    exact he.sound
  have htexts : TypeExpr.texts es = Shape.texts (c.leafWord g) ss := texts_eq_of_writtenAs h
  have hle := Shape.length_le_flatMap_alternatives hsound
  rw [h.length_eq] at hle
  have hne : ss.flatMap Shape.alternatives ≠ [] := List.ne_nil_of_length_pos (by omega)
  have hne' : ss ≠ [] := List.ne_nil_of_length_pos (by rw [h.length_eq]; omega)
  refine ⟨⟨by omega, Shape.soundAll_flatMap_alternatives hsound⟩, ?_⟩
  -- A bar in front of both texts shows that they are the same.
  refine List.append_cancel_left (show ascii " | " ++ _ = ascii " | " ++ _ from ?_)
  rw [TypeExpr.text, htexts, Shape.text, Shape.bar_append_join hne, Shape.bar_append_join hne',
    Shape.barred_flatMap_alternatives hsound]

theorem exists_shapes_of_forall₂ {k : TypeId → Option Shape} {ms : List TypeId} {es : List TypeExpr}
    (h : List.Forall₂ (fun t e => e.HasShape c g (k t)) ms es) :
    ∃ ss, ms.mapM k = some ss ∧ List.Forall₂ (fun s e => s.WrittenAs c g e) ss es := by
  induction h with
  | nil => exact ⟨[], rfl, .nil⟩
  | cons hme _ ih =>
    obtain ⟨s, hk, hs⟩ := hme
    obtain ⟨ss, hks, hss⟩ := ih
    refine ⟨s :: ss, ?_, .cons hs hss⟩
    rw [List.mapM_cons, hk, hks]
    rfl

theorem quotes_of_not_isUnion {n : Node} (hn : g.node? id = some n) (hunion : n.isUnion = false) :
    c.quotes g id = false := by
  rw [ExprContext.quotes, Graph.isUnionAt_of_node? hn, hunion, Bool.and_false, Bool.false_and]

theorem within_hasShape (k : Wrapper) {kind : TypeExpr → TypeExpr}
    (hkind : ∀ e, (kind e).text = k.word ++ (k.opening ++ (e.text ++ ascii "]"))) {x : Except RenderError TypeExpr}
    {y : Option Shape} (h : Ends x (fun _ => True) (TypeExpr.HasShape c g y)) :
    Ends (x.map kind) (fun _ => True) (TypeExpr.HasShape c g (y.map (Shape.within k))) := by
  refine Ends.map (h.mono (fun _ he => he) fun e he => ?_)
  obtain ⟨s, rfl, hwritten⟩ := he
  exact ⟨s.within k, rfl, writtenAs_within k hwritten (hkind e)⟩

theorem declared_hasShape {kind : Bytes → TypeExpr}
    (hkind : ∀ name, kind name = if c.quotes g id then .quoted name else .named name) :
    Ends ((c.typeName id).map kind) (fun _ => True) (TypeExpr.HasShape c g (some (.leaf (.declared id)))) := by
  rw [ExprContext.typeName]
  cases hname : c.names.type id with
  | error e => trivial
  | ok name => exact ⟨_, rfl, (hkind name).symm ▸ writtenAs_declared hname⟩

/-- **A type is written as its shape is.** -/
theorem typeExpr_hasShape (hg : g.UnionsProper) (c : ExprContext) (id : TypeId) :
    Ends (typeExpr c g id) (fun _ => True) (TypeExpr.HasShape c g (g.shape? c.declareUnions id)) := by
  induction id using Nat.strongRecOn with
  | ind id ih =>
  have hpart : ∀ t, Ends (if t < id then typeExpr c g t else .error (.unknownType t)) (fun _ => True)
      (TypeExpr.HasShape c g (if t < id then g.shape? c.declareUnions t else none)) := by
    intro t
    by_cases ht : t < id
    · rw [if_pos ht, if_pos ht]
      exact ih t ht
    · rw [if_neg ht]
      trivial
  rw [typeExpr, Graph.shape?]
  cases hn : g.node? id with
  | none => trivial
  | some n =>
    cases n with
    | primitive p =>
      cases hb : Builtin.ofPrimitive? p with
      | none =>
        simp only [hb]
        trivial
      | some b =>
        simp only [hb]
        refine ⟨_, rfl, ?_, ?_⟩
        · rintro rfl
          cases hb
        · rw [Shape.text, ExprContext.leafWord, hb]
          rfl
    | array items => exact within_hasShape .list (fun e => List.append_assoc _ _ _) (hpart items)
    | map values => exact within_hasShape .dict (fun e => List.append_assoc _ _ _) (hpart values)
    | record hint ps =>
      refine declared_hasShape fun name => ?_
      rw [quotes_of_not_isUnion hn rfl]
      rfl
    | enum hint cs =>
      refine declared_hasShape fun name => ?_
      rw [quotes_of_not_isUnion hn rfl]
      rfl
    | union hint ms =>
      simp only
      cases hinner : g.nullableInner? id with
      | some inner => exact within_hasShape .optional (fun e => List.append_assoc _ _ _) (hpart inner)
      | none =>
        by_cases hb : c.declareUnions = true
        · rw [if_pos hb, if_pos hb]
          refine declared_hasShape fun name => ?_
          rw [ExprContext.quotes, Graph.isUnionAt_of_node? hn, Node.isUnion, Bool.and_true]
          split <;> rfl
        · rw [if_neg hb, if_neg hb]
          refine Ends.map ((Ends.mapM fun t _ => hpart t).mono (fun _ he => he) fun es hes => ?_)
          obtain ⟨ss, hss, hwritten⟩ := exists_shapes_of_forall₂ hes
          refine ⟨_, by rw [hss]; rfl, writtenAs_oneOf ?_ hwritten⟩
          rw [← hes.length_eq]
          exact (hg id _ hn hint ms rfl).1

/-! ## Words of a rendering -/

section Words

variable {u : CharacterData} {o : Options}

theorem Primitive.mem_all (p : Primitive) : p ∈ Primitive.all := by cases p <;> decide

theorem Wrapper.reserved_word (k : Wrapper) : k.word ∈ Identifier.reserved .global := by
  have hplain : k.word ∈ plainWords typeImports := by cases k <;> decide
  exact reserved_of_mem_plainWords hplain

theorem leafWord_primitive (c : ExprContext) (g : Graph) {p : Primitive} (hp : p ≠ .none) :
    ∃ b : Builtin, c.leafWord g (.primitive p) = b.name := by
  cases hb : Builtin.ofPrimitive? p with
  | none => exact absurd (ofPrimitive?_eq_none hb) hp
  | some b => exact ⟨b, by rw [ExprContext.leafWord, hb]; rfl⟩

theorem leafWord_primitive_injective {p p' : Primitive}
    (h : c.leafWord g (.primitive p) = c.leafWord g (.primitive p')) : p = p' := by
  have hall : ∀ p ∈ Primitive.all, ∀ p' ∈ Primitive.all, ((Builtin.ofPrimitive? p).map Builtin.name).getD [] =
      ((Builtin.ofPrimitive? p').map Builtin.name).getD [] → p = p' := by decide +kernel
  exact hall p p.mem_all p' p'.mem_all h

theorem leafWord_declared {name : Bytes} (hname : c.names.type id = .ok name) :
    c.leafWord g (.declared id) = if c.quotes g id then quoted name else name := by
  rw [ExprContext.leafWord, hname]
  rfl

theorem Builtin.ne_leafWord_declared (hc : c.names = .ofGraph u o g) {name : Bytes} (hname : c.names.type id = .ok name)
    (b : Builtin) : b.name ≠ c.leafWord g (.declared id) := by
  rw [leafWord_declared hname]
  rw [hc] at hname
  split
  · intro h
    have h : b.name ++ [] = quoted name ++ [] := by rw [h]
    exact name_append_ne_quoted b.isName_name h
  · intro h
    exact NameTable.not_reserved_of_type hname (h ▸ reserved_of_mem_plainWords b.name_mem_plainWords)

theorem leafWord_declared_injective (hu : u.Standard) (hc : c.names = .ofGraph u o g) {id' : TypeId} {name name' : Bytes}
    (hname : c.names.type id = .ok name) (hname' : c.names.type id' = .ok name')
    (h : c.leafWord g (.declared id) = c.leafWord g (.declared id')) : id = id' := by
  rw [leafWord_declared hname, leafWord_declared hname'] at h
  rw [hc] at hname hname'
  have hn := NameTable.isName_of_type hu hname
  have hn' := NameTable.isName_of_type hu hname'
  -- A name is never the same as a name between quotation marks.
  suffices hsame : name = name' by
    rw [← hsame] at hname'
    exact NameTable.type_injective hname hname'
  split at h
  · split at h
    · exact (quoted_append_inj hn hn' (congrArg (· ++ []) h)).1
    · exact absurd (congrArg (· ++ []) h.symm) (name_append_ne_quoted hn')
  · split at h
    · exact absurd (congrArg (· ++ []) h) (name_append_ne_quoted hn)
    · exact h

/-- The words that a rendering gives to leaves can be told apart. -/
theorem legible_leafWord (hu : u.Standard) (hc : c.names = .ofGraph u o g) : Shape.Legible (c.leafWord g) c.Spelled where
  isLeafWord l hl := by
    cases l with
    | primitive p =>
      obtain ⟨b, hb⟩ := leafWord_primitive c g hl
      rw [hb]
      refine Or.inl ⟨b.isName_name, fun k => ?_⟩
      cases b <;> cases k <;> decide
    | declared id =>
      obtain ⟨name, hname⟩ := hl
      rw [leafWord_declared hname]
      rw [hc] at hname
      have hn := NameTable.isName_of_type hu hname
      split
      · exact Or.inr ⟨name, hn, rfl⟩
      · refine Or.inl ⟨hn, fun k hk => ?_⟩
        exact NameTable.not_reserved_of_type hname (hk ▸ k.reserved_word)
  injective l l' hl hl' h := by
    cases l with
    | primitive p =>
      cases l' with
      | primitive p' => rw [leafWord_primitive_injective h]
      | declared id' =>
        obtain ⟨b, hb⟩ := leafWord_primitive c g hl
        obtain ⟨name', hname'⟩ := hl'
        exact absurd (hb ▸ h) (b.ne_leafWord_declared hc hname')
    | declared id =>
      obtain ⟨name, hname⟩ := hl
      cases l' with
      | primitive p' =>
        obtain ⟨b, hb⟩ := leafWord_primitive c g hl'
        exact absurd (hb ▸ h.symm) (b.ne_leafWord_declared hc hname)
      | declared id' =>
        obtain ⟨name', hname'⟩ := hl'
        rw [leafWord_declared_injective hu hc hname hname' h]

end Words

/-! ## Renderings -/

namespace Graph

variable {u : CharacterData}

/-- A rendering that returns leaves a context in which all unions are bound. -/
theorem WellFormed.module_context (h : g.WellFormed) (u : CharacterData) (o : Options) :
    Ends (g.module u o) (Stopped.AtNone g) (fun r => r.2 = g.context u o false (g.unionOrder o).reverse) := by
  refine (h.module_assembled (fun id hid hint ps => recordBlock_ends h hid) (fun id hid hint cs => enumBlock_ends hid)
    (fun id hid _ bound => unionBlock_ends h bound hid) fun top htop bound => aliasFor_ends h bound htop).mono
    (fun _ he => he) fun r hr => hr.1

theorem WellFormed.context_render (h : g.WellFormed) {r : Renderer} {lines : List Bytes}
    (hlines : (r.render u g).1.result = .ok lines) :
    (r.render u g).2.context = g.context u r.options false (g.unionOrder r.options).reverse := by
  have hmodule := h.module_context u r.options
  unfold Renderer.render at hlines ⊢
  cases hm : g.module u r.options with
  | error s => simp [hm] at hlines
  | ok m => exact hmodule.of_ok hm

/-- A type that can be reached is written as its shape is, if the sentinel cannot be reached. -/
theorem Built.exists_source_eq_text (hg : g.Built) (hnone : ¬ g.NoneReachable) {o : Options} {r : Renderer}
    (hnames : r.context.names = .ofGraph u o g) (hunions : r.context.declareUnions = o.declareUnions)
    (hid : g.Reached id) :
    ∃ s, g.shape? o.declareUnions id = some s ∧ s.Sound r.context.Spelled ∧
      r.source g id = .ok (s.text (r.context.leafWord g)) := by
  have h := hg.wellFormed
  have hproper : g.UnionsProper := by
    obtain ⟨calls, rfl⟩ := hg
    exact unionsProper_foldl_after wellFormed_empty unionsProper_empty calls
  have hends := typeExpr_ends (c := r.context) h (h.reached_lt hid) fun d hd hdecl => by
    rw [hunions] at hd hdecl
    rw [hnames]
    exact exists_type_of_shows h hid hd hdecl
  obtain ⟨e, he, -⟩ := hends.exists_ok fun s hs => hnone (noneReachable_of_shows hid (hunions ▸ hs.2))
  obtain ⟨s, hshape, hwritten⟩ := (typeExpr_hasShape hproper r.context id).of_ok he
  refine ⟨s, hunions ▸ hshape, hwritten.sound, ?_⟩
  rw [Renderer.source, he, ← hwritten.text]
  rfl

/-- **Types are written alike just if they have the same shape.** After a rendering that returned, every type that can
be reached is written, whatever unions are bound and whether or not they have to be. -/
theorem Built.source_eq_iff_shape_eq (hu : u.Standard) (hg : g.Built) (r : Renderer) {lines : List Bytes}
    (hlines : (r.render u g).1.result = .ok lines) {a b : TypeId} (ha : g.Reached a) (hb : g.Reached b) (eager : Bool)
    (bound : List TypeId) (place : Option Place) :
    let left := (r.render u g).2
    let now : Renderer := { left with context := { left.context with eager, bound, place } }
    ∃ s t x y, now.source g a = .ok s ∧ now.source g b = .ok t ∧ g.shape? r.options.declareUnions a = some x ∧
      g.shape? r.options.declareUnions b = some y ∧ (s = t ↔ x = y) := by
  intro left now
  have h := hg.wellFormed
  have hleft : left.context = g.context u r.options false (g.unionOrder r.options).reverse := h.context_render hlines
  have hnames : now.context.names = .ofGraph u r.options g := congrArg ExprContext.names hleft
  have hunions : now.context.declareUnions = r.options.declareUnions := congrArg ExprContext.declareUnions hleft
  have hnone : ¬ g.NoneReachable := by
    obtain ⟨m, hm, -⟩ := (h.render_ends u r.options).of_ok hlines
    exact hm.not_noneReachable h
  obtain ⟨x, hx, hsound, hsource⟩ := hg.exists_source_eq_text hnone hnames hunions ha
  obtain ⟨y, hy, hsound', hsource'⟩ := hg.exists_source_eq_text hnone hnames hunions hb
  refine ⟨_, _, x, y, hsource, hsource', hx, hy, fun htext => ?_, fun hshape => by rw [hshape]⟩
  exact Shape.text_injective (legible_leafWord hu hnames) hsound hsound' htext

/-- A union with a union among its members, and the union of all their members. -/
def splicedCalls : List Call := [
  .union (ascii "b") [Primitive.string.id, Primitive.bool.id],
  .union (ascii "a") [Primitive.integer.id, 10],
  .union (ascii "c") [Primitive.integer.id, Primitive.string.id, Primitive.bool.id],
  .topLevel (ascii "x") 11,
  .topLevel (ascii "y") 12]

def spliced : Graph := splicedCalls.foldl after empty

theorem built_spliced : spliced.Built := ⟨splicedCalls, rfl⟩

theorem render_spliced :
    ((Renderer.new .default).render .ascii spliced).1.result =
      .ok [ascii "X = int | str | bool", ascii "Y = int | str | bool"] := by
  cbv

theorem reached_spliced : spliced.Reached 11 ∧ spliced.Reached 12 := by
  have htops : spliced.tops = [⟨ascii "x", 11⟩, ⟨ascii "y", 12⟩] := by cbv
  exact ⟨⟨⟨ascii "x", 11⟩, by rw [htops]; exact List.mem_cons_self, .refl⟩,
    ⟨⟨ascii "y", 12⟩, by rw [htops]; exact List.mem_cons_of_mem _ List.mem_cons_self, .refl⟩⟩

theorem spliced_source_eq_iff_shape_eq :
    spliced.Built ∧ (∃ lines, ((Renderer.new .default).render .ascii spliced).1.result = .ok lines) ∧ spliced.Reached 11 ∧
      spliced.Reached 12 ∧
      let left := ((Renderer.new .default).render .ascii spliced).2
      let now : Renderer := { left with context := { left.context with eager := true, bound := [], place := none } }
      ∃ s t x y, now.source spliced 11 = .ok s ∧ now.source spliced 12 = .ok t ∧ spliced.shape? false 11 = some x ∧
        spliced.shape? false 12 = some y ∧ (s = t ↔ x = y) :=
  ⟨built_spliced, ⟨_, render_spliced⟩, reached_spliced.1, reached_spliced.2,
    built_spliced.source_eq_iff_shape_eq CharacterData.standard_ascii (Renderer.new .default) render_spliced
      reached_spliced.1 reached_spliced.2 true [] none⟩

end Graph

end Typewright
