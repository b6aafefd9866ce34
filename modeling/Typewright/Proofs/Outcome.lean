import Mathlib.Data.List.Forall2

/-!
# Outcomes

A computation that may fail is described by both of its endings at once.

* `Ends x E Q` : `x` stops with an error in `E`, or returns a value in `Q`;
* `Ends.bind`, `Ends.map`, `Ends.mapError`, `Ends.mapM` : one rule for each way to combine computations;
* `Alike E R x y` : `x` and `y` both stop, with errors that `E` relates, or both return, with values that `R` relates;
  the same rules hold for two computations side by side.
-/

namespace Typewright

variable {ε ε' α β : Type}

theorem exists_of_forall₂_left {R : α → β → Prop} {l : List α} {l' : List β} (h : List.Forall₂ R l l') {a : α}
    (ha : a ∈ l) : ∃ b ∈ l', R a b := by
  induction h with
  | nil => cases ha
  | cons hab _ ih =>
    rcases List.mem_cons.mp ha with rfl | ha
    · exact ⟨_, List.mem_cons_self, hab⟩
    · obtain ⟨b, hb, hR⟩ := ih ha
      exact ⟨b, List.mem_cons_of_mem _ hb, hR⟩

theorem exists_of_forall₂_right {R : α → β → Prop} {l : List α} {l' : List β} (h : List.Forall₂ R l l') {b : β}
    (hb : b ∈ l') : ∃ a ∈ l, R a b :=
  exists_of_forall₂_left h.flip hb

theorem getElem?_of_forall₂ {R : α → β → Prop} {l : List α} {l' : List β} (h : List.Forall₂ R l l') {i : Nat} {a : α}
    (hi : l[i]? = some a) : ∃ b, l'[i]? = some b ∧ R a b := by
  obtain ⟨hlt, rfl⟩ := List.getElem?_eq_some_iff.mp hi
  have hlt' : i < l'.length := h.length_eq ▸ hlt
  exact ⟨l'[i], List.getElem?_eq_getElem hlt', (List.forall₂_iff_get.mp h).2 i hlt hlt'⟩

theorem mapM_congr {k k' : α → Except ε β} {l : List α} (h : ∀ a ∈ l, k a = k' a) : l.mapM k = l.mapM k' := by
  induction l with
  | nil => rfl
  | cons a l ih =>
    rw [List.mapM_cons, List.mapM_cons, h a List.mem_cons_self, ih fun a' ha' => h a' (List.mem_cons_of_mem a ha')]

/-- An error is in `E`, and a value is in `Q`. -/
def Ends (x : Except ε α) (E : ε → Prop) (Q : α → Prop) : Prop :=
  match x with
  | .error e => E e
  | .ok a => Q a

namespace Ends

theorem mono {x : Except ε α} {E E' : ε → Prop} {Q Q' : α → Prop} (h : Ends x E Q) (hE : ∀ e, E e → E' e)
    (hQ : ∀ a, Q a → Q' a) : Ends x E' Q' := by
  cases x with
  | error e => exact hE e h
  | ok a => exact hQ a h

theorem of_ok {x : Except ε α} {E : ε → Prop} {Q : α → Prop} (h : Ends x E Q) {a : α} (ha : x = .ok a) : Q a := by
  subst ha
  exact h

theorem of_error {x : Except ε α} {E : ε → Prop} {Q : α → Prop} (h : Ends x E Q) {e : ε} (he : x = .error e) :
    E e := by
  subst he
  exact h

/-- If no error is possible there is a value. -/
theorem exists_ok {x : Except ε α} {E : ε → Prop} {Q : α → Prop} (h : Ends x E Q) (hE : ∀ e, ¬ E e) :
    ∃ a, x = .ok a ∧ Q a := by
  cases x with
  | error e => exact absurd h (hE e)
  | ok a => exact ⟨a, rfl, h⟩

theorem bind {x : Except ε α} {f : α → Except ε β} {E : ε → Prop} {Q : α → Prop} {R : β → Prop}
    (h : Ends x E Q) (hf : ∀ a, x = .ok a → Q a → Ends (f a) E R) : Ends (x >>= f) E R := by
  cases x with
  | error e => exact h
  | ok a => exact hf a rfl h

theorem map {x : Except ε α} {f : α → β} {E : ε → Prop} {Q : β → Prop} (h : Ends x E (fun a => Q (f a))) :
    Ends (x.map f) E Q := by
  cases x with
  | error e => exact h
  | ok a => exact h

theorem mapError {x : Except ε α} {f : ε → ε'} {E : ε' → Prop} {Q : α → Prop}
    (h : Ends x (fun e => E (f e)) Q) : Ends (x.mapError f) E Q := by
  cases x with
  | error e => exact h
  | ok a => exact h

/-- A list of computations stops with the error of one of them, or returns a value for each. -/
theorem mapM {l : List α} {f : α → Except ε β} {E : ε → Prop} {Q : α → β → Prop}
    (h : ∀ a ∈ l, Ends (f a) E (Q a)) : Ends (l.mapM f) E (List.Forall₂ Q l) := by
  induction l with
  | nil => exact List.Forall₂.nil
  | cons a l ih =>
    rw [List.mapM_cons]
    refine (h a List.mem_cons_self).bind fun b _ hb => ?_
    refine (ih fun a' ha' => h a' (List.mem_cons_of_mem a ha')).bind fun bs _ hbs => ?_
    exact List.Forall₂.cons hb hbs

end Ends

/-! ## Two computations side by side -/

/-- Two computations end alike. -/
def Alike (E : ε → ε' → Prop) (R : α → β → Prop) : Except ε α → Except ε' β → Prop
  | .error e, .error e' => E e e'
  | .ok a, .ok b => R a b
  | .error _, .ok _ => False
  | .ok _, .error _ => False

namespace Alike

variable {γ δ : Type} {E : ε → ε' → Prop} {Q : α → β → Prop} {R : γ → δ → Prop} {x : Except ε α} {y : Except ε' β}

theorem bind {k : α → Except ε γ} {k' : β → Except ε' δ} (h : Alike E Q x y)
    (hk : ∀ a b, Q a b → Alike E R (k a) (k' b)) : Alike E R (x >>= k) (y >>= k') := by
  cases x with
  | error e =>
    cases y with
    | error e' => exact h
    | ok b => exact h.elim
  | ok a =>
    cases y with
    | error e' => exact h.elim
    | ok b => exact hk a b h

theorem map {k : α → γ} {k' : β → δ} (h : Alike E Q x y) (hk : ∀ a b, Q a b → R (k a) (k' b)) :
    Alike E R (x.map k) (y.map k') :=
  h.bind hk

theorem mapM_map {α' β' : Type} {p : α' → β'} {k : α' → Except ε γ} {k' : β' → Except ε' γ} {l : List α'}
    (h : ∀ a ∈ l, Alike E Eq (k a) (k' (p a))) : Alike E Eq (l.mapM k) ((l.map p).mapM k') := by
  induction l with
  | nil => exact rfl
  | cons a l ih =>
    rw [List.map_cons, List.mapM_cons, List.mapM_cons]
    refine (h a List.mem_cons_self).bind fun c d hcd => ?_
    refine (ih fun a' ha' => h a' (List.mem_cons_of_mem a ha')).bind fun cs ds hcds => ?_
    rw [hcd, hcds]
    exact rfl

end Alike

end Typewright
