import Mathlib
import Typewright.Description.Similar

/-!
# The edit distance

* `Edit a b`, `Edits n a b` : one insertion, deletion or replacement of a byte, and `n` of them one after the other;
* `Columns` : two texts one above the other. `Columns.edits` and `Edits.exists_columns` : the columns that differ are
  edits, and edits can be written as columns;
* `editDistance_concat` : the recurrence that the rows compute;
* `isLeast_editDistance`, `editDistance_le_iff` : the distance is the least number of edits;
* `toInt_inPlaceDistance` : two buffers of 32-bit integers that change places suffice to compute it, whatever was in the
  second one.
-/

namespace Typewright

/-! ## Edits -/

/-- One byte is inserted, deleted or replaced. -/
inductive Edit : Bytes → Bytes → Prop
  | insert (u v : Bytes) (b : UInt8) : Edit (u ++ v) (u ++ b :: v)
  | delete (u v : Bytes) (a : UInt8) : Edit (u ++ a :: v) (u ++ v)
  | replace (u v : Bytes) (a b : UInt8) : Edit (u ++ a :: v) (u ++ b :: v)

/-- So many edits one after the other. -/
inductive Edits : Nat → Bytes → Bytes → Prop
  | refl (a : Bytes) : Edits 0 a a
  | step {n : Nat} {a b c : Bytes} (h : Edit a b) (hs : Edits n b c) : Edits (n + 1) a c

theorem Edit.append {a b : Bytes} (h : Edit a b) (w : Bytes) : Edit (w ++ a) (w ++ b) := by
  cases h with
  | insert u v b => simpa using Edit.insert (w ++ u) v b
  | delete u v a => simpa using Edit.delete (w ++ u) v a
  | replace u v a b => simpa using Edit.replace (w ++ u) v a b

theorem Edits.append {n : Nat} {a b : Bytes} (h : Edits n a b) (w : Bytes) : Edits n (w ++ a) (w ++ b) := by
  induction h with
  | refl a => exact .refl _
  | step h _ ih => exact .step (h.append w) ih

/-- An edit puts at most one byte into the place of at most one byte. -/
theorem Edit.exists_parts {a b : Bytes} (h : Edit a b) :
    ∃ u x y v : Bytes, x.length ≤ 1 ∧ y.length ≤ 1 ∧ a = u ++ (x ++ v) ∧ b = u ++ (y ++ v) := by
  cases h with
  | insert u v b => exact ⟨u, [], [b], v, by simp⟩
  | delete u v a => exact ⟨u, [a], [], v, by simp⟩
  | replace u v a b => exact ⟨u, [a], [b], v, by simp⟩

/-! ## Columns -/

/-- Two texts written one above the other, with gaps in both. -/
abbrev Columns := List (Option UInt8 × Option UInt8)

namespace Columns

def source (l : Columns) : Bytes := l.filterMap Prod.fst

def target (l : Columns) : Bytes := l.filterMap Prod.snd

/-- The number of columns that differ. -/
def cost (l : Columns) : Nat := l.countP fun c => c.1 != c.2

variable (l m : Columns) (c : Option UInt8 × Option UInt8)

@[simp]
theorem source_append : source (l ++ m) = source l ++ source m := List.filterMap_append

@[simp]
theorem target_append : target (l ++ m) = target l ++ target m := List.filterMap_append

@[simp]
theorem cost_append : cost (l ++ m) = cost l + cost m := List.countP_append

@[simp]
theorem source_cons : source (c :: l) = c.1.toList ++ source l := by
  cases h : c.1 <;> simp [source, h]

@[simp]
theorem target_cons : target (c :: l) = c.2.toList ++ target l := by
  cases h : c.2 <;> simp [target, h]

@[simp]
theorem cost_cons : cost (c :: l) = cost l + if c.1 = c.2 then 0 else 1 := by
  by_cases h : c.1 = c.2 <;> simp [cost, h]

@[simp]
theorem source_nil : source [] = [] := rfl

@[simp]
theorem target_nil : target [] = [] := rfl

@[simp]
theorem cost_nil : cost [] = 0 := rfl

/-- The columns that differ are edits, from the left to the right. -/
theorem edits : Edits (cost l) (source l) (target l) := by
  induction l with
  | nil => exact .refl []
  | cons c l ih =>
    have hrest := ih.append c.2.toList
    rw [source_cons, target_cons, cost_cons]
    obtain ⟨x, y⟩ := c
    split
    · rename_i heq
      obtain rfl : x = y := heq
      exact hrest
    · rename_i hne
      refine .step ?_ hrest
      cases x with
      | none =>
        cases y with
        | none => exact absurd rfl hne
        | some b => exact .insert [] (source l) b
      | some a =>
        cases y with
        | none => exact .delete [] (source l) a
        | some b => exact .replace [] (source l) a b

theorem length_target_le : (target l).length ≤ (source l).length + cost l := by
  induction l with
  | nil => simp
  | cons c l ih =>
    obtain ⟨x, y⟩ := c
    cases x <;> cases y <;> simp <;> omega

theorem exists_of_source_eq_append {l : Columns} {u v : Bytes} (h : source l = u ++ v) :
    ∃ l₁ l₂ : Columns, l = l₁ ++ l₂ ∧ source l₁ = u ∧ source l₂ = v := List.filterMap_eq_append_iff.mp h

/-- Byte for byte, as far as both texts reach. -/
def zip (s t : Bytes) : Columns := List.zipWithAll Prod.mk s t

@[simp]
theorem source_zip (s t : Bytes) : (zip s t).source = s := by
  induction s generalizing t with
  | nil => simp [zip, source, List.filterMap_map]
  | cons a s ih =>
    cases t with
    | nil => simp [zip, source, List.filterMap_map]
    | cons b t => simpa [zip] using ih t

@[simp]
theorem target_zip (s t : Bytes) : (zip s t).target = t := by
  induction s generalizing t with
  | nil => simp [zip, target, List.filterMap_map]
  | cons a s ih =>
    cases t with
    | nil => simp [zip, target, List.filterMap_map]
    | cons b t => simpa [zip] using ih t

theorem cost_zip_le (s t : Bytes) : (zip s t).cost ≤ max s.length t.length := by
  have hlength : (zip s t).length = max s.length t.length := by
    induction s generalizing t with
    | nil => simp [zip]
    | cons a s ih =>
      cases t with
      | nil => simp [zip]
      | cons b t => simpa [zip] using ih t
  exact hlength ▸ List.countP_le_length

theorem cost_zip_self (s : Bytes) : (zip s s).cost = 0 := by
  induction s with
  | nil => rfl
  | cons a s ih => simpa [zip] using ih

end Columns

open Columns

/-- An edit before columns costs at most one column more: what stands below the byte that was edited is put below
the byte before the edit. -/
theorem Edit.exists_columns {a b : Bytes} (h : Edit a b) {l : Columns} (hl : source l = b) :
    ∃ l' : Columns, source l' = a ∧ target l' = target l ∧ cost l' ≤ cost l + 1 := by
  obtain ⟨u, x, y, v, hx, hy, rfl, rfl⟩ := h.exists_parts
  obtain ⟨l₁, l₂, rfl, rfl, hrest⟩ := exists_of_source_eq_append hl
  obtain ⟨l₂, l₃, rfl, rfl, rfl⟩ := exists_of_source_eq_append hrest
  refine ⟨l₁ ++ (zip x (target l₂) ++ l₃), by simp, by simp, ?_⟩
  have hcost := cost_zip_le x (target l₂)
  have hlength : (target l₂).length ≤ 1 + cost l₂ := (length_target_le l₂).trans (Nat.add_le_add_right hy _)
  simp only [cost_append]
  omega

/-- Edits can be written as columns. -/
theorem Edits.exists_columns {n : Nat} {a b : Bytes} (h : Edits n a b) :
    ∃ l : Columns, source l = a ∧ target l = b ∧ cost l ≤ n := by
  induction h with
  | refl a => exact ⟨zip a a, source_zip a a, target_zip a a, (cost_zip_self a).le⟩
  | step h _ ih =>
    obtain ⟨l, hsource, rfl, hcost⟩ := ih
    obtain ⟨l', hsource', htarget', hcost'⟩ := h.exists_columns hsource
    exact ⟨l', hsource', htarget', by omega⟩

/-! ## Rows of distances -/

/-- The last row: the distances of a text from all beginnings of another. -/
def distances (s t : Bytes) : List Nat := s.foldl (fun row a => nextRow a t row) (List.range (t.length + 1))

theorem editDistance_eq (s t : Bytes) : editDistance s t = (distances s t).getLastD 0 := rfl

theorem distances_append (s t : Bytes) (a : UInt8) : distances (s ++ [a]) t = nextRow a t (distances s t) :=
  List.foldl_concat ..

theorem length_rowTail {a : UInt8} {t : Bytes} {row : List Nat} (h : row.length = t.length + 1) (left : Nat) :
    (rowTail a t row left).length = t.length := by
  induction t generalizing row left with
  | nil => rfl
  | cons b t ih =>
    match row, h with
    | p :: q :: row, h => simpa [rowTail] using ih (by simpa using h) _

theorem length_nextRow {a : UInt8} {t : Bytes} {row : List Nat} (h : row.length = t.length + 1) :
    (nextRow a t row).length = t.length + 1 := by
  match row, h with
  | p :: row, h => simp [nextRow, length_rowTail h]

theorem length_distances (s t : Bytes) : (distances s t).length = t.length + 1 := by
  induction s using List.reverseRecOn with
  | nil => exact List.length_range
  | append_singleton s a ih =>
    rw [distances_append]
    exact length_nextRow ih

theorem rowTail_concat {a b : UInt8} {t : Bytes} {row : List Nat} (h : row.length = t.length + 1) (q left : Nat) :
    rowTail a (t ++ [b]) (row ++ [q]) left = rowTail a t row left ++
      [min (min (q + 1) ((rowTail a t row left).getLastD left + 1)) (row.getLastD 0 + if a = b then 0 else 1)] := by
  induction t generalizing row left with
  | nil =>
    match row, h with
    | [p], _ => simp [rowTail]
  | cons c t ih =>
    match row, h with
    | p :: p' :: row, h =>
      have hrest := @ih (p' :: row) (by simpa using h)
      rw [List.cons_append] at hrest
      rw [List.cons_append, List.cons_append, List.cons_append, rowTail, rowTail, hrest, List.cons_append,
        List.getLastD_cons, List.getLastD_cons, List.getLastD_cons, List.getLastD_cons]

/-- A row for a text that is one byte longer has one distance more. -/
theorem nextRow_concat {a b : UInt8} {t : Bytes} {row : List Nat} (h : row.length = t.length + 1) (q : Nat) :
    nextRow a (t ++ [b]) (row ++ [q]) = nextRow a t row ++
      [min (min (q + 1) ((nextRow a t row).getLastD 0 + 1)) (row.getLastD 0 + if a = b then 0 else 1)] := by
  match row, h with
  | p :: row, h =>
    have hrest := rowTail_concat (a := a) (b := b) h q (p + 1)
    rw [List.cons_append] at hrest
    rw [List.cons_append, nextRow, nextRow, hrest, List.cons_append, List.getLastD_cons, List.getLastD_cons]

theorem distances_concat (s t : Bytes) (b : UInt8) :
    distances s (t ++ [b]) = distances s t ++ [editDistance s (t ++ [b])] := by
  have hmore : ∃ d, distances s (t ++ [b]) = distances s t ++ [d] := by
    induction s using List.reverseRecOn with
    | nil => exact ⟨t.length + 1, by simp [distances, List.range_succ]⟩
    | append_singleton s a ih =>
      obtain ⟨d, hd⟩ := ih
      rw [distances_append, distances_append, hd, nextRow_concat (length_distances s t)]
      exact ⟨_, rfl⟩
  obtain ⟨d, hd⟩ := hmore
  rw [editDistance_eq, hd, List.getLastD_concat]

/-! ## The recurrence -/

@[simp]
theorem editDistance_nil_left (t : Bytes) : editDistance [] t = t.length := by
  simp [editDistance, List.range_succ]

@[simp]
theorem editDistance_nil_right (s : Bytes) : editDistance s [] = s.length := by
  have hrow : distances s [] = [s.length] := by
    induction s using List.reverseRecOn with
    | nil => rfl
    | append_singleton s a ih => simp [distances_append, ih, nextRow, rowTail]
  rw [editDistance_eq, hrow]
  rfl

/-- **The recurrence of the distance**: the last bytes are inserted, deleted, or put one below the other. -/
theorem editDistance_concat (s t : Bytes) (a b : UInt8) :
    editDistance (s ++ [a]) (t ++ [b]) =
      min (min (editDistance s (t ++ [b]) + 1) (editDistance (s ++ [a]) t + 1))
        (editDistance s t + if a = b then 0 else 1) := by
  rw [editDistance_eq (s ++ [a]) (t ++ [b]), distances_append, distances_concat,
    nextRow_concat (length_distances s t), List.getLastD_concat, ← distances_append, ← editDistance_eq,
    ← editDistance_eq]

theorem editDistance_delete_le (s t : Bytes) (a : UInt8) : editDistance (s ++ [a]) t ≤ editDistance s t + 1 := by
  induction t using List.reverseRecOn with
  | nil => simp
  | append_singleton t b =>
    rw [editDistance_concat]
    exact (min_le_left _ _).trans (min_le_left _ _)

theorem editDistance_insert_le (s t : Bytes) (b : UInt8) : editDistance s (t ++ [b]) ≤ editDistance s t + 1 := by
  induction s using List.reverseRecOn with
  | nil => simp
  | append_singleton s a =>
    rw [editDistance_concat]
    exact (min_le_left _ _).trans (min_le_right _ _)

/-! ## The least number of edits -/

/-- No two texts have fewer columns that differ. -/
theorem editDistance_le_cost (l : Columns) : editDistance (source l) (target l) ≤ cost l := by
  induction l using List.reverseRecOn with
  | nil => exact le_rfl
  | append_singleton l c ih =>
    obtain ⟨x, y⟩ := c
    cases x with
    | none =>
      cases y with
      | none => simpa using ih
      | some b =>
        have hinsert := editDistance_insert_le (source l) (target l) b
        simp
        omega
    | some a =>
      cases y with
      | none =>
        have hdelete := editDistance_delete_le (source l) (target l) a
        simp
        omega
      | some b =>
        have hconcat := editDistance_concat (source l) (target l) a b
        simp
        omega

/-- They can be written with as many columns that differ. -/
theorem exists_columns_cost_le (s t : Bytes) :
    ∃ l : Columns, source l = s ∧ target l = t ∧ cost l ≤ editDistance s t := by
  induction s using List.reverseRecOn generalizing t with
  | nil => exact ⟨zip [] t, source_zip [] t, target_zip [] t, by simpa using cost_zip_le [] t⟩
  | append_singleton s a ihs =>
    induction t using List.reverseRecOn with
    | nil => exact ⟨zip (s ++ [a]) [], source_zip _ [], target_zip _ [], by simpa using cost_zip_le (s ++ [a]) []⟩
    | append_singleton t b iht =>
      obtain ⟨lup, hsup, htup, hup⟩ := ihs (t ++ [b])
      obtain ⟨lleft, hsleft, htleft, hleft⟩ := iht
      obtain ⟨lboth, hsboth, htboth, hboth⟩ := ihs t
      have hconcat := editDistance_concat s t a b
      -- the least of the three tells what the last column is
      rcases min_choice (min (editDistance s (t ++ [b]) + 1) (editDistance (s ++ [a]) t + 1))
        (editDistance s t + if a = b then 0 else 1) with hmin | hmin
      · rcases min_choice (editDistance s (t ++ [b]) + 1) (editDistance (s ++ [a]) t + 1) with hmin' | hmin'
        · exact ⟨lup ++ [(some a, none)], by simp [hsup], by simp [htup], by simp; omega⟩
        · exact ⟨lleft ++ [(none, some b)], by simp [hsleft], by simp [htleft], by simp; omega⟩
      · exact ⟨lboth ++ [(some a, some b)], by simp [hsboth], by simp [htboth], by simp; omega⟩

/-- **The distance is the least number of edits.** -/
theorem isLeast_editDistance (s t : Bytes) : IsLeast {n | Edits n s t} (editDistance s t) := by
  constructor
  · obtain ⟨l, rfl, rfl, hcost⟩ := exists_columns_cost_le s t
    have heq : cost l = editDistance (source l) (target l) := le_antisymm hcost (editDistance_le_cost l)
    exact heq ▸ edits l
  · intro n hn
    obtain ⟨l, rfl, rfl, hcost⟩ := hn.exists_columns
    exact (editDistance_le_cost l).trans hcost

example : editDistance (Bytes.ascii "kitten") (Bytes.ascii "sitting") = 3 := by decide

/-- A text becomes another one by so many edits at most. -/
def WithinEdits (k : Nat) (a b : Bytes) : Prop := ∃ n ≤ k, Edits n a b

theorem editDistance_le_iff {k : Nat} {a b : Bytes} : editDistance a b ≤ k ↔ WithinEdits k a b :=
  ⟨fun h => ⟨_, h, (isLeast_editDistance a b).1⟩, fun ⟨_, hn, h⟩ => ((isLeast_editDistance a b).2 h).trans hn⟩

instance (k : Nat) (a b : Bytes) : Decidable (WithinEdits k a b) := decidable_of_iff _ editDistance_le_iff

theorem editDistance_le_max (s t : Bytes) : editDistance s t ≤ max s.length t.length := by
  have hle := editDistance_le_cost (zip s t)
  rw [source_zip, target_zip] at hle
  exact hle.trans (cost_zip_le s t)

/-! ## Two rows in place -/

/-- Two buffers for rows. -/
structure Rows where
  above : Array Int32
  current : Array Int32

namespace Rows

/-- The distance behind the first `j + 1` ones of the current row. -/
def fill (a : UInt8) (t : Bytes) (r : Rows) (j : Nat) : Rows :=
  let next := min (min (r.above.getD (j + 1) 0 + 1) (r.current.getD j 0 + 1))
    (r.above.getD j 0 + if t[j]? = some a then 0 else 1)
  { r with current := r.current.setIfInBounds (j + 1) next }

/-- The current row is filled from the left to the right. -/
def filled (a : UInt8) (i : Nat) (t : Bytes) (r : Rows) (k : Nat) : Rows :=
  (List.range k).foldl (fill a t) { r with current := r.current.setIfInBounds 0 (Int32.ofNat (i + 1)) }

/-- The current row is filled, and the rows change places. -/
def advance (t : Bytes) (r : Rows) (x : UInt8 × Nat) : Rows :=
  ⟨(r.filled x.1 x.2 t t.length).current, (r.filled x.1 x.2 t t.length).above⟩

/-- The rows behind all bytes of a text; `stale` is in the second row before the first one. -/
def run (s t : Bytes) (stale : Array Int32) : Rows :=
  s.zipIdx.foldl (advance t) ⟨(Array.range (t.length + 1)).map Int32.ofNat, stale⟩

/-- The first distances of a row, up to the one from the first `k` bytes of `t`, are those of `u`. -/
structure Holds (u t : Bytes) (row : Array Int32) (k : Nat) : Prop where
  size : row.size = t.length + 1
  value : ∀ j ≤ k, (row.getD j 0).toInt = editDistance u (t.take j)

end Rows

/-- The distance by two buffers that are used again and again. -/
def inPlaceDistance (s t : Bytes) (stale : Array Int32) : Int32 := (Rows.run s t stale).above.getD t.length 0

theorem toInt_add_of_lt {x y : Int32} {m n : Nat} (hx : x.toInt = m) (hy : y.toInt = n) (h : m + n < 2 ^ 31) :
    (x + y).toInt = (m + n : Nat) := by
  rw [Int32.toInt_add, hx, hy, ← Nat.cast_add]
  exact Int.bmod_eq_of_le (by omega) (by omega)

theorem toInt_min {x y : Int32} {m n : Nat} (hx : x.toInt = m) (hy : y.toInt = n) :
    (min x y).toInt = (min m n : Nat) := by
  have hmin : min x y = if x ≤ y then x else y := rfl
  rw [hmin]
  split <;> rename_i hle <;> rw [Int32.le_iff_toInt_le, hx, hy] at hle <;> omega

theorem getD_setIfInBounds {row : Array Int32} {i : Nat} (h : i < row.size) (v : Int32) (j : Nat) :
    (row.setIfInBounds i v).getD j 0 = if i = j then v else row.getD j 0 := by
  rw [Array.getD_eq_getD_getElem?, Array.getElem?_setIfInBounds, Array.getD_eq_getD_getElem?, if_pos h]
  split <;> rfl

/-- Rows of short texts are short of the greatest integer. -/
theorem editDistance_lt {u t : Bytes} (hu : u.length < 2 ^ 30) (ht : t.length < 2 ^ 30) (j : Nat) :
    editDistance u (t.take j) < 2 ^ 30 := by
  have hle := editDistance_le_max u (t.take j)
  have hlen := List.length_take_le' j t
  omega

namespace Rows

variable {u t : Bytes} {a : UInt8} {r : Rows}

theorem Holds.set {row : Array Int32} {k : Nat} (h : Holds u t row k) (hk : k < t.length) {v : Int32}
    (hv : v.toInt = editDistance u (t.take (k + 1))) : Holds u t (row.setIfInBounds (k + 1) v) (k + 1) where
  size := by rw [Array.size_setIfInBounds, h.size]
  value j hj := by
    rw [getD_setIfInBounds (by rw [h.size]; omega)]
    split
    · rename_i heq
      rw [← heq, hv]
    · exact h.value j (by omega)

/-- One distance more. -/
theorem Holds.fill {k : Nat} (habove : Holds u t r.above t.length) (h : Holds (u ++ [a]) t r.current k)
    (hk : k < t.length) (hu : (u ++ [a]).length < 2 ^ 30) (ht : t.length < 2 ^ 30) :
    Holds (u ++ [a]) t (r.fill a t k).current (k + 1) := by
  have hu' : u.length < 2 ^ 30 := by
    rw [List.length_append] at hu
    omega
  have hup := editDistance_lt hu' ht (k + 1)
  have hleft := editDistance_lt hu ht k
  have hboth := editDistance_lt hu' ht k
  have hcost : (if t[k]? = some a then 0 else 1 : Int32).toInt = (if a = t[k] then 0 else 1 : Nat) := by
    rw [List.getElem?_eq_getElem hk]
    by_cases heq : a = t[k]
    · simp [heq]
    · simp [heq, Ne.symm heq]
  refine h.set hk ?_
  rw [List.take_succ_eq_append_getElem hk, editDistance_concat, ← List.take_succ_eq_append_getElem hk]
  refine toInt_min (toInt_min (toInt_add_of_lt (habove.value (k + 1) hk) rfl (by omega))
    (toInt_add_of_lt (h.value k le_rfl) rfl (by omega))) (toInt_add_of_lt (habove.value k hk.le) hcost ?_)
  split <;> omega

theorem holds_filled (habove : Holds u t r.above t.length) (hcurrent : r.current.size = t.length + 1)
    (hu : (u ++ [a]).length < 2 ^ 30) (ht : t.length < 2 ^ 30) {k : Nat} (hk : k ≤ t.length) :
    (r.filled a u.length t k).above = r.above ∧ Holds (u ++ [a]) t (r.filled a u.length t k).current k := by
  induction k with
  | zero =>
    refine ⟨rfl, ⟨by simp [filled, hcurrent], fun j hj => ?_⟩⟩
    obtain rfl := Nat.le_zero.mp hj
    have hfirst : (r.filled a u.length t 0).current = r.current.setIfInBounds 0 (Int32.ofNat (u.length + 1)) := rfl
    rw [List.length_append, List.length_singleton] at hu
    rw [hfirst, getD_setIfInBounds (by omega), if_pos rfl, Int32.toInt_ofNat_of_lt (by omega)]
    simp
  | succ k ih =>
    obtain ⟨hsame, hholds⟩ := ih (by omega)
    have hstep : r.filled a u.length t (k + 1) = (r.filled a u.length t k).fill a t k := by
      rw [filled, List.range_succ, List.foldl_concat]
      rfl
    rw [hstep]
    exact ⟨hsame, Holds.fill (hsame ▸ habove) hholds (by omega) hu ht⟩

/-- Behind all bytes of a text the row above holds its distances, and there is room in the other one. -/
theorem holds_run {stale : Array Int32} (hstale : stale.size = t.length + 1) (ht : t.length < 2 ^ 30)
    (hu : u.length < 2 ^ 30) :
    Holds u t (run u t stale).above t.length ∧ (run u t stale).current.size = t.length + 1 := by
  induction u using List.reverseRecOn with
  | nil =>
    refine ⟨⟨by simp [run], fun j hj => ?_⟩, hstale⟩
    have hvalue : (run [] t stale).above.getD j 0 = Int32.ofNat j := by
      simp [run, Array.getD_eq_getD_getElem?, Nat.lt_succ_of_le hj]
    rw [hvalue, Int32.toInt_ofNat_of_lt (by omega), editDistance_nil_left, List.length_take_of_le hj]
  | append_singleton u a ih =>
    have hu' : u.length < 2 ^ 30 := by
      rw [List.length_append] at hu
      omega
    obtain ⟨habove, hcurrent⟩ := ih hu'
    have hrun : run (u ++ [a]) t stale = (run u t stale).advance t (a, u.length) := by
      simp [run, List.zipIdx_append]
    obtain ⟨hsame, hholds⟩ := holds_filled habove hcurrent hu ht le_rfl
    rw [hrun]
    refine ⟨hholds, ?_⟩
    change ((run u t stale).filled a u.length t t.length).above.size = t.length + 1
    rw [hsame, habove.size]

end Rows

/-- **Two buffers suffice**: what was in the second one before never shows, and no integer overflows. -/
theorem toInt_inPlaceDistance {s t : Bytes} (hs : s.length < 2 ^ 30) (ht : t.length < 2 ^ 30) {stale : Array Int32}
    (hstale : stale.size = t.length + 1) : (inPlaceDistance s t stale).toInt = editDistance s t := by
  rw [inPlaceDistance, (Rows.holds_run hstale ht hs).1.value t.length le_rfl, List.take_length]

end Typewright
