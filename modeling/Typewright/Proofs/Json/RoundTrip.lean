import Mathlib
import Typewright.Description.Json
import Typewright.Proofs.Json.Decoder
import Typewright.Proofs.Text.Bytes

/-!
# Reports come back from their JSON

* `Json.Reads v text` : the decoder reads `text` as `v`, whatever closes it;
* `Json.reads_string`, `Json.reads_int`, `Json.reads_array`, `Json.reads_object` : one rule for each way to write JSON;
* `Report.tree` : the value that stands for a report, and `Json.report?` : the report in a value;
* `Report.decode_json` : decoding the JSON of a report gives the report.
-/

namespace Typewright

namespace Json

/-- What follows a value: nothing, a comma or a closing bracket. -/
def Closes (rest : Bytes) : Prop := ∀ b, rest.head? = some b → b = Bytes.byte ',' ∨ b = Bytes.byte ']' ∨ b = 125

/-- A text is read as a value, and does not close an array. -/
structure Reads (v : Json) (text : Bytes) : Prop where
  opens : ∀ rest, expect? (Bytes.byte ']') (text ++ rest) = none
  value : ∀ n rest, text.length ≤ n → Closes rest → value? n (text ++ rest) = some (v, rest)

theorem closes_nil : Closes [] := by simp [Closes]

theorem closes_cons {b : UInt8} (h : b = Bytes.byte ',' ∨ b = Bytes.byte ']' ∨ b = 125) (rest : Bytes) :
    Closes (b :: rest) := by
  simpa [Closes] using h

theorem skipBlanks_cons {b : UInt8} (h : isBlank b = false) (s : Bytes) : skipBlanks (b :: s) = b :: s := by
  rw [skipBlanks, List.dropWhile_cons, h]
  rfl

theorem expect?_cons {b : UInt8} (h : isBlank b = false) (c : UInt8) (s : Bytes) :
    expect? c (b :: s) = if b = c then some s else none := by
  rw [expect?, skipBlanks_cons h]

/-! ## Strings -/

theorem hexValue?_hexDigit : ∀ n < 16, hexValue? (JsonText.hexDigit n) = some n := by decide

theorem encodeOne_of_lt : ∀ n : Nat, n < 128 → Utf8.encodeOne n = [n.toUInt8] := by decide

theorem unit?_of_hexValue? {a b c d : UInt8} {i j k l : Nat} (ha : hexValue? a = some i) (hb : hexValue? b = some j)
    (hc : hexValue? c = some k) (hd : hexValue? d = some l) (rest : Bytes) :
    unit? (a :: b :: c :: d :: rest) = some (((i * 16 + j) * 16 + k) * 16 + l, rest) := by
  rw [unit?, ha, hb, hc, hd]

/-- A control character is written by its number. -/
theorem numbered?_hexDigits {b : UInt8} (hb : b < 32) (rest : Bytes) :
    numbered? (Bytes.ascii "00" ++ [JsonText.hexDigit (b.toNat / 16), JsonText.hexDigit (b.toNat % 16)] ++ rest) =
      some ([b], rest) := by
  have hlt : b.toNat < 32 := hb
  have hunit : unit? (Bytes.ascii "00" ++ [JsonText.hexDigit (b.toNat / 16), JsonText.hexDigit (b.toNat % 16)] ++ rest) =
      some (b.toNat, rest) := by
    have hzero : hexValue? 48 = some 0 := by decide
    have hhigh := hexValue?_hexDigit (b.toNat / 16) (by omega)
    have hlow := hexValue?_hexDigit (b.toNat % 16) (by omega)
    have hvalue : b.toNat / 16 * 16 + b.toNat % 16 = b.toNat := by omega
    have hunit := unit?_of_hexValue? hzero hzero hhigh hlow rest
    rw [Nat.zero_mul, Nat.zero_add, hvalue] at hunit
    exact hunit
  rw [numbered?, hunit]
  have hhigh : ¬ (0xD800 ≤ b.toNat ∧ b.toNat < 0xDC00) := by omega
  simp [hhigh, encodeOne_of_lt b.toNat (by omega)]

/-- **An escaped byte is read as the byte**, whatever follows it. -/
theorem character?_escape (b : UInt8) (rest : Bytes) : character? (JsonText.escape b ++ rest) = some ([b], rest) := by
  unfold JsonText.escape
  split
  · next h => rw [h]; rfl
  split
  · next h => rw [h]; rfl
  split
  · next h => rw [h]; rfl
  split
  · next h => rw [h]; rfl
  split
  · next h => rw [h]; rfl
  split
  · next h => exact numbered?_hexDigits h rest
  · next hquote hslash _ _ _ hlow =>
    change (if b < 32 ∨ b = Bytes.quote then none else if b = Bytes.backslash then _ else some ([b], rest)) = _
    rw [if_neg (not_or.mpr ⟨hlow, hquote⟩), if_neg hslash]

theorem head?_escape (b : UInt8) (rest : Bytes) : (JsonText.escape b ++ rest).head? ≠ some Bytes.quote := by
  unfold JsonText.escape
  split_ifs with hquote
  all_goals simp [Bytes.quote, Bytes.backslash] at *
  exact hquote

theorem length_le_length_escape (s : Bytes) : s.length ≤ (s.flatMap JsonText.escape).length := by
  induction s with
  | nil => exact Nat.le_refl 0
  | cons b s ih =>
    have hpos : 0 < (JsonText.escape b).length := by
      unfold JsonText.escape
      split_ifs <;> simp
    rw [List.flatMap_cons, List.length_append, List.length_cons]
    omega

theorem characters?_escape (s rest : Bytes) {n : Nat} (hn : s.length < n) :
    characters? n (s.flatMap JsonText.escape ++ Bytes.quote :: rest) = some (s, rest) := by
  induction s generalizing n with
  | nil =>
    obtain ⟨n, rfl⟩ := Nat.exists_eq_add_one_of_ne_zero (Nat.ne_of_gt hn)
    simp [characters?]
  | cons b s ih =>
    obtain ⟨n, rfl⟩ := Nat.exists_eq_add_one_of_ne_zero (Nat.ne_of_gt (Nat.zero_lt_of_lt hn))
    rw [List.flatMap_cons, List.append_assoc, characters?, if_neg (head?_escape b _), character?_escape]
    simp [ih (Nat.lt_of_succ_lt_succ hn)]

theorem string?_escape (s rest : Bytes) :
    string? (s.flatMap JsonText.escape ++ Bytes.quote :: rest) = some (s, rest) := by
  refine characters?_escape s rest ?_
  have hle := length_le_length_escape s
  simp only [List.length_append, List.length_cons]
  omega

theorem reads_string (s : Bytes) : Reads (.string s) (JsonText.string s) := by
  have hcons : ∀ rest, JsonText.string s ++ rest = Bytes.quote :: (s.flatMap JsonText.escape ++ Bytes.quote :: rest) := by
    simp [JsonText.string, Bytes.quoted]
  refine ⟨fun rest => ?_, fun n rest hn _ => ?_⟩
  · rw [hcons, expect?_cons (by decide), if_neg (by decide)]
  · have hpos : n ≠ 0 := by
      rintro rfl
      simp [JsonText.string, Bytes.quoted] at hn
    obtain ⟨n, rfl⟩ := Nat.exists_eq_add_one_of_ne_zero hpos
    rw [hcons, value?, skipBlanks_cons (by decide)]
    simp [string?_escape]

/-! ## Numbers and truth values -/

/-- A number is written without leading zeros. -/
theorem isWhole_decimal (n : Nat) : isWhole (Bytes.decimal n) = true := by
  rw [Bytes.decimal]
  split
  · rfl
  · obtain ⟨b, s, hs, hb⟩ := Bytes.exists_cons_decimal (show n / 10 ≠ 0 by omega)
    rw [hs]
    cases s with
    | nil => simpa [isWhole] using hb
    | cons c s => simpa [isWhole] using hb

theorem Closes.takeWhile_isDigit {rest : Bytes} (h : Closes rest) : rest.takeWhile Bytes.isDigit = [] := by
  cases rest with
  | nil => rfl
  | cons b rest => rcases h b rfl with rfl | rfl | rfl <;> rfl

theorem Closes.dropWhile_isDigit {rest : Bytes} (h : Closes rest) : rest.dropWhile Bytes.isDigit = rest := by
  cases rest with
  | nil => rfl
  | cons b rest => rcases h b rfl with rfl | rfl | rfl <;> rfl

/-- Behind a number there is no fraction and no exponent. -/
theorem Closes.fraction? {rest : Bytes} (h : Closes rest) : fraction? rest = some ([], rest) := by
  cases rest with
  | nil => rfl
  | cons b rest => rcases h b rfl with rfl | rfl | rfl <;> rfl

theorem Closes.exponent? {rest : Bytes} (h : Closes rest) : exponent? rest = some (0, rest) := by
  cases rest with
  | nil => rfl
  | cons b rest => rcases h b rfl with rfl | rfl | rfl <;> rfl

theorem unsigned?_decimal (negative : Bool) (n : Nat) {rest : Bytes} (hrest : Closes rest) :
    unsigned? negative (Bytes.decimal n ++ rest) = some (.number (if negative then -(n : Int) else n) 0, rest) := by
  have htake : (Bytes.decimal n ++ rest).takeWhile Bytes.isDigit = Bytes.decimal n := by
    rw [List.takeWhile_append_of_pos (Bytes.isDigit_of_mem_decimal n), hrest.takeWhile_isDigit, List.append_nil]
  have hdrop : (Bytes.decimal n ++ rest).dropWhile Bytes.isDigit = rest := by
    rw [List.dropWhile_append_of_pos (Bytes.isDigit_of_mem_decimal n), hrest.dropWhile_isDigit]
  simp [unsigned?, htake, hdrop, isWhole_decimal, hrest.fraction?, hrest.exponent?, signed, Bytes.ofDecimal_decimal]

/-- The bytes that start a number. -/
def StartsNumber (b : UInt8) : Prop := b = Bytes.byte '-' ∨ Bytes.isDigit b = true

theorem StartsNumber.ne {b c : UInt8} (h : StartsNumber b) (hc : Bytes.isDigit c = false ∧ c ≠ Bytes.byte '-') :
    b ≠ c := by
  rintro rfl
  rcases h with h | h
  · exact hc.2 h
  · rw [hc.1] at h
    cases h

theorem StartsNumber.isBlank_eq_false {b : UInt8} (h : StartsNumber b) : isBlank b = false := by
  have h1 : b ≠ 32 := h.ne (by decide)
  have h2 : b ≠ 9 := h.ne (by decide)
  have h3 : b ≠ 10 := h.ne (by decide)
  have h4 : b ≠ 13 := h.ne (by decide)
  simp [isBlank, h1, h2, h3, h4]

theorem value?_number {b : UInt8} (hb : StartsNumber b) (n : Nat) (s : Bytes) :
    value? (n + 1) (b :: s) = number? (b :: s) := by
  have hquote : b ≠ Bytes.quote := hb.ne (by decide)
  have harray : b ≠ Bytes.byte '[' := hb.ne (by decide)
  have hobject : b ≠ 123 := hb.ne (by decide)
  rw [value?, skipBlanks_cons hb.isBlank_eq_false]
  dsimp only
  rw [if_neg hquote, if_neg harray, if_neg hobject]
  exact if_pos hb

theorem exists_startsNumber (i : Int) : ∃ b s, Bytes.decimalInt i = b :: s ∧ StartsNumber b := by
  cases i with
  | ofNat n =>
    cases hd : Bytes.decimal n with
    | nil =>
      have hwhole := isWhole_decimal n
      rw [hd] at hwhole
      cases hwhole
    | cons b s => exact ⟨b, s, hd, Or.inr (Bytes.isDigit_of_mem_decimal n b (hd ▸ List.mem_cons_self))⟩
  | negSucc n => exact ⟨_, _, rfl, Or.inl rfl⟩

theorem number?_decimalInt (i : Int) {rest : Bytes} (hrest : Closes rest) :
    number? (Bytes.decimalInt i ++ rest) = some (.number i 0, rest) := by
  cases i with
  | ofNat n =>
    obtain ⟨b, s, hs, -⟩ := exists_startsNumber (.ofNat n)
    have hdigit : Bytes.isDigit b = true := by
      refine Bytes.isDigit_of_mem_decimal n b ?_
      rw [show Bytes.decimal n = b :: s from hs]
      exact List.mem_cons_self
    have hminus : b ≠ Bytes.byte '-' := by
      rintro rfl
      cases hdigit
    rw [hs, List.cons_append, number?, if_neg hminus, ← List.cons_append, ← hs]
    exact unsigned?_decimal false n hrest
  | negSucc n =>
    rw [Bytes.decimalInt, List.cons_append, number?, if_pos rfl, unsigned?_decimal true (n + 1) hrest]
    rfl

theorem reads_int (i : Int) : Reads (.number i 0) (Bytes.decimalInt i) := by
  obtain ⟨b, s, hs, hb⟩ := exists_startsNumber i
  refine ⟨fun rest => ?_, fun n rest hn hrest => ?_⟩
  · rw [hs, List.cons_append, expect?_cons hb.isBlank_eq_false, if_neg (hb.ne (by decide))]
  · have hpos : n ≠ 0 := by
      rintro rfl
      simp [hs] at hn
    obtain ⟨n, rfl⟩ := Nat.exists_eq_add_one_of_ne_zero hpos
    rw [← number?_decimalInt i hrest, hs, List.cons_append, value?_number hb]

theorem reads_bool (b : Bool) : Reads (.bool b) (Bytes.ascii (if b then "true" else "false")) := by
  refine ⟨fun rest => ?_, fun n rest hn _ => ?_⟩
  · cases b <;> rfl
  · have hpos : n ≠ 0 := by
      rintro rfl
      cases b <;> simp [Bytes.ascii] at hn
    obtain ⟨n, rfl⟩ := Nat.exists_eq_add_one_of_ne_zero hpos
    cases b <;> rfl

/-! ## Arrays and objects -/

theorem expect?_comma (rest : Bytes) : expect? (Bytes.byte ',') (Bytes.byte ',' :: rest) = some rest := rfl

/-- Items that are read one by one are read together. -/
theorem items?_join {vs : List Json} {texts : List Bytes} (h : List.Forall₂ Reads vs texts) (hne : texts ≠ [])
    {n : Nat} (rest : Bytes) (hn : (Bytes.join (Bytes.ascii ",") texts).length < n) :
    items? n (Bytes.join (Bytes.ascii ",") texts ++ Bytes.byte ']' :: rest) = some (vs, rest) := by
  induction h generalizing n with
  | nil => exact absurd rfl hne
  | @cons v text vs texts hv hrest ih =>
    obtain ⟨n, rfl⟩ := Nat.exists_eq_add_one_of_ne_zero (Nat.ne_of_gt (Nat.zero_lt_of_lt hn))
    cases hrest with
    | nil =>
      rw [Bytes.join] at hn ⊢
      rw [items?, hv.value n _ (Nat.le_of_lt_succ hn) (closes_cons (Or.inr (Or.inl rfl)) rest)]
      rfl
    | @cons v' text' vs' texts' hv' hrest' =>
      rw [Bytes.join, List.length_append, List.length_append] at hn
      have hcomma : (Bytes.ascii ",").length = 1 := rfl
      have hlater := ih (List.cons_ne_nil text' texts') (n := n) (by omega)
      have hfirst := hv.value n (Bytes.byte ',' :: (Bytes.join (Bytes.ascii ",") (text' :: texts') ++
        Bytes.byte ']' :: rest)) (by omega) (closes_cons (Or.inl rfl) _)
      rw [Bytes.join, List.append_assoc, List.append_assoc,
        show Bytes.ascii "," = [Bytes.byte ','] from rfl] at *
      rw [List.singleton_append, items?, hfirst]
      dsimp only
      rw [expect?_comma]
      dsimp only
      rw [hlater]
      rfl

theorem reads_array {vs : List Json} {texts : List Bytes} (h : List.Forall₂ Reads vs texts) :
    Reads (.array vs) (JsonText.array texts) := by
  have hcons : ∀ rest, JsonText.array texts ++ rest =
      Bytes.byte '[' :: (Bytes.join (Bytes.ascii ",") texts ++ Bytes.byte ']' :: rest) := by
    simp [JsonText.array]
  refine ⟨fun rest => ?_, fun n rest hn _ => ?_⟩
  · rw [hcons, expect?_cons (by decide), if_neg (by decide)]
  · have hlength : (JsonText.array texts).length = (Bytes.join (Bytes.ascii ",") texts).length + 2 := by
      simp [JsonText.array]
    obtain ⟨n, rfl⟩ := Nat.exists_eq_add_one_of_ne_zero (show n ≠ 0 by omega)
    rw [hcons, value?, skipBlanks_cons (by decide)]
    dsimp only
    rw [if_neg (by decide), if_pos rfl]
    cases h with
    | nil => rfl
    | @cons v text vs texts hv hrest =>
      have hopens : expect? (Bytes.byte ']') (Bytes.join (Bytes.ascii ",") (text :: texts) ++ Bytes.byte ']' :: rest) =
          none := by
        cases texts with
        | nil => exact hv.opens _
        | cons text' texts =>
          rw [Bytes.join, List.append_assoc, List.append_assoc]
          exact hv.opens _
      rw [hopens]
      dsimp only
      rw [items?_join (.cons hv hrest) (List.cons_ne_nil text texts) rest (by omega)]
      rfl

/-- A member of an object is read: its key has nothing to escape and its value is read. -/
structure ReadsMember (m : Bytes × Json) (member : String × Bytes) : Prop where
  key : Bytes.ascii member.1 = m.1
  plain : m.1.flatMap JsonText.escape = m.1
  value : Reads m.2 member.2

abbrev memberText (member : String × Bytes) : Bytes :=
  Bytes.quoted (Bytes.ascii member.1) ++ Bytes.byte ':' :: member.2

theorem ReadsMember.memberText_append {m : Bytes × Json} {member : String × Bytes} (h : ReadsMember m member)
    (rest : Bytes) : memberText member ++ rest =
      Bytes.quote :: (m.1.flatMap JsonText.escape ++ Bytes.quote :: Bytes.byte ':' :: (member.2 ++ rest)) := by
  rw [h.plain, ← h.key]
  simp [memberText, Bytes.quoted]

theorem ReadsMember.string?_key {m : Bytes × Json} {member : String × Bytes} (h : ReadsMember m member) (rest : Bytes) :
    (expect? Bytes.quote (memberText member ++ rest)).bind string? =
      some (m.1, Bytes.byte ':' :: (member.2 ++ rest)) := by
  rw [h.memberText_append, expect?_cons (by decide), if_pos rfl, Option.bind_some, string?_escape]

theorem ReadsMember.value?_value {m : Bytes × Json} {member : String × Bytes} (h : ReadsMember m member) {n : Nat}
    {rest : Bytes} (hn : member.2.length ≤ n) (hrest : Closes rest) :
    (expect? (Bytes.byte ':') (Bytes.byte ':' :: (member.2 ++ rest))).bind (value? n) = some (m.2, rest) := by
  rw [expect?_cons (by decide), if_pos rfl, Option.bind_some, h.value.value n rest hn hrest]

theorem members?_join {ms : List (Bytes × Json)} {members : List (String × Bytes)}
    (h : List.Forall₂ ReadsMember ms members) (hne : members ≠ []) {n : Nat} (rest : Bytes)
    (hn : (Bytes.join (Bytes.ascii ",") (members.map memberText)).length < n) :
    members? n (Bytes.join (Bytes.ascii ",") (members.map memberText) ++ 125 :: rest) = some (ms, rest) := by
  induction h generalizing n with
  | nil => exact absurd rfl hne
  | @cons m member ms members hm hrest ih =>
    obtain ⟨n, rfl⟩ := Nat.exists_eq_add_one_of_ne_zero (Nat.ne_of_gt (Nat.zero_lt_of_lt hn))
    have hlength : member.2.length ≤ (memberText member).length := by
      simp [memberText]
      omega
    cases hrest with
    | nil =>
      rw [List.map_cons, List.map_nil, Bytes.join] at hn ⊢
      rw [members?, hm.string?_key]
      dsimp only
      rw [hm.value?_value (by omega) (closes_cons (Or.inr (Or.inr rfl)) rest)]
      rfl
    | @cons m' member' ms' members' hm' hrest' =>
      rw [List.map_cons, List.map_cons, Bytes.join, List.length_append, List.length_append] at hn
      have hcomma : (Bytes.ascii ",").length = 1 := rfl
      have hlater := ih (List.cons_ne_nil member' members') (n := n) (by rw [List.map_cons]; omega)
      rw [List.map_cons, List.map_cons, Bytes.join, List.append_assoc, List.append_assoc,
        show Bytes.ascii "," = [Bytes.byte ','] from rfl, List.singleton_append, members?, hm.string?_key]
      dsimp only
      rw [hm.value?_value (by omega) (closes_cons (Or.inl rfl) _)]
      dsimp only
      rw [expect?_comma]
      dsimp only
      rw [← List.map_cons, show [Bytes.byte ','] = Bytes.ascii "," from rfl, hlater]
      rfl

theorem reads_object {ms : List (Bytes × Json)} {members : List (String × Bytes)}
    (h : List.Forall₂ ReadsMember ms members) : Reads (.object ms) (JsonText.object members) := by
  have hcons : ∀ rest, JsonText.object members ++ rest =
      123 :: (Bytes.join (Bytes.ascii ",") (members.map memberText) ++ 125 :: rest) := by
    simp [JsonText.object]
  refine ⟨fun rest => ?_, fun n rest hn _ => ?_⟩
  · rw [hcons, expect?_cons (by decide), if_neg (by decide)]
  · have hlength : (JsonText.object members).length =
        (Bytes.join (Bytes.ascii ",") (members.map memberText)).length + 2 := by
      simp [JsonText.object]
    obtain ⟨n, rfl⟩ := Nat.exists_eq_add_one_of_ne_zero (show n ≠ 0 by omega)
    rw [hcons, value?, skipBlanks_cons (by decide)]
    dsimp only
    rw [if_neg (by decide), if_neg (by decide), if_pos rfl]
    cases h with
    | nil => rfl
    | @cons m member ms members hm hrest =>
      have hopens : expect? 125 (Bytes.join (Bytes.ascii ",") ((member :: members).map memberText) ++ 125 :: rest) =
          none := by
        cases members with
        | nil => rfl
        | cons member' members => rfl
      rw [hopens]
      dsimp only
      rw [members?_join (.cons hm hrest) (List.cons_ne_nil member members) rest (by omega)]
      rfl

/-- A text that is read as a value decodes to it. -/
theorem Reads.decode {v : Json} {text : Bytes} (h : Reads v text) : decode text = some v := by
  have hvalue := h.value (text.length + 1) [] (by omega) closes_nil
  rw [List.append_nil] at hvalue
  rw [Json.decode, hvalue]
  rfl

/-! ## Reading a report back -/

def member? (key : String) : Json → Option Json
  | .object ms => (ms.find? fun m => m.1 == Bytes.ascii key).map Prod.snd
  | _ => none

def bytes? : Json → Option Bytes
  | .string s => some s
  | _ => none

/-- The integer of a number, if 32 bits hold it. -/
def int32? : Json → Option Int32
  | .number m 0 => if (Int32.ofInt m).toInt = m then some (Int32.ofInt m) else none
  | _ => none

def bool? : Json → Option Bool
  | .bool b => some b
  | _ => none

/-- The items of an array, each read in one way. -/
def list? {α : Type} (item? : Json → Option α) : Json → Option (List α)
  | .array vs => vs.mapM item?
  | _ => none

theorem list?_map {α : Type} {item? : Json → Option α} {tree : α → Json} (h : ∀ a, item? (tree a) = some a)
    (as : List α) : list? item? (.array (as.map tree)) = some as := by
  rw [list?]
  induction as with
  | nil => rfl
  | cons a as ih => rw [List.map_cons, List.mapM_cons, h, ih]; rfl

def position? (v : Json) : Option Position := do
  let line ← (← v.member? "line").int32?
  let column ← (← v.member? "col").int32?
  return { line, column }

theorem int32?_number (n : Int32) : int32? (.number n.toInt 0) = some n := by
  simp [int32?]

theorem position?_eq {v : Json} {p : Position} (hline : v.member? "line" = some (.number p.line.toInt 0))
    (hcolumn : v.member? "col" = some (.number p.column.toInt 0)) : v.position? = some p := by
  simp [position?, hline, hcolumn, int32?_number]

def note? (v : Json) : Option Note := do
  let message ← (← v.member? "message").bytes?
  let pos ← v.position?
  return { message, pos }

def diagnostic? (v : Json) : Option Diagnostic := do
  let code ← (← v.member? "code").bytes?
  let message ← (← v.member? "message").bytes?
  let hint ← (← v.member? "hint").bytes?
  let pos ← v.position?
  let notes ← (← v.member? "notes").list? note?
  return { code, message, hint, pos, notes }

def report? (v : Json) : Option Report := do
  let success ← (← v.member? "success").bool?
  let errors ← (← v.member? "errors").list? diagnostic?
  let warnings ← (← v.member? "warnings").list? diagnostic?
  return { success, errors, warnings }

end Json

def Note.tree (n : Note) : Json :=
  .object [(Bytes.ascii "message", .string n.message), (Bytes.ascii "line", .number n.pos.line.toInt 0),
    (Bytes.ascii "col", .number n.pos.column.toInt 0)]

def Diagnostic.tree (d : Diagnostic) : Json :=
  .object [(Bytes.ascii "code", .string d.code), (Bytes.ascii "message", .string d.message),
    (Bytes.ascii "hint", .string d.hint), (Bytes.ascii "line", .number d.pos.line.toInt 0),
    (Bytes.ascii "col", .number d.pos.column.toInt 0), (Bytes.ascii "notes", .array (d.notes.map Note.tree))]

def Report.tree (r : Report) : Json :=
  .object [(Bytes.ascii "success", .bool r.success), (Bytes.ascii "errors", .array (r.errors.map Diagnostic.tree)),
    (Bytes.ascii "warnings", .array (r.warnings.map Diagnostic.tree))]

open Json

theorem Note.note?_tree (n : Note) : n.tree.note? = some n := by
  have hpos : n.tree.position? = some n.pos := position?_eq rfl rfl
  change (do
    let pos ← n.tree.position?
    return ({ n with pos } : Note)) = some n
  rw [hpos]
  rfl

theorem Diagnostic.diagnostic?_tree (d : Diagnostic) : d.tree.diagnostic? = some d := by
  have hpos : d.tree.position? = some d.pos := position?_eq rfl rfl
  have hnotes := list?_map Note.note?_tree d.notes
  change (do
    let pos ← d.tree.position?
    let notes ← list? note? (.array (d.notes.map Note.tree))
    return ({ d with pos, notes } : Diagnostic)) = some d
  rw [hpos, hnotes]
  rfl

theorem Report.report?_tree (r : Report) : r.tree.report? = some r := by
  have herrors := list?_map Diagnostic.diagnostic?_tree r.errors
  have hwarnings := list?_map Diagnostic.diagnostic?_tree r.warnings
  change (do
    let errors ← list? diagnostic? (.array (r.errors.map Diagnostic.tree))
    let warnings ← list? diagnostic? (.array (r.warnings.map Diagnostic.tree))
    return ({ r with errors, warnings } : Report)) = some r
  rw [herrors, hwarnings]
  rfl

theorem Note.reads_json (n : Note) : Reads n.tree n.json := by
  apply reads_object
  refine .cons ⟨rfl, rfl, reads_string _⟩ (.cons ⟨rfl, rfl, reads_int _⟩ ?_)
  exact .cons ⟨rfl, rfl, reads_int _⟩ .nil

/-- Arrays of things that are read one by one. -/
theorem Json.reads_array_map {α : Type} {tree : α → Json} {json : α → Bytes} (h : ∀ a, Reads (tree a) (json a))
    (as : List α) : Reads (.array (as.map tree)) (JsonText.array (as.map json)) := by
  apply reads_array
  rw [List.forall₂_map_left_iff, List.forall₂_map_right_iff]
  exact List.forall₂_same.mpr fun a _ => h a

theorem Diagnostic.reads_json (d : Diagnostic) : Reads d.tree d.json := by
  apply reads_object
  refine .cons ⟨rfl, rfl, reads_string _⟩ (.cons ⟨rfl, rfl, reads_string _⟩ ?_)
  refine .cons ⟨rfl, rfl, reads_string _⟩ (.cons ⟨rfl, rfl, reads_int _⟩ ?_)
  refine .cons ⟨rfl, rfl, reads_int _⟩ (.cons ⟨rfl, rfl, ?_⟩ .nil)
  exact reads_array_map Note.reads_json d.notes

theorem Report.reads_json (r : Report) : Reads r.tree r.json := by
  apply reads_object
  refine .cons ⟨rfl, rfl, reads_bool _⟩ (.cons ⟨rfl, rfl, ?_⟩ (.cons ⟨rfl, rfl, ?_⟩ .nil))
  · exact reads_array_map Diagnostic.reads_json r.errors
  · exact reads_array_map Diagnostic.reads_json r.warnings

/-- **The JSON of a report decodes, as a whole, to an object with the success, the errors and the warnings of the
report**, whatever bytes and numbers they hold. -/
theorem Report.decode_json (r : Report) : Json.decode r.json = some r.tree ∧ r.tree.report? = some r :=
  ⟨r.reads_json.decode, r.report?_tree⟩

end Typewright
