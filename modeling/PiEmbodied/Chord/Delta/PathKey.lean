import PiEmbodied.Chord.Delta.Op

/-!
# Path keys

The encoder's dictionary is keyed by `JSON.stringify(path)`.  Two paths have one
key only if they are one path: every quoted unit can be read back, and a
segment's text ends where the next separator stands.
-/

namespace PiEmbodied.Chord.Delta

open List (append_assoc cons_append nil_append)

/-! ## The text of a path -/

def hexDigit (n : ℕ) : UInt16 := ((if n < 10 then 48 + n else 87 + n) : ℕ).toUInt16

/-- `\uXXXX`. -/
def unicodeEscape (unit : UInt16) : Text :=
  [0x5C, 0x75, hexDigit (unit.toNat / 4096), hexDigit (unit.toNat / 256 % 16),
    hexDigit (unit.toNat / 16 % 16), hexDigit (unit.toNat % 16)]

def isHigh (unit : UInt16) : Bool := 0xD800 ≤ unit ∧ unit ≤ 0xDBFF

def isLow (unit : UInt16) : Bool := 0xDC00 ≤ unit ∧ unit ≤ 0xDFFF

/-- One unit inside a quoted string; a surrogate outside a pair is escaped. -/
def quoteUnit (inPair : Bool) (unit : UInt16) : Text :=
  if unit = 0x22 then [0x5C, 0x22]
  else if unit = 0x5C then [0x5C, 0x5C]
  else if unit = 0x08 then [0x5C, 0x62]
  else if unit = 0x0C then [0x5C, 0x66]
  else if unit = 0x0A then [0x5C, 0x6E]
  else if unit = 0x0D then [0x5C, 0x72]
  else if unit = 0x09 then [0x5C, 0x74]
  else if unit < 0x20 then unicodeEscape unit
  else if (isHigh unit || isLow unit) && !inPair then unicodeEscape unit
  else [unit]

/-- The units of a string; `second` says whether the first of them is the
second half of a pair. -/
def quoteUnits (second : Bool) : Text → Text
  | [] => []
  | unit :: rest =>
    let first := isHigh unit && rest.head?.any isLow
    quoteUnit (first || second) unit ++ quoteUnits first rest

def quote (text : Text) : Text := 0x22 :: quoteUnits false text ++ [0x22]

/-- The digits of an index.  From `10^21` on the language writes an exponent
form instead, again one text a number. -/
def digits (n : ℕ) : Text :=
  (Nat.toDigits 10 n).map fun digit => digit.toNat.toUInt16

def Seg.text : Seg → Text
  | .key name => quote name
  | .index at_ => digits at_

def joinSegs : Path → Text
  | [] => []
  | [last] => last.text
  | segment :: rest => segment.text ++ 0x2C :: joinSegs rest

/-- `JSON.stringify(path)`. -/
def pathKey (path : Path) : Text := 0x5B :: joinSegs path ++ [0x5D]

/-! ## Reading a quoted unit back -/

def hexValue (digit : UInt16) : ℕ :=
  if digit.toNat < 58 then digit.toNat - 48 else digit.toNat - 87

def readUnit : Text → Option (UInt16 × Text)
  | 0x5C :: 0x75 :: a :: b :: c :: d :: rest =>
    some ((hexValue a * 4096 + hexValue b * 256 + hexValue c * 16 + hexValue d).toUInt16, rest)
  | 0x5C :: letter :: rest =>
    if letter = 0x62 then some (0x08, rest)
    else if letter = 0x66 then some (0x0C, rest)
    else if letter = 0x6E then some (0x0A, rest)
    else if letter = 0x72 then some (0x0D, rest)
    else if letter = 0x74 then some (0x09, rest)
    else some (letter, rest)
  | unit :: rest => if unit = 0x22 then none else some (unit, rest)
  | [] => none

variable {n : ℕ}

theorem hexValue_hexDigit (small : n < 16) : hexValue (hexDigit n) = n := by
  interval_cases n <;> rfl

theorem readUnit_unicodeEscape (unit : UInt16) (rest : Text) :
    readUnit (unicodeEscape unit ++ rest) = some (unit, rest) := by
  have bound := unit.toNat_lt
  have value :
      unit.toNat / 4096 * 4096 + unit.toNat / 256 % 16 * 256 +
          unit.toNat / 16 % 16 * 16 + unit.toNat % 16 =
        unit.toNat := by
    omega
  simp only [unicodeEscape, cons_append, nil_append, readUnit]
  rw [hexValue_hexDigit (by omega), hexValue_hexDigit (by omega),
    hexValue_hexDigit (by omega), hexValue_hexDigit (by omega), value]
  simp

theorem readUnit_quoteUnit (inPair : Bool) (unit : UInt16) (rest : Text) :
    readUnit (quoteUnit inPair unit ++ rest) = some (unit, rest) := by
  unfold quoteUnit
  split_ifs with quoteMark backslash
  · subst quoteMark
    rfl
  · subst backslash
    rfl
  · simp_all [readUnit]
  · simp_all [readUnit]
  · simp_all [readUnit]
  · simp_all [readUnit]
  · simp_all [readUnit]
  · exact readUnit_unicodeEscape unit rest
  · exact readUnit_unicodeEscape unit rest
  · simp only [cons_append, nil_append]
    unfold readUnit
    split <;> simp_all

theorem quoteUnits_append_inj {left : Text} :
    ∀ {right : Text} {second second' : Bool} {tail tail' : Text},
      quoteUnits second left ++ 0x22 :: tail = quoteUnits second' right ++ 0x22 :: tail' →
      left = right ∧ tail = tail' := by
  induction left with
  | nil =>
    intro right second second' tail tail' equal
    cases right with
    | nil => simpa [quoteUnits] using equal
    | cons unit rest =>
      have read := congrArg readUnit equal
      simp only [quoteUnits, append_assoc, readUnit_quoteUnit] at read
      simp [readUnit] at read
  | cons unit rest ih =>
    intro right second second' tail tail' equal
    have read := congrArg readUnit equal
    cases right with
    | nil =>
      simp only [quoteUnits, append_assoc, readUnit_quoteUnit] at read
      simp [readUnit] at read
    | cons other others =>
      simp only [quoteUnits, append_assoc, readUnit_quoteUnit,
        Option.some.injEq, Prod.mk.injEq] at read
      obtain ⟨sameUnit, sameRest⟩ := read
      obtain ⟨sameText, sameTail⟩ := ih sameRest
      exact ⟨by rw [sameUnit, sameText], sameTail⟩

/-! ## Segments -/

def isDigitUnit (unit : UInt16) : Bool := 48 ≤ unit ∧ unit ≤ 57

theorem isDigit_bounds {digit : Char} (member : digit ∈ Nat.toDigits 10 n) :
    48 ≤ digit.toNat ∧ digit.toNat ≤ 57 := by
  have isDigit := Nat.isDigit_of_mem_toDigits (by decide) (by decide) member
  simp only [Char.isDigit, Bool.and_eq_true, decide_eq_true_eq] at isDigit
  exact isDigit

theorem digits_all (n : ℕ) : ∀ unit ∈ digits n, isDigitUnit unit := by
  intro unit member
  obtain ⟨digit, inDigits, rfl⟩ := List.mem_map.mp member
  have bounds := isDigit_bounds inDigits
  simp only [isDigitUnit, decide_eq_true_eq, UInt16.le_iff_toNat_le]
  constructor <;> simp <;> omega

theorem digits_ne_nil (n : ℕ) : digits n ≠ [] := by
  simp [digits, Nat.toDigits_ne_nil]

theorem digits_injective : Function.Injective digits := by
  intro n m equal
  have readBack :
      ∀ k, (digits k).map (fun unit => Char.ofNat unit.toNat) =
        Nat.toDigits 10 k := by
    intro k
    rw [digits, List.map_map]
    conv_rhs => rw [← List.map_id (Nat.toDigits 10 k)]
    apply List.map_congr_left
    intro digit member
    have bounds := isDigit_bounds member
    have small : digit.toNat % 65536 = digit.toNat := by omega
    simp [small]
  calc
    n = Nat.ofDigitChars 10 (Nat.toDigits 10 n) 0 := Nat.ofDigitChars_ten_toDigits.symm
    _ = Nat.ofDigitChars 10 (Nat.toDigits 10 m) 0 := by rw [← readBack, ← readBack, equal]
    _ = m := Nat.ofDigitChars_ten_toDigits

/-- A text that starts with no digit and no quote: what may follow a
segment. -/
def Stops (text : Text) : Prop :=
  ∃ unit rest, text = unit :: rest ∧ isDigitUnit unit = false

variable {tail tail' : Text}

theorem digits_append_inj {m : ℕ} (stops : Stops tail) (stops' : Stops tail')
    (equal : digits n ++ tail = digits m ++ tail') : n = m ∧ tail = tail' := by
  have taken :
      ∀ (k : ℕ) {text : Text}, Stops text →
        (digits k ++ text).takeWhile isDigitUnit = digits k := by
    rintro k text ⟨unit, rest, rfl, notDigit⟩
    rw [List.takeWhile_append_of_pos (digits_all k), List.takeWhile_cons]
    simp [notDigit]
  have sameDigits : digits n = digits m := by rw [← taken n stops, equal, taken m stops']
  rw [sameDigits] at equal
  exact ⟨digits_injective sameDigits, List.append_cancel_left equal⟩

theorem Seg.text_append_inj {left right : Seg} (stops : Stops tail) (stops' : Stops tail')
    (equal : left.text ++ tail = right.text ++ tail') : left = right ∧ tail = tail' := by
  have noQuote :
      ∀ (k : ℕ) (name : Text) (rest rest' : Text), digits k ++ rest ≠ quote name ++ rest' := by
    intro k name rest rest' same
    cases shape : digits k with
    | nil => exact digits_ne_nil k shape
    | cons unit others =>
      have isDigit := digits_all k unit (by simp [shape])
      simp only [shape, quote, cons_append, List.cons.injEq] at same
      rw [same.1] at isDigit
      exact absurd isDigit (by decide)
  cases left with
  | key name =>
    cases right with
    | key name' =>
      simp only [Seg.text, quote, cons_append, append_assoc,
        List.cons.injEq, true_and, nil_append] at equal
      obtain ⟨sameName, sameTail⟩ := quoteUnits_append_inj equal
      exact ⟨by rw [sameName], sameTail⟩
    | index m => exact absurd equal.symm (noQuote m name _ _)
  | index n =>
    cases right with
    | key name => exact absurd equal (noQuote n name _ _)
    | index m =>
      obtain ⟨sameIndex, sameTail⟩ := digits_append_inj stops stops' equal
      exact ⟨by rw [sameIndex], sameTail⟩

/-! ## Paths -/

private theorem comma_stops (text : Text) : Stops (0x2C :: text) :=
  ⟨_, _, rfl, by decide⟩

private theorem bracket_stops (text : Text) : Stops (0x5D :: text) :=
  ⟨_, _, rfl, by decide⟩

theorem Seg.text_ne_bracket (segment : Seg) (tail tail' : Text) :
    segment.text ++ tail ≠ 0x5D :: tail' := by
  intro same
  cases segment with
  | key name =>
    simp only [Seg.text, quote, cons_append, List.cons.injEq] at same
    exact absurd same.1 (by decide)
  | index n =>
    cases shape : digits n with
    | nil => exact digits_ne_nil n shape
    | cons unit others =>
      have isDigit := digits_all n unit (by simp [shape])
      simp only [Seg.text, shape, cons_append, List.cons.injEq] at same
      rw [same.1] at isDigit
      exact absurd isDigit (by decide)

theorem joinSegs_bracket_inj {left : Path} :
    ∀ {right : Path}, joinSegs left ++ [0x5D] = joinSegs right ++ [0x5D] → left = right := by
  induction left with
  | nil =>
    intro right equal
    cases right with
    | nil => rfl
    | cons segment rest =>
      cases rest with
      | nil => exact absurd equal.symm (segment.text_ne_bracket _ _)
      | cons next rest =>
        simp only [joinSegs, append_assoc] at equal
        exact absurd equal.symm (segment.text_ne_bracket _ _)
  | cons segment rest ih =>
    intro right equal
    cases right with
    | nil =>
      cases rest with
      | nil => exact absurd equal (segment.text_ne_bracket _ _)
      | cons next rest =>
        simp only [joinSegs, append_assoc] at equal
        exact absurd equal (segment.text_ne_bracket _ _)
    | cons other others =>
      cases rest with
      | nil =>
        cases others with
        | nil =>
          have same := Seg.text_append_inj (bracket_stops _) (bracket_stops _) equal
          rw [same.1]
        | cons next others =>
          simp only [joinSegs, append_assoc] at equal
          have same := Seg.text_append_inj (bracket_stops _) (comma_stops _) equal
          exact absurd same.2 (by simp)
      | cons next rest =>
        cases others with
        | nil =>
          simp only [joinSegs, append_assoc] at equal
          have same := Seg.text_append_inj (comma_stops _) (bracket_stops _) equal
          exact absurd same.2 (by simp)
        | cons next' others =>
          simp only [joinSegs, append_assoc] at equal
          have same := Seg.text_append_inj (comma_stops _) (comma_stops _) equal
          have sameTail := List.cons.inj same.2
          rw [same.1, ih sameTail.2]

theorem pathKey_injective : Function.Injective pathKey := by
  intro left right equal
  exact joinSegs_bracket_inj (List.cons.inj equal).2

end PiEmbodied.Chord.Delta
