import PiEmbodied.Instances

/-!
# UTF-16 text and its UTF-8 encoding

A string is a list of UTF-16 code units, which need not be well formed: a
surrogate on its own reads as the replacement character.  Bytes are natural
numbers below 256.  The decoder takes one byte at a time; a byte that cannot go
on an incomplete character ends it and is then read again as a first byte.
-/

namespace Utf8

open List (append_assoc append_nil cons_append flatMap_cons flatMap_nil length_append
  length_cons map_cons mem_cons mem_cons_self mem_singleton nil_append not_mem_nil
  singleton_append)

/-! ## Code points of a string -/

/-- A code point that is not a surrogate. -/
def IsScalar (point : ℕ) : Prop :=
  point < 0xD800 ∨ 0xE000 ≤ point ∧ point < 0x110000

/-- U+FFFD. -/
def replacement : ℕ := 0xFFFD

theorem replacement_isScalar : IsScalar replacement := by
  unfold IsScalar replacement
  omega

def isHigh (unit : UInt16) : Bool :=
  decide (0xD800 ≤ unit.toNat ∧ unit.toNat < 0xDC00)

def isLow (unit : UInt16) : Bool :=
  decide (0xDC00 ≤ unit.toNat ∧ unit.toNat < 0xE000)

/-- What a code unit outside a pair stands for. -/
def lonePoint (unit : UInt16) : ℕ :=
  if isHigh unit || isLow unit then replacement else unit.toNat

def pairPoint (high low : UInt16) : ℕ :=
  0x10000 + high.toNat % 0x400 * 0x400 + low.toNat % 0x400

/-- The code points of a string. -/
def codePoints : List UInt16 → List ℕ
  | [] => []
  | [unit] => [lonePoint unit]
  | first :: second :: rest =>
    if isHigh first && isLow second then
      pairPoint first second :: codePoints rest
    else
      lonePoint first :: codePoints (second :: rest)

/-- The code units of a code point. -/
def unitsOf (point : ℕ) : List UInt16 :=
  if point < 0x10000 then [point.toUInt16]
  else
    [(0xD800 + (point - 0x10000) / 0x400).toUInt16, (0xDC00 + (point - 0x10000) % 0x400).toUInt16]

/-- The string of some code points. -/
def text (points : List ℕ) : List UInt16 :=
  points.flatMap unitsOf

theorem toNat_toUInt16 {value : ℕ} (small : value < 0x10000) : value.toUInt16.toNat = value := by
  simp only [Nat.toUInt16_eq, UInt16.toNat_ofNat']
  omega

theorem codePoints_cons_of_not_high
    {unit : UInt16} (notHigh : isHigh unit = false) (rest : List UInt16) :
    codePoints (unit :: rest) = lonePoint unit :: codePoints rest := by
  cases rest with
  | nil => rfl
  | cons second rest =>
    rw [codePoints, notHigh]
    rfl

variable (unit : UInt16) (before : List UInt16)

theorem lonePoint_isScalar : IsScalar (lonePoint unit) := by
  unfold lonePoint
  split
  · exact replacement_isScalar
  · rename_i neither
    have bound := unit.toNat_lt
    simp only [isHigh, isLow, Bool.or_eq_true, decide_eq_true_eq, not_or] at neither
    unfold IsScalar
    omega

theorem pairPoint_isScalar (high low : UInt16) : IsScalar (pairPoint high low) := by
  rw [pairPoint]
  right
  constructor <;> omega

theorem codePoints_isScalar (string : List UInt16) :
    ∀ point ∈ codePoints string, IsScalar point := by
  induction string using codePoints.induct with
  | case1 => simp [codePoints]
  | case2 unit =>
    intro point member
    rw [codePoints, mem_singleton] at member
    rw [member]
    exact lonePoint_isScalar unit
  | case3 first second rest isPair ih =>
    intro point member
    rw [codePoints, if_pos isPair] at member
    rcases List.mem_cons.mp member with rfl | later
    · exact pairPoint_isScalar first second
    · exact ih point later
  | case4 first second rest notPair ih =>
    intro point member
    rw [codePoints, if_neg notPair] at member
    rcases List.mem_cons.mp member with rfl | later
    · exact lonePoint_isScalar first
    · exact ih point later

variable {point : ℕ}

theorem codePoints_unitsOf_append (isScalar : IsScalar point) (rest : List UInt16) :
    codePoints (unitsOf point ++ rest) = point :: codePoints rest := by
  unfold IsScalar at isScalar
  unfold unitsOf
  split
  · rename_i small
    have sameNat := toNat_toUInt16 small
    have notHigh : isHigh point.toUInt16 = false := by
      simp only [isHigh, sameNat, decide_eq_false_iff_not]
      omega
    have notLow : isLow point.toUInt16 = false := by
      simp only [isLow, sameNat, decide_eq_false_iff_not]
      omega
    rw [singleton_append, codePoints_cons_of_not_high notHigh, lonePoint,
      notHigh, notLow, sameNat]
    rfl
  · rename_i large
    have highNat := @toNat_toUInt16 (0xD800 + (point - 0x10000) / 0x400) (by omega)
    have lowNat := @toNat_toUInt16 (0xDC00 + (point - 0x10000) % 0x400) (by omega)
    have isPair :
        (isHigh (0xD800 + (point - 0x10000) / 0x400).toUInt16 &&
          isLow (0xDC00 + (point - 0x10000) % 0x400).toUInt16) = true := by
      simp only [isHigh, isLow, highNat, lowNat, Bool.and_eq_true,
        decide_eq_true_eq]
      omega
    have samePoint :
        pairPoint (0xD800 + (point - 0x10000) / 0x400).toUInt16
            (0xDC00 + (point - 0x10000) % 0x400).toUInt16 = point := by
      rw [pairPoint, highNat, lowNat]
      omega
    rw [cons_append, singleton_append, codePoints, if_pos isPair, samePoint]

variable {points : List ℕ}

/-- Decoded text reads back as the points it was made of. -/
theorem codePoints_text (allScalar : ∀ point ∈ points, IsScalar point) :
    codePoints (text points) = points := by
  induction points with
  | nil => rfl
  | cons point rest ih =>
    rw [text, flatMap_cons, codePoints_unitsOf_append (allScalar point mem_cons_self)]
    congr 1
    exact ih fun later member => allScalar later (List.mem_cons_of_mem point member)

/-- A cut of a string into `before` and `after` that parts a surrogate pair. -/
def SplitsPair (before after : List UInt16) : Prop :=
  ∃ high ∈ before.getLast?, ∃ low ∈ after.head?, isHigh high = true ∧ isLow low = true

instance (before after : List UInt16) : Decidable (SplitsPair before after) :=
  inferInstanceAs
    (Decidable
      (∃ high ∈ before.getLast?, ∃ low ∈ after.head?, isHigh high = true ∧ isLow low = true))

theorem not_splitsPair_nil_left (after : List UInt16) : ¬ SplitsPair [] after := by
  rintro ⟨high, isLast, _⟩
  exact absurd isLast (by simp)

theorem not_splitsPair_nil_right : ¬ SplitsPair before [] := by
  rintro ⟨_, _, low, isFirst, _⟩
  exact absurd isFirst (by simp)

theorem codePoints_append {before after : List UInt16} (whole : ¬ SplitsPair before after) :
    codePoints (before ++ after) = codePoints before ++ codePoints after := by
  induction before using codePoints.induct with
  | case1 => rfl
  | case2 unit =>
    cases after with
    | nil => simp [codePoints]
    | cons low rest =>
      have notPair : ¬ (isHigh unit && isLow low) = true := by
        intro isPair
        rw [Bool.and_eq_true] at isPair
        exact whole ⟨unit, rfl, low, rfl, isPair⟩
      rw [singleton_append, codePoints, codePoints, if_neg notPair]
      rfl
  | case3 first second rest isPair ih =>
    have restWhole : ¬ SplitsPair rest after := by
      intro splits
      cases rest with
      | nil => exact not_splitsPair_nil_left after splits
      | cons third rest =>
        obtain ⟨high, isLast, others⟩ := splits
        exact whole ⟨high, by simpa using isLast, others⟩
    rw [cons_append, cons_append, codePoints, if_pos isPair,
      codePoints, if_pos isPair, ih restWhole]
    rfl
  | case4 first second rest notPair ih =>
    have restWhole : ¬ SplitsPair (second :: rest) after := by
      rintro ⟨high, isLast, others⟩
      exact whole ⟨high, by simpa using isLast, others⟩
    rw [cons_append, cons_append, codePoints, if_neg notPair,
      codePoints, if_neg notPair, ← cons_append,
      ih restWhole]
    rfl

/-! ## Encoding -/

/-- The bytes of a code point. -/
def encodePoint (point : ℕ) : List ℕ :=
  if point < 0x80 then [point]
  else if point < 0x800 then [0xC0 + point / 0x40, 0x80 + point % 0x40]
  else if point < 0x10000 then
    [0xE0 + point / 0x1000, 0x80 + point / 0x40 % 0x40, 0x80 + point % 0x40]
  else
    [0xF0 + point / 0x40000, 0x80 + point / 0x1000 % 0x40,
      0x80 + point / 0x40 % 0x40, 0x80 + point % 0x40]

def encodePoints (points : List ℕ) : List ℕ :=
  points.flatMap encodePoint

/-- The UTF-8 bytes of a string. -/
def encode (string : List UInt16) : List ℕ :=
  encodePoints (codePoints string)

@[simp]
theorem encode_nil : encode [] = [] :=
  rfl

theorem encodePoints_append (first second : List ℕ) :
    encodePoints (first ++ second) = encodePoints first ++ encodePoints second := by
  exact List.flatMap_append

theorem encode_append {before after : List UInt16} (whole : ¬ SplitsPair before after) :
    encode (before ++ after) = encode before ++ encode after := by
  rw [encode, codePoints_append whole, encodePoints_append]
  rfl

theorem encode_single : encode [unit] = encodePoint (lonePoint unit) := by
  rw [encode, codePoints, encodePoints, flatMap_cons, flatMap_nil, append_nil]

theorem encode_pair {first second : UInt16} (isPair : (isHigh first && isLow second) = true)
    (rest : List UInt16) :
    encode (first :: second :: rest) = encodePoint (pairPoint first second) ++ encode rest := by
  rw [encode, codePoints, if_pos isPair]
  rfl

theorem encode_lone {first second : UInt16} (notPair : ¬ (isHigh first && isLow second) = true)
    (rest : List UInt16) :
    encode (first :: second :: rest) =
      encodePoint (lonePoint first) ++ encode (second :: rest) := by
  rw [encode, codePoints, if_neg notPair]
  rfl

/-- `(byte & 0xc0) === 0x80`: the byte goes on a character. -/
def Continues (byte : ℕ) : Prop :=
  byte / 0x40 = 2

instance (byte : ℕ) : Decidable (Continues byte) :=
  inferInstanceAs (Decidable (byte / 0x40 = 2))

theorem length_encodePoint (point : ℕ) :
    (encodePoint point).length =
      if point < 0x80 then 1
      else if point < 0x800 then 2
      else if point < 0x10000 then 3
      else 4 := by
  simp only [encodePoint, apply_ite List.length, length_cons, List.length_nil]

/-- A character is a first byte and at most three that go on it. -/
theorem encodePoint_shape (point : ℕ) :
    ∃ first rest,
      encodePoint point = first :: rest ∧ ¬ Continues first ∧
        rest.length ≤ 3 ∧ ∀ byte ∈ rest, Continues byte := by
  unfold encodePoint Continues
  split
  · exact ⟨_, _, rfl, by omega, by simp, by simp⟩
  · split
    · refine ⟨_, _, rfl, by omega, by simp, ?_⟩
      simp only [mem_singleton, forall_eq]
      omega
    · split
      · refine ⟨_, _, rfl, by omega, by simp, ?_⟩
        simp only [mem_cons, not_mem_nil, or_false, forall_eq_or_imp, forall_eq]
        omega
      · refine ⟨_, _, rfl, by omega, by simp, ?_⟩
        simp only [mem_cons, not_mem_nil, or_false, forall_eq_or_imp, forall_eq]
        omega

/-! ## Decoding -/

/-- An incomplete character: the bytes still owed, the bits so far, and the
bounds of the next byte. -/
structure Partial where
  (owed point lower upper : ℕ)
deriving DecidableEq

/-- A byte where a character may start. -/
def lead (byte : ℕ) : Option Partial × List ℕ :=
  if byte < 0x80 then (none, [byte])
  else if 0xC2 ≤ byte ∧ byte < 0xE0 then
    (some ⟨1, byte - 0xC0, 0x80, 0xBF⟩, [])
  else if 0xE0 ≤ byte ∧ byte < 0xF0 then
    (some ⟨2, byte - 0xE0, if byte = 0xE0 then 0xA0 else 0x80,
      if byte = 0xED then 0x9F else 0xBF⟩, [])
  else if 0xF0 ≤ byte ∧ byte < 0xF5 then
    (some ⟨3, byte - 0xF0, if byte = 0xF0 then 0x90 else 0x80,
      if byte = 0xF4 then 0x8F else 0xBF⟩, [])
  else (none, [replacement])

/-- One byte: the incomplete character after it and the code points it ends. -/
def feed : Option Partial → ℕ → Option Partial × List ℕ
  | none, byte => lead byte
  | some pending, byte =>
    if pending.lower ≤ byte ∧ byte ≤ pending.upper then
      let point := pending.point * 0x40 + byte % 0x40
      if pending.owed ≤ 1 then (none, [point])
      else (some ⟨pending.owed - 1, point, 0x80, 0xBF⟩, [])
    else ((lead byte).1, replacement :: (lead byte).2)

def feedAll (pending : Option Partial) : List ℕ → Option Partial × List ℕ
  | [] => (pending, [])
  | byte :: rest =>
    let next := feed pending byte
    let last := feedAll next.1 rest
    (last.1, next.2 ++ last.2)

/-- The end of the bytes ends an incomplete character. -/
def flush : Option Partial → List ℕ
  | none => []
  | some _ => [replacement]

/-- The string that some bytes decode to. -/
def decode (bytes : List ℕ) : List UInt16 :=
  text ((feedAll none bytes).2 ++ flush (feedAll none bytes).1)

theorem feedAll_append (pending : Option Partial) (first second : List ℕ) :
    feedAll pending (first ++ second) =
      ((feedAll (feedAll pending first).1 second).1,
        (feedAll pending first).2 ++ (feedAll (feedAll pending first).1 second).2) := by
  induction first generalizing pending with
  | nil => rfl
  | cons byte rest ih =>
    rw [cons_append, feedAll, feedAll, ih]
    simp only [append_assoc]

variable {byte : ℕ}

theorem feed_two (low : 0xC2 ≤ byte) (high : byte < 0xE0) :
    feed none byte = (some ⟨1, byte - 0xC0, 0x80, 0xBF⟩, []) := by
  rw [feed, lead, if_neg (by omega), if_pos ⟨low, high⟩]

theorem feed_three (low : 0xE0 ≤ byte) (high : byte < 0xF0) :
    feed none byte =
      (some ⟨2, byte - 0xE0, if byte = 0xE0 then 0xA0 else 0x80,
        if byte = 0xED then 0x9F else 0xBF⟩, []) := by
  rw [feed, lead, if_neg (by omega), if_neg (by omega), if_pos ⟨low, high⟩]

theorem feed_four (low : 0xF0 ≤ byte) (high : byte < 0xF5) :
    feed none byte =
      (some ⟨3, byte - 0xF0, if byte = 0xF0 then 0x90 else 0x80,
        if byte = 0xF4 then 0x8F else 0xBF⟩, []) := by
  rw [feed, lead, if_neg (by omega), if_neg (by omega), if_neg (by omega),
    if_pos ⟨low, high⟩]

variable {pending : Partial}

theorem feedAll_last (last : pending.owed = 1) (low : pending.lower ≤ byte)
    (high : byte ≤ pending.upper) :
    feedAll (some pending) [byte] = (none, [pending.point * 0x40 + byte % 0x40]) := by
  rw [feedAll, feed, if_pos ⟨low, high⟩, if_pos (by omega)]
  rfl

theorem feed_middle (more : 1 < pending.owed) (low : pending.lower ≤ byte)
    (high : byte ≤ pending.upper) :
    feed (some pending) byte =
      (some ⟨pending.owed - 1, pending.point * 0x40 + byte % 0x40, 0x80, 0xBF⟩, []) := by
  rw [feed, if_pos ⟨low, high⟩, if_neg (by omega)]

theorem feedAll_cons_of {pending next : Option Partial} {ended : List ℕ}
    (step : feed pending byte = (next, ended)) (rest : List ℕ) :
    feedAll pending (byte :: rest) = ((feedAll next rest).1, ended ++ (feedAll next rest).2) := by
  rw [feedAll, step]

theorem feedAll_two (large : 0x80 ≤ point) (small : point < 0x800) :
    feedAll none [0xC0 + point / 0x40, 0x80 + point % 0x40] = (none, [point]) := by
  rw [feedAll_cons_of (feed_two (by omega) (by omega)),
    feedAll_last rfl (by simp only; omega) (by simp only; omega)]
  simp only [nil_append, Prod.mk.injEq, true_and, List.cons.injEq, and_true]
  omega

theorem feedAll_three (large : 0x800 ≤ point) (small : point < 0x10000)
    (isScalar : IsScalar point) :
    feedAll none [0xE0 + point / 0x1000, 0x80 + point / 0x40 % 0x40, 0x80 + point % 0x40] =
      (none, [point]) := by
  unfold IsScalar at isScalar
  rw [feedAll_cons_of (feed_three (by omega) (by omega)),
    feedAll_cons_of
      (feed_middle (Nat.lt_add_one 1)
        (by simp only; split <;> omega) (by simp only; split <;> omega)),
    feedAll_last rfl (by simp only; omega) (by simp only; omega)]
  simp only [nil_append, Prod.mk.injEq, true_and, List.cons.injEq, and_true]
  omega

theorem feedAll_four (large : 0x10000 ≤ point) (small : point < 0x110000) :
    feedAll none
        [0xF0 + point / 0x40000, 0x80 + point / 0x1000 % 0x40,
          0x80 + point / 0x40 % 0x40, 0x80 + point % 0x40] =
      (none, [point]) := by
  rw [feedAll_cons_of (feed_four (by omega) (by omega)),
    feedAll_cons_of
      (feed_middle (by simp only; omega)
        (by simp only; split <;> omega) (by simp only; split <;> omega)),
    feedAll_cons_of
      (feed_middle (by simp only; omega) (by simp only; omega) (by simp only; omega)),
    feedAll_last rfl (by simp only; omega) (by simp only; omega)]
  simp only [nil_append, Prod.mk.injEq, true_and, List.cons.injEq, and_true]
  omega

theorem feedAll_encodePoint (isScalar : IsScalar point) :
    feedAll none (encodePoint point) = (none, [point]) := by
  unfold encodePoint
  split
  · rename_i small
    simp only [feedAll, feed, lead, if_pos small, append_nil]
  · split
    · exact feedAll_two (by omega) (by omega)
    · split
      · exact feedAll_three (by omega) (by omega) isScalar
      · apply feedAll_four (by omega)
        unfold IsScalar at isScalar
        omega

section

variable (allScalar : ∀ point ∈ points, IsScalar point)
include allScalar

theorem feedAll_encodePoints :
    feedAll none (encodePoints points) = (none, points) := by
  induction points with
  | nil => rfl
  | cons point rest ih =>
    rw [encodePoints, flatMap_cons, feedAll_append,
      feedAll_encodePoint (allScalar point mem_cons_self)]
    have restDecodes := ih fun later member => allScalar later (List.mem_cons_of_mem point member)
    rw [encodePoints] at restDecodes
    simp only [restDecodes, singleton_append]

theorem decode_encodePoints :
    decode (encodePoints points) = text points := by
  rw [decode, feedAll_encodePoints allScalar, flush, append_nil]

/-- Whole characters survive decoding. -/
theorem encode_decode_encodePoints :
    encode (decode (encodePoints points)) = encodePoints points := by
  rw [decode_encodePoints allScalar, encode, codePoints_text allScalar]

end

/-! ## What the decoder emits -/

/-- No point from `low` up to `high` is a surrogate or too large. -/
def ScalarSpan (low high : ℕ) : Prop :=
  high ≤ 0xD800 ∨ 0xE000 ≤ low ∧ high ≤ 0x110000

/-- The points an incomplete character can still become are scalar. -/
def Partial.Sound (pending : Partial) : Prop :=
  let low := pending.point * 0x40 + pending.lower % 0x40
  let high := pending.point * 0x40 + pending.upper % 0x40 + 1
  0x80 ≤ pending.lower ∧ pending.upper ≤ 0xBF ∧
    (pending.owed = 1 ∧ ScalarSpan low high ∨
      pending.owed = 2 ∧ ScalarSpan (low * 0x40) (high * 0x40) ∨
      pending.owed = 3 ∧ ScalarSpan (low * 0x1000) (high * 0x1000))

/-- Nothing incomplete, or something that ends well. -/
def Sound (pending : Option Partial) : Prop :=
  ∀ incomplete ∈ pending, incomplete.Sound

theorem sound_none : Sound none := by
  intro incomplete member
  cases member

theorem sound_some (sound : pending.Sound) : Sound (some pending) := by
  intro incomplete member
  cases member
  exact sound

/-- What one byte leaves is sound and what it ends is scalar. -/
def EndsWell (result : Option Partial × List ℕ) : Prop :=
  Sound result.1 ∧ ∀ point ∈ result.2, IsScalar point

theorem endsWell_incomplete (sound : pending.Sound) : EndsWell (some pending, []) :=
  ⟨sound_some sound, fun _ member => absurd member not_mem_nil⟩

theorem endsWell_point (isScalar : IsScalar point) : EndsWell (none, [point]) := by
  refine ⟨sound_none, ?_⟩
  intro ended member
  rw [mem_singleton] at member
  rw [member]
  exact isScalar

theorem lead_endsWell (byte : ℕ) : EndsWell (lead byte) := by
  unfold lead
  split
  · rename_i small
    exact endsWell_point (Or.inl (by omega))
  · split
    · apply endsWell_incomplete
      simp only [Partial.Sound, ScalarSpan]
      refine ⟨Nat.le_refl _, Nat.le_refl _, Or.inl ⟨trivial, ?_⟩⟩
      omega
    · split
      · apply endsWell_incomplete
        simp only [Partial.Sound, ScalarSpan]
        refine ⟨by split <;> omega, by split <;> omega, ?_⟩
        right
        left
        refine ⟨trivial, ?_⟩
        split <;> split <;> omega
      · split
        · apply endsWell_incomplete
          simp only [Partial.Sound, ScalarSpan]
          refine ⟨by split <;> omega, by split <;> omega, ?_⟩
          right
          right
          refine ⟨trivial, ?_⟩
          split <;> split <;> omega
        · exact endsWell_point replacement_isScalar

theorem feed_endsWell {pending : Option Partial} (sound : Sound pending) (byte : ℕ) :
    EndsWell (feed pending byte) := by
  cases pending with
  | none => exact lead_endsWell byte
  | some incomplete =>
    have isSound := sound incomplete rfl
    simp only [Partial.Sound, ScalarSpan] at isSound
    rw [feed]
    split
    · rename_i inBounds
      simp only
      split
      · apply endsWell_point
        unfold IsScalar
        omega
      · apply endsWell_incomplete
        simp only [Partial.Sound, ScalarSpan]
        omega
    · refine ⟨(lead_endsWell byte).1, ?_⟩
      intro point member
      rcases List.mem_cons.mp member with rfl | later
      · exact replacement_isScalar
      · exact (lead_endsWell byte).2 point later

theorem feedAll_endsWell {pending : Option Partial} (sound : Sound pending) (bytes : List ℕ) :
    EndsWell (feedAll pending bytes) := by
  induction bytes generalizing pending with
  | nil => exact ⟨sound, fun _ member => absurd member not_mem_nil⟩
  | cons byte rest ih =>
    have here := feed_endsWell sound byte
    have later := ih here.1
    refine ⟨later.1, ?_⟩
    exact List.forall_mem_append.mpr ⟨here.2, later.2⟩

theorem flush_isScalar (pending : Option Partial) : ∀ point ∈ flush pending, IsScalar point := by
  intro point member
  cases pending with
  | none => exact absurd member not_mem_nil
  | some incomplete =>
    rw [flush, mem_singleton] at member
    rw [member]
    exact replacement_isScalar

/-- The bytes an incomplete character stands for when it ends badly. -/
def weight : Option Partial → ℕ
  | none => 0
  | some _ => 3

theorem length_encodePoints_cons (point : ℕ) (rest : List ℕ) :
    (encodePoints (point :: rest)).length =
      (encodePoint point).length + (encodePoints rest).length := by
  rw [encodePoints, flatMap_cons, length_append]
  rfl

theorem length_encodePoint_replacement : (encodePoint replacement).length = 3 :=
  rfl

theorem lead_weight (byte : ℕ) :
    (encodePoints (lead byte).2).length + weight (lead byte).1 ≤ 3 := by
  unfold lead
  split
  · rename_i small
    rw [length_encodePoints_cons, length_encodePoint, if_pos small]
    exact Nat.le_add_left 1 2
  · split
    · exact Nat.le_refl 3
    · split
      · exact Nat.le_refl 3
      · split
        · exact Nat.le_refl 3
        · exact Nat.le_refl 3

theorem feed_weight (pending : Option Partial) (byte : ℕ) :
    (encodePoints (feed pending byte).2).length + weight (feed pending byte).1 ≤
      3 + weight pending := by
  cases pending with
  | none => exact lead_weight byte
  | some incomplete =>
    rw [feed]
    split
    · simp only
      split
      · obtain ⟨first, rest, bytes, _, short, _⟩ :=
          encodePoint_shape (incomplete.point * 0x40 + byte % 0x40)
        rw [length_encodePoints_cons, bytes, length_cons]
        simp only [encodePoints, flatMap_nil, List.length_nil, weight]
        omega
      · exact Nat.le_add_right 3 3
    · have rest := lead_weight byte
      rw [length_encodePoints_cons, length_encodePoint_replacement]
      simp only [weight] at rest ⊢
      omega

/-- Decoding makes at most three bytes of one. -/
theorem feedAll_weight (pending : Option Partial) (bytes : List ℕ) :
    (encodePoints (feedAll pending bytes).2).length + weight (feedAll pending bytes).1 ≤
      3 * bytes.length + weight pending := by
  induction bytes generalizing pending with
  | nil =>
    rw [feedAll]
    simp [encodePoints]
  | cons byte rest ih =>
    have here := feed_weight pending byte
    have later := ih (feed pending byte).1
    rw [feedAll]
    simp only [encodePoints_append, length_append, length_cons]
    omega

theorem unitsOf_head (isScalar : IsScalar point) :
    ∃ unit rest, unitsOf point = unit :: rest ∧ isLow unit = false := by
  unfold IsScalar at isScalar
  unfold unitsOf
  split
  · refine ⟨_, _, rfl, ?_⟩
    rw [isLow, toNat_toUInt16 (by omega)]
    simp only [decide_eq_false_iff_not]
    omega
  · refine ⟨_, _, rfl, ?_⟩
    rw [isLow, toNat_toUInt16 (by omega)]
    simp only [decide_eq_false_iff_not]
    omega

theorem unitsOf_last (isScalar : IsScalar point) :
    ∃ initial unit, unitsOf point = initial ++ [unit] ∧ isHigh unit = false := by
  unfold IsScalar at isScalar
  unfold unitsOf
  split
  · refine ⟨[], _, rfl, ?_⟩
    rw [isHigh, toNat_toUInt16 (by omega)]
    simp only [decide_eq_false_iff_not]
    omega
  · refine ⟨[_], _, rfl, ?_⟩
    rw [isHigh, toNat_toUInt16 (by omega)]
    simp only [decide_eq_false_iff_not]
    omega

theorem not_splitsPair_text_right (allScalar : ∀ point ∈ points, IsScalar point) :
    ¬ SplitsPair before (text points) := by
  rintro ⟨high, _, low, isFirst, _, lowIsLow⟩
  cases points with
  | nil => exact absurd isFirst (by simp [text])
  | cons point rest =>
    obtain ⟨unit, others, units, notLow⟩ := unitsOf_head (allScalar point mem_cons_self)
    rw [text, flatMap_cons, units, cons_append, List.head?_cons] at isFirst
    cases isFirst
    rw [notLow] at lowIsLow
    cases lowIsLow

theorem not_splitsPair_text_left
    (allScalar : ∀ point ∈ points, IsScalar point) (after : List UInt16) :
    ¬ SplitsPair (text points) after := by
  rintro ⟨high, isLast, low, _, highIsHigh, _⟩
  rcases List.eq_nil_or_concat points with rfl | ⟨initial, point, rfl⟩
  · exact absurd isLast (by simp [text])
  · obtain ⟨others, unit, units, notHigh⟩ :=
      unitsOf_last (allScalar point (by simp))
    rw [text, List.concat_eq_append, List.flatMap_append, flatMap_cons,
      flatMap_nil, append_nil, units, ← append_assoc,
      List.getLast?_append_of_ne_nil _ (by simp)] at isLast
    cases isLast
    rw [List.getLast_singleton, notHigh] at highIsHigh
    cases highIsHigh

/-- What follows a character boundary is whole characters. -/
theorem drop_encodePoints (points : List ℕ) (start : ℕ)
    (boundary : ∀ byte ∈ (encodePoints points)[start]?, ¬ Continues byte) :
    ∃ count, (encodePoints points).drop start = encodePoints (points.drop count) := by
  induction points generalizing start with
  | nil => exact ⟨0, by simp [encodePoints]⟩
  | cons point rest ih =>
    obtain ⟨first, others, bytes, _, _, continuing⟩ := encodePoint_shape point
    have split : encodePoints (point :: rest) = (first :: others) ++ encodePoints rest := by
      rw [encodePoints, flatMap_cons, bytes]
      rfl
    by_cases atStart : start = 0
    · exact ⟨0, by rw [atStart]; rfl⟩
    · by_cases inside : start < (first :: others).length
      · have member : others[start - 1]? = (first :: others)[start]? := by
          rw [List.getElem?_cons, if_neg atStart]
        rw [split, List.getElem?_append_left inside, ← member] at boundary
        have bound : start - 1 < others.length := by
          rw [length_cons] at inside
          omega
        rw [List.getElem?_eq_getElem bound] at boundary
        exact absurd (continuing _ (List.getElem_mem bound)) (boundary _ rfl)
      · rw [split, List.getElem?_append_right (by omega)] at boundary
        obtain ⟨count, same⟩ := ih _ boundary
        refine ⟨count + 1, ?_⟩
        rw [split, List.drop_append, List.drop_of_length_le (by omega),
          nil_append, same, List.drop_succ_cons]

/-- A character boundary is never more than three bytes away. -/
theorem exists_boundary (points : List ℕ) (index : ℕ)
    (inside : index < (encodePoints points).length) :
    ∃ boundary byte,
      boundary ≤ index ∧ index ≤ boundary + 3 ∧ (encodePoints points)[boundary]? = some byte ∧
        ¬ Continues byte := by
  induction points generalizing index with
  | nil => exact absurd inside (Nat.not_lt_zero index)
  | cons point rest ih =>
    obtain ⟨first, others, bytes, firstStarts, short, _⟩ := encodePoint_shape point
    have split : encodePoints (point :: rest) = (first :: others) ++ encodePoints rest := by
      rw [encodePoints, flatMap_cons, bytes]
      rfl
    rw [split] at inside ⊢
    by_cases here : index < (first :: others).length
    · rw [length_cons] at here
      exact ⟨0, first, by omega, by omega, rfl, firstStarts⟩
    · rw [length_append] at inside
      obtain ⟨boundary, byte, before, near, isByte, starts⟩ :=
        ih (index - (first :: others).length) (by omega)
      refine ⟨(first :: others).length + boundary, byte, by omega, by omega, ?_, starts⟩
      rw [List.getElem?_append_right (by omega), Nat.add_sub_cancel_left]
      exact isByte

/-! ## An ASCII code in a string and in its bytes -/

section Ascii

variable {code : ℕ} (ascii : code < 0x80)

include ascii

theorem count_encodePoint (point : ℕ) :
    (encodePoint point).count code = if point = code then 1 else 0 := by
  unfold encodePoint
  split
  · rw [List.count_singleton]
    simp only [beq_iff_eq]
  · have different : point ≠ code := by omega
    rw [if_neg different, List.count_eq_zero]
    intro member
    split at member
    · simp only [mem_cons, not_mem_nil, or_false] at member
      omega
    · split at member
      · simp only [mem_cons, not_mem_nil, or_false] at member
        omega
      · simp only [mem_cons, not_mem_nil, or_false] at member
        omega

theorem getLast?_encodePoint (point : ℕ) :
    (encodePoint point).getLast? = some code ↔ point = code := by
  unfold encodePoint
  split
  · simp
  · split
    · simp only [List.getLast?_cons_cons, List.getLast?_singleton, Option.some.injEq]
      omega
    · split
      · simp only [List.getLast?_cons_cons, List.getLast?_singleton, Option.some.injEq]
        omega
      · simp only [List.getLast?_cons_cons, List.getLast?_singleton, Option.some.injEq]
        omega

theorem lonePoint_eq_iff (unit : UInt16) : lonePoint unit = code ↔ unit = code.toUInt16 := by
  have same := @toNat_toUInt16 code (by omega)
  rw [← UInt16.toNat_inj, same, lonePoint]
  split
  · rename_i surrogate
    simp only [isHigh, isLow, Bool.or_eq_true, decide_eq_true_eq] at surrogate
    rw [replacement]
    omega
  · rfl

theorem pairPoint_ne (high low : UInt16) : pairPoint high low ≠ code := by
  rw [pairPoint]
  omega

theorem ne_of_isHigh {unit : UInt16} (high : isHigh unit = true) : unit ≠ code.toUInt16 := by
  rw [isHigh, decide_eq_true_eq] at high
  intro same
  rw [same, toNat_toUInt16 (by omega)] at high
  omega

theorem ne_of_isLow {unit : UInt16} (low : isLow unit = true) : unit ≠ code.toUInt16 := by
  rw [isLow, decide_eq_true_eq] at low
  intro same
  rw [same, toNat_toUInt16 (by omega)] at low
  omega

/-- The bytes hold an ASCII code as often as the string does. -/
theorem count_encode (string : List UInt16) :
    (encode string).count code = string.count code.toUInt16 := by
  induction string using codePoints.induct with
  | case1 => rfl
  | case2 unit =>
    rw [encode_single, count_encodePoint ascii, List.count_singleton]
    simp only [lonePoint_eq_iff ascii, beq_iff_eq]
  | case3 first second rest isPair ih =>
    rw [encode_pair isPair, List.count_append, count_encodePoint ascii,
      if_neg (pairPoint_ne ascii first second), Nat.zero_add]
    rw [Bool.and_eq_true] at isPair
    rw [List.count_cons_of_ne (ne_of_isHigh ascii isPair.1),
      List.count_cons_of_ne (ne_of_isLow ascii isPair.2)]
    exact ih
  | case4 first second rest notPair ih =>
    rw [encode_lone notPair, List.count_append, count_encodePoint ascii,
      List.count_cons, ih, Nat.add_comm]
    simp only [lonePoint_eq_iff ascii, beq_iff_eq]

end Ascii

theorem encodePoint_ne_nil (point : ℕ) : encodePoint point ≠ [] := by
  obtain ⟨first, others, bytes, _⟩ := encodePoint_shape point
  rw [bytes]
  exact List.cons_ne_nil first others

theorem codePoints_eq_nil {string : List UInt16} : codePoints string = [] ↔ string = [] := by
  cases string using codePoints.fun_cases with
  | case1 | case2 unit => simp [codePoints]
  | case3 first second rest isPair => simp [codePoints, isPair]
  | case4 first second rest notPair => simp [codePoints, notPair]

@[simp]
theorem encode_eq_nil {string : List UInt16} : encode string = [] ↔ string = [] := by
  rw [← @codePoints_eq_nil string, encode, encodePoints, List.flatMap_eq_nil_iff]
  constructor
  · intro noneLeft
    rw [List.eq_nil_iff_forall_not_mem]
    intro point member
    exact encodePoint_ne_nil point (noneLeft point member)
  · intro isEmpty point member
    rw [isEmpty] at member
    exact absurd member not_mem_nil

theorem getLast?_encode {code : ℕ} (ascii : code < 0x80) (string : List UInt16) :
    (encode string).getLast? = some code ↔ string.getLast? = some code.toUInt16 := by
  induction string using codePoints.induct with
  | case1 => simp
  | case2 unit =>
    rw [encode_single, getLast?_encodePoint ascii, lonePoint_eq_iff ascii]
    simp
  | case3 first second rest isPair ih =>
    rw [encode_pair isPair]
    rw [Bool.and_eq_true] at isPair
    cases rest with
    | nil =>
      rw [encode_nil, append_nil, getLast?_encodePoint ascii]
      simp [pairPoint_ne ascii, ne_of_isLow ascii isPair.2]
    | cons third rest =>
      have more : encode (third :: rest) ≠ [] := by simp
      rw [List.getLast?_append_of_ne_nil _ more, ih]
      simp
  | case4 first second rest notPair ih =>
    have more : encode (second :: rest) ≠ [] := by simp
    rw [encode_lone notPair, List.getLast?_append_of_ne_nil _ more, ih]
    simp

/-! ## Decoding between ASCII codes -/

/-- What an incomplete character becomes is no ASCII code. -/
def Partial.Large (pending : Partial) : Prop :=
  let low := pending.point * 0x40 + pending.lower % 0x40
  0x80 ≤ pending.lower ∧ pending.upper ≤ 0xBF ∧
    (pending.owed = 1 ∧ 0x80 ≤ low ∨ pending.owed = 2 ∧ 2 ≤ low ∨ pending.owed = 3 ∧ 1 ≤ low)

def Large (pending : Option Partial) : Prop :=
  ∀ incomplete ∈ pending, incomplete.Large

theorem large_none : Large none := by
  intro incomplete member
  cases member

theorem large_some (large : pending.Large) : Large (some pending) := by
  intro incomplete member
  cases member
  exact large

theorem lead_large (byte : ℕ) : Large (lead byte).1 := by
  unfold lead
  split
  · exact large_none
  · split
    · apply large_some
      simp only [Partial.Large]
      refine ⟨Nat.le_refl _, Nat.le_refl _, Or.inl ⟨trivial, ?_⟩⟩
      omega
    · split
      · apply large_some
        simp only [Partial.Large]
        refine ⟨by split <;> omega, by split <;> omega, ?_⟩
        right
        left
        refine ⟨trivial, ?_⟩
        split <;> omega
      · split
        · apply large_some
          simp only [Partial.Large]
          refine ⟨by split <;> omega, by split <;> omega, ?_⟩
          right
          right
          refine ⟨trivial, ?_⟩
          split <;> omega
        · exact large_none

theorem feed_large {pending : Option Partial} (large : Large pending) (byte : ℕ) :
    Large (feed pending byte).1 := by
  cases pending with
  | none => exact lead_large byte
  | some incomplete =>
    have isLarge := large incomplete rfl
    simp only [Partial.Large] at isLarge
    rw [feed]
    split
    · simp only
      split
      · exact large_none
      · apply large_some
        simp only [Partial.Large]
        omega
    · exact lead_large byte

theorem feedAll_large {pending : Option Partial} (large : Large pending) (bytes : List ℕ) :
    Large (feedAll pending bytes).1 := by
  induction bytes generalizing pending with
  | nil => exact large
  | cons byte rest ih => exact ih (feed_large large byte)

theorem not_mem_of_mem_splitOn
    {code : ℕ} {bytes part : List ℕ} (isPart : part ∈ bytes.splitOn code) : code ∉ part := by
  induction bytes generalizing part with
  | nil =>
    rw [List.splitOn_nil, mem_singleton] at isPart
    rw [isPart]
    exact not_mem_nil
  | cons byte rest ih =>
    rw [List.splitOn_cons_eq_if_modifyHead] at isPart
    split at isPart
    · rcases List.mem_cons.mp isPart with isEmpty | later
      · rw [isEmpty]
        exact not_mem_nil
      · exact ih later
    · rename_i different
      cases lines : rest.splitOn code with
      | nil => exact absurd lines (List.splitOn_ne_nil _ _)
      | cons first others =>
        rw [lines, List.modifyHead_cons] at isPart
        rcases List.mem_cons.mp isPart with isFirst | later
        · rw [isFirst, mem_cons, not_or]
          refine ⟨fun same => different (by rw [same]; simp), ?_⟩
          exact ih (by rw [lines]; exact mem_cons_self)
        · exact ih (by rw [lines]; exact List.mem_cons_of_mem _ later)

section Ascii

variable {code : ℕ} (ascii : code < 0x80)

include ascii

variable {pending : Option Partial}

theorem feed_ascii (large : Large pending) :
    feed pending code = (none, flush pending ++ [code]) := by
  have isLead : lead code = (none, [code]) := by rw [lead, if_pos ascii]
  cases pending with
  | none => exact isLead
  | some incomplete =>
    have isLarge := (large incomplete rfl).1
    rw [feed, if_neg (by omega), isLead]
    rfl

theorem lead_ne {byte : ℕ} (different : byte ≠ code) : code ∉ (lead byte).2 := by
  unfold lead
  split
  · rw [mem_singleton]
    exact different.symm
  · split
    · exact not_mem_nil
    · split
      · exact not_mem_nil
      · split
        · exact not_mem_nil
        · rw [mem_singleton, replacement]
          omega

theorem feed_ne (large : Large pending) {byte : ℕ} (different : byte ≠ code) :
    code ∉ (feed pending byte).2 := by
  cases pending with
  | none => exact lead_ne ascii different
  | some incomplete =>
    have isLarge := large incomplete rfl
    simp only [Partial.Large] at isLarge
    rw [feed]
    split
    · simp only
      split
      · rw [mem_singleton]
        omega
      · exact not_mem_nil
    · rw [mem_cons, not_or]
      refine ⟨?_, lead_ne ascii different⟩
      rw [replacement]
      omega

/-- A code that is not among the bytes is not among what they decode to. -/
theorem feedAll_ne (large : Large pending) {bytes : List ℕ} (absent : code ∉ bytes) :
    code ∉ (feedAll pending bytes).2 := by
  induction bytes generalizing pending with
  | nil => exact not_mem_nil
  | cons byte rest ih =>
    rw [mem_cons, not_or] at absent
    rw [feedAll, List.mem_append, not_or]
    exact ⟨feed_ne ascii large (Ne.symm absent.1), ih (feed_large large byte) absent.2⟩

theorem not_mem_unitsOf {point : ℕ} (isScalar : IsScalar point) (different : point ≠ code) :
    code.toUInt16 ∉ unitsOf point := by
  have isCode := toNat_toUInt16 (show code < 0x10000 by omega)
  unfold unitsOf
  split
  · rename_i small
    have isPoint := toNat_toUInt16 small
    rw [mem_singleton]
    intro same
    rw [same, isPoint] at isCode
    exact different isCode
  · unfold IsScalar at isScalar
    intro member
    rcases List.mem_cons.mp member with high | rest
    · rw [high, toNat_toUInt16 (by omega)] at isCode
      omega
    · rw [List.mem_singleton.mp rest, toNat_toUInt16 (by omega)] at isCode
      omega

theorem not_mem_decode {bytes : List ℕ} (absent : code ∉ bytes) : code.toUInt16 ∉ decode bytes := by
  unfold decode text
  rw [List.mem_flatMap]
  rintro ⟨point, isPoint, member⟩
  have isScalar : IsScalar point := by
    rcases List.mem_append.mp isPoint with fed | flushed
    · exact (feedAll_endsWell sound_none bytes).2 point fed
    · exact flush_isScalar _ point flushed
  refine not_mem_unitsOf ascii isScalar ?_ member
  rintro rfl
  rcases List.mem_append.mp isPoint with fed | flushed
  · exact feedAll_ne ascii large_none absent fed
  · cases pending : (feedAll none bytes).1 with
    | none =>
      rw [pending] at flushed
      exact absurd flushed not_mem_nil
    | some incomplete =>
      rw [pending, flush, mem_singleton, replacement] at flushed
      omega

/-- Decoding starts afresh after an ASCII code. -/
theorem decode_append_cons (before after : List ℕ) :
    decode (before ++ code :: after) = decode before ++ code.toUInt16 :: decode after := by
  have isUnit : unitsOf code = [code.toUInt16] := by rw [unitsOf, if_pos (by omega)]
  unfold decode
  rw [feedAll_append, feedAll, feed_ascii ascii (feedAll_large large_none before)]
  simp only [text, List.flatMap_append, flatMap_cons, isUnit,
    append_assoc, nil_append, cons_append]

theorem decode_intercalate (lines : List (List ℕ)) :
    decode ([code].intercalate lines) = [code.toUInt16].intercalate (lines.map decode) := by
  induction lines with
  | nil => rfl
  | cons line rest ih =>
    cases rest with
    | nil => simp
    | cons second rest =>
      rw [map_cons, map_cons] at *
      rw [List.intercalate_cons_cons, List.intercalate_cons_cons,
        ← ih, append_assoc, singleton_append,
        decode_append_cons ascii, append_assoc,
        singleton_append]

/-- The lines of what is decoded are the lines of bytes, decoded. -/
theorem splitOn_decode (bytes : List ℕ) :
    (decode bytes).splitOn code.toUInt16 = (bytes.splitOn code).map decode := by
  conv => lhs; rw [← @List.intercalate_splitOn _ bytes _ _ code]
  rw [decode_intercalate ascii, List.splitOn_intercalate]
  · intro line member
    obtain ⟨part, isPart, rfl⟩ := List.mem_map.mp member
    exact not_mem_decode ascii (not_mem_of_mem_splitOn isPart)
  · simp [List.splitOn_ne_nil]

end Ascii

end Utf8
