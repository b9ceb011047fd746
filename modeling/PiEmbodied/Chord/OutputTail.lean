import PiEmbodied.Chord.Output

/-!
# The tail window of a stream

The tail window of a stream is found in any suffix of it that exceeds the
window by a byte or a line.  So a buffer that keeps such a suffix shows what the
whole stream would show.
-/

namespace PiEmbodied.Chord

open Utf8 (Continues encode decode encodePoints codePoints)

/-! ## Counts of a text are counts of its bytes -/

section Counts

theorem length_encodePoint_lonePoint (unit : UInt16) :
    (Utf8.encodePoint (Utf8.lonePoint unit)).length =
      if unit ≤ 0x7f then 1 else if unit ≤ 0x7ff then 2 else 3 := by
  have bound : unit.toNat < 0x10000 := unit.toNat_lt
  simp only [UInt16.le_iff_toNat_le, UInt16.reduceToNat]
  rw [Utf8.length_encodePoint, Utf8.lonePoint]
  split
  · rename_i surrogate
    simp only [Utf8.isHigh, Utf8.isLow, Bool.or_eq_true,
      decide_eq_true_eq] at surrogate
    rw [if_neg (show ¬ unit.toNat ≤ 0x7f by omega), if_neg (show ¬ unit.toNat ≤ 0x7ff by omega)]
    rfl
  · have one : unit.toNat < 0x80 ↔ unit.toNat ≤ 0x7f := Nat.lt_succ_iff
    have two : unit.toNat < 0x800 ↔ unit.toNat ≤ 0x7ff := Nat.lt_succ_iff
    simp only [one, two]

theorem length_encodePoint_pairPoint (high low : UInt16) :
    (Utf8.encodePoint (Utf8.pairPoint high low)).length = 4 := by
  have large : 0x10000 ≤ Utf8.pairPoint high low := by
    rw [Utf8.pairPoint]
    omega
  rw [Utf8.length_encodePoint, if_neg (by omega), if_neg (by omega), if_neg (by omega)]

theorem isPair_iff (first second : UInt16) :
    (Utf8.isHigh first && Utf8.isLow second) = true ↔
      (0xd800 ≤ first ∧ first ≤ 0xdbff) ∧ 0xdc00 ≤ second ∧ second ≤ 0xdfff := by
  simp only [Utf8.isHigh, Utf8.isLow, Bool.and_eq_true, decide_eq_true_eq,
    UInt16.le_iff_toNat_le, UInt16.reduceToNat]
  omega

theorem byteLengthFrom_cons (code next : UInt16) (rest : Text) :
    byteLengthFrom (code :: next :: rest) =
      if (Utf8.isHigh code && Utf8.isLow next) = true then
        4 + byteLengthFrom rest
      else
        (Utf8.encodePoint (Utf8.lonePoint code)).length + byteLengthFrom (next :: rest) := by
  rw [byteLengthFrom, length_encodePoint_lonePoint]
  simp only [isPair_iff]
  simp only [UInt16.le_iff_toNat_le, UInt16.reduceToNat]
  by_cases ascii : code.toNat ≤ 0x7f
  · rw [if_pos ascii, if_neg (by omega), if_pos ascii]
  · by_cases short : code.toNat ≤ 0x7ff
    · rw [if_neg ascii, if_pos short, if_neg (by omega), if_neg ascii,
        if_pos short]
    · rw [if_neg ascii, if_neg short, if_neg ascii, if_neg short]
      by_cases high : 0xd800 ≤ code.toNat ∧ code.toNat ≤ 0xdbff
      · rw [if_pos high]
        by_cases low : 0xdc00 ≤ next.toNat ∧ next.toNat ≤ 0xdfff
        · rw [if_pos low, if_pos ⟨high, low⟩]
        · rw [if_neg low, if_neg fun both => low both.2]
      · rw [if_neg high, if_neg fun both => high both.1]

theorem byteLengthFrom_eq : ∀ content : Text, byteLengthFrom content = (encode content).length
  | [] => rfl
  | [unit] => by
    rw [Utf8.encode_single, length_encodePoint_lonePoint]
    rfl
  | first :: second :: rest => by
    rw [byteLengthFrom_cons]
    by_cases isPair : (Utf8.isHigh first && Utf8.isLow second) = true
    · rw [if_pos isPair, Utf8.encode_pair isPair, List.length_append, length_encodePoint_pairPoint,
        byteLengthFrom_eq rest]
    · rw [if_neg isPair, Utf8.encode_lone isPair, List.length_append,
        byteLengthFrom_eq (second :: rest)]

theorem byteLengthFrom_ascii {code : UInt16} (ascii : code ≤ 0x7f) (rest : Text) :
    byteLengthFrom (code :: rest) = 1 + byteLengthFrom rest := by
  cases rest with
  | nil => rw [byteLengthFrom, byteLengthFrom, if_pos ascii]
  | cons next rest => rw [byteLengthFrom, if_pos ascii]

theorem utf8ByteLength_eq (content : Text) : utf8ByteLength content = (encode content).length := by
  rw [← byteLengthFrom_eq]
  unfold utf8ByteLength
  induction content with
  | nil => rfl
  | cons code rest ih =>
    by_cases ascii : code ≤ 0x7f
    · rw [List.takeWhile_cons_of_pos (by simpa using ascii),
        List.dropWhile_cons_of_pos (by simpa using ascii),
        byteLengthFrom_ascii ascii, List.length_cons, ← ih]
      ring
    · rw [List.takeWhile_cons_of_neg (by simpa using ascii),
        List.dropWhile_cons_of_neg (by simpa using ascii), List.length_nil,
        Nat.zero_add]

theorem countNewlines_eq (text : Text) : countNewlines text = (encode text).count NEWLINE := by
  rw [Utf8.count_encode (by decide)]
  rfl

theorem endsWithNewline_eq (text : Text) :
    endsWithNewline text =
      decide ((encode text).getLast? = some NEWLINE) := by
  have same := @Utf8.getLast?_encode NEWLINE (by decide) text
  rw [endsWithNewline, decide_eq_decide]
  exact same.symm

theorem lineCount_encode (text : Text) :
    lineCount (encode text) =
      lines (countNewlines text) (text.isEmpty || endsWithNewline text) := by
  rw [countNewlines_eq, endsWithNewline_eq]
  cases text with
  | nil => rfl
  | cons unit rest =>
    have more : (encode (unit :: rest)).length ≠ 0 := by simp
    rw [lineCount, if_neg more, lines]
    simp

end Counts

/-! ## Searching after more bytes -/

section Search

variable (before stored : List ℕ)

theorem getElem?_after (index : ℕ) :
    (before ++ stored)[before.length + index]? = stored[index]? := by
  rw [List.getElem?_append_right (Nat.le_add_right _ _), Nat.add_sub_cancel_left]

theorem drop_after (index : ℕ) :
    (before ++ stored).drop (before.length + index) = stored.drop index := by
  rw [List.drop_append, List.drop_of_length_le (by omega), Nat.add_sub_cancel_left, List.nil_append]

theorem indexOf_after (start : ℕ) :
    indexOf (before ++ stored) (before.length + start) =
      (indexOf stored start).map (before.length + ·) := by
  rw [indexOf, indexOf, drop_after, Option.map_map]
  congr 1
  funext index
  simp only [Function.comp_apply]
  omega

theorem characterStart_after (index : ℕ) :
    characterStart (before ++ stored) (before.length + index) =
      before.length + characterStart stored index := by
  rw [characterStart, characterStart, drop_after, Nat.add_assoc]

theorem byteStart_after {maxBytes : ℕ} (exceeds : maxBytes < stored.length) :
    byteStart (before ++ stored) maxBytes = before.length + byteStart stored maxBytes := by
  have cut : (before ++ stored).length - maxBytes = before.length + (stored.length - maxBytes) := by
    rw [List.length_append]
    omega
  have back :
      before.length + (stored.length - maxBytes) - 1 =
        before.length + (stored.length - maxBytes - 1) := by
    omega
  simp only [byteStart]
  rw [cut, back, indexOf_after, characterStart_after]
  cases indexOf stored (stored.length - maxBytes - 1) with
  | none => rfl
  | some newline =>
    simp only [Option.map_some, List.length_append, Nat.add_assoc, Nat.add_lt_add_iff_left]
    split
    · rfl
    · rfl

theorem lineStart_le (bytes : List ℕ) (maxLines limit lines : ℕ) :
    lineStart bytes maxLines limit lines ≤ limit := by
  induction limit generalizing lines with
  | zero => exact Nat.le_refl 0
  | succ limit ih =>
    rw [lineStart]
    split
    · split
      · exact Nat.le_refl _
      · exact Nat.le_succ_of_le (ih _)
    · exact Nat.le_succ_of_le (ih _)

/-- A line start found in the suffix is the one found in the whole; otherwise
the whole has it no later than where the suffix starts. -/
theorem lineStart_after (maxLines limit lines : ℕ) :
    (lineStart stored maxLines limit lines ≠ 0 →
      lineStart (before ++ stored) maxLines (before.length + limit) lines =
        before.length + lineStart stored maxLines limit lines) ∧
    (lineStart stored maxLines limit lines = 0 →
      lineStart (before ++ stored) maxLines (before.length + limit) lines ≤ before.length) := by
  induction limit generalizing lines with
  | zero =>
    refine ⟨fun found => absurd rfl found, ?_⟩
    intro _
    exact lineStart_le _ _ _ _
  | succ limit ih =>
    rw [← Nat.add_assoc, lineStart, lineStart, getElem?_after]
    split
    · split
      · refine ⟨fun _ => Nat.add_assoc _ _ _, ?_⟩
        intro impossible
        exact absurd impossible (Nat.succ_ne_zero limit)
      · exact ih _
    · exact ih _

variable {limit : ℕ} {bytes : List ℕ} {byte : ℕ}

theorem take_succ_count (here : bytes[limit]? = some byte) :
    (bytes.take (limit + 1)).count NEWLINE =
      (bytes.take limit).count NEWLINE + if byte = NEWLINE then 1 else 0 := by
  rw [List.take_add_one, here, List.count_append, Option.toList_some, List.count_singleton]
  simp only [beq_iff_eq]

theorem count_drop_take_succ
    {start : ℕ} (before : start ≤ limit) (here : bytes[limit]? = some byte) :
    ((bytes.take (limit + 1)).drop start).count NEWLINE =
      ((bytes.take limit).drop start).count NEWLINE +
        if byte = NEWLINE then 1 else 0 := by
  obtain ⟨inside, _⟩ := List.getElem?_eq_some_iff.mp here
  have bound : (bytes.take limit).length = limit := by
    rw [List.length_take]
    omega
  rw [List.take_add_one, here, List.drop_append, bound,
    Nat.sub_eq_zero_of_le before, List.count_append, List.drop_zero,
    Option.toList_some, List.count_singleton]
  simp only [beq_iff_eq]

theorem lineStart_ne_zero (bytes : List ℕ) {maxLines lines : ℕ} (notYet : lines ≤ maxLines)
    (enough : maxLines < lines + (bytes.take limit).count NEWLINE) :
    lineStart bytes maxLines limit lines ≠ 0 := by
  induction limit generalizing lines with
  | zero =>
    rw [List.take_zero, List.count_nil] at enough
    omega
  | succ limit ih =>
    rw [lineStart]
    cases here : bytes[limit]? with
    | none =>
      rw [if_neg (by simp)]
      apply ih notYet
      rwa [List.take_add_one, here, Option.toList_none, List.append_nil] at enough
    | some byte =>
      rw [take_succ_count here] at enough
      simp only [Option.some.injEq]
      by_cases isNewline : byte = NEWLINE
      · rw [if_pos isNewline] at enough ⊢
        split
        · exact Nat.succ_ne_zero limit
        · exact ih (by omega) (by omega)
      · rw [if_neg isNewline] at enough ⊢
        exact ih notYet enough

end Search

/-! ## The window of a suffix -/

def Exceeds (limits : OutputLimits) (bytes : List ℕ) : Prop :=
  limits.maxBytes < bytes.length ∨ limits.maxLines < bytes.count NEWLINE

instance (limits : OutputLimits) (bytes : List ℕ) :
    Decidable (Exceeds limits bytes) :=
  inferInstanceAs (Decidable (_ ∨ _))

variable {limits : OutputLimits} {bytes : List ℕ}

theorem exceeds_append_right (exceeds : Exceeds limits bytes) (after : List ℕ) :
    Exceeds limits (bytes ++ after) := by
  rcases exceeds with manyBytes | manyLines
  · left
    rw [List.length_append]
    omega
  · right
    rw [List.count_append]
    omega

def searchLimit (bytes : List ℕ) : ℕ :=
  if bytes[bytes.length - 1]? = some NEWLINE then bytes.length - 1
  else bytes.length

variable {stored : List ℕ}

theorem searchLimit_after (before : List ℕ) (more : stored ≠ []) :
    searchLimit (before ++ stored) = before.length + searchLimit stored := by
  have positive := List.length_pos_iff.mpr more
  have last : (before ++ stored).length - 1 = before.length + (stored.length - 1) := by
    rw [List.length_append]
    omega
  rw [searchLimit, searchLimit, last, getElem?_after, List.length_append]
  split
  · rfl
  · rfl

theorem count_take_searchLimit (bytes : List ℕ) :
    bytes.count NEWLINE ≤ (bytes.take (searchLimit bytes)).count NEWLINE + 1 := by
  rw [searchLimit]
  split
  · rename_i isNewline
    obtain ⟨inside, _⟩ := List.getElem?_eq_some_iff.mp isNewline
    have all : bytes.take (bytes.length - 1 + 1) = bytes := by
      rw [Nat.sub_add_cancel (by omega), List.take_length]
    have counted := take_succ_count isNewline
    rw [all, if_pos rfl] at counted
    exact Nat.le_of_eq counted
  · rw [List.take_length]
    exact Nat.le_succ _

def tailStart (bytes : List ℕ) (limits : OutputLimits) : ℕ :=
  let start := lineStart bytes limits.maxLines (searchLimit bytes) 1
  if bytes.length - start > limits.maxBytes then
    byteStart bytes limits.maxBytes
  else start

theorem tailRange_of_zero (zero : limits.maxLines = 0 ∨ limits.maxBytes = 0) (bytes : List ℕ) :
    tailRange bytes limits = (bytes.length, bytes.length) := by
  rw [tailRange, if_pos zero]

theorem tailRange_of_pos
    (notZero : ¬ (limits.maxLines = 0 ∨ limits.maxBytes = 0)) (bytes : List ℕ) :
    tailRange bytes limits = (tailStart bytes limits, bytes.length) := by
  rw [tailRange, if_neg notZero]
  exact (apply_ite (fun start => (start, bytes.length)) _ _ _).symm

theorem lineStart_of_exceeds (positive : limits.maxLines ≠ 0)
    (manyLines : limits.maxLines < bytes.count NEWLINE) :
    lineStart bytes limits.maxLines (searchLimit bytes) 1 ≠ 0 := by
  have counted := count_take_searchLimit bytes
  exact lineStart_ne_zero bytes (by omega) (by omega)

theorem ne_nil_of_exceeds (exceeds : Exceeds limits bytes) : bytes ≠ [] := by
  rintro rfl
  rcases exceeds with manyBytes | manyLines
  · exact absurd manyBytes (Nat.not_lt_zero _)
  · exact absurd manyLines (Nat.not_lt_zero _)

theorem tailStart_after (before : List ℕ) (positive : limits.maxLines ≠ 0)
    (exceeds : Exceeds limits stored) :
    tailStart (before ++ stored) limits = before.length + tailStart stored limits := by
  have limit := searchLimit_after before (ne_nil_of_exceeds exceeds)
  obtain ⟨whenFound, whenNot⟩ :=
    lineStart_after before stored limits.maxLines (searchLimit stored) 1
  simp only [tailStart, limit, List.length_append]
  by_cases found : lineStart stored limits.maxLines (searchLimit stored) 1 = 0
  · have early := whenNot found
    have manyBytes : limits.maxBytes < stored.length := by
      rcases exceeds with manyBytes | manyLines
      · exact manyBytes
      · exact absurd found (lineStart_of_exceeds positive manyLines)
    rw [found, if_pos (by omega), if_pos (by omega), byteStart_after before stored manyBytes]
  · rw [whenFound found, Nat.add_sub_add_left]
    split
    · exact byteStart_after before stored (by omega)
    · rfl

theorem byteStart_pos {maxBytes : ℕ} (exceeds : maxBytes < bytes.length) :
    0 < byteStart bytes maxBytes := by
  have late : 0 < characterStart bytes (bytes.length - maxBytes) := by
    rw [characterStart]
    omega
  simp only [byteStart]
  split
  · split
    · exact Nat.succ_pos _
    · exact late
  · exact late

theorem tailStart_pos (positive : limits.maxLines ≠ 0) (exceeds : Exceeds limits bytes) :
    0 < tailStart bytes limits := by
  simp only [tailStart]
  split
  · exact byteStart_pos (by omega)
  · rename_i fits
    rcases exceeds with manyBytes | manyLines
    · omega
    · exact Nat.pos_of_ne_zero (lineStart_of_exceeds positive manyLines)

def tailBytes (bytes : List ℕ) (limits : OutputLimits) : List ℕ :=
  (bytes.take (tailRange bytes limits).2).drop (tailRange bytes limits).1

theorem tailRange_snd (bytes : List ℕ) (limits : OutputLimits) :
    (tailRange bytes limits).2 = bytes.length := by
  by_cases zero : limits.maxLines = 0 ∨ limits.maxBytes = 0
  · rw [tailRange_of_zero zero]
  · rw [tailRange_of_pos zero]

theorem tailBytes_eq_drop (bytes : List ℕ) (limits : OutputLimits) :
    tailBytes bytes limits = bytes.drop (tailRange bytes limits).1 := by
  rw [tailBytes, tailRange_snd, List.take_length]

theorem tailBytes_after (before : List ℕ) (exceeds : Exceeds limits stored) :
    tailBytes (before ++ stored) limits = tailBytes stored limits := by
  rw [tailBytes_eq_drop, tailBytes_eq_drop]
  by_cases zero : limits.maxLines = 0 ∨ limits.maxBytes = 0
  · rw [tailRange_of_zero zero, tailRange_of_zero zero, List.drop_length, List.drop_length]
  · have positive : limits.maxLines ≠ 0 := fun noLines => zero (.inl noLines)
    rw [tailRange_of_pos zero, tailRange_of_pos zero,
      tailStart_after before positive exceeds, drop_after]

theorem length_tailBytes_lt (exceeds : Exceeds limits bytes) :
    (tailBytes bytes limits).length < bytes.length := by
  have positive := List.length_pos_iff.mpr (ne_nil_of_exceeds exceeds)
  rw [tailBytes_eq_drop, List.length_drop]
  by_cases zero : limits.maxLines = 0 ∨ limits.maxBytes = 0
  · rw [tailRange_of_zero zero]
    omega
  · have later :=
      tailStart_pos (fun noLines => zero (.inl noLines)) exceeds
    rw [tailRange_of_pos zero]
    omega

theorem boundOutput_tail (isTail : limits.retain = .tail) (text : Text) :
    boundOutput text limits =
      { text :=
          if (tailBytes (encode text) limits).length =
              (encode text).length then text
          else decode (tailBytes (encode text) limits)
        bytes := (tailBytes (encode text) limits).length
        droppedBytes := ((encode text).length : ℤ) - (tailBytes (encode text) limits).length
        droppedLines :=
          (lineCount (encode text) : ℤ) - lineCount (tailBytes (encode text) limits) } := by
  rw [boundOutput, isTail]
  rfl

/-! ## The window is within its limits -/

theorem le_byteStart (bytes : List ℕ) (maxBytes : ℕ) :
    bytes.length - maxBytes ≤ byteStart bytes maxBytes := by
  have late : bytes.length - maxBytes ≤ characterStart bytes (bytes.length - maxBytes) := by
    rw [characterStart]
    omega
  simp only [byteStart]
  split
  · rename_i newline found
    split
    · rw [indexOf, Option.map_eq_some_iff] at found
      obtain ⟨offset, _, same⟩ := found
      omega
    · exact late
  · exact late

theorem length_tailBytes_le_maxBytes (bytes : List ℕ) (limits : OutputLimits) :
    (tailBytes bytes limits).length ≤ limits.maxBytes := by
  rw [tailBytes_eq_drop, List.length_drop]
  by_cases zero : limits.maxLines = 0 ∨ limits.maxBytes = 0
  · rw [tailRange_of_zero zero]
    omega
  · have late := le_byteStart bytes limits.maxBytes
    rw [tailRange_of_pos zero]
    simp only [tailStart]
    split
    · omega
    · omega

theorem count_after_lineStart
    (bytes : List ℕ) (maxLines limit lines : ℕ) (notYet : lines ≤ maxLines)
    (inside : limit ≤ bytes.length) :
    lines + ((bytes.take limit).drop (lineStart bytes maxLines limit lines)).count NEWLINE ≤
      maxLines := by
  induction limit generalizing lines with
  | zero =>
    rw [List.take_zero, List.drop_nil, List.count_nil]
    exact notYet
  | succ limit ih =>
    have here : bytes[limit]? = some bytes[limit] := List.getElem?_eq_getElem (by omega)
    rw [lineStart]
    split
    · rename_i isNewline
      split
      · rw [List.drop_of_length_le (by rw [List.length_take]; omega), List.count_nil]
        exact notYet
      · have later := ih (lines + 1) (by omega) (by omega)
        rw [count_drop_take_succ (lineStart_le _ _ _ _) isNewline,
          if_pos rfl]
        omega
    · rename_i notNewline
      have different : bytes[limit] ≠ NEWLINE := by
        intro same
        rw [here, same] at notNewline
        exact notNewline rfl
      rw [count_drop_take_succ (lineStart_le _ _ _ _) here, if_neg different]
      exact ih lines notYet (by omega)

theorem lineCount_drop_lineStart (bytes : List ℕ) {maxLines : ℕ} (positive : maxLines ≠ 0) :
    lineCount (bytes.drop (lineStart bytes maxLines (searchLimit bytes) 1)) ≤
      maxLines := by
  have inside : searchLimit bytes ≤ bytes.length := by
    rw [searchLimit]
    split
    · omega
    · exact Nat.le_refl _
  have counted := count_after_lineStart bytes maxLines (searchLimit bytes) 1 (by omega) inside
  have before := lineStart_le bytes maxLines (searchLimit bytes) 1
  generalize lineStart bytes maxLines (searchLimit bytes) 1 = start at counted before ⊢
  rw [lineCount]
  split
  · exact Nat.zero_le _
  · rename_i notEmpty
    rw [List.length_drop] at notEmpty
    rw [searchLimit] at counted before
    split at counted
    · rename_i isNewline
      rw [if_pos isNewline] at before
      have all : bytes.take (bytes.length - 1 + 1) = bytes := by
        rw [Nat.sub_add_cancel (by omega), List.take_length]
      have split := count_drop_take_succ before isNewline
      rw [all, if_pos rfl] at split
      have last : (bytes.drop start).getLast? = some NEWLINE := by
        rw [List.getLast?_drop, if_neg (by omega), List.getLast?_eq_getElem?]
        exact isNewline
      rw [if_pos last]
      omega
    · rename_i notNewline
      rw [List.take_length] at counted
      have last : (bytes.drop start).getLast? ≠ some NEWLINE := by
        rw [List.getLast?_drop, if_neg (by omega), List.getLast?_eq_getElem?]
        exact notNewline
      rw [if_neg last]
      omega

theorem lineCount_drop_le (bytes : List ℕ) (start : ℕ) :
    lineCount (bytes.drop start) ≤ lineCount bytes := by
  rw [lineCount, lineCount]
  split
  · exact Nat.zero_le _
  · rename_i notEmpty
    rw [List.length_drop] at notEmpty
    have wholeNotEmpty : bytes.length ≠ 0 := by omega
    have sameLast : (bytes.drop start).getLast? = bytes.getLast? := by
      rw [List.getLast?_drop, if_neg (by omega)]
    rw [if_neg wholeNotEmpty, sameLast]
    have fewer : (bytes.drop start).count NEWLINE ≤ bytes.count NEWLINE :=
      (List.drop_sublist start bytes).count_le NEWLINE
    omega

theorem lineCount_tailBytes_le_maxLines (bytes : List ℕ) (limits : OutputLimits) :
    lineCount (tailBytes bytes limits) ≤ limits.maxLines := by
  rw [tailBytes_eq_drop]
  by_cases zero : limits.maxLines = 0 ∨ limits.maxBytes = 0
  · rw [tailRange_of_zero zero, List.drop_length]
    exact Nat.zero_le _
  · have positive : limits.maxLines ≠ 0 := fun noLines => zero (.inl noLines)
    have within := lineCount_drop_lineStart bytes positive
    have late := le_byteStart bytes limits.maxBytes
    rw [tailRange_of_pos zero]
    simp only [tailStart]
    split
    · have later :
          byteStart bytes limits.maxBytes =
            lineStart bytes limits.maxLines (searchLimit bytes) 1 +
              (byteStart bytes limits.maxBytes -
                lineStart bytes limits.maxLines (searchLimit bytes) 1) := by
        omega
      rw [later, ← List.drop_drop]
      exact Nat.le_trans (lineCount_drop_le _ _) within
    · exact within

/-- `stored` shows what `whole` shows: it is all of it, or a suffix that
exceeds the window. -/
def Covers (limits : OutputLimits) (whole stored : Text) : Prop :=
  stored = whole ∨ ∃ before, encode whole = before ++ encode stored ∧ Exceeds limits (encode stored)

variable {whole : Text} {stored : Text}

theorem covers_tailBytes (covers : Covers limits whole stored) :
    tailBytes (encode whole) limits = tailBytes (encode stored) limits := by
  rcases covers with rfl | ⟨before, bytes, exceeds⟩
  · rfl
  · rw [bytes, tailBytes_after before exceeds]

theorem covers_text (isTail : limits.retain = .tail) (covers : Covers limits whole stored) :
    (boundOutput stored limits).text = (boundOutput whole limits).text := by
  have same := covers_tailBytes covers
  rcases covers with rfl | ⟨before, bytes, exceeds⟩
  · rfl
  · have less := length_tailBytes_lt exceeds
    have wholeLess : (tailBytes (encode whole) limits).length < (encode whole).length := by
      rw [same, bytes, List.length_append]
      omega
    rw [boundOutput_tail isTail, boundOutput_tail isTail]
    simp only
    rw [if_neg (Nat.ne_of_lt less), if_neg (Nat.ne_of_lt wholeLess), same]

/-! ## The margin -/

theorem characterEnd_le (bytes : List ℕ) (index : ℕ) : characterEnd bytes index ≤ index := by
  induction index with
  | zero => exact Nat.le_refl 0
  | succ index ih =>
    rw [characterEnd]
    split
    · exact Nat.le_succ_of_le ih
    · exact Nat.le_refl _

theorem characterEnd_boundary (bytes : List ℕ) (index : ℕ) :
    characterEnd bytes index = 0 ∨ ¬ Continues (bytes[characterEnd bytes index]?.getD 0) := by
  induction index with
  | zero => exact .inl rfl
  | succ index ih =>
    rw [characterEnd]
    split
    · exact ih
    · rename_i starts
      exact .inr starts

theorem le_characterEnd (bytes : List ℕ) {index boundary : ℕ} (before : boundary ≤ index)
    (starts : ¬ Continues (bytes[boundary]?.getD 0)) : boundary ≤ characterEnd bytes index := by
  induction index with
  | zero =>
    rw [Nat.le_zero.mp before]
    exact Nat.zero_le _
  | succ index ih =>
    rw [characterEnd]
    split
    · rename_i continues
      apply ih
      rcases Nat.lt_or_eq_of_le before with less | rfl
      · exact Nat.le_of_lt_succ less
      · exact absurd continues starts
    · exact before

theorem marginStart_le (bytes : List ℕ) (maxLines limit newlines : ℕ) :
    marginStart bytes maxLines limit newlines ≤ limit := by
  induction limit generalizing newlines with
  | zero => exact Nat.le_refl 0
  | succ limit ih =>
    rw [marginStart]
    split
    · split
      · exact Nat.le_succ limit
      · exact Nat.le_succ_of_le (ih _)
    · exact Nat.le_succ_of_le (ih _)

theorem marginStart_spec (bytes : List ℕ) (maxLines limit newlines : ℕ)
    (inside : limit ≤ bytes.length) :
    marginStart bytes maxLines limit newlines = 0 ∨
      bytes[marginStart bytes maxLines limit newlines]? = some NEWLINE ∧
        maxLines <
          newlines +
            ((bytes.take limit).drop
              (marginStart bytes maxLines limit newlines)).count NEWLINE := by
  induction limit generalizing newlines with
  | zero => exact .inl rfl
  | succ limit ih =>
    have here : bytes[limit]? = some bytes[limit] := List.getElem?_eq_getElem (by omega)
    rw [marginStart]
    split
    · rename_i isNewline
      split
      · rename_i found
        right
        refine ⟨isNewline, ?_⟩
        rw [count_drop_take_succ (Nat.le_refl limit) isNewline, if_pos rfl]
        omega
      · rcases ih (newlines + 1) (by omega) with
          atStart | ⟨isFound, counted⟩
        · exact .inl atStart
        · right
          refine ⟨isFound, ?_⟩
          rw [count_drop_take_succ (marginStart_le _ _ _ _) isNewline,
            if_pos rfl]
          omega
    · rcases ih newlines (by omega) with
        atStart | ⟨isFound, counted⟩
      · exact .inl atStart
      · right
        refine ⟨isFound, ?_⟩
        rw [count_drop_take_succ (marginStart_le _ _ _ _) here]
        omega

def marginOffset (bytes : List ℕ) (limits : OutputLimits) : ℕ :=
  max
    (if bytes.length > limits.maxBytes then
      characterEnd bytes (bytes.length - limits.maxBytes - 1)
    else 0)
    (marginStart bytes limits.maxLines bytes.length 0)

theorem tailMargin_eq (text : Text) (limits : OutputLimits) :
    tailMargin text limits =
      if marginOffset (encode text) limits = 0 then text
      else decode ((encode text).drop (marginOffset (encode text) limits)) :=
  rfl

theorem not_continues_newline : ¬ Continues NEWLINE := by
  decide

theorem marginOffset_spec (bytes : List ℕ) (limits : OutputLimits) :
    marginOffset bytes limits = 0 ∨
      (¬ Continues (bytes[marginOffset bytes limits]?.getD 0) ∧
        Exceeds limits (bytes.drop (marginOffset bytes limits))) := by
  unfold marginOffset
  rcases Nat.le_total
      (if bytes.length > limits.maxBytes then
        characterEnd bytes (bytes.length - limits.maxBytes - 1)
      else 0)
      (marginStart bytes limits.maxLines bytes.length 0) with
    lineLast | byteLast
  · rw [Nat.max_eq_right lineLast]
    rcases marginStart_spec bytes limits.maxLines bytes.length 0
        (Nat.le_refl _) with atStart | ⟨isNewline, counted⟩
    · exact .inl atStart
    · right
      rw [List.take_length, Nat.zero_add] at counted
      refine ⟨?_, .inr counted⟩
      rw [isNewline]
      exact not_continues_newline
  · rw [Nat.max_eq_left byteLast]
    split
    · rename_i manyBytes
      rcases characterEnd_boundary bytes (bytes.length - limits.maxBytes - 1) with atStart | starts
      · exact .inl atStart
      · refine .inr ⟨starts, .inl ?_⟩
        have before := characterEnd_le bytes (bytes.length - limits.maxBytes - 1)
        rw [List.length_drop]
        omega
    · exact .inl rfl

theorem not_continues_getD {points : List ℕ} {index : ℕ}
    (starts : ¬ Continues ((encodePoints points)[index]?.getD 0)) :
    ∀ byte ∈ (encodePoints points)[index]?, ¬ Continues byte := by
  intro byte isByte
  rw [Option.mem_def] at isByte
  rwa [isByte] at starts

theorem encode_tailMargin (text : Text) (limits : OutputLimits) :
    encode (tailMargin text limits) = (encode text).drop (marginOffset (encode text) limits) := by
  rw [tailMargin_eq]
  split
  · rename_i atStart
    rw [atStart, List.drop_zero]
  · rename_i later
    rcases marginOffset_spec (encode text) limits with
      atStart | ⟨starts, _⟩
    · exact absurd atStart later
    · obtain ⟨count, suffix⟩ :=
        Utf8.drop_encodePoints (codePoints text) _ (not_continues_getD starts)
      have allScalar : ∀ point ∈ (codePoints text).drop count, Utf8.IsScalar point := by
        intro point member
        exact Utf8.codePoints_isScalar text point (List.mem_of_mem_drop member)
      rw [← encode] at suffix
      rw [suffix]
      exact Utf8.encode_decode_encodePoints allScalar

theorem covers_tailMargin (covers : Covers limits whole stored) :
    Covers limits whole (tailMargin stored limits) := by
  by_cases atStart : marginOffset (encode stored) limits = 0
  · rw [tailMargin_eq, if_pos atStart]
    exact covers
  · rcases marginOffset_spec (encode stored) limits with
      impossible | ⟨_, exceeds⟩
    · exact absurd impossible atStart
    · right
      rw [encode_tailMargin]
      rcases covers with rfl | ⟨before, bytes, _⟩
      · exact ⟨_, (List.take_append_drop _ _).symm, exceeds⟩
      · refine ⟨before ++ (encode stored).take (marginOffset (encode stored) limits), ?_, exceeds⟩
        rw [List.append_assoc, List.take_append_drop]
        exact bytes

theorem length_encode_tailMargin (text : Text) (limits : OutputLimits) :
    (encode (tailMargin text limits)).length ≤ limits.maxBytes + 4 := by
  rw [encode_tailMargin, List.length_drop]
  have late :
      (if (encode text).length > limits.maxBytes then
        characterEnd (encode text) ((encode text).length - limits.maxBytes - 1)
      else 0) ≤ marginOffset (encode text) limits :=
    Nat.le_max_left _ _
  by_cases manyBytes : (encode text).length > limits.maxBytes
  · rw [if_pos manyBytes] at late
    obtain ⟨boundary, byte, before, near, isByte, starts⟩ :=
      Utf8.exists_boundary (codePoints text) ((encode text).length - limits.maxBytes - 1)
        (by rw [← encode]; omega)
    have reached :=
      @le_characterEnd (encode text) _ boundary before (by rw [encode, isByte]; exact starts)
    omega
  · omega

theorem splitsPair_tailMargin {text after : Text}
    (splits : Utf8.SplitsPair (tailMargin text limits) after) : Utf8.SplitsPair text after := by
  rw [tailMargin_eq] at splits
  split at splits
  · exact splits
  · refine absurd splits (Utf8.not_splitsPair_text_left ?_ after)
    intro point member
    rcases List.mem_append.mp member with decoded | ended
    · exact (Utf8.feedAll_endsWell Utf8.sound_none _).2 point decoded
    · exact Utf8.flush_isScalar _ point ended

end PiEmbodied.Chord
