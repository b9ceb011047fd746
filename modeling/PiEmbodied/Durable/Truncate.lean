import PiEmbodied.Chord.OutputTail

/-!
# Text cut at its head

The head of a text within limits of lines and bytes is found in any start of it
that exceeds them.
-/

namespace PiEmbodied.Durable.Truncate

open Chord (Text utf8ByteLength utf8ByteLength_eq)

def newline : UInt16 := 0x0a

def DEFAULT_MAX_LINES : ℕ := 2000

def DEFAULT_MAX_BYTES : ℕ := 50 * 1024

inductive TruncatedBy where
  | lines
  | bytes
  deriving DecidableEq

structure TruncationResult where
  content : Text
  truncated : Bool
  truncatedBy : Option TruncatedBy
  (totalLines totalBytes outputLines outputBytes : ℕ)
  lastLinePartial : Bool
  firstLineExceedsLimit : Bool
  (maxLines maxBytes : ℕ)
  deriving DecidableEq

structure TruncationOptions where
  maxLines : Option ℕ := none
  maxBytes : Option ℕ := none

/-- What is known of a whole text. -/
structure Totals where
  (lines bytes : ℕ)

def splitLinesForCounting (content : Text) : List Text :=
  if content.length = 0 then []
  else if content.getLast? = some newline then (content.splitOn newline).dropLast
  else content.splitOn newline

/-- The loop that collects lines, and whether the bytes ended it; `i` is the
number of lines collected. -/
def collect (maxLines maxBytes : ℕ) (outputLines : List Text) (outputBytesCount : ℕ) :
    List Text → List Text × Bool
  | [] => (outputLines, false)
  | line :: rest =>
    if maxLines ≤ outputLines.length then (outputLines, false)
    else
      let lineBytes := utf8ByteLength line + if outputLines.length > 0 then 1 else 0
      if outputBytesCount + lineBytes > maxBytes then (outputLines, true)
      else collect maxLines maxBytes (outputLines ++ [line]) (outputBytesCount + lineBytes) rest

/-- `truncateHeadOf` once a limit is exceeded; without a first line it throws. -/
def cutLines (totals : Totals) (maxLines maxBytes : ℕ) (lines : List Text) :
    Option TruncationResult :=
  match lines with
  | [] => none
  | first :: _ =>
    if utf8ByteLength first > maxBytes then
      some
        { content := [], truncated := true, truncatedBy := some .bytes
          totalLines := totals.lines, totalBytes := totals.bytes
          outputLines := 0, outputBytes := 0
          lastLinePartial := false, firstLineExceedsLimit := true, maxLines, maxBytes }
    else
      let (output, byBytes) := collect maxLines maxBytes [] 0 lines
      let content := [newline].intercalate output
      some
        { content, truncated := true
          truncatedBy := some (if !byBytes && output.length < totals.lines then .lines else .bytes)
          totalLines := totals.lines, totalBytes := totals.bytes
          outputLines := output.length, outputBytes := utf8ByteLength content
          lastLinePartial := false, firstLineExceedsLimit := false, maxLines, maxBytes }

def truncateHeadOf (start : Text) (totals : Totals) (options : TruncationOptions) :
    Option TruncationResult :=
  let maxLines := options.maxLines.getD DEFAULT_MAX_LINES
  let maxBytes := options.maxBytes.getD DEFAULT_MAX_BYTES
  if totals.lines ≤ maxLines ∧ totals.bytes ≤ maxBytes then
    some
      { content := start, truncated := false, truncatedBy := none
        totalLines := totals.lines, totalBytes := totals.bytes
        outputLines := totals.lines, outputBytes := totals.bytes
        lastLinePartial := false, firstLineExceedsLimit := false, maxLines, maxBytes }
  else cutLines totals maxLines maxBytes (splitLinesForCounting start)

def totalsOf (content : Text) : Totals :=
  { lines := (splitLinesForCounting content).length
    bytes := utf8ByteLength content }

def truncateHead (content : Text) (options : TruncationOptions) : Option TruncationResult :=
  truncateHeadOf content (totalsOf content) options

/-! ## Lines of a start -/

variable {line more start text : Text}

theorem splitLines_cons (free : newline ∉ line) (rest : Text) :
    splitLinesForCounting (line ++ newline :: rest) = line :: splitLinesForCounting rest := by
  rw [splitLinesForCounting, if_neg (by simp), List.splitOn_append_cons_self_of_not_mem free]
  rcases List.eq_nil_or_concat rest with rfl | ⟨before, unit, rfl⟩
  · rw [List.getLast?_concat, if_pos rfl]
    rfl
  · have isText : ¬ (before ++ [unit]).length = 0 := by simp
    rw [List.concat_eq_append, splitLinesForCounting, if_neg isText, ← List.cons_append,
      ← List.append_assoc, List.getLast?_concat, List.getLast?_concat]
    split
    · exact List.dropLast_cons_of_ne_nil (List.splitOn_ne_nil _ _)
    · rfl

theorem splitLines_free (free : newline ∉ line) (isText : line ≠ []) :
    splitLinesForCounting line = [line] := by
  have notEnd : line.getLast? ≠ some newline := fun isEnd => free (List.mem_of_getLast? isEnd)
  rw [splitLinesForCounting, if_neg (by simpa using isText), if_neg notEnd,
    List.splitOn_eq_singleton free]

/-- The first line of a longer text begins with a start that has no newline. -/
theorem splitLines_append (free : newline ∉ start) (isLonger : more ≠ []) :
    ∃ longer others, splitLinesForCounting (start ++ more) = (start ++ longer) :: others := by
  by_cases later : newline ∈ more
  · obtain ⟨first, rest, rfl, isFree⟩ := List.eq_append_cons_of_mem later
    refine ⟨first, splitLinesForCounting rest, ?_⟩
    rw [← List.append_assoc, splitLines_cons (by simp [free, isFree])]
  · exact ⟨more, [], splitLines_free (by simp [free, later]) (by simp [isLonger])⟩

theorem count_lt_lines (start : Text) (isLonger : more ≠ []) :
    start.count newline < (splitLinesForCounting (start ++ more)).length := by
  induction newlines : start.count newline generalizing start with
  | zero =>
    obtain ⟨longer, others, isLines⟩ := splitLines_append (List.count_eq_zero.mp newlines) isLonger
    rw [isLines]
    exact Nat.succ_pos _
  | succ n ih =>
    obtain ⟨line, rest, rfl, free⟩ :=
      List.eq_append_cons_of_mem (List.count_pos_iff.mp (by omega : 0 < start.count newline))
    rw [List.count_append, List.count_cons_self, List.count_eq_zero.mpr free] at newlines
    rw [List.append_assoc, List.cons_append, splitLines_cons free, List.length_cons]
    exact Nat.succ_lt_succ (ih rest (by omega))

theorem utf8ByteLength_append_newline (before after : Text) :
    utf8ByteLength (before ++ newline :: after) =
      utf8ByteLength before + 1 + utf8ByteLength after := by
  have here : ¬ Utf8.SplitsPair before (newline :: after) := by
    rintro ⟨_, _, low, isFirst, _, isLow⟩
    cases isFirst
    exact absurd isLow (by decide)
  have later : ¬ Utf8.SplitsPair [newline] after := by
    rintro ⟨high, isLast, _, _, isHigh, _⟩
    cases isLast
    exact absurd isHigh (by decide)
  rw [utf8ByteLength_eq, utf8ByteLength_eq, utf8ByteLength_eq, Utf8.encode_append here,
    ← List.singleton_append, Utf8.encode_append later, List.length_append, List.length_append]
  exact (Nat.add_assoc _ _ _).symm

theorem utf8ByteLength_le_append (start more : Text) :
    utf8ByteLength start ≤ utf8ByteLength (start ++ more) := by
  rw [utf8ByteLength_eq, utf8ByteLength_eq]
  induction start using Utf8.codePoints.induct with
  | case1 => exact Nat.zero_le _
  | case2 unit =>
    cases more with
    | nil => exact Nat.le_refl _
    | cons next rest =>
      rw [Utf8.encode_single, List.singleton_append]
      by_cases isPair : (Utf8.isHigh unit && Utf8.isLow next) = true
      · rw [Utf8.encode_pair isPair, List.length_append, Chord.length_encodePoint_pairPoint,
          Chord.length_encodePoint_lonePoint]
        split_ifs <;> omega
      · rw [Utf8.encode_lone isPair, List.length_append]
        exact Nat.le_add_right _ _
  | case3 high low rest isPair ih =>
    rw [List.cons_append, List.cons_append, Utf8.encode_pair isPair, Utf8.encode_pair isPair,
      List.length_append, List.length_append]
    exact Nat.add_le_add_left ih _
  | case4 unit next rest notPair ih =>
    rw [List.cons_append, List.cons_append, Utf8.encode_lone notPair, Utf8.encode_lone notPair,
      List.length_append, List.length_append]
    exact Nat.add_le_add_left ih _

/-! ## Lines collected -/

variable {maxLines maxBytes count : ℕ} {kept : List Text}

theorem collect_full (full : maxLines ≤ kept.length) (lines : List Text) :
    collect maxLines maxBytes kept count lines = (kept, false) := by
  cases lines with
  | nil => rfl
  | cons line rest => exact if_pos full

/-- The lines collected of a start that exceeds a limit are those of the whole
text. -/
theorem collect_start (isLonger : more ≠ []) (fits : count ≤ maxBytes)
    (enough :
      maxBytes + 1 < count + (if kept.length > 0 then 1 else 0) + utf8ByteLength start ∨
        maxLines ≤ kept.length + start.count newline) :
    collect maxLines maxBytes kept count (splitLinesForCounting start) =
      collect maxLines maxBytes kept count (splitLinesForCounting (start ++ more)) := by
  -- line by line through the start; the bytes collected stay within the limit
  induction newlines : start.count newline generalizing start kept count with
  | zero =>
    by_cases full : maxLines ≤ kept.length
    · rw [collect_full full, collect_full full]
    · have free := List.count_eq_zero.mp newlines
      have long := enough.resolve_right (by omega)
      have isText : start ≠ [] := by
        rintro rfl
        have isEmpty : utf8ByteLength [] = 0 := rfl
        split at long <;> omega
      obtain ⟨longer, others, isLines⟩ := splitLines_append free isLonger
      have grows := utf8ByteLength_le_append start longer
      rw [splitLines_free free isText, isLines]
      simp only [collect, if_neg full]
      rw [if_pos (by omega), if_pos (by omega)]
  | succ n ih =>
    obtain ⟨line, rest, rfl, free⟩ :=
      List.eq_append_cons_of_mem (List.count_pos_iff.mp (by omega : 0 < start.count newline))
    rw [List.append_assoc, List.cons_append, splitLines_cons free, splitLines_cons free]
    rw [List.count_append, List.count_cons_self, List.count_eq_zero.mpr free] at enough newlines
    rw [utf8ByteLength_append_newline] at enough
    by_cases full : maxLines ≤ kept.length
    · rw [collect_full full, collect_full full]
    · simp only [collect, if_neg full]
      by_cases long :
          count + (utf8ByteLength line + if kept.length > 0 then 1 else 0) > maxBytes
      · rw [if_pos long, if_pos long]
      · rw [if_neg long, if_neg long]
        refine ih (by omega) ?_ (by omega)
        rw [List.length_append, List.length_singleton, if_pos (Nat.succ_pos _)]
        omega

theorem exceeds_limits (isLonger : more ≠ [])
    (exceeds : maxBytes + 1 < utf8ByteLength start ∨
      0 < maxLines ∧ maxLines ≤ start.count newline) :
    ¬ ((totalsOf (start ++ more)).lines ≤ maxLines ∧
      (totalsOf (start ++ more)).bytes ≤ maxBytes) := by
  rintro ⟨linesFit, bytesFit⟩
  rcases exceeds with long | ⟨_, many⟩
  · have grows := utf8ByteLength_le_append start more
    simp only [totalsOf] at bytesFit
    omega
  · have longer := count_lt_lines start isLonger
    simp only [totalsOf] at linesFit
    omega

end PiEmbodied.Durable.Truncate
