import PiEmbodied.Utf8

/-!
# Scanning for lines

A scanner takes a file in chunks, and tells where some of its lines are and how
large their decoded text is.  It tells the same of every way to cut the file.
-/

namespace PiEmbodied.Durable.LineScan

open Utf8 (Partial feedAll flush encode encodePoints decode)
open List (append_assoc append_nil cons_append drop_length length_append length_cons length_nil
  map_drop take_append_of_le_length take_of_length_le)
open Option (all_some filter_some)

/-! ## The scanner -/

def newline : ℕ := 0x0A

def decodedBytes (text : List UInt16) : ℕ :=
  (encode text).length

def startsWithBom (firstBytes : List ℕ) : Bool :=
  firstBytes.take 3 = [0xEF, 0xBB, 0xBF]

/-- `LineScan`; `stop` is its `end`. -/
structure Scan where
  (newlines start stop firstLineEnd lastLineStart selectedBytes firstLineBytes : ℕ)
deriving DecidableEq

/-- `LineScanner`.  A decoder is absent or has an incomplete character, or none;
`head` holds the first bytes until there are three. -/
structure Scanner where
  startLine : ℕ
  endLine : Option ℕ
  (position newlines lineStart : ℕ)
  (start stop firstLineEnd lastLineStart : Option ℕ)
  (selectedBytes firstLineBytes : ℕ)
  (selection firstLine : Option (Option Partial))
  head : Option (List ℕ)
  bom : Bool

/-- `decode(bytes, { stream: true })` of a decoder, if it is there, and the size
of the text. -/
def streamed (decoder : Option (Option Partial)) (bytes : List ℕ) : Option (Option Partial) × ℕ :=
  match decoder with
  | none => (none, 0)
  | some pending =>
    (some (feedAll pending bytes).1, decodedBytes (Utf8.text (feedAll pending bytes).2))

/-- `decode()`: the size of the text that ends a decoder. -/
def closed : Option (Option Partial) → ℕ
  | none => 0
  | some pending => decodedBytes (Utf8.text (flush pending))

namespace Scanner

def begin (s : Scanner) (start : ℕ) : Scanner :=
  { s with
    start := some start
    lastLineStart :=
      if s.endLine = some (s.startLine + 1) then some start
      else s.lastLineStart
    selection := some none
    firstLine := some none }

def endFirstLine (s : Scanner) (position : ℕ) : Scanner :=
  { s with
    firstLineEnd := some position
    firstLineBytes := s.firstLineBytes + closed s.firstLine
    firstLine := none }

def endSelection (s : Scanner) (position : ℕ) : Scanner :=
  { s with
    stop := some position
    selectedBytes := s.selectedBytes + closed s.selection
    selection := none }

/-- `#feed`: bytes at an offset of the file, without a byte-order mark. -/
def feed (s : Scanner) (offset : ℕ) (bytes : List ℕ) : Scanner :=
  let bytes := if s.bom then bytes.drop (3 - offset) else bytes
  { s with
    selection := (streamed s.selection bytes).1
    selectedBytes := s.selectedBytes + (streamed s.selection bytes).2
    firstLine := (streamed s.firstLine bytes).1
    firstLineBytes := s.firstLineBytes + (streamed s.firstLine bytes).2 }

/-- A newline at an offset, once the bytes before it are fed. -/
def endLineAt (s : Scanner) (position : ℕ) : Scanner :=
  let s := if s.newlines = s.startLine then s.endFirstLine position else s
  let s :=
    if s.endLine = some (s.newlines + 1) then s.endSelection position else s
  let s := s.feed position [newline]
  let s :=
    { s with newlines := s.newlines + 1, lineStart := position + 1 }
  let s := if s.newlines = s.startLine then s.begin s.lineStart else s
  if s.endLine = some (s.newlines + 1) then
    { s with lastLineStart := some s.lineStart }
  else s

/-- The loop of `#process` over what is left of a chunk; `line` are the bytes
since the last newline, which begin at the offset. -/
def processFrom (s : Scanner) (offset : ℕ) (line : List ℕ) : List ℕ → Scanner
  | [] => s.feed offset line
  | byte :: rest =>
    if byte = newline then
      let position := offset + line.length
      processFrom ((s.feed offset line).endLineAt position) (position + 1) [] rest
    else processFrom s offset (line ++ [byte]) rest

def process (s : Scanner) (chunk : List ℕ) : Scanner :=
  { s.processFrom s.position [] chunk with
    position := s.position + chunk.length }

def releaseHead (s : Scanner) (head : List ℕ) : Scanner :=
  process { s with head := none, bom := startsWithBom head } head

def push (s : Scanner) (chunk : List ℕ) : Scanner :=
  match s.head with
  | none => s.process chunk
  | some head =>
    let take := 3 - head.length
    let head := head ++ chunk.take take
    if head.length < 3 then { s with head := some head }
    else (s.releaseHead head).process (chunk.drop take)

/-- `finish`, once the head is released. -/
def close (s : Scanner) : Scan :=
  let size := s.position
  match s.start with
  | none =>
    { newlines := s.newlines
      start := size
      stop := size
      firstLineEnd := size
      lastLineStart := size
      selectedBytes := 0
      firstLineBytes := 0 }
  | some start =>
    let s := if s.firstLineEnd = none then s.endFirstLine size else s
    let s := if s.stop = none then s.endSelection size else s
    { newlines := s.newlines
      start := start
      stop := s.stop.getD size
      firstLineEnd := s.firstLineEnd.getD size
      lastLineStart := s.lastLineStart.getD s.lineStart
      selectedBytes := s.selectedBytes
      firstLineBytes := s.firstLineBytes }

def finish (s : Scanner) : Scan :=
  match s.head with
  | none => s.close
  | some head => (s.releaseHead head).close

def make (startLine : ℕ) (endLine : Option ℕ) : Option Scanner :=
  if endLine.all fun last => startLine < last then
    let s : Scanner :=
      { startLine := startLine
        endLine := endLine
        position := 0
        newlines := 0
        lineStart := 0
        start := none
        stop := none
        firstLineEnd := none
        lastLineStart := none
        selectedBytes := 0
        firstLineBytes := 0
        selection := none
        firstLine := none
        head := some []
        bom := false }
    some (if startLine = 0 then s.begin 0 else s)
  else none

end Scanner

def slice {Line : Type} (startLine : ℕ) (endLine : Option ℕ) (lines : List Line) : List Line :=
  match endLine with
  | none => lines.drop startLine
  | some endLine => (lines.take endLine).drop startLine

def lineStart (lines : List (List ℕ)) (line : ℕ) : ℕ :=
  ((lines.take line).map fun bytes => bytes.length + 1).sum

/-- Where a line ends: at its newline, or the end of the file. -/
def lineEnd (lines : List (List ℕ)) (line : ℕ) : ℕ :=
  lineStart lines (line + 1) - 1

def withoutMark (bytes : List ℕ) : List ℕ :=
  if startsWithBom bytes then bytes.drop 3 else bytes

def textLines (bytes : List ℕ) : List (List UInt16) :=
  (decode (withoutMark bytes)).splitOn newline.toUInt16

def readWhole (startLine : ℕ) (endLine : Option ℕ) (bytes : List ℕ) : Scan :=
  let lines := bytes.splitOn newline
  let size := bytes.length
  if startLine < lines.length then
    let last := (slice 0 endLine lines).length - 1
    let selected := slice startLine endLine (textLines bytes)
    { newlines := bytes.count newline
      start := lineStart lines startLine
      stop := lineEnd lines last
      firstLineEnd := lineEnd lines startLine
      lastLineStart := lineStart lines last
      selectedBytes := decodedBytes ([newline.toUInt16].intercalate selected)
      firstLineBytes := decodedBytes (selected.headD []) }
  else
    { newlines := bytes.count newline
      start := size
      stop := size
      firstLineEnd := size
      lastLineStart := size
      selectedBytes := 0
      firstLineBytes := 0 }

theorem decodedBytes_text {points : List ℕ} (allScalar : ∀ point ∈ points, Utf8.IsScalar point) :
    decodedBytes (Utf8.text points) = (encodePoints points).length := by
  rw [decodedBytes, encode, Utf8.codePoints_text allScalar]

def Open (text : List ℕ) (decoder : Option (Option Partial)) (size : ℕ) :
    Prop :=
  decoder = some (feedAll none text).1 ∧ size = decodedBytes (Utf8.text (feedAll none text).2)

def Shut (text : List ℕ) (decoder : Option (Option Partial)) (size : ℕ) :
    Prop :=
  decoder = none ∧ size = decodedBytes (decode text)

theorem open_nil : Open [] (some none) 0 :=
  ⟨rfl, rfl⟩

@[simp]
theorem streamed_none (bytes : List ℕ) : streamed none bytes = (none, 0) :=
  rfl

@[simp]
theorem streamed_nil (decoder : Option (Option Partial)) : streamed decoder [] = (decoder, 0) := by
  cases decoder with
  | none | some pending => rfl

variable {text : List ℕ} {decoder : Option (Option Partial)} {size : ℕ}

theorem Open.streamed (opened : Open text decoder size) (bytes : List ℕ) :
    Open (text ++ bytes) (streamed decoder bytes).1 (size + (streamed decoder bytes).2) := by
  obtain ⟨isDecoder, isSize⟩ := opened
  have before := Utf8.feedAll_endsWell Utf8.sound_none text
  have after := Utf8.feedAll_endsWell before.1 bytes
  have both := Utf8.feedAll_endsWell Utf8.sound_none (text ++ bytes)
  have joined := Utf8.feedAll_append none text bytes
  subst isDecoder
  constructor
  · rw [joined]
    rfl
  · have isMore : (LineScan.streamed (some (feedAll none text).1) bytes).2 =
        decodedBytes
          (Utf8.text (feedAll (feedAll none text).1 bytes).2) := rfl
    rw [isSize, isMore, decodedBytes_text before.2, decodedBytes_text after.2,
      decodedBytes_text both.2, joined, Utf8.encodePoints_append,
      length_append]

theorem Open.closed (opened : Open text decoder size) : Shut text none (size + closed decoder) := by
  obtain ⟨isDecoder, isSize⟩ := opened
  have before := Utf8.feedAll_endsWell Utf8.sound_none text
  subst isDecoder
  refine ⟨rfl, ?_⟩
  have isLast : LineScan.closed (some (feedAll none text).1) =
      decodedBytes (Utf8.text (flush (feedAll none text).1)) := rfl
  have flushed := Utf8.flush_isScalar (feedAll none text).1
  have all :
      ∀ point ∈ (feedAll none text).2 ++ flush (feedAll none text).1,
        Utf8.IsScalar point := List.forall_mem_append.mpr ⟨before.2, flushed⟩
  rw [isSize, isLast, decode, decodedBytes_text before.2,
    decodedBytes_text flushed, decodedBytes_text all,
    Utf8.encodePoints_append, length_append]

/-! ## What a scanner tells of the lines so far -/

def width (lines : List (List ℕ)) : ℕ :=
  (lines.map fun bytes => bytes.length + 1).sum

theorem width_append (first second : List (List ℕ)) :
    width (first ++ second) = width first + width second := by
  rw [width, List.map_append, List.sum_append]
  rfl

@[simp]
theorem width_single (line : List ℕ) : width [line] = line.length + 1 := by
  simp [width]

/-- Where a line starts, after a byte-order mark of some bytes. -/
def beginning (mark : ℕ) (lines : List (List ℕ)) (line : ℕ) : ℕ :=
  if line = 0 then 0 else mark + width (lines.take line)

def joined (lines : List (List ℕ)) : List ℕ :=
  [newline].intercalate lines

theorem joined_snoc {lines : List (List ℕ)} (nonempty : lines ≠ []) (line : List ℕ) :
    joined (lines ++ [line]) = joined lines ++ [newline] ++ line := by
  induction lines with
  | nil => exact absurd rfl nonempty
  | cons first rest ih =>
    cases rest with
    | nil => simp [joined]
    | cons second rest =>
      have more := ih (List.cons_ne_nil second rest)
      simp only [joined, cons_append, List.intercalate_cons_cons] at more ⊢
      rw [more]
      simp only [append_assoc]

theorem joined_last (lines : List (List ℕ)) (line bytes : List ℕ) :
    joined (lines ++ [line ++ bytes]) = joined (lines ++ [line]) ++ bytes := by
  cases lines with
  | nil => simp [joined]
  | cons first rest =>
    have nonempty := List.cons_ne_nil first rest
    rw [joined_snoc nonempty, joined_snoc nonempty]
    simp only [append_assoc]

/-- What a scanner has after some lines that ended and the bytes `current` of
the next; the lines are without the mark. -/
structure Reads (mark startLine : ℕ) (endLine : Option ℕ)
    (ended : List (List ℕ)) (current : List ℕ) (s : Scanner) : Prop where
  sameStart : s.startLine = startLine
  sameEnd : s.endLine = endLine
  headless : s.head = none
  marked : s.bom = true → mark = 3
  newlines : s.newlines = ended.length
  lineStart : s.lineStart = beginning mark ended ended.length
  start : s.start =
    if startLine ≤ ended.length then some (beginning mark ended startLine)
    else none
  firstLineEnd : s.firstLineEnd =
    if startLine < ended.length then
      some (mark + width (ended.take (startLine + 1)) - 1)
    else none
  stop : s.stop = (endLine.filter (· ≤ ended.length)).map fun last =>
    mark + width (ended.take last) - 1
  lastLineStart :
    s.lastLineStart =
      (endLine.filter (· ≤ ended.length + 1)).map fun last => beginning mark ended (last - 1)
  firstAhead : ended.length < startLine → s.firstLine = none ∧ s.firstLineBytes = 0
  firstOpen : ended.length = startLine → Open current s.firstLine s.firstLineBytes
  firstShut : startLine < ended.length →
    Shut ((ended.drop startLine).headD []) s.firstLine s.firstLineBytes
  ahead : ended.length < startLine → s.selection = none ∧ s.selectedBytes = 0
  opened : startLine ≤ ended.length → endLine.all (ended.length < ·) →
    Open (joined (ended.drop startLine ++ [current])) s.selection s.selectedBytes
  shut : ∀ last ∈ endLine, last ≤ ended.length →
    Shut (joined ((ended.take last).drop startLine)) s.selection s.selectedBytes

variable {s : Scanner}

theorem feed_past {offset : ℕ} (past : s.bom = true → 3 ≤ offset) (bytes : List ℕ) :
    s.feed offset bytes =
      { s with
        selection := (streamed s.selection bytes).1
        selectedBytes := s.selectedBytes + (streamed s.selection bytes).2
        firstLine := (streamed s.firstLine bytes).1
        firstLineBytes :=
          s.firstLineBytes + (streamed s.firstLine bytes).2 } := by
  have isWhole : (if s.bom then bytes.drop (3 - offset) else bytes) = bytes := by
    split
    · rename_i marked
      have enough := past marked
      rw [Nat.sub_eq_zero_of_le enough, List.drop_zero]
    · rfl
  simp only [Scanner.feed, isWhole]

theorem endLineAt_eq {position : ℕ} (past : s.bom = true → 3 ≤ position) :
    s.endLineAt position =
      { s with
        newlines := s.newlines + 1
        lineStart := position + 1
        start :=
          if s.newlines + 1 = s.startLine then some (position + 1)
          else s.start
        firstLineEnd :=
          if s.newlines = s.startLine then some position else s.firstLineEnd
        stop :=
          if s.endLine = some (s.newlines + 1) then some position else s.stop
        lastLineStart :=
          if s.endLine = some (s.newlines + 2) then some (position + 1)
          else s.lastLineStart
        selection :=
          if s.newlines + 1 = s.startLine then some none
          else if s.endLine = some (s.newlines + 1) then none
          else (streamed s.selection [newline]).1
        selectedBytes :=
          if s.endLine = some (s.newlines + 1) then
            s.selectedBytes + closed s.selection
          else s.selectedBytes + (streamed s.selection [newline]).2
        firstLine :=
          if s.newlines + 1 = s.startLine then some none
          else if s.newlines = s.startLine then none
          else (streamed s.firstLine [newline]).1
        firstLineBytes :=
          if s.newlines = s.startLine then
            s.firstLineBytes + closed s.firstLine
          else s.firstLineBytes + (streamed s.firstLine [newline]).2 } := by
  have isWhole :
      (if s.bom then [newline].drop (3 - position) else [newline]) =
        [newline] := by
    split
    · rename_i marked
      rw [Nat.sub_eq_zero_of_le (past marked), List.drop_zero]
    · rfl
  cases s with
  | mk startLine endLine _ newlines _ _ _ _ _ _ _ _ _ _ _ =>
    simp only at isWhole
    by_cases isFirst : newlines = startLine
    · subst isFirst
      by_cases isLast : endLine = some (newlines + 1)
      · simp [Scanner.endLineAt, Scanner.endFirstLine, Scanner.endSelection,
          Scanner.feed, isWhole, isLast]
      · by_cases isNext : endLine = some (newlines + 2)
        · simp [Scanner.endLineAt, Scanner.endFirstLine, Scanner.feed, isWhole, isNext]
        · simp [Scanner.endLineAt, Scanner.endFirstLine, Scanner.feed, isWhole, isLast, isNext]
    · by_cases isBegun : newlines + 1 = startLine
      · subst isBegun
        by_cases isLast : endLine = some (newlines + 1)
        · simp [Scanner.endLineAt, Scanner.endSelection, Scanner.begin,
            Scanner.feed, isWhole, isLast]
        · by_cases isNext : endLine = some (newlines + 2)
          · simp [Scanner.endLineAt, Scanner.begin, Scanner.feed, isWhole, isNext]
          · simp [Scanner.endLineAt, Scanner.begin, Scanner.feed, isWhole, isLast, isNext]
      · by_cases isLast : endLine = some (newlines + 1)
        · simp [Scanner.endLineAt, Scanner.endSelection, Scanner.feed,
            isWhole, isLast, isFirst, isBegun]
        · by_cases isNext : endLine = some (newlines + 2)
          · simp [Scanner.endLineAt, Scanner.feed, isWhole, isNext, isFirst, isBegun]
          · simp [Scanner.endLineAt, Scanner.feed, isWhole, isLast, isNext, isFirst, isBegun]

section

variable {mark startLine : ℕ} {endLine : Option ℕ} {s : Scanner}
  {ended : List (List ℕ)} {current : List ℕ}

theorem Reads.feed (reads : Reads mark startLine endLine ended current s) {offset : ℕ}
    (past : mark ≤ offset) (bytes : List ℕ) :
    Reads mark startLine endLine ended (current ++ bytes) (s.feed offset bytes) := by
  have isPast : s.bom = true → 3 ≤ offset := by
    intro marked
    have isThree := reads.marked marked
    omega
  rw [feed_past isPast]
  exact
    { sameStart := reads.sameStart
      sameEnd := reads.sameEnd
      headless := reads.headless
      marked := reads.marked
      newlines := reads.newlines
      lineStart := reads.lineStart
      start := reads.start
      firstLineEnd := reads.firstLineEnd
      stop := reads.stop
      lastLineStart := reads.lastLineStart
      firstAhead := by
        intro ahead
        have nothing := reads.firstAhead ahead
        simp [nothing]
      firstOpen := fun here => (reads.firstOpen here).streamed bytes
      firstShut := by
        intro past
        obtain ⟨isDecoder, isSize⟩ := reads.firstShut past
        simp [isDecoder, isSize, Shut]
      ahead := by
        intro ahead
        have nothing := reads.ahead ahead
        simp [nothing]
      opened := by
        intro begun before
        rw [joined_last]
        exact (reads.opened begun before).streamed bytes
      shut := by
        intro last isLast after
        obtain ⟨isDecoder, isSize⟩ := reads.shut last isLast after
        simp [isDecoder, isSize, Shut] }

theorem beginning_snoc (mark : ℕ) (ended : List (List ℕ)) (current : List ℕ) {line : ℕ}
    (inside : line ≤ ended.length) :
    beginning mark (ended ++ [current]) line = beginning mark ended line := by
  rw [beginning, beginning, take_append_of_le_length inside]

theorem beginning_last (mark : ℕ) (ended : List (List ℕ)) (current : List ℕ) :
    beginning mark (ended ++ [current]) (ended.length + 1) =
      mark + width ended + current.length + 1 := by
  have isWhole : (ended ++ [current]).take (ended.length + 1) = ended ++ [current] := by
    rw [take_of_length_le (by simp)]
  rw [beginning, if_neg (Nat.succ_ne_zero _), isWhole, width_append, width_single]
  omega

theorem drop_snoc {ended : List (List ℕ)} {startLine : ℕ} (current : List ℕ)
    (begun : startLine ≤ ended.length) :
    (ended ++ [current]).drop startLine = ended.drop startLine ++ [current] :=
  List.drop_append_of_le_length begun

theorem Reads.endLineAt (reads : Reads mark startLine endLine ended current s)
    (isRange : endLine.all fun last => startLine < last) {position : ℕ}
    (isHere : position = mark + width ended + current.length) :
    Reads mark startLine endLine (ended ++ [current]) [] (s.endLineAt position) := by
  have isPast : s.bom = true → 3 ≤ position := by
    intro marked
    have isThree := reads.marked marked
    omega
  have more : (ended ++ [current]).length = ended.length + 1 := by simp
  have whole : (ended ++ [current]).take (ended.length + 1) = ended ++ [current] := by
    rw [take_of_length_le (by simp)]
  have afterStart : ∀ last ∈ endLine, startLine < last := by
    intro last isLast
    rwa [Option.mem_def.mp isLast, all_some, decide_eq_true_eq] at isRange
  obtain rfl := reads.sameStart
  obtain rfl := reads.sameEnd
  have isCount := reads.newlines
  rw [endLineAt_eq isPast]
  exact
    { sameStart := rfl
      sameEnd := rfl
      headless := reads.headless
      marked := reads.marked
      newlines := by simp [isCount]
      lineStart := by rw [more, beginning_last, isHere]
      start := by
        simp only [isCount, reads.start, more]
        rcases Nat.lt_trichotomy s.startLine (ended.length + 1) with
          before | isNext | after
        · have inside : s.startLine ≤ ended.length := by omega
          rw [if_neg (by omega), if_pos inside, if_pos (by omega),
            beginning_snoc mark ended current inside]
        · rw [if_pos isNext.symm, if_pos (by omega), isNext, beginning_last, isHere]
        · rw [if_neg (by omega), if_neg (by omega), if_neg (by omega)]
      firstLineEnd := by
        simp only [isCount, reads.firstLineEnd, more]
        rcases Nat.lt_trichotomy s.startLine ended.length with
          before | isHereToo | after
        · rw [if_neg (by omega), if_pos before, if_pos (by omega),
            take_append_of_le_length before]
        · rw [if_pos isHereToo.symm, if_pos (by omega), isHereToo, whole,
            width_append, width_single, isHere, Option.some.injEq]
          omega
        · rw [if_neg (by omega), if_neg (by omega), if_neg (by omega)]
      stop := by
        simp only [isCount, reads.stop, more]
        cases isEnd : s.endLine with
        | none => simp
        | some last =>
          rcases Nat.lt_trichotomy last (ended.length + 1) with
            before | isNext | after
          · have inside : last ≤ ended.length := by omega
            have different : last ≠ ended.length + 1 := by omega
            have still : last ≤ ended.length + 1 := by omega
            simp [filter_some, inside, still, different,
              take_append_of_le_length inside]
          · simp [filter_some, isNext, whole, width_append, isHere]
            omega
          · have notYet : ¬ last ≤ ended.length := by omega
            have different : last ≠ ended.length + 1 := by omega
            have notNext : ¬ last ≤ ended.length + 1 := by omega
            simp [filter_some, notYet, different, notNext]
      lastLineStart := by
        simp only [isCount, reads.lastLineStart, more]
        cases isEnd : s.endLine with
        | none => simp
        | some last =>
          rcases Nat.lt_trichotomy last (ended.length + 2) with
            before | isNext | after
          · have inside : last ≤ ended.length + 1 := by omega
            have different : last ≠ ended.length + 2 := by omega
            have alsoInside : last ≤ ended.length + 1 + 1 := by omega
            have isSame := beginning_snoc mark ended current (show last - 1 ≤ ended.length by omega)
            simp [filter_some, inside, different, alsoInside, isSame]
          · have isLast := beginning_last mark ended current
            simp [filter_some, isNext, isLast, isHere]
          · have notYet : ¬ last ≤ ended.length + 1 := by omega
            have different : last ≠ ended.length + 2 := by omega
            have notNext : ¬ last ≤ ended.length + 1 + 1 := by omega
            simp [filter_some, notYet, different, notNext]
      firstAhead := by
        intro ahead
        rw [more] at ahead
        have nothing := reads.firstAhead (by omega)
        have notYet : ended.length ≠ s.startLine := by omega
        have notNext : ended.length + 1 ≠ s.startLine := by omega
        simp [isCount, nothing, notYet, notNext]
      firstOpen := by
        intro isNext
        rw [more] at isNext
        have nothing := reads.firstAhead (by omega)
        have notYet : ended.length ≠ s.startLine := by omega
        simp only [isCount, isNext, if_true, notYet, if_false, nothing, streamed_none]
        exact open_nil
      firstShut := by
        intro past
        rw [more] at past
        have notNext : ended.length + 1 ≠ s.startLine := by omega
        rw [drop_snoc current (by omega)]
        by_cases isFirst : ended.length = s.startLine
        · have isShut := (reads.firstOpen isFirst).closed
          have rest : ended.drop s.startLine = [] := by rw [← isFirst, drop_length]
          simp only [isCount, isFirst, if_true, rest]
          simpa using isShut
        · obtain ⟨isDecoder, isSize⟩ := reads.firstShut (by omega)
          simp only [isCount, notNext, if_false, isFirst, isDecoder, streamed_none]
          refine ⟨rfl, ?_⟩
          rw [isSize]
          cases rest : ended.drop s.startLine with
          | nil =>
            rw [List.drop_eq_nil_iff] at rest
            omega
          | cons first others => rfl
      ahead := by
        intro ahead
        rw [more] at ahead
        have nothing := reads.ahead (by omega)
        have notNext : ended.length + 1 ≠ s.startLine := by omega
        have notLast : s.endLine ≠ some (ended.length + 1) := by
          intro isLast
          have after := afterStart _ isLast
          omega
        simp [isCount, nothing, notNext, notLast]
      opened := by
        intro begun before
        rw [more] at begun before
        have notLast : s.endLine ≠ some (ended.length + 1) := by
          intro isLast
          simp [isLast] at before
        by_cases isNext : ended.length + 1 = s.startLine
        · have nothing := reads.ahead (by omega)
          have rest : (ended ++ [current]).drop s.startLine = [] := by
            rw [← isNext, ← more, drop_length]
          simp only [isCount, isNext, if_true, rest, nothing, streamed_none]
          rw [if_neg (by rw [← isNext]; exact notLast)]
          exact open_nil
        · have wasOpen := reads.opened (by omega) (by
            cases isEnd : s.endLine with
            | none => rfl
            | some last =>
              simp only [isEnd, all_some,
                decide_eq_true_eq] at before ⊢
              omega)
          have isMore := wasOpen.streamed [newline]
          rw [drop_snoc current (by omega), joined_snoc (by simp)]
          simp only [isCount, isNext, if_false, notLast, append_nil]
          exact isMore
      shut := by
        intro last isLast after
        rw [more] at after
        have isAfter := afterStart last isLast
        have notNext : ended.length + 1 ≠ s.startLine := by omega
        by_cases isHereToo : last = ended.length + 1
        · subst isHereToo
          have wasOpen := reads.opened (by omega) (by
            rw [Option.mem_def.mp isLast]
            simp)
          rw [whole, drop_snoc current (by omega)]
          simp only [isCount, notNext, if_false, Option.mem_def.mp isLast, if_true]
          exact wasOpen.closed
        · have inside : last ≤ ended.length := by omega
          obtain ⟨isDecoder, isSize⟩ := reads.shut last isLast inside
          rw [take_append_of_le_length inside]
          have different : s.endLine ≠ some (ended.length + 1) := by
            rw [Option.mem_def.mp isLast]
            simpa using isHereToo
          simp only [isCount, notNext, if_false, different, isDecoder, streamed_none]
          exact ⟨rfl, isSize⟩ }

/-! ## Runs -/

def Lines (ended : List (List ℕ)) (current bytes : List ℕ) : Prop :=
  joined (ended ++ [current]) = bytes ∧ ∀ line ∈ ended ++ [current], newline ∉ line

variable {bytes : List ℕ}

theorem Lines.splitOn (lines : Lines ended current bytes) :
    bytes.splitOn newline = ended ++ [current] := by
  obtain ⟨isJoined, free⟩ := lines
  rw [← isJoined, joined, List.splitOn_intercalate newline free (by simp)]

theorem length_joined (ended : List (List ℕ)) (current : List ℕ) :
    (joined (ended ++ [current])).length = width ended + current.length := by
  induction ended with
  | nil => simp [joined, width]
  | cons first rest ih =>
    have isSum : width (first :: rest) = first.length + 1 + width rest := by simp [width]
    cases rest with
    | nil =>
      simp [joined, width]
      omega
    | cons second others =>
      simp only [joined, cons_append, List.intercalate_cons_cons,
        length_append, List.length_singleton] at *
      omega

theorem Lines.length (lines : Lines ended current bytes) :
    bytes.length = width ended + current.length := by
  rw [← lines.1, length_joined]

variable {bytes : List ℕ}

theorem Lines.snoc {bytes : List ℕ} (lines : Lines ended current bytes) {byte : ℕ}
    (different : byte ≠ newline) : Lines ended (current ++ [byte]) (bytes ++ [byte]) := by
  obtain ⟨isJoined, free⟩ := lines
  refine ⟨by rw [joined_last, isJoined], ?_⟩
  intro line member
  rcases List.mem_append.mp member with before | isLast
  · exact free line (List.mem_append_left _ before)
  · have isFree := free current (by simp)
    rw [List.mem_singleton.mp isLast, List.mem_append, not_or, List.mem_singleton]
    exact ⟨isFree, different.symm⟩

theorem Lines.next {bytes : List ℕ} (lines : Lines ended current bytes) :
    Lines (ended ++ [current]) [] (bytes ++ [newline]) := by
  obtain ⟨isJoined, free⟩ := lines
  refine ⟨by rw [joined_snoc (by simp), isJoined, append_nil], ?_⟩
  intro line member
  rcases List.mem_append.mp member with before | isLast
  · exact free line before
  · rw [List.mem_singleton.mp isLast]
    exact List.not_mem_nil

theorem processFrom_reads (isRange : endLine.all fun last => startLine < last) {offset : ℕ}
    {line rest bytes : List ℕ} (reads : Reads mark startLine endLine ended current s)
    (lines : Lines ended (current ++ line) bytes)
    (isHere : offset = mark + width ended + current.length) :
    ∃ ended current,
      Lines ended current (bytes ++ rest) ∧
        Reads mark startLine endLine ended current (s.processFrom offset line rest) := by
  induction rest generalizing s ended current offset line bytes with
  | nil =>
    refine ⟨ended, current ++ line, ?_, reads.feed (by omega) line⟩
    rw [append_nil]
    exact lines
  | cons byte rest ih =>
    rw [List.append_cons, Scanner.processFrom]
    by_cases isNewline : byte = newline
    · rw [if_pos isNewline, isNewline]
      have isFed := reads.feed (show mark ≤ offset by omega) line
      have isEnd : offset + line.length = mark + width ended + (current ++ line).length := by
        rw [length_append]
        omega
      have isEnded := isFed.endLineAt isRange isEnd
      refine ih isEnded lines.next ?_
      rw [width_append, width_single, length_append, length_nil]
      omega
    · rw [if_neg isNewline]
      have isMore := lines.snoc isNewline
      rw [append_assoc] at isMore
      exact ih reads isMore isHere

def Has (mark startLine : ℕ) (endLine : Option ℕ) (bytes : List ℕ) (s : Scanner) : Prop :=
  s.position = mark + bytes.length ∧
    ∃ ended current, Lines ended current bytes ∧ Reads mark startLine endLine ended current s

theorem process_has (isRange : endLine.all fun last => startLine < last)
    (has : Has mark startLine endLine bytes s) (chunk : List ℕ) :
    Has mark startLine endLine (bytes ++ chunk) (s.process chunk) := by
  obtain ⟨isPosition, ended, current, lines, reads⟩ := has
  have isLength := lines.length
  obtain ⟨after, last, isAfter, isRead⟩ :=
    @processFrom_reads mark startLine endLine s ended current isRange
      s.position [] chunk bytes reads (by rw [append_nil]; exact lines)
      (by omega)
  refine ⟨?_, after, last, isAfter, ?_⟩
  · rw [length_append, ← Nat.add_assoc, ← isPosition]
    rfl
  · exact { isRead with }

def markSize (bytes : List ℕ) : ℕ :=
  if startsWithBom bytes then 3 else 0

theorem startsWithBom_append (enough : 3 ≤ bytes.length) (chunk : List ℕ) :
    startsWithBom (bytes ++ chunk) = startsWithBom bytes := by
  rw [startsWithBom, startsWithBom, take_append_of_le_length enough]

theorem withoutMark_append (enough : 3 ≤ bytes.length) (chunk : List ℕ) :
    withoutMark (bytes ++ chunk) = withoutMark bytes ++ chunk := by
  rw [withoutMark, withoutMark, startsWithBom_append enough]
  split
  · exact List.drop_append_of_le_length enough
  · rfl

theorem marked_eq (marked : startsWithBom bytes = true) :
    bytes = 0xEF :: 0xBB :: 0xBF :: withoutMark bytes := by
  have isMark : bytes.take 3 = [0xEF, 0xBB, 0xBF] := by simpa [startsWithBom] using marked
  have isWhole := List.take_append_drop 3 bytes
  rw [isMark] at isWhole
  rw [withoutMark, if_pos marked]
  exact isWhole.symm

theorem make_reads (isRange : endLine.all fun last => startLine < last)
    (made : Scanner.make startLine endLine = some s) {bom : Bool} (marked : bom = true → mark = 3) :
    s.position = 0 ∧ s.head = some [] ∧
      Reads mark startLine endLine [] [] { s with head := none, bom := bom } := by
  rw [Scanner.make, if_pos isRange, Option.some.injEq] at made
  have noLine : ∀ last ∈ endLine, ¬ last ≤ 0 := by
    intro last isLast
    rw [Option.mem_def.mp isLast, all_some, decide_eq_true_eq] at isRange
    omega
  have noStop : endLine.filter (· ≤ 0) = none := by
    rw [Option.filter_eq_none_iff]
    intro last isLast
    simpa using noLine last isLast
  by_cases atOnce : startLine = 0
  · rw [if_pos atOnce] at made
    subst made atOnce
    refine ⟨rfl, rfl, ?_⟩
    exact
      { sameStart := rfl
        sameEnd := rfl
        headless := rfl
        marked := marked
        newlines := rfl
        lineStart := rfl
        start := rfl
        firstLineEnd := rfl
        stop := by
          simp only [length_nil, noStop]
          rfl
        lastLineStart := by
          cases endLine with
          | none => rfl
          | some last =>
            have positive := noLine last rfl
            by_cases isFirst : last = 1
            · subst isFirst
              rfl
            · have past : ¬ last ≤ 1 := by omega
              simp [Scanner.begin, filter_some, isFirst, past]
        firstAhead := fun ahead => absurd ahead (Nat.not_lt_zero _)
        firstOpen := fun _ => open_nil
        firstShut := fun past => absurd past (Nat.lt_irrefl _)
        ahead := fun ahead => absurd ahead (Nat.not_lt_zero _)
        opened := fun _ _ => open_nil
        shut := fun last isLast after => absurd after (noLine last isLast) }
  · rw [if_neg atOnce] at made
    subst made
    refine ⟨rfl, rfl, ?_⟩
    exact
      { sameStart := rfl
        sameEnd := rfl
        headless := rfl
        marked := marked
        newlines := rfl
        lineStart := rfl
        start := by
          have notYet : ¬ startLine ≤ 0 := by omega
          simp [atOnce]
        firstLineEnd := rfl
        stop := by
          simp only [length_nil, noStop]
          rfl
        lastLineStart := by
          cases endLine with
          | none => rfl
          | some last =>
            rw [all_some, decide_eq_true_eq] at isRange
            have past : ¬ last ≤ 1 := by omega
            simp [filter_some, past]
        firstAhead := fun _ => ⟨rfl, rfl⟩
        firstOpen := fun here => absurd here.symm atOnce
        firstShut := fun past => absurd past (Nat.not_lt_zero _)
        ahead := fun _ => ⟨rfl, rfl⟩
        opened := fun begun => absurd (Nat.le_zero.mp begun) atOnce
        shut := fun last isLast after => absurd after (noLine last isLast) }

theorem lines_nil : Lines [] [] [] :=
  ⟨rfl, by simp⟩

theorem releaseHead_has (isRange : endLine.all fun last => startLine < last)
    (made : Scanner.make startLine endLine = some s) {head : List ℕ}
    (short : head.length ≤ 3) (held : Option (List ℕ)) :
    Has (markSize head) startLine endLine (withoutMark head)
      (Scanner.releaseHead { s with head := held } head) := by
  have isMade :=
    @make_reads (markSize head) startLine endLine s isRange made
      (startsWithBom head) (fun marked => by rw [markSize, if_pos marked])
  obtain ⟨atStart, _, reads⟩ := isMade
  by_cases marked : startsWithBom head = true
  · have isHead := marked_eq marked
    have rest : withoutMark head = [] := by
      rw [isHead] at short
      simp only [length_cons] at short
      exact List.length_eq_zero_iff.mp (by omega)
    rw [rest] at isHead ⊢
    have isSize : markSize head = 3 := by rw [markSize, if_pos marked]
    rw [isSize, marked] at reads
    rw [Scanner.releaseHead, marked, isSize, isHead]
    have skipped :
        Scanner.process { s with head := none, bom := true } [0xEF, 0xBB, 0xBF] =
          { s with head := none, bom := true, position := 3 } := by
      simp [Scanner.process, Scanner.processFrom, newline, Scanner.feed, atStart]
    rw [skipped]
    exact ⟨rfl, [], [], lines_nil, { reads with }⟩
  · have rest : withoutMark head = head := by
      rw [withoutMark, if_neg marked]
    have isSize : markSize head = 0 := by rw [markSize, if_neg marked]
    rw [isSize] at reads
    rw [rest, isSize]
    have nothing : Has 0 startLine endLine [] { s with head := none, bom := startsWithBom head } :=
      ⟨atStart, [], [], lines_nil, reads⟩
    exact process_has isRange nothing head

def Follows (startLine : ℕ) (endLine : Option ℕ) (made : Scanner)
    (bytes : List ℕ) (s : Scanner) : Prop :=
  if bytes.length < 3 then s = { made with head := some bytes }
  else Has (markSize bytes) startLine endLine (withoutMark bytes) s

variable {made : Scanner}

theorem push_follows (isRange : endLine.all fun last => startLine < last)
    (isMade : Scanner.make startLine endLine = some made)
    (follows : Follows startLine endLine made bytes s) (chunk : List ℕ) :
    Follows startLine endLine made (bytes ++ chunk) (s.push chunk) := by
  rw [Follows] at follows
  split at follows
  · rename_i short
    subst follows
    rw [Scanner.push]
    simp only
    have isHead : (bytes ++ chunk.take (3 - bytes.length)).length =
        bytes.length + min (3 - bytes.length) chunk.length := by
      rw [length_append, List.length_take]
    split
    · rename_i still
      have all : chunk.take (3 - bytes.length) = chunk := take_of_length_le (by omega)
      rw [all] at still ⊢
      rw [Follows, if_pos still]
    · rename_i enough
      have isThree : (bytes ++ chunk.take (3 - bytes.length)).length = 3 := by omega
      have released := releaseHead_has isRange isMade (Nat.le_of_eq isThree) (some bytes)
      have has := process_has isRange released (chunk.drop (3 - bytes.length))
      have isWhole :
          bytes ++ chunk =
            bytes ++ chunk.take (3 - bytes.length) ++ chunk.drop (3 - bytes.length) := by
        rw [append_assoc, List.take_append_drop]
      have long : ¬ (bytes ++ chunk).length < 3 := by
        rw [isWhole, length_append]
        omega
      have three := Nat.le_of_eq isThree.symm
      rw [Follows, if_neg long, isWhole, withoutMark_append three, markSize,
        startsWithBom_append three]
      exact has
  · rename_i enough
    have headless : s.head = none := by
      obtain ⟨_, _, _, _, reads⟩ := follows
      exact reads.headless
    have long : ¬ (bytes ++ chunk).length < 3 := by
      rw [length_append]
      omega
    have isPush : s.push chunk = s.process chunk := by rw [Scanner.push, headless]
    rw [Follows, if_neg long, isPush, withoutMark_append (by omega), markSize,
      startsWithBom_append (by omega)]
    exact process_has isRange follows chunk

theorem pushes_follow {made : Scanner} (isRange : endLine.all fun last => startLine < last)
    (isMade : Scanner.make startLine endLine = some made)
    {bytes : List ℕ} (follows : Follows startLine endLine made bytes s) (chunks : List (List ℕ)) :
    Follows startLine endLine made (bytes ++ chunks.flatten) (chunks.foldl Scanner.push s) := by
  induction chunks generalizing s bytes with
  | nil =>
    rw [List.flatten_nil, append_nil]
    exact follows
  | cons chunk rest ih =>
    rw [List.flatten_cons, ← append_assoc, List.foldl_cons]
    exact ih (push_follows isRange isMade follows chunk)

/-! ## The end -/

theorem close_eq {start : ℕ} (begun : s.start = some start) :
    s.close =
      { newlines := s.newlines
        start := start
        stop := s.stop.getD s.position
        firstLineEnd := s.firstLineEnd.getD s.position
        lastLineStart := s.lastLineStart.getD s.lineStart
        selectedBytes :=
          if s.stop = none then s.selectedBytes + closed s.selection
          else s.selectedBytes
        firstLineBytes :=
          if s.firstLineEnd = none then s.firstLineBytes + closed s.firstLine
          else s.firstLineBytes } := by
  rw [Scanner.close, begun]
  cases isFirst : s.firstLineEnd with
  | none =>
    cases isStop : s.stop with
    | none => simp [Scanner.endFirstLine, Scanner.endSelection, isStop]
    | some stop => simp [Scanner.endFirstLine, isStop]
  | some firstLineEnd =>
    cases isStop : s.stop with
    | none => simp [Scanner.endSelection, isStop, isFirst]
    | some stop => simp [isStop, isFirst]

theorem Lines.count (lines : Lines ended current bytes) : bytes.count newline = ended.length := by
  induction ended generalizing bytes with
  | nil =>
    obtain ⟨isJoined, free⟩ := lines
    rw [← isJoined]
    have isFree := free current (by simp)
    simpa [joined] using List.count_eq_zero_of_not_mem isFree
  | cons first rest ih =>
    obtain ⟨isJoined, free⟩ := lines
    have isFree := free first (by simp)
    have isRest : Lines rest current (joined (rest ++ [current])) :=
      ⟨rfl, fun line member => free line (List.mem_cons_of_mem first member)⟩
    have isMore :
        joined (first :: (rest ++ [current])) =
          first ++ newline :: joined (rest ++ [current]) := by
      cases rest with
      | nil | cons second others => simp [joined]
    rw [← isJoined, cons_append, isMore, List.count_append, List.count_cons_self, ih isRest,
      List.count_eq_zero_of_not_mem isFree, length_cons]
    omega

theorem lines_marked (bytes : List ℕ) :
    ∃ mark : List ℕ,
      mark.length = markSize bytes ∧ bytes.count newline = (withoutMark bytes).count newline ∧
        bytes.splitOn newline = ((withoutMark bytes).splitOn newline).modifyHead (mark ++ ·) := by
  by_cases marked : startsWithBom bytes = true
  · have isBytes := marked_eq marked
    refine ⟨[0xEF, 0xBB, 0xBF], by rw [markSize, if_pos marked]; rfl, ?_, ?_⟩
    · conv => lhs; rw [isBytes]
      simp [newline]
    · conv => lhs; rw [isBytes]
      simp [List.splitOn_cons_eq_if_modifyHead, newline, List.modifyHead_modifyHead]
      rfl
  · have isBytes : withoutMark bytes = bytes := by
      rw [withoutMark, if_neg marked]
    refine ⟨[], by rw [markSize, if_neg marked]; rfl, by rw [isBytes], ?_⟩
    rw [isBytes]
    cases bytes.splitOn newline with
    | nil | cons first rest => rfl

theorem lineStart_modifyHead
    (mark : List ℕ) {lines : List (List ℕ)} (nonempty : lines ≠ []) (line : ℕ) :
    LineScan.lineStart (lines.modifyHead (mark ++ ·)) line = beginning mark.length lines line := by
  cases lines with
  | nil => exact absurd rfl nonempty
  | cons first rest =>
    cases line with
    | zero => rfl
    | succ line =>
      simp [LineScan.lineStart, beginning, width]
      omega

variable {First : Type}

theorem slice_map {Second : Type} (f : First → Second) (startLine : ℕ) (endLine : Option ℕ)
    (lines : List First) :
    slice startLine endLine (lines.map f) = (slice startLine endLine lines).map f := by
  cases endLine with
  | none => rw [slice, slice, map_drop]
  | some last => rw [slice, slice, ← List.map_take, ← map_drop]

theorem length_marked (bytes : List ℕ) :
    bytes.length = markSize bytes + (withoutMark bytes).length := by
  by_cases marked : startsWithBom bytes = true
  · have isBytes := congrArg List.length (marked_eq marked)
    rw [markSize, if_pos marked, isBytes]
    simp only [length_cons]
    omega
  · rw [markSize, if_neg marked, withoutMark, if_neg marked, Nat.zero_add]

def lastOf (endLine : Option ℕ) (ended : ℕ) : ℕ :=
  match endLine with
  | none => ended
  | some last => min last (ended + 1) - 1

theorem slice_last (endLine : Option ℕ) {lines : List First} {ended : ℕ}
    (isLength : lines.length = ended + 1) :
    (slice 0 endLine lines).length - 1 = lastOf endLine ended := by
  cases endLine with
  | none | some last => simp [slice, lastOf, isLength]

section

variable (reads : Reads mark startLine endLine ended current s)
include reads

theorem Reads.stop_tells (isRange : endLine.all fun last => startLine < last)
    (isSize : s.position = mark + width ended + current.length) :
    s.stop.getD s.position =
      beginning mark (ended ++ [current]) (lastOf endLine ended.length + 1) - 1 := by
  have atEnd :
      beginning mark (ended ++ [current]) (ended.length + 1) - 1 =
        s.position := by
    rw [beginning_last, isSize]
    omega
  rw [reads.stop]
  cases endLine with
  | none => exact atEnd.symm
  | some last =>
    rw [all_some, decide_eq_true_eq] at isRange
    by_cases inside : last ≤ ended.length
    · have isLast : lastOf (some last) ended.length + 1 = last := by
        simp only [lastOf]
        omega
      rw [isLast, beginning_snoc mark ended current inside, beginning, if_neg (by omega)]
      simp [filter_some, inside]
    · have isLast : lastOf (some last) ended.length = ended.length := by
        simp only [lastOf]
        omega
      rw [isLast, atEnd]
      simp [filter_some, inside]

theorem Reads.lastLineStart_tells :
    s.lastLineStart.getD s.lineStart =
      beginning mark (ended ++ [current]) (lastOf endLine ended.length) := by
  rw [reads.lastLineStart, reads.lineStart]
  cases endLine with
  | none => exact (beginning_snoc mark ended current (Nat.le_refl _)).symm
  | some last =>
    by_cases inside : last ≤ ended.length + 1
    · have isLast : lastOf (some last) ended.length = last - 1 := by
        simp only [lastOf]
        omega
      rw [isLast, beginning_snoc mark ended current (by omega)]
      simp [filter_some, inside]
    · have isLast : lastOf (some last) ended.length = ended.length := by
        simp only [lastOf]
        omega
      rw [isLast, beginning_snoc mark ended current (Nat.le_refl _)]
      simp [filter_some, inside]

theorem Reads.firstLineEnd_tells (begun : startLine ≤ ended.length)
    (isSize : s.position = mark + width ended + current.length) :
    s.firstLineEnd.getD s.position = beginning mark (ended ++ [current]) (startLine + 1) - 1 := by
  rw [reads.firstLineEnd]
  by_cases past : startLine < ended.length
  · rw [if_pos past, beginning_snoc mark ended current past, beginning, if_neg (Nat.succ_ne_zero _)]
    rfl
  · have isLast : startLine = ended.length := by omega
    rw [if_neg past, isLast, beginning_last, isSize]
    simp

theorem Reads.firstLineBytes_tells (begun : startLine ≤ ended.length) :
    (if s.firstLineEnd = none then s.firstLineBytes + closed s.firstLine
      else s.firstLineBytes) =
      decodedBytes
        (decode (((ended ++ [current]).drop startLine).headD [])) := by
  rw [reads.firstLineEnd, drop_snoc current begun]
  by_cases past : startLine < ended.length
  · have isShut := (reads.firstShut past).2
    rw [if_pos past, if_neg (by simp), isShut]
    cases rest : ended.drop startLine with
    | nil =>
      rw [List.drop_eq_nil_iff] at rest
      omega
    | cons first others => rfl
  · have isLast : ended.length = startLine := by omega
    have isShut := (reads.firstOpen isLast).closed.2
    have rest : ended.drop startLine = [] := by rw [← isLast, drop_length]
    rw [if_neg past, if_pos rfl, isShut, rest]
    rfl

theorem Reads.selectedBytes_tells (begun : startLine ≤ ended.length) :
    (if s.stop = none then s.selectedBytes + closed s.selection
      else s.selectedBytes) =
      decodedBytes
        (decode (joined (slice startLine endLine (ended ++ [current])))) := by
  rw [reads.stop]
  cases endLine with
  | none =>
    have isShut := (reads.opened begun rfl).closed.2
    rw [if_pos (by simp), isShut, slice, drop_snoc current begun]
  | some last =>
    by_cases inside : last ≤ ended.length
    · have isShut := (reads.shut last rfl inside).2
      rw [if_neg (by simp [filter_some, inside]), isShut, slice,
        take_append_of_le_length inside]
    · have isShut := (reads.opened begun (by simpa using inside)).closed.2
      have whole : (ended ++ [current]).take last = ended ++ [current] := by
        rw [take_of_length_le]
        simp only [length_append, List.length_singleton]
        omega
      rw [if_pos (by simp [filter_some, inside]), isShut, slice,
        whole, drop_snoc current begun]

end

theorem headD_slice (isRange : endLine.all fun last => startLine < last) (lines : List First)
    (otherwise : First) :
    (slice startLine endLine lines).headD otherwise = (lines.drop startLine).headD otherwise := by
  cases endLine with
  | none => rfl
  | some last =>
    rw [all_some, decide_eq_true_eq] at isRange
    rw [slice, List.headD_eq_head?_getD, List.headD_eq_head?_getD,
      List.head?_drop, List.head?_drop, List.getElem?_take_of_lt isRange]

theorem close_tells (isRange : endLine.all fun last => startLine < last)
    (has : Has (markSize bytes) startLine endLine (withoutMark bytes) s) :
    s.close = readWhole startLine endLine bytes := by
  obtain ⟨isPosition, ended, current, lines, reads⟩ := has
  obtain ⟨mark, isMark, sameCount, isSplit⟩ := lines_marked bytes
  have isLength := lines.length
  have isCount : bytes.count newline = ended.length := by rw [sameCount, lines.count]
  have isSize : s.position = bytes.length := by rw [isPosition, ← length_marked]
  have isWidth : s.position = markSize bytes + width ended + current.length := by omega
  rw [lines.splitOn] at isSplit
  have howMany : (bytes.splitOn newline).length = ended.length + 1 := by
    rw [isSplit, List.length_modifyHead, length_append, List.length_singleton]
  have begins : ∀ line,
      LineScan.lineStart (bytes.splitOn newline) line =
        beginning (markSize bytes) (ended ++ [current]) line := by
    intro line
    rw [isSplit, lineStart_modifyHead mark (by simp), isMark]
  have ascii : newline < 0x80 := by decide
  have isText : textLines bytes = (ended ++ [current]).map decode := by
    rw [textLines, Utf8.splitOn_decode ascii, lines.splitOn]
  rw [readWhole]
  simp only [howMany, isCount]
  by_cases begun : startLine ≤ ended.length
  · have isStart : s.start = some (beginning (markSize bytes) ended startLine) := by
      rw [reads.start, if_pos begun]
    have isFirst :
        ((slice startLine endLine (textLines bytes)).headD []) =
          decode (((ended ++ [current]).drop startLine).headD []) := by
      rw [headD_slice isRange, isText, ← map_drop]
      cases (ended ++ [current]).drop startLine with
      | nil | cons first others => rfl
    rw [close_eq isStart, if_pos (Nat.lt_succ_of_le begun), reads.newlines,
      slice_last endLine howMany, begins, LineScan.lineEnd,
      LineScan.lineEnd, begins, begins, begins,
      beginning_snoc _ ended current begun, reads.stop_tells isRange isWidth,
      reads.firstLineEnd_tells begun isWidth, reads.lastLineStart_tells,
      reads.firstLineBytes_tells begun, reads.selectedBytes_tells begun,
      isFirst, isText, slice_map, ← Utf8.decode_intercalate ascii]
    rfl
  · have isStart : s.start = none := by
      rw [reads.start, if_neg begun]
    have notInside : ¬ startLine < ended.length + 1 := by omega
    rw [if_neg notInside, Scanner.close]
    simp only [isStart, isSize, reads.newlines]

/-- However a file is cut into chunks, a scanner tells of it what reading it
whole tells. -/
theorem scan_eq_readWhole (startLine : ℕ) (endLine : Option ℕ) (chunks : List (List ℕ)) :
    ((Scanner.make startLine endLine).map fun made =>
        (chunks.foldl Scanner.push made).finish) =
      if endLine.all fun last => startLine < last then
        some (readWhole startLine endLine chunks.flatten)
      else none := by
  by_cases isRange : endLine.all fun last => startLine < last
  · rw [if_pos isRange]
    cases isMade : Scanner.make startLine endLine with
    | none =>
      rw [Scanner.make, if_pos isRange] at isMade
      cases isMade
    | some made =>
      obtain ⟨_, isEmpty, _⟩ :=
        @make_reads 3 startLine endLine made isRange isMade true fun _ => rfl
      have nothing : Follows startLine endLine made [] made := by
        rw [Follows, if_pos (by decide), ← isEmpty]
      have follows := pushes_follow isRange isMade nothing chunks
      rw [List.nil_append] at follows
      rw [Option.map_some, Option.some.injEq, Scanner.finish]
      rw [Follows] at follows
      split at follows
      · rename_i short
        rw [follows]
        exact close_tells isRange (releaseHead_has isRange isMade (by omega) _)
      · obtain ⟨_, _, _, _, reads⟩ := id follows
        rw [reads.headless]
        exact close_tells isRange follows
  · rw [Scanner.make, if_neg isRange, if_neg isRange]
    rfl

/-- A mark and a character that are cut. -/
example :
    ((Scanner.make 0 (some 1)).map fun made =>
        (([[0xEF, 0xBB], [0xBF, 0xC3], [0xA9, 0x0A]] : List (List ℕ)).foldl
          Scanner.push made).finish) =
      some ⟨1, 0, 5, 5, 0, 2, 2⟩ := by
  decide +kernel

end

end PiEmbodied.Durable.LineScan
