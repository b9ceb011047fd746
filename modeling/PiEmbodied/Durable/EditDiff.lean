import Mathlib.Data.List.DropRight
import Mathlib.Data.List.Sort
import PiEmbodied.Splices

/-!
# Edits of a file

Edits give an old text and a new text.  The old texts are looked for in the
content as it is, or in its normal form; what is replaced is either ranges of
the content, or the lines of the normal form that the ranges touch.  A string is
a list of UTF-16 code units, and `nfkc` stands for the normalisation of Unicode.
-/

namespace PiEmbodied.Durable.EditDiff

open Splices (OccursAt occurrences indexOf parts Piece splice replaceBack)

abbrev Text := List UInt16

/-! ## Normal forms -/

def newline : UInt16 := 0x0A
def carriageReturn : UInt16 := 0x0D

/-- `\r\n` becomes `\n`. -/
def replaceCrlf : Text → Text
  | [] => []
  | [unit] => [unit]
  | first :: second :: rest =>
    if first = carriageReturn ∧ second = newline then
      newline :: replaceCrlf rest
    else first :: replaceCrlf (second :: rest)

def normalizeToLF (text : Text) : Text :=
  (replaceCrlf text).map fun unit =>
    if unit = carriageReturn then newline else unit

/-- What `trimEnd` takes off. -/
def isWhitespace (unit : UInt16) : Bool :=
  (0x09 ≤ unit && unit ≤ 0x0D) || unit = 0x20 || unit = 0xA0 ||
    unit = 0x1680 || (0x2000 ≤ unit && unit ≤ 0x200A) || unit = 0x2028 ||
    unit = 0x2029 || unit = 0x202F || unit = 0x205F || unit = 0x3000 ||
    unit = 0xFEFF

def trimEnd (line : Text) : Text :=
  line.rdropWhile isWhitespace

def toAscii (unit : UInt16) : UInt16 :=
  if 0x2018 ≤ unit && unit ≤ 0x201B then 0x27
  else if 0x201C ≤ unit && unit ≤ 0x201F then 0x22
  else if (0x2010 ≤ unit && unit ≤ 0x2015) || unit = 0x2212 then 0x2D
  else if unit = 0xA0 || (0x2002 ≤ unit && unit ≤ 0x200A) || unit = 0x202F ||
      unit = 0x205F || unit = 0x3000 then 0x20
  else unit

def normalizeForFuzzyMatch (nfkc : Text → Text) (text : Text) : Text :=
  ([newline].intercalate (((nfkc text).splitOn newline).map trimEnd)).map toAscii

/-- The lines with their endings; `line` is what is read of one. -/
def linesFrom (line : Text) : Text → List Text
  | [] => if line = [] then [] else [line]
  | unit :: rest =>
    if unit = newline then (line ++ [unit]) :: linesFrom [] rest
    else linesFrom (line ++ [unit]) rest

def splitLinesWithEndings (content : Text) : List Text :=
  linesFrom [] content

/-- `LineSpan`; `stop` is its `end`. -/
structure LineSpan where
  (start stop : ℕ)
deriving DecidableEq

def spansFrom (offset : ℕ) : List Text → List LineSpan
  | [] => []
  | line :: rest => ⟨offset, offset + line.length⟩ :: spansFrom (offset + line.length) rest

def getLineSpans (content : Text) : List LineSpan :=
  spansFrom 0 (splitLinesWithEndings content)

structure Edit where
  (oldText newText : Text)
deriving DecidableEq

structure MatchedEdit where
  (editIndex matchIndex matchLength : ℕ)
  newText : Text
deriving DecidableEq

def MatchedEdit.matchEnd (edit : MatchedEdit) : ℕ :=
  edit.matchIndex + edit.matchLength

/-- The errors; the number of edits chooses between two wordings of the first
three. -/
inductive EditError where
  | emptyOldText (editIndex totalEdits : ℕ)
  | notFound (editIndex totalEdits : ℕ)
  | duplicate (editIndex totalEdits : ℕ) (occurrences : ℤ)
  | overlap (previous current : ℕ)
  | outside
  | lineCount
  | noChange (totalEdits : ℕ)
deriving DecidableEq

structure FuzzyMatchResult where
  found : Bool
  index : ℤ
  matchLength : ℕ
  usedFuzzyMatch : Bool
  contentForReplacement : Text

def fuzzyFindText (nfkc : Text → Text) (content oldText : Text) :
    FuzzyMatchResult :=
  match indexOf content oldText with
  | some index => ⟨true, index, oldText.length, false, content⟩
  | none =>
    let fuzzyContent := normalizeForFuzzyMatch nfkc content
    let fuzzyOldText := normalizeForFuzzyMatch nfkc oldText
    match indexOf fuzzyContent fuzzyOldText with
    | none => ⟨false, -1, 0, false, content⟩
    | some index => ⟨true, index, fuzzyOldText.length, true, fuzzyContent⟩

def countOccurrences (nfkc : Text → Text) (content oldText : Text) : ℤ :=
  (parts (normalizeForFuzzyMatch nfkc content) (normalizeForFuzzyMatch nfkc oldText)).length - 1

/-! ## Replacements -/

structure LineRange where
  (startLine endLine : ℕ)
deriving DecidableEq

def getReplacementLineRange (lines : List LineSpan)
    (replacement : MatchedEdit) : Except EditError LineRange :=
  match lines.findIdx? fun line =>
      line.start ≤ replacement.matchIndex && replacement.matchIndex < line.stop with
  | none => .error .outside
  | some startLine =>
    match (lines.drop startLine).findIdx? fun line =>
        replacement.matchEnd ≤ line.stop with
    | none => .error .outside
    | some more => .ok ⟨startLine, startLine + more + 1⟩

/-- The range of a replacement in a text that starts at an offset. -/
def MatchedEdit.piece (offset : ℕ) (replacement : MatchedEdit) :
    Piece UInt16 :=
  ⟨replacement.matchIndex - offset, replacement.matchLength, replacement.newText⟩

def applyReplacements (content : Text) (replacements : List MatchedEdit) (offset : ℕ) : Text :=
  replaceBack content (replacements.map (MatchedEdit.piece offset))

structure Group where
  (startLine endLine : ℕ)
  replacements : List MatchedEdit

/-- The loop over the sorted replacements, with the group that it adds to. -/
def groupFrom (lines : List LineSpan) (current : Option Group) :
    List MatchedEdit → Except EditError (List Group)
  | [] => .ok current.toList
  | replacement :: rest => do
      let range ← getReplacementLineRange lines replacement
      let fresh : Group := ⟨range.startLine, range.endLine, [replacement]⟩
      match current with
      | none => groupFrom lines (some fresh) rest
      | some group =>
        if range.startLine < group.endLine then
          groupFrom lines
            (some
              ⟨group.startLine, max group.endLine range.endLine,
                group.replacements ++ [replacement]⟩)
            rest
        else
          let groups ← groupFrom lines (some fresh) rest
          .ok (group :: groups)

def byIndex (first second : MatchedEdit) : Bool :=
  first.matchIndex ≤ second.matchIndex

def groupText (baseContent : Text) (baseLines : List LineSpan) (group : Group) : Text :=
  let groupStartOffset := (baseLines[group.startLine]?.map LineSpan.start).getD 0
  let groupEndOffset := (baseLines[group.endLine - 1]?.map LineSpan.stop).getD 0
  applyReplacements
    ((baseContent.take groupEndOffset).drop groupStartOffset)
    group.replacements groupStartOffset

def assemble (originalLines : List Text) (baseContent : Text)
    (baseLines : List LineSpan) (originalLineIndex : ℕ) : List Group → Text
  | [] => (originalLines.drop originalLineIndex).flatten
  | group :: rest =>
    ((originalLines.take group.startLine).drop originalLineIndex).flatten ++
      groupText baseContent baseLines group ++
        assemble originalLines baseContent baseLines group.endLine rest

def applyReplacementsPreservingUnchangedLines
    (originalContent baseContent : Text) (replacements : List MatchedEdit) :
    Except EditError Text :=
  let originalLines := splitLinesWithEndings originalContent
  let baseLines := getLineSpans baseContent
  if originalLines.length ≠ baseLines.length then .error .lineCount
  else do
    let groups ← groupFrom baseLines none (replacements.mergeSort byIndex)
    .ok (assemble originalLines baseContent baseLines 0 groups)

def matchFrom (nfkc : Text → Text) (content : Text) (totalEdits : ℕ)
    (index : ℕ) : List Edit → Except EditError (List MatchedEdit)
  | [] => .ok []
  | edit :: rest =>
    let matchResult := fuzzyFindText nfkc content edit.oldText
    let count := countOccurrences nfkc content edit.oldText
    if !matchResult.found then .error (.notFound index totalEdits)
    else if count > 1 then .error (.duplicate index totalEdits count)
    else do
      let others ← matchFrom nfkc content totalEdits (index + 1) rest
      .ok
        (⟨index, matchResult.index.toNat, matchResult.matchLength, edit.newText⟩ :: others)

def checkOverlap : List MatchedEdit → Except EditError Unit
  | previous :: current :: rest =>
    if previous.matchEnd > current.matchIndex then
      .error (.overlap previous.editIndex current.editIndex)
    else checkOverlap (current :: rest)
  | _ => .ok ()

/-- The edits with `\n` alone. -/
def normalizeEdits (edits : List Edit) : List Edit :=
  edits.map fun edit => ⟨normalizeToLF edit.oldText, normalizeToLF edit.newText⟩

def usedFuzzyMatch (nfkc : Text → Text) (content : Text) (edits : List Edit) : Bool :=
  (normalizeEdits edits).any fun edit => (fuzzyFindText nfkc content edit.oldText).usedFuzzyMatch

def replacementBase (nfkc : Text → Text) (content : Text) (edits : List Edit) : Text :=
  if usedFuzzyMatch nfkc content edits then
    normalizeForFuzzyMatch nfkc content
  else content

def replaced (nfkc : Text → Text) (content : Text) (edits : List Edit)
    (sorted : List MatchedEdit) : Except EditError Text :=
  let base := replacementBase nfkc content edits
  if usedFuzzyMatch nfkc content edits then
    applyReplacementsPreservingUnchangedLines content base sorted
  else .ok (applyReplacements base sorted 0)

/-- `applyEditsToNormalizedContent`; the base content is the content. -/
def applyEditsToNormalizedContent (nfkc : Text → Text)
    (normalizedContent : Text) (edits : List Edit) : Except EditError Text :=
  let normalizedEdits := normalizeEdits edits
  match normalizedEdits.findIdx? fun edit => edit.oldText.length = 0 with
  | some index => .error (.emptyOldText index normalizedEdits.length)
  | none => do
      let base := replacementBase nfkc normalizedContent edits
      let matchedEdits ← matchFrom nfkc base normalizedEdits.length 0 normalizedEdits
      let sorted := matchedEdits.mergeSort byIndex
      checkOverlap sorted
      let newContent ← replaced nfkc normalizedContent edits sorted
      if normalizedContent = newContent then
        .error (.noChange normalizedEdits.length)
      else .ok newContent

/-! ## Lines that are touched -/

variable {offset index : ℕ} {lines : List Text} {span : LineSpan}

theorem offset_le_start (isSpan : (spansFrom offset lines)[index]? = some span) :
    offset ≤ span.start := by
  induction lines generalizing offset index with
  | nil => cases isSpan
  | cons line rest ih =>
    cases index with
    | zero =>
      cases isSpan
      exact Nat.le_refl offset
    | succ index =>
      have isLater := ih isSpan
      omega

theorem start_eq_stop {next : LineSpan} (isSpan : (spansFrom offset lines)[index]? = some span)
    (isNext : (spansFrom offset lines)[index + 1]? = some next) : next.start = span.stop := by
  induction lines generalizing offset index with
  | nil => cases isSpan
  | cons line rest ih =>
    cases index with
    | zero =>
      cases isSpan
      cases rest with
      | nil => cases isNext
      | cons second others =>
        cases isNext
        rfl
    | succ index => exact ih isSpan isNext

theorem stop_le_start {first second : ℕ} {later : LineSpan}
    (isSpan : (spansFrom offset lines)[first]? = some span)
    (isLater : (spansFrom offset lines)[second]? = some later)
    (before : first < second) : span.stop ≤ later.start := by
  induction lines generalizing offset first second with
  | nil => cases isSpan
  | cons line rest ih =>
    cases second with
    | zero => omega
    | succ second =>
      cases first with
      | zero =>
        cases isSpan
        exact offset_le_start isLater
      | succ first => exact ih isSpan isLater (Nat.lt_of_succ_lt_succ before)

theorem start_le_stop (isSpan : (spansFrom offset lines)[index]? = some span) :
    span.start ≤ span.stop := by
  induction lines generalizing offset index with
  | nil => cases isSpan
  | cons line rest ih =>
    cases index with
    | zero =>
      cases isSpan
      exact Nat.le_add_right _ _
    | succ index => exact ih isSpan

def Touches (lines : List LineSpan) (edit : MatchedEdit) (index : ℕ) : Prop :=
  ∃ line, lines[index]? = some line ∧ edit.matchIndex < line.stop ∧
    (line.start ≤ edit.matchIndex ∨ line.start < edit.matchEnd)

/-- The line range of a replacement: it starts at the line where the range does,
and the range touches each of its lines. -/
structure RangeOf (lines : List LineSpan) (edit : MatchedEdit) (range : LineRange) : Prop where
  nonempty : range.startLine < range.endLine
  inside : range.endLine ≤ lines.length
  starts : ∃ line, lines[range.startLine]? = some line ∧
    line.start ≤ edit.matchIndex ∧ edit.matchIndex < line.stop
  touched : ∀ index, range.startLine ≤ index → index < range.endLine → Touches lines edit index

variable {content : Text}

theorem lineRange_spec {edit : MatchedEdit} {range : LineRange}
    (isRange : getReplacementLineRange (getLineSpans content) edit = .ok range) :
    RangeOf (getLineSpans content) edit range := by
  rw [getReplacementLineRange] at isRange
  split at isRange
  · cases isRange
  · rename_i startLine isStart
    split at isRange
    · cases isRange
    · rename_i more isMore
      cases isRange
      obtain ⟨startInside, starts, _⟩ := List.findIdx?_eq_some_iff_getElem.mp isStart
      obtain ⟨moreInside, _, notBefore⟩ := List.findIdx?_eq_some_iff_getElem.mp isMore
      rw [List.length_drop] at moreInside
      simp only [Bool.and_eq_true, decide_eq_true_eq] at starts
      have isFirst := List.getElem?_eq_getElem startInside
      refine ⟨by simp only; omega, by simp only; omega, ⟨_, isFirst, starts⟩, ?_⟩
      intro index after before
      simp only at after before
      have inside : index < (getLineSpans content).length := by omega
      have isLine := List.getElem?_eq_getElem inside
      refine ⟨_, isLine, ?_⟩
      rcases Nat.eq_or_lt_of_le after with same | later
      · subst same
        exact ⟨starts.2, Or.inl starts.1⟩
      · have isStop :=
          stop_le_start isFirst isLine later
        obtain ⟨previous, rfl⟩ : ∃ previous, index = previous + 1 :=
          ⟨index - 1, by omega⟩
        have previousInside : previous < (getLineSpans content).length := by omega
        have isPrevious := List.getElem?_eq_getElem previousInside
        have isNotEnd := notBefore (previous - startLine) (by omega)
        simp only [List.getElem_drop, Bool.not_eq_true,
          decide_eq_false_iff_not] at isNotEnd
        have sameIndex : startLine + (previous - startLine) = previous := by omega
        simp only [sameIndex] at isNotEnd
        have isStart := start_eq_stop isPrevious isLine
        have isOrdered := start_le_stop isLine
        constructor
        · omega
        · right
          omega

/-! ## Groups -/

/-- Groups that lie one after another from a line on; edits touch all their
lines. -/
def Laid (lines : List LineSpan) (edits : List MatchedEdit) : ℕ → List Group → Prop
  | _, [] => True
  | index, group :: rest =>
    (index ≤ group.startLine ∧ group.startLine < group.endLine ∧ group.endLine ≤ lines.length ∧
      ∀ line, group.startLine ≤ line → line < group.endLine →
        ∃ edit ∈ edits, Touches lines edit line) ∧
      Laid lines edits group.endLine rest

variable {edits : List MatchedEdit}

theorem groupFrom_laid {replacements : List MatchedEdit} {current : Option Group}
    {groups : List Group} (among : replacements ⊆ edits)
    (sorted : replacements.Pairwise fun first second => first.matchIndex ≤ second.matchIndex)
    (isGood : ∀ group ∈ current,
      Laid (getLineSpans content) edits index [group] ∧
        ∀ line, (getLineSpans content)[group.startLine]? = some line →
          ∀ replacement ∈ replacements, line.start ≤ replacement.matchIndex)
    (isFirst : current = none → index = 0)
    (made : groupFrom (getLineSpans content) current replacements = .ok groups) :
    Laid (getLineSpans content) edits index groups := by
  induction replacements generalizing current groups index with
  | nil =>
    cases made
    cases current with
    | none => trivial
    | some group => exact (isGood group rfl).1
  | cons replacement rest ih =>
    obtain ⟨isBefore, restSorted⟩ := List.pairwise_cons.mp sorted
    have restAmong : rest ⊆ edits := fun edit member => among (List.mem_cons_of_mem _ member)
    have isAmong := among List.mem_cons_self
    rw [groupFrom] at made
    cases isRange : getReplacementLineRange (getLineSpans content) replacement with
    | error error =>
      rw [isRange] at made
      cases made
    | ok range =>
      have ranges := lineRange_spec isRange
      obtain ⟨first, isFirstLine, starts, _⟩ := ranges.starts
      have freshGood : ∀ start, start ≤ range.startLine →
          Laid (getLineSpans content) edits start
              [⟨range.startLine, range.endLine, [replacement]⟩] ∧
            ∀ line,
              (getLineSpans content)[range.startLine]? = some line →
                ∀ other ∈ rest, line.start ≤ other.matchIndex := by
        intro start before
        refine ⟨⟨⟨before, ranges.nonempty, ranges.inside, ?_⟩, trivial⟩, ?_⟩
        · intro line after inside
          exact ⟨replacement, isAmong, ranges.touched line after inside⟩
        · intro line isLine other member
          rw [isFirstLine, Option.some.injEq] at isLine
          subst isLine
          exact Nat.le_trans starts (isBefore other member)
      rw [isRange] at made
      cases current with
      | none =>
        have atStart := isFirst rfl
        subst atStart
        refine ih restAmong restSorted ?_ ?_ made
        · intro group isGroup
          cases isGroup
          exact freshGood 0 (Nat.zero_le _)
        · intro isNone
          cases isNone
      | some group =>
        obtain ⟨⟨⟨after, nonempty, inside, touched⟩, _⟩, lineStarts⟩ := isGood group rfl
        -- The new range starts at the group's first line or later.
        have isLater : group.startLine ≤ range.startLine := by
          by_contra notLater
          have groupInside : group.startLine < (getLineSpans content).length := by omega
          have isLine := List.getElem?_eq_getElem groupInside
          have isStop := stop_le_start isFirstLine isLine (by omega)
          have isStart := lineStarts _ isLine replacement List.mem_cons_self
          omega
        simp only [bind, Except.bind] at made
        split at made
        · rename_i joins
          refine ih restAmong restSorted ?_ ?_ made
          · intro merged isMerged
            cases isMerged
            refine ⟨⟨⟨after, ?_, ?_, ?_⟩, trivial⟩, ?_⟩
            · simp only
              omega
            · have isInside := ranges.inside
              simp only
              omega
            · intro line fromStart beforeEnd
              simp only at fromStart beforeEnd
              by_cases inGroup : line < group.endLine
              · exact touched line fromStart inGroup
              · exact ⟨replacement, isAmong, ranges.touched line (by omega) (by omega)⟩
            · intro line isLine other member
              exact lineStarts line isLine other (List.mem_cons_of_mem _ member)
          · intro isNone
            cases isNone
        · rename_i apart
          split at made
          · cases made
          · rename_i others isOthers
            cases made
            refine ⟨⟨after, nonempty, inside, touched⟩, ?_⟩
            refine ih restAmong restSorted ?_ ?_ isOthers
            · intro fresh isFresh
              cases isFresh
              exact freshGood group.endLine (by omega)
            · intro isNone
              cases isNone

theorem assemble_lines {originalLines : List Text} {baseContent : Text} {groups : List Group}
    (sameLength : originalLines.length = (getLineSpans baseContent).length)
    (inside : index ≤ originalLines.length)
    (laid : Laid (getLineSpans baseContent) edits index groups) :
    ∃ lines : List Text,
      assemble originalLines baseContent (getLineSpans baseContent) index groups = lines.flatten ∧
        lines.length = originalLines.length - index ∧
        ∀ line, index ≤ line →
          (∀ edit ∈ edits, ¬ Touches (getLineSpans baseContent) edit line) →
            lines[line - index]? = originalLines[line]? := by
  induction groups generalizing index with
  | nil =>
    refine ⟨originalLines.drop index, rfl, List.length_drop, ?_⟩
    intro line after _
    rw [List.getElem?_drop, Nat.add_sub_cancel' after]
  | cons group rest ih =>
    obtain ⟨⟨after, nonempty, groupInside, touched⟩, restLaid⟩ := laid
    obtain ⟨lines, isFlat, isLength, same⟩ := ih (by omega) restLaid
    refine ⟨(originalLines.take group.startLine).drop index ++
      (groupText baseContent (getLineSpans baseContent) group ::
        List.replicate (group.endLine - group.startLine - 1) []) ++ lines,
      ?_, ?_, ?_⟩
    · simp [assemble, isFlat]
    · simp only [List.length_append, List.length_drop, List.length_take,
        List.length_cons, List.length_replicate, isLength]
      omega
    · intro line isAfter untouched
      have keptLength :
          ((originalLines.take group.startLine).drop index).length = group.startLine - index := by
        rw [List.length_drop, List.length_take]
        omega
      rcases Nat.lt_or_ge line group.startLine with before | notBefore
      · rw [List.append_assoc, List.getElem?_append_left (by omega),
          List.getElem?_drop, Nat.add_sub_cancel' isAfter,
          List.getElem?_take_of_lt before]
      · rcases Nat.lt_or_ge line group.endLine with within | past
        · obtain ⟨edit, member, touches⟩ := touched line notBefore within
          exact absurd touches (untouched edit member)
        · have headLength :
              ((originalLines.take group.startLine).drop index ++
                groupText baseContent (getLineSpans baseContent) group ::
                  List.replicate
                    (group.endLine - group.startLine - 1) []).length =
                group.endLine - index := by
            rw [List.length_append, keptLength, List.length_cons, List.length_replicate]
            omega
          have sameIndex : line - index - (group.endLine - index) = line - group.endLine := by omega
          rw [List.getElem?_append_right (by omega), headLength, sameIndex]
          exact same line past untouched

/-! ## What the checks tell -/

/-- The edits as they are matched, whether or not they are found. -/
def matchesFrom (nfkc : Text → Text) (content : Text) (index : ℕ) : List Edit → List MatchedEdit
  | [] => []
  | edit :: rest =>
    let matchResult := fuzzyFindText nfkc content edit.oldText
    ⟨index, matchResult.index.toNat, matchResult.matchLength,
      edit.newText⟩ :: matchesFrom nfkc content (index + 1) rest

variable {nfkc : Text → Text}

theorem matchFrom_eq_ok {totalEdits : ℕ} {edits : List Edit} {matched : List MatchedEdit} :
    matchFrom nfkc content totalEdits index edits = .ok matched ↔
      (∀ edit ∈ edits,
        (fuzzyFindText nfkc content edit.oldText).found = true ∧
          countOccurrences nfkc content edit.oldText ≤ 1) ∧
        matched = matchesFrom nfkc content index edits := by
  induction edits generalizing index matched with
  | nil =>
    simp only [matchFrom, matchesFrom, Except.ok.injEq, List.not_mem_nil,
      false_implies, implies_true, true_and]
    exact eq_comm
  | cons edit rest ih =>
    rw [List.forall_mem_cons, matchFrom]
    split
    · rename_i notFound
      have isNot : (fuzzyFindText nfkc content edit.oldText).found = false := by
        simpa using notFound
      simp [isNot]
    · rename_i found
      have isFound : (fuzzyFindText nfkc content edit.oldText).found = true := by simpa using found
      split
      · rename_i many
        have notOnce : ¬ countOccurrences nfkc content edit.oldText ≤ 1 := by omega
        simp [notOnce]
      · rename_i notMany
        have once : countOccurrences nfkc content edit.oldText ≤ 1 := by omega
        simp only [isFound, once, true_and, and_self, matchesFrom]
        cases isRest : matchFrom nfkc content totalEdits (index + 1) rest with
        | error error =>
          have notRest := fun passes =>
            ih.mpr
              ⟨passes, @rfl _ (matchesFrom nfkc content (index + 1) rest)⟩
          simp only [isRest] at notRest
          constructor
          · intro isOk
            cases isOk
          · intro both
            cases notRest both.1
        | ok others =>
          obtain ⟨passes, isOthers⟩ := ih.mp isRest
          simp only [bind, Except.bind, Except.ok.injEq, isOthers]
          constructor
          · intro same
            exact ⟨passes, same.symm⟩
          · intro both
            exact both.2.symm

def Apart (edits : List MatchedEdit) : Prop :=
  edits.Pairwise fun first second => first.matchEnd ≤ second.matchIndex

theorem checkOverlap_eq_ok : checkOverlap edits = .ok () ↔ Apart edits := by
  induction edits with
  | nil => simp [checkOverlap, Apart]
  | cons previous rest ih =>
    cases rest with
    | nil => simp [checkOverlap, Apart]
    | cons current others =>
      rw [checkOverlap, Apart, List.pairwise_cons]
      split
      · rename_i overlaps
        constructor
        · intro isOk
          cases isOk
        · rintro ⟨before, _⟩
          have isBefore := before current List.mem_cons_self
          omega
      · rename_i notOver
        rw [ih]
        constructor
        · intro apart
          refine ⟨?_, apart⟩
          intro later member
          rcases List.mem_cons.mp member with rfl | after
          · omega
          · have isAfter := (List.pairwise_cons.mp apart).1 later after
            have isEnd : current.matchIndex ≤ current.matchEnd := Nat.le_add_right _ _
            omega
        · exact fun both => both.2

def sortedMatches (nfkc : Text → Text) (content : Text) (edits : List Edit) :
    List MatchedEdit :=
  (matchesFrom nfkc (replacementBase nfkc content edits) 0 (normalizeEdits edits)).mergeSort byIndex

/-- The checks before the edits are put in: every old text has some units, is
found, has at most one part more than one in the normal form, and the ranges do
not overlap. -/
structure Checked (nfkc : Text → Text) (content : Text) (edits : List Edit) :
    Prop where
  nonempty : ∀ edit ∈ normalizeEdits edits, edit.oldText ≠ []
  found : ∀ edit ∈ normalizeEdits edits,
    (fuzzyFindText nfkc (replacementBase nfkc content edits) edit.oldText).found = true
  counted : ∀ edit ∈ normalizeEdits edits,
    countOccurrences nfkc (replacementBase nfkc content edits) edit.oldText ≤ 1
  apart : Apart (sortedMatches nfkc content edits)

theorem apply_eq_ok {newContent : Text} {edits : List Edit} :
    applyEditsToNormalizedContent nfkc content edits = .ok newContent ↔
      Checked nfkc content edits ∧
        replaced nfkc content edits (sortedMatches nfkc content edits) = .ok newContent ∧
        content ≠ newContent := by
  rw [applyEditsToNormalizedContent]
  simp only
  split
  · rename_i index isEmpty
    obtain ⟨inside, noUnits, _⟩ := List.findIdx?_eq_some_iff_getElem.mp isEmpty
    constructor
    · intro isOk
      cases isOk
    · rintro ⟨checked, _⟩
      have some := checked.nonempty _ (List.getElem_mem inside)
      simp [some] at noUnits
  · rename_i noneEmpty
    have nonempty : ∀ edit ∈ normalizeEdits edits, edit.oldText ≠ [] := by
      intro edit member isEmpty
      have notEmpty := List.findIdx?_eq_none_iff.mp noneEmpty edit member
      simp [isEmpty] at notEmpty
    cases isMatched :
        matchFrom nfkc (replacementBase nfkc content edits)
          (normalizeEdits edits).length 0 (normalizeEdits edits) with
    | error error =>
      constructor
      · intro isOk
        cases isOk
      · rintro ⟨checked, _⟩
        have isOk :
            matchFrom nfkc (replacementBase nfkc content edits)
                (normalizeEdits edits).length 0 (normalizeEdits edits) =
              .ok (matchesFrom nfkc (replacementBase nfkc content edits) 0
                (normalizeEdits edits)) := by
          rw [matchFrom_eq_ok]
          exact ⟨fun edit member => ⟨checked.found edit member, checked.counted edit member⟩, rfl⟩
        rw [isMatched] at isOk
        cases isOk
    | ok matched =>
      obtain ⟨passes, rfl⟩ := matchFrom_eq_ok.mp isMatched
      have isSorted :
          (matchesFrom nfkc (replacementBase nfkc content edits) 0
              (normalizeEdits edits)).mergeSort byIndex =
            sortedMatches nfkc content edits := rfl
      simp only [bind, Except.bind, isSorted]
      cases isApart : checkOverlap (sortedMatches nfkc content edits) with
      | error error =>
        constructor
        · intro isOk
          cases isOk
        · rintro ⟨checked, _⟩
          have apart := checkOverlap_eq_ok.mpr checked.apart
          rw [isApart] at apart
          cases apart
      | ok nothing =>
        have checked : Checked nfkc content edits :=
          ⟨nonempty, fun edit member => (passes edit member).1,
            fun edit member => (passes edit member).2,
            checkOverlap_eq_ok.mp isApart⟩
        simp only [checked, true_and]
        cases replaced nfkc content edits (sortedMatches nfkc content edits) with
        | error error => simp
        | ok replacedContent =>
          simp only [Except.ok.injEq]
          split
          · rename_i same
            constructor
            · intro isOk
              cases isOk
            · rintro ⟨rfl, different⟩
              exact absurd same different
          · rename_i different
            constructor
            · intro isOk
              cases isOk
              exact ⟨rfl, different⟩
            · rintro ⟨rfl, _⟩
              rfl

/-! ## Exact edits -/

def searched (nfkc : Text → Text) (content oldText : Text) : Text × Text :=
  if (indexOf content oldText).isSome then (content, oldText)
  else
    (normalizeForFuzzyMatch nfkc content, normalizeForFuzzyMatch nfkc oldText)

theorem found_spec {nfkc : Text → Text} {content oldText : Text}
    (found : (fuzzyFindText nfkc content oldText).found = true) :
    OccursAt (searched nfkc content oldText).1 (searched nfkc content oldText).2
        (fuzzyFindText nfkc content oldText).index.toNat ∧
      (fuzzyFindText nfkc content oldText).matchLength =
        (searched nfkc content oldText).2.length := by
  rw [fuzzyFindText] at found ⊢
  rw [searched]
  cases isExact : indexOf content oldText with
  | some index => exact ⟨Splices.indexOf_eq_some isExact, rfl⟩
  | none =>
    rw [isExact] at found
    cases isFuzzy :
        indexOf (normalizeForFuzzyMatch nfkc content) (normalizeForFuzzyMatch nfkc oldText) with
    | none =>
      simp only [isFuzzy] at found
      cases found
    | some index =>
      simp only [isFuzzy, Option.isSome_none, Bool.false_eq_true, if_false]
      exact ⟨Splices.indexOf_eq_some isFuzzy, trivial⟩

/-- What edits do to a content: each old text occurs once where it is matched,
overlaps counted, the ranges are apart, and they alone are replaced; when the
normal form is used, lines that no range touches are the original ones. -/
structure ExactEdits (nfkc : Text → Text) (content : Text)
    (edits : List Edit) (newContent : Text) : Prop where
  once : ∀ edit ∈ normalizeEdits edits,
    (occurrences (searched nfkc (replacementBase nfkc content edits) edit.oldText).1
      (searched nfkc (replacementBase nfkc content edits) edit.oldText).2).length = 1
  matched : List.Forall₂
    (fun edit range =>
      OccursAt
          (searched nfkc (replacementBase nfkc content edits) edit.oldText).1
          (searched nfkc (replacementBase nfkc content edits) edit.oldText).2
          range.matchIndex ∧
        range.matchLength =
          (searched nfkc (replacementBase nfkc content edits) edit.oldText).2.length ∧
        range.newText = edit.newText)
    (normalizeEdits edits)
    (matchesFrom nfkc (replacementBase nfkc content edits) 0 (normalizeEdits edits))
  disjoint :
    (matchesFrom nfkc (replacementBase nfkc content edits) 0
      (normalizeEdits edits)).Pairwise fun first second =>
        first.matchEnd ≤ second.matchIndex ∨ second.matchEnd ≤ first.matchIndex
  exact : usedFuzzyMatch nfkc content edits = false →
    newContent = splice content 0 ((sortedMatches nfkc content edits).map (MatchedEdit.piece 0))
  kept : usedFuzzyMatch nfkc content edits = true →
    ∃ lines : List Text,
      newContent = lines.flatten ∧ lines.length = (splitLinesWithEndings content).length ∧
        ∀ line,
          (∀ range ∈ matchesFrom nfkc (replacementBase nfkc content edits) 0 (normalizeEdits edits),
            ¬ Touches (getLineSpans (replacementBase nfkc content edits)) range line) →
            lines[line]? = (splitLinesWithEndings content)[line]?

/-- An old text that is matched twice, with an overlap: the count does not see
the second. -/
def Overlaps (nfkc : Text → Text) (content oldText : Text) : Prop :=
  ∃ first second, first < second ∧ second < first + (searched nfkc content oldText).2.length ∧
    OccursAt (searched nfkc content oldText).1 (searched nfkc content oldText).2 first ∧
    OccursAt (searched nfkc content oldText).1 (searched nfkc content oldText).2 second

/-- An old text that is matched twice, apart, while the normal form of it is
empty or does not occur twice apart in the normal form of the content. -/
def Blurs (nfkc : Text → Text) (content oldText : Text) : Prop :=
  (∃ first second, first < second ∧
    first + (searched nfkc content oldText).2.length ≤ second ∧
    OccursAt (searched nfkc content oldText).1 (searched nfkc content oldText).2 first ∧
    OccursAt (searched nfkc content oldText).1 (searched nfkc content oldText).2 second) ∧
    (normalizeForFuzzyMatch nfkc oldText = [] ∨
      ∀ first second,
        OccursAt (normalizeForFuzzyMatch nfkc content) (normalizeForFuzzyMatch nfkc oldText) first →
        OccursAt (normalizeForFuzzyMatch nfkc content)
          (normalizeForFuzzyMatch nfkc oldText) second →
        ¬ first + (normalizeForFuzzyMatch nfkc oldText).length ≤ second)

theorem once_iff {oldText : Text} (found : (fuzzyFindText nfkc content oldText).found = true)
    (counted : countOccurrences nfkc content oldText ≤ 1) :
    (occurrences (searched nfkc content oldText).1 (searched nfkc content oldText).2).length = 1 ↔
      ¬ Overlaps nfkc content oldText ∧ ¬ Blurs nfkc content oldText := by
  rw [Splices.length_occurrences (found_spec found).1]
  constructor
  · intro none
    constructor
    · rintro ⟨first, second, before, _, isFirst, isSecond⟩
      exact none first second before isFirst isSecond
    · rintro ⟨⟨first, second, before, _, isFirst, isSecond⟩, _⟩
      exact none first second before isFirst isSecond
  · rintro ⟨notOverlaps, notBlurs⟩ first second before isFirst isSecond
    by_cases overlap : second < first + (searched nfkc content oldText).2.length
    · exact notOverlaps ⟨first, second, before, overlap, isFirst, isSecond⟩
    · apply notBlurs
      refine ⟨⟨first, second, before, by omega, isFirst, isSecond⟩, ?_⟩
      by_cases isEmpty : normalizeForFuzzyMatch nfkc oldText = []
      · exact Or.inl isEmpty
      · right
        intro early late isEarly isLate apart
        have many := Splices.two_lt_parts isEmpty apart isEarly isLate
        rw [countOccurrences] at counted
        omega

theorem matchesFrom_forall {edits : List Edit}
    (found : ∀ edit ∈ edits, (fuzzyFindText nfkc content edit.oldText).found = true) (index : ℕ) :
    List.Forall₂
      (fun edit range =>
        OccursAt (searched nfkc content edit.oldText).1
            (searched nfkc content edit.oldText).2 range.matchIndex ∧
          range.matchLength = (searched nfkc content edit.oldText).2.length ∧
          range.newText = edit.newText)
      edits (matchesFrom nfkc content index edits) := by
  induction edits generalizing index with
  | nil => exact List.Forall₂.nil
  | cons edit rest ih =>
    obtain ⟨isHere, isLength⟩ := found_spec (found edit List.mem_cons_self)
    exact List.Forall₂.cons ⟨isHere, isLength, rfl⟩
      (ih (fun later member => found later (List.mem_cons_of_mem _ member)) (index + 1))

theorem searched_of_exact {oldText : Text}
    (found : (fuzzyFindText nfkc content oldText).found = true)
    (notFuzzy : (fuzzyFindText nfkc content oldText).usedFuzzyMatch = false) :
    searched nfkc content oldText = (content, oldText) := by
  rw [searched]
  rw [fuzzyFindText] at found notFuzzy
  cases isSome : indexOf content oldText with
  | some position => rfl
  | none =>
    simp only [isSome] at found notFuzzy
    split at found
    · cases found
    · rename_i isFuzzy
      rw [isFuzzy] at notFuzzy
      cases notFuzzy

theorem matchesFrom_inside {edits : List Edit}
    (found : ∀ edit ∈ edits, (fuzzyFindText nfkc content edit.oldText).found = true)
    (isExact : ∀ edit ∈ edits, (fuzzyFindText nfkc content edit.oldText).usedFuzzyMatch = false)
    (index : ℕ) :
    ∀ range ∈ matchesFrom nfkc content index edits, range.matchEnd ≤ content.length := by
  induction edits generalizing index with
  | nil => simp [matchesFrom]
  | cons edit rest ih =>
    intro range member
    rcases List.mem_cons.mp member with isHere | later
    · have isFound := found edit List.mem_cons_self
      have notFuzzy := isExact edit List.mem_cons_self
      obtain ⟨occurs, isLength⟩ := found_spec isFound
      rw [searched_of_exact isFound notFuzzy] at occurs isLength
      have inside := occurs.inside
      rw [isHere, MatchedEdit.matchEnd]
      simp only [isLength]
      exact inside
    · exact ih (fun other isOther => found other (List.mem_cons_of_mem _ isOther))
        (fun other isOther => isExact other (List.mem_cons_of_mem _ isOther))
        (index + 1) range later

theorem byIndex_sorted (edits : List MatchedEdit) :
    (edits.mergeSort byIndex).Pairwise fun first second =>
      first.matchIndex ≤ second.matchIndex := by
  have sorted :=
    @List.pairwise_mergeSort _ byIndex
      (fun first second third => by
        simp only [byIndex, decide_eq_true_eq]
        omega)
      (fun first second => by
        simp only [byIndex, Bool.or_eq_true, decide_eq_true_eq]
        omega)
      edits
  simpa [byIndex] using sorted

theorem apart_pieces (apart : Apart edits) : Splices.InOrder (edits.map (MatchedEdit.piece 0)) := by
  rw [Splices.InOrder, List.pairwise_map]
  exact apart.imp fun before => before

/-- Edits are exact exactly when, where they pass the checks and change the
content, no old text is matched twice unseen. -/
theorem exactEdits_iff (nfkc : Text → Text) (content : Text) (edits : List Edit) :
    (∀ newContent,
      applyEditsToNormalizedContent nfkc content edits = .ok newContent →
        ExactEdits nfkc content edits newContent) ↔
      (Checked nfkc content edits →
        (∃ newContent,
          replaced nfkc content edits (sortedMatches nfkc content edits) = .ok newContent ∧
            content ≠ newContent) →
          ∀ edit ∈ normalizeEdits edits,
            ¬ Overlaps nfkc (replacementBase nfkc content edits) edit.oldText ∧
              ¬ Blurs nfkc (replacementBase nfkc content edits) edit.oldText) := by
  constructor
  · rintro all checked ⟨newContent, isNew, different⟩ edit member
    have exactEdits := all newContent (apply_eq_ok.mpr ⟨checked, isNew, different⟩)
    exact (once_iff (checked.found edit member)
      (checked.counted edit member)).mp (exactEdits.once edit member)
  · intro seen newContent isOk
    obtain ⟨checked, isNew, different⟩ := apply_eq_ok.mp isOk
    have isSeen := seen checked ⟨newContent, isNew, different⟩
    have isPerm :
        (sortedMatches nfkc content edits).Perm
          (matchesFrom nfkc (replacementBase nfkc content edits) 0 (normalizeEdits edits)) :=
      List.mergeSort_perm _ _
    refine ⟨?_, matchesFrom_forall checked.found 0, ?_, ?_, ?_⟩
    · intro edit member
      exact (once_iff (checked.found edit member)
        (checked.counted edit member)).mpr (isSeen edit member)
    · have sides := checked.apart.imp
        (S := fun first second : MatchedEdit =>
          first.matchEnd ≤ second.matchIndex ∨
            second.matchEnd ≤ first.matchIndex) fun before => Or.inl before
      exact isPerm.pairwise sides fun either => either.symm
    · intro notFuzzy
      have isBase : replacementBase nfkc content edits = content := by
        rw [replacementBase, notFuzzy]
        rfl
      have notUsed : ∀ edit ∈ normalizeEdits edits,
          (fuzzyFindText nfkc content edit.oldText).usedFuzzyMatch =
            false := by
        rw [usedFuzzyMatch, List.any_eq_false] at notFuzzy
        exact fun edit member => by simpa using notFuzzy edit member
      have isFound := checked.found
      rw [isBase] at isFound isPerm
      have inside :
          ∀ piece ∈ (sortedMatches nfkc content edits).map (MatchedEdit.piece 0),
            piece.stop ≤ content.length := by
        intro piece member
        obtain ⟨range, isRange, rfl⟩ := List.mem_map.mp member
        exact matchesFrom_inside isFound notUsed 0 range (isPerm.mem_iff.mp isRange)
      have isApplied :
          applyReplacements content (sortedMatches nfkc content edits) 0 =
            newContent := by
        simpa [replaced, isBase, notFuzzy] using isNew
      rw [← isApplied, applyReplacements,
        Splices.replaceBack_eq_splice (apart_pieces checked.apart) inside]
    · intro isFuzzy
      simp only [replaced, isFuzzy, if_true,
        applyReplacementsPreservingUnchangedLines] at isNew
      split at isNew
      · cases isNew
      · rename_i sameLength
        have isLength := Decidable.not_not.mp sameLength
        cases isGroups :
            groupFrom (getLineSpans (replacementBase nfkc content edits)) none
              ((sortedMatches nfkc content edits).mergeSort byIndex) with
        | error error =>
          rw [isGroups] at isNew
          cases isNew
        | ok groups =>
          rw [isGroups] at isNew
          cases isNew
          have among :
              (sortedMatches nfkc content edits).mergeSort byIndex ⊆
                matchesFrom nfkc (replacementBase nfkc content edits) 0 (normalizeEdits edits) := by
            intro range member
            exact isPerm.mem_iff.mp ((List.mergeSort_perm _ _).mem_iff.mp member)
          have laid :=
            groupFrom_laid among (byIndex_sorted _)
              (fun group isGroup => by cases isGroup) (fun _ => rfl) isGroups
          obtain ⟨lines, isFlat, howMany, same⟩ := assemble_lines isLength (Nat.zero_le _) laid
          refine ⟨lines, isFlat, howMany, ?_⟩
          intro line untouched
          exact same line (Nat.zero_le line) untouched

/-- `aa` is found in `aaa` at two places, and replaced at the first. -/
theorem not_exact_of_overlap :
    ¬ ∀ newContent,
      applyEditsToNormalizedContent id [0x61, 0x61, 0x61]
          [⟨[0x61, 0x61], [0x62]⟩] = .ok newContent →
        ExactEdits id [0x61, 0x61, 0x61] [⟨[0x61, 0x61], [0x62]⟩]
          newContent := by
  intro all
  have exactEdits := all [0x62, 0x61] (by decide +kernel)
  have once := exactEdits.once ⟨[0x61, 0x61], [0x62]⟩ (by decide)
  exact absurd once (by decide +kernel)

/-! ## Edits in any order -/

/-- The range that an edit replaces and what it puts there. -/
def pieceOf (nfkc : Text → Text) (content : Text) (edit : Edit) : Piece UInt16 :=
  let matchResult := fuzzyFindText nfkc content edit.oldText
  ⟨matchResult.index.toNat, matchResult.matchLength, edit.newText⟩

theorem pieces_matchesFrom (edits : List Edit) (index : ℕ) :
    (matchesFrom nfkc content index edits).map (MatchedEdit.piece 0) =
      edits.map (pieceOf nfkc content) := by
  induction edits generalizing index with
  | nil => rfl
  | cons edit rest ih => exact congrArg (pieceOf nfkc content edit :: ·) (ih _)

theorem sorted_pieces (edits : List Edit) :
    ((sortedMatches nfkc content edits).map (MatchedEdit.piece 0)).Perm
      ((normalizeEdits edits).map (pieceOf nfkc (replacementBase nfkc content edits))) := by
  rw [← pieces_matchesFrom _ 0]
  exact (List.mergeSort_perm _ _).map _

variable {edits other : List Edit} {newContent : Text}

theorem usedFuzzyMatch_perm (perm : edits.Perm other) :
    usedFuzzyMatch nfkc content other = usedFuzzyMatch nfkc content edits :=
  (perm.symm.map _).any_eq

theorem applies_of_perm (perm : edits.Perm other)
    (notFuzzy : usedFuzzyMatch nfkc content edits = false)
    (isOk : applyEditsToNormalizedContent nfkc content edits = .ok newContent) :
    applyEditsToNormalizedContent nfkc content other = .ok newContent := by
  obtain ⟨checked, isNew, different⟩ := apply_eq_ok.mp isOk
  have samples : (normalizeEdits other).Perm (normalizeEdits edits) := perm.symm.map _
  have sameUse := @usedFuzzyMatch_perm content nfkc _ _ perm
  have sameBase : replacementBase nfkc content other = replacementBase nfkc content edits := by
    rw [replacementBase, replacementBase, sameUse]
  have isContent : replacementBase nfkc content edits = content := by
    rw [replacementBase, notFuzzy]
    rfl
  have long : ∀ piece ∈ (sortedMatches nfkc content edits).map (MatchedEdit.piece 0),
      0 < piece.length := by
    intro piece member
    obtain ⟨edit, isEdit, rfl⟩ := List.mem_map.mp ((sorted_pieces edits).mem_iff.mp member)
    have found := checked.found edit isEdit
    have isLength := (found_spec found).2
    rw [isContent] at found isLength
    rw [searched_of_exact found (by simpa using List.any_eq_false.mp notFuzzy edit isEdit)]
      at isLength
    rw [isContent, pieceOf]
    dsimp only
    rw [isLength]
    exact List.length_pos_iff.mpr (checked.nonempty edit isEdit)
  have samePieces :
      (sortedMatches nfkc content other).map (MatchedEdit.piece 0) =
        (sortedMatches nfkc content edits).map (MatchedEdit.piece 0) := by
    refine (apart_pieces checked.apart).eq_of_perm long ?_
      (List.pairwise_map.mpr (byIndex_sorted _))
    have sorted : ((sortedMatches nfkc content other).map (MatchedEdit.piece 0)).Perm _ :=
      sorted_pieces other
    rw [sameBase] at sorted
    exact sorted.trans ((samples.map _).trans (sorted_pieces edits).symm)
  refine apply_eq_ok.mpr ⟨⟨fun edit member => checked.nonempty edit (samples.mem_iff.mp member),
    fun edit member => ?_, fun edit member => ?_, ?_⟩, ?_, different⟩
  · rw [sameBase]
    exact checked.found edit (samples.mem_iff.mp member)
  · rw [sameBase]
    exact checked.counted edit (samples.mem_iff.mp member)
  · have apart := apart_pieces checked.apart
    rw [← samePieces] at apart
    exact List.pairwise_map.mp apart
  · rw [← isNew, replaced, replaced, sameUse, notFuzzy]
    simp only [applyReplacements, samePieces, sameBase, Bool.false_eq_true, if_false]

/-- Edits whose old texts all occur literally may be given in any order. -/
theorem edits_in_any_order (perm : edits.Perm other)
    (notFuzzy : usedFuzzyMatch nfkc content edits = false) :
    applyEditsToNormalizedContent nfkc content edits = .ok newContent ↔
      applyEditsToNormalizedContent nfkc content other = .ok newContent :=
  ⟨applies_of_perm perm notFuzzy,
    applies_of_perm perm.symm ((usedFuzzyMatch_perm perm).trans notFuzzy)⟩

theorem edits_in_any_order_two :
    applyEditsToNormalizedContent id [0x61, 0x62] [⟨[0x61], [0x63]⟩, ⟨[0x62], [0x64]⟩] =
        .ok [0x63, 0x64] ↔
      applyEditsToNormalizedContent id [0x61, 0x62] [⟨[0x62], [0x64]⟩, ⟨[0x61], [0x63]⟩] =
        .ok [0x63, 0x64] :=
  edits_in_any_order (.swap _ _ []) (by decide +kernel)

end PiEmbodied.Durable.EditDiff
