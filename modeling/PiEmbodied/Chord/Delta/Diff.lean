import PiEmbodied.Alignment
import PiEmbodied.Chord.Delta.Op

/-!
# Comparing two revisions

`diffRevisions` turns two immutable revisions into a batch of operations.
Arrays are matched by equal ends, then by position, by identity and by shared
parts; what lies between the matches is spliced.
-/

namespace PiEmbodied.Chord

/-! ## Identity -/

/-- What `===` and the keys of a `Map` tell apart. -/
inductive Ident (ι : Type) where
  | null
  | bool (value : Bool)
  | num (value : ℚ)
  | str (text : Text)
  | ref (label : ι)
deriving DecidableEq

namespace Json

variable {ι : Type}

def ident : Json ι → Ident ι
  | .null => .null
  | .bool value => .bool value
  | .num value => .num value
  | .str text => .str text
  | .arr label _ | .obj label _ => .ref label

def items : Json ι → List (Json ι)
  | .arr _ items => items
  | _ => []

def fields : Json ι → List (Text × Json ι)
  | .obj _ fields => fields
  | _ => []

def isContainer : Json ι → Bool
  | .arr _ _ | .obj _ _ => true
  | _ => false

variable [DecidableEq ι]

/-- `===` -/
def same (left right : Json ι) : Bool := left.ident = right.ident

end Json

namespace Delta

open Alignment (slice)

variable {ι : Type} [DecidableEq ι]

def DEFAULT_OVERLAP_SCAN : ℕ := 65536

def MAX_DELTA_OPERATIONS : ℕ := 4096

structure Batch where
  operations : List (Op Unit)
  /-- Whether the batch is among `overflowedBatches`. -/
  overflowed : Bool

def emitOperation (operation : Op Unit) (batch : Batch) : Batch :=
  if batch.overflowed then batch
  else if MAX_DELTA_OPERATIONS ≤ batch.operations.length then
    { batch with overflowed := true }
  else { batch with operations := batch.operations ++ [operation] }

def emitSet (path : Path) (value : Json ι) (batch : Batch) : Batch :=
  if path = [] then emitOperation (.r value.erase) batch
  else emitOperation (.edit path (.s value.erase)) batch

mutual

def equalJson (left right : Json ι) : Bool :=
  left.same right ||
    match left with
    | .arr _ items =>
      match right with
      | .arr _ other => items.length = other.length && equalItems items other
      | _ => false
    | .obj _ fields =>
      match right with
      | .obj _ other => fields.length = other.length && equalFields fields other
      | _ => false
    | _ => false

def equalItems : List (Json ι) → List (Json ι) → Bool
  | item :: rest, other :: others => equalJson item other && equalItems rest others
  | _, _ => true

def equalFields : List (Text × Json ι) → List (Text × Json ι) → Bool
  | [], _ => true
  | (key, value) :: rest, other =>
    (match Entries.get other key with
      | none => false
      | some found => equalJson value found) &&
      equalFields rest other

end

def sameValue (left right : Json ι) : Bool :=
  left.same right || equalJson left right

def semanticallyAligned (left right : Json ι) : Bool :=
  sameValue left right ||
    match left, right with
    | .arr _ items, .arr _ other =>
      items.length = other.length &&
        (items.zip other).any fun pair => pair.1.isContainer && pair.1.same pair.2
    | .obj _ fields, .obj _ other =>
      fields.any fun field =>
        field.2.isContainer &&
          match Entries.get other field.1 with
          | none => false
          | some found => field.2.same found
    | _, _ => false

structure Positions where
  indices : List ℕ
  used : ℕ

def addPosition (known : Option Positions) (index : ℕ) : Positions :=
  match known with
  | none => ⟨[index], 0⟩
  | some entry => { entry with indices := entry.indices ++ [index] }

def positionsFrom : List (Json ι) → ℕ → List (Ident ι × Positions) → List (Ident ι × Positions)
  | [], _, positions => positions
  | value :: rest, index, positions =>
    let known := Entries.get positions value.ident
    positionsFrom rest (index + 1) (Entries.set positions value.ident (addPosition known index))

def takePositions : List (Json ι) → List (Ident ι × Positions) → Option (List ℕ)
  | [], _ => some []
  | value :: rest, positions =>
    match Entries.get positions value.ident with
    | none => none
    | some entry =>
      match entry.indices[entry.used]? with
      | none => none
      | some index =>
        let next := { entry with used := entry.used + 1 }
        (takePositions rest (Entries.set positions value.ident next)).map (index :: ·)

def permutation (before after : List (Json ι)) : Option (List ℕ) :=
  if before.length ≠ after.length then none
  else takePositions after (positionsFrom before 0 [])

/-- `text.indexOf(head, from)`, a search of at most so many places. -/
def indexOf (text head : Text) : ℕ → ℕ → Option ℕ
  | 0, _ => none
  | places + 1, at_ =>
    if head <+: text.drop at_ then some at_
    else indexOf text head places (at_ + 1)

/-- The first overlap that starts at one of the next occurrences of `head`. -/
def overlapAt (tail b head : Text) : ℕ → ℕ → Option ℕ
  | 0, _ => none
  | candidates + 1, at_ =>
    match indexOf tail head (tail.length + 1 - at_) at_ with
    | none => none
    | some k =>
      let n := tail.length - k
      if n ≤ b.length ∧ tail.drop k = b.take n then some n
      else overlapAt tail b head candidates (k + 1)

/-- Longest suffix of `a` that is a prefix of `b`, among few candidates. -/
def overlap (a b : Text) (scan : ℕ) (probe : ℕ) (maxCandidates : ℕ) : ℕ :=
  if a.length = 0 ∨ b.length = 0 ∨ scan = 0 then 0
  else
    let tail := if scan < a.length then a.drop (a.length - scan) else a
    let h := min probe b.length
    match overlapAt tail b (b.take h) maxCandidates 0 with
    | some n => n
    | none =>
      if h = 1 then 0
      else (overlapAt tail b (b.take 1) maxCandidates 0).getD 0

def emitString (before after : Text) (path : Path) (batch : Batch) : Batch :=
  if before = after then batch
  else if before.length < after.length ∧
      after.take before.length = before then
    emitOperation (.edit path (.a (after.drop before.length))) batch
  else
    let shared := overlap before after DEFAULT_OVERLAP_SCAN 64 8
    if shared = 0 then emitOperation (.edit path (.s (.str after))) batch
    else
      let batch := emitOperation (.edit path (.t (before.length - shared))) batch
      if shared < after.length then
        emitOperation (.edit path (.a (after.drop shared))) batch
      else batch

/-! ## Matches -/

abbrev ArrayMatch := ℕ × ℕ

def MAX_IDENTITY_CANDIDATES : ℕ := 200000

def MAX_SEMANTIC_CELLS : ℕ := 65536

/-- `values[index]!` -/
def element (values : List (Json ι)) (index : ℕ) : Json ι :=
  values.getD index .null

def lcsRow (equal : Json ι → Json ι → Bool) (left : Json ι) : List (Json ι) → List ℕ → List ℕ
  | [], _ => [0]
  | right :: rest, below =>
    let row := lcsRow equal left rest below.tail
    let length :=
      if equal left right then below.tail.headD 0 + 1
      else max (below.headD 0) (row.headD 0)
    length :: row

/-- `lengths`: of the longest common subsequences of what is left. -/
def lcsLengths (equal : Json ι → Json ι → Bool) (after : List (Json ι)) :
    List (Json ι) → List (List ℕ)
  | [] => [List.replicate (after.length + 1) 0]
  | left :: rest =>
    let rows := lcsLengths equal after rest
    lcsRow equal left after (rows.headD []) :: rows

def lengthAt (lengths : List (List ℕ)) (left right : ℕ) : ℕ :=
  (lengths.getD left []).getD right 0

/-- The walk over the table: every step goes on in `before` or `after`. -/
def lcsWalk (equal : Json ι → Json ι → Bool) (before after : List (Json ι))
    (lengths : List (List ℕ)) : ℕ → ℕ → ℕ → List ArrayMatch
  | 0, _, _ => []
  | steps + 1, left, right =>
    if left < before.length ∧ right < after.length then
      if equal (element before left) (element after right) ∧
          lengthAt lengths left right = lengthAt lengths (left + 1) (right + 1) + 1 then
        (left, right) :: lcsWalk equal before after lengths steps (left + 1) (right + 1)
      else if lengthAt lengths left (right + 1) ≤
          lengthAt lengths (left + 1) right then
        lcsWalk equal before after lengths steps (left + 1) right
      else lcsWalk equal before after lengths steps left (right + 1)
    else []

def lcsMatches (before after : List (Json ι)) (equal : Json ι → Json ι → Bool) (maxCells : ℕ) :
    Option (List ArrayMatch) :=
  if before.length = 0 ∨ after.length = 0 then some []
  else if maxCells < before.length * after.length then none
  else
    some (lcsWalk equal before after (lcsLengths equal after before)
      (before.length + after.length) 0 0)

/-- The binary search of `lowerBound`; every step shrinks the interval. -/
def lowerBoundWithin (values : List ℕ) (value : ℕ) : ℕ → ℕ → ℕ → ℕ
  | 0, low, _ => low
  | steps + 1, low, high =>
    if low < high then
      let middle := (low + high) / 2
      if values.getD middle 0 < value then
        lowerBoundWithin values value steps (middle + 1) high
      else lowerBoundWithin values value steps low middle
    else low

def lowerBound (values : List ℕ) (value : ℕ) : ℕ :=
  lowerBoundWithin values value values.length 0 values.length

/-- The first index from `index` up to `stop` of a value. -/
def scan (values : List (Json ι)) (stop : ℕ) (value : Json ι) : ℕ → ℕ → ℕ
  | 0, index => index
  | steps + 1, index =>
    if index < stop ∧ ¬(element values index).same value then
      scan values stop value steps (index + 1)
    else index

/-- Every value of `part` finds its own place in `whole`, in order. -/
def subsequenceOf (whole : List (Json ι)) (wholeEnd : ℕ)
    (part : List (Json ι)) : List ℕ → ℕ → Option (List ArrayMatch)
  | [], _ => some []
  | partIndex :: rest, wholeIndex =>
    let found := scan whole wholeEnd (element part partIndex) (wholeEnd - wholeIndex) wholeIndex
    if found = wholeEnd then none
    else
      (subsequenceOf whole wholeEnd part rest (found + 1)).map ((found, partIndex) :: ·)

def identitySubsequence (before : List (Json ι)) (beforeStart beforeEnd : ℕ)
    (after : List (Json ι)) (afterStart afterEnd : ℕ) :
    Option (List ArrayMatch) :=
  let beforeCount := beforeEnd - beforeStart
  let afterCount := afterEnd - afterStart
  if afterCount < beforeCount then
    subsequenceOf before beforeEnd after (List.range' afterStart afterCount) beforeStart
  else if beforeCount < afterCount then
    (subsequenceOf after afterEnd before
      (List.range' beforeStart beforeCount) afterStart).map (List.map Prod.swap)
  else none

def greedyIdentityAnchors (positions : List (Ident ι × List ℕ))
    (after : List (Json ι)) : List ℕ → ℕ → List ArrayMatch
  | [], _ => []
  | afterIndex :: rest, next =>
    match Entries.get positions (element after afterIndex).ident with
    | none => greedyIdentityAnchors positions after rest next
    | some candidates =>
      match candidates[lowerBound candidates next]? with
      | none => greedyIdentityAnchors positions after rest next
      | some beforeIndex =>
        (beforeIndex, afterIndex) :: greedyIdentityAnchors positions after rest (beforeIndex + 1)

def identityPositions (before : List (Json ι)) :
    List ℕ → List (Ident ι × List ℕ) → List (Ident ι × List ℕ)
  | [], positions => positions
  | index :: rest, positions =>
    let key := (element before index).ident
    let existing := (Entries.get positions key).getD []
    identityPositions before rest (Entries.set positions key (existing ++ [index]))

structure MatchCandidate where
  (before after : ℕ)
  /-- The candidate before it in a chain. -/
  previous : Option ℕ

/-- The candidates so far, and the last one of the best chain of each length
with its index in `before`. -/
structure Chains where
  candidates : List MatchCandidate
  (tails tailValues : List ℕ)

/-- `values[at] = value`, which may append. -/
def assign (values : List ℕ) (at_ value : ℕ) : List ℕ :=
  if at_ < values.length then values.set at_ value else values ++ [value]

def Chains.add (chains : Chains) (beforeIndex afterIndex : ℕ) : Chains :=
  let at_ := lowerBound chains.tailValues beforeIndex
  let previous := if at_ = 0 then none else chains.tails[at_ - 1]?
  { candidates := chains.candidates ++ [⟨beforeIndex, afterIndex, previous⟩]
    tails := assign chains.tails at_ chains.candidates.length
    tailValues := assign chains.tailValues at_ beforeIndex }

/-- The candidates of one index of `after`, the last first. -/
def Chains.addAll (positions : List (Ident ι × List ℕ))
    (after : List (Json ι)) (chains : Chains) (afterIndex : ℕ) : Chains :=
  ((Entries.get positions (element after afterIndex).ident).getD
      []).reverse.foldl (fun chains beforeIndex => chains.add beforeIndex afterIndex) chains

/-- A chain from its last candidate; the one before is an earlier candidate, so
a chain is no longer than the list. -/
def chainFrom (candidates : List MatchCandidate) : ℕ → Option ℕ → List ArrayMatch
  | 0, _ | _ + 1, none => []
  | steps + 1, some index =>
    match candidates[index]? with
    | none => []
    | some candidate =>
      (candidate.before, candidate.after) :: chainFrom candidates steps candidate.previous

def identityAnchors (before : List (Json ι)) (beforeStart beforeEnd : ℕ)
    (after : List (Json ι)) (afterStart afterEnd : ℕ) : List ArrayMatch :=
  let positions := identityPositions before (List.range' beforeStart (beforeEnd - beforeStart)) []
  let afterIndices := List.range' afterStart (afterEnd - afterStart)
  let count (afterIndex : ℕ) :=
    ((Entries.get positions (element after afterIndex).ident).getD []).length
  let candidateCount := (afterIndices.map count).sum
  if MAX_IDENTITY_CANDIDATES < candidateCount then
    greedyIdentityAnchors positions after afterIndices 0
  else if candidateCount = 0 then []
  else
    let chains := afterIndices.foldl (Chains.addAll positions after) ⟨[], [], []⟩
    (chainFrom chains.candidates chains.candidates.length chains.tails.getLast?).reverse

def positionalMatches (before : List (Json ι)) (beforeStart : ℕ) (after : List (Json ι))
    (afterStart count : ℕ) : List ArrayMatch :=
  ((List.range count).filter fun offset =>
    sameValue (element before (beforeStart + offset))
      (element after (afterStart + offset))).map fun offset =>
        (beforeStart + offset, afterStart + offset)

def regionMatches (before : List (Json ι)) (beforeStart beforeEnd : ℕ)
    (after : List (Json ι)) (afterStart afterEnd : ℕ) : List ArrayMatch :=
  let beforeCount := beforeEnd - beforeStart
  let afterCount := afterEnd - afterStart
  let positional :=
    if beforeCount = afterCount then
      positionalMatches before beforeStart after afterStart beforeCount
    else []
  if positional ≠ [] then positional
  else
    let subsequence :=
      (identitySubsequence before beforeStart beforeEnd after afterStart afterEnd).getD []
    if subsequence ≠ [] then subsequence
    else
      let identity := identityAnchors before beforeStart beforeEnd after afterStart afterEnd
      if identity ≠ [] then identity
      else
        let semantic :=
          (lcsMatches (slice before beforeStart beforeEnd)
            (slice after afterStart afterEnd) semanticallyAligned
            MAX_SEMANTIC_CELLS).getD []
        semantic.map fun pair => (beforeStart + pair.1, afterStart + pair.2)

/-- What lies between the matches, and the matched values that differ. -/
def processArrayMatches (diffRegion : ℕ → ℕ → ℕ → ℕ → ℕ → Batch → Batch)
    (diffElement : Json ι → Json ι → Path → Batch → Batch)
    (before after : List (Json ι)) (path : Path) (beforeEnd afterEnd : ℕ) :
    List ArrayMatch → ℕ → ℕ → ℕ → Batch → Batch
  | [], beforeAt, afterAt, outputAt, batch =>
    if batch.overflowed then batch
    else diffRegion beforeAt beforeEnd afterAt afterEnd outputAt batch
  | (beforeMatch, afterMatch) :: rest, beforeAt, afterAt, outputAt, batch =>
    if batch.overflowed then batch
    else
      let batch := diffRegion beforeAt beforeMatch afterAt afterMatch outputAt batch
      let outputAt := outputAt + (afterMatch - afterAt)
      let left := element before beforeMatch
      let right := element after afterMatch
      let batch :=
        if sameValue left right then batch
        else diffElement left right (path ++ [.index outputAt]) batch
      processArrayMatches diffRegion diffElement before after path beforeEnd
        afterEnd rest (beforeMatch + 1) (afterMatch + 1) (outputAt + 1) batch

def commonStart (before after : List (Json ι)) (beforeEnd afterEnd : ℕ) : ℕ → ℕ → ℕ → ℕ
  | 0, _, _ => 0
  | steps + 1, beforeStart, afterStart =>
    if beforeStart < beforeEnd ∧ afterStart < afterEnd ∧
        sameValue (element before beforeStart) (element after afterStart) then
      commonStart before after beforeEnd afterEnd steps (beforeStart + 1) (afterStart + 1) + 1
    else 0

def commonEnd (before after : List (Json ι)) (beforeStart afterStart : ℕ) : ℕ → ℕ → ℕ → ℕ
  | 0, _, _ => 0
  | steps + 1, beforeEnd, afterEnd =>
    if beforeStart < beforeEnd ∧ afterStart < afterEnd ∧
        sameValue (element before (beforeEnd - 1)) (element after (afterEnd - 1)) then
      commonEnd before after beforeStart afterStart steps (beforeEnd - 1) (afterEnd - 1) + 1
    else 0

def diffArray
    (diffRegion : List (Json ι) → List (Json ι) → Path → ℕ → ℕ → ℕ → ℕ → ℕ → Batch → Batch)
    (before after : Json ι) (path : Path) (batch : Batch) : Batch :=
  if before.same after || equalJson before after then batch
  else
    let old := before.items
    let new := after.items
    let reordered :=
      if old.length = new.length ∧ 1 < old.length ∧
          ¬sameValue (element old 0) (element new 0) ∧
          ¬sameValue (element old (old.length - 1)) (element new (new.length - 1)) then
        permutation old new
      else none
    match reordered with
    | some order => emitOperation (.edit path (.m order)) batch
    | none => diffRegion old new path 0 old.length 0 new.length 0 batch

/-- One key of `after`. -/
def diffKey (diffChild : Json ι → Json ι → Path → Batch → Batch)
    (before : List (Text × Json ι)) (path : Path) (batch : Batch) (field : Text × Json ι) : Batch :=
  if batch.overflowed then batch
  else
    match Entries.get before field.1 with
    | some old => diffChild old field.2 (path ++ [.key field.1]) batch
    | none => emitSet (path ++ [.key field.1]) field.2 batch

/-- One key of `before`. -/
def diffGone (after : List (Text × Json ι)) (path : Path) (batch : Batch)
    (field : Text × Json ι) : Batch :=
  if batch.overflowed then batch
  else if Entries.has after field.1 then batch
  else emitOperation (.edit (path ++ [.key field.1]) .d) batch

def diffObject (diffChild : Json ι → Json ι → Path → Batch → Batch)
    (before after : Json ι) (path : Path) (batch : Batch) : Batch :=
  let reserved :=
    (Entries.keys before.fields ++ Entries.keys after.fields).any (· ∈ RESERVED_SEGMENTS)
  if reserved then
    if equalJson before after then batch else emitSet path after batch
  else
    let batch := after.fields.foldl (diffKey diffChild before.fields path) batch
    before.fields.foldl (diffGone after.fields path) batch

mutual

/-- A region of two arrays; the first argument bounds the recursion. -/
def diffArrayRegion : ℕ → List (Json ι) → List (Json ι) → Path → ℕ → ℕ → ℕ → ℕ → ℕ → Batch → Batch
  | 0, _, _, _, _, _, _, _, _, batch => batch
  | depth + 1, before, after, path, beforeStart, beforeEnd, afterStart,
      afterEnd, outputStart, batch =>
      if batch.overflowed then batch
      else
        let start :=
          commonStart before after beforeEnd afterEnd (beforeEnd - beforeStart)
            beforeStart afterStart
        let beforeStart := beforeStart + start
        let afterStart := afterStart + start
        let outputStart := outputStart + start
        let end_ :=
          commonEnd before after beforeStart afterStart (beforeEnd - beforeStart) beforeEnd afterEnd
        let beforeEnd := beforeEnd - end_
        let afterEnd := afterEnd - end_
        let beforeCount := beforeEnd - beforeStart
        let afterCount := afterEnd - afterStart
        let items := (slice after afterStart afterEnd).map Json.erase
        if beforeCount = 0 ∧ afterCount = 0 then batch
        else if beforeCount = 0 ∨ afterCount = 0 then
          emitOperation (.edit path (.p outputStart beforeCount items)) batch
        else
          let found := regionMatches before beforeStart beforeEnd after afterStart afterEnd
          if found ≠ [] then
            processArrayMatches (diffArrayRegion depth before after path)
              (diffValue depth) before after path beforeEnd afterEnd found
              beforeStart afterStart outputStart batch
          else if beforeCount = 1 ∧ afterCount = 1 then
            diffValue depth (element before beforeStart)
              (element after afterStart) (path ++ [.index outputStart]) batch
          else
            emitOperation (.edit path (.p outputStart beforeCount items)) batch

def diffValue : ℕ → Json ι → Json ι → Path → Batch → Batch
  | 0, _, _, _, batch => batch
  | depth + 1, before, after, path, batch =>
    if before.same after || batch.overflowed then batch
    else
      match before, after with
      | .str old, .str new =>
        if path = [] then emitSet path after batch
        else emitString old new path batch
      | .arr _ _, .arr _ _ => diffArray (diffArrayRegion depth) before after path batch
      | .obj _ _, .obj _ _ => diffObject (diffValue depth) before after path batch
      | _, _ => emitSet path after batch

end

/-! ## Costs -/

section Costs

-- `String(value).length` of a number
variable (numberLength : ℚ → ℕ)

mutual

def jsonCost : Json ι → ℕ
  | .null => 4
  | .bool value => if value then 4 else 5
  | .num value => numberLength value
  | .str text => text.length + 2
  | .arr _ items => 2 + itemsCost items + (items.length - 1)
  | .obj _ fields => 2 + fieldsCost fields + (fields.length - 1)

def itemsCost : List (Json ι) → ℕ
  | [] => 0
  | item :: rest => jsonCost item + itemsCost rest

def fieldsCost : List (Text × Json ι) → ℕ
  | [] => 0
  | (key, value) :: rest => key.length + 3 + jsonCost value + fieldsCost rest

end

def segmentCost : Seg → ℕ
  | .key name => name.length + 2
  | .index at_ => numberLength at_

def pathCost (path : Path) : ℕ :=
  2 + (path.map (segmentCost numberLength)).sum + (path.length - 1)

def operationCost : Op Unit → ℕ
  | .r value => 6 + jsonCost numberLength value
  | .edit path change =>
    match change with
    | .s value => 7 + pathCost numberLength path + jsonCost numberLength value
    | .d => 6 + pathCost numberLength path
    | .a text => 7 + pathCost numberLength path + text.length + 2
    | .t count => 7 + pathCost numberLength path + numberLength count
    | .p index remove items =>
      10 + pathCost numberLength path + numberLength index +
        numberLength remove + jsonCost numberLength (.arr () items)
    | .m permutation =>
      7 + pathCost numberLength path +
        jsonCost numberLength (.arr () (permutation.map fun at_ : ℕ => .num (at_ : ℚ)))

def batchCost (operations : List (Op Unit)) : ℕ :=
  2 + (operations.map fun operation => operationCost numberLength operation + 1).sum

end Costs

mutual

def weight : Json ι → ℕ
  | .arr _ items => itemsWeight items + 1
  | .obj _ fields => fieldsWeight fields + 1
  | _ => 1

def itemsWeight : List (Json ι) → ℕ
  | [] => 0
  | item :: rest => weight item + itemsWeight rest

def fieldsWeight : List (Text × Json ι) → ℕ
  | [] => 0
  | (_, value) :: rest => weight value + fieldsWeight rest

end

/-- Compute a compact operation batch from two immutable JSON revisions. -/
def diffRevisions (numberLength : ℚ → ℕ) (before after : Json ι) : List (Op Unit) :=
  let batch := diffValue (2 * weight before + 1) before after [] ⟨[], false⟩
  let replaced : List (Op Unit) := [.r after.erase]
  if batch.overflowed then replaced
  else
    match batch.operations with
    | [] => []
    | .r value :: rest => .r value :: rest
    | operations =>
      if batchCost numberLength operations < 65536 then operations
      else if jsonCost numberLength after + 6 ≤
          batchCost numberLength operations then replaced
      else operations

end Delta

end PiEmbodied.Chord
