import PiEmbodied.Chord.Json
import PiEmbodied.Utf8

/-!
# Bounded output streams

`OutputBuffer` keeps a head or a tail window of a stream that arrives in string
chunks, byte chunks and skips.  Byte offsets are natural numbers, dropped totals
integers.
-/

namespace PiEmbodied.Chord

open Utf8 (Continues encode decode feedAll flush)

/-! ## Limits and results -/

inductive Retain where
  | head
  | tail
deriving DecidableEq

structure OutputLimits where
  (maxBytes maxLines : ℕ)
  retain : Retain
deriving DecidableEq

structure BoundedOutput where
  text : Text
  (droppedBytes droppedLines : ℤ)
deriving DecidableEq

structure OutputSlice where
  text : Text
  bytes : ℕ
  (droppedBytes droppedLines : ℤ)
deriving DecidableEq

structure OutputSkip where
  (bytes newlines : ℕ)
  endsWithNewline : Bool
deriving DecidableEq

def NEWLINE : ℕ := 0x0a

/-- `[\x00-\x08\x0b-\x1f\ufff9-\ufffb]` -/
def invalidOutput (unit : UInt16) : Bool :=
  unit ≤ 0x08 || (0x0b ≤ unit && unit ≤ 0x1f) ||
    (0xfff9 ≤ unit && unit ≤ 0xfffb)

def sanitizeOutput (text : Text) : Text :=
  text.filter fun unit => !invalidOutput unit

/-- `bytes.indexOf(NEWLINE, start)`. -/
def indexOf (bytes : List ℕ) (start : ℕ) : Option ℕ :=
  ((bytes.drop start).findIdx? (· == NEWLINE)).map (· + start)

/-- `bytes.lastIndexOf(NEWLINE, limit - 1)`. -/
def lastIndexOf (bytes : List ℕ) : ℕ → Option ℕ
  | 0 => none
  | limit + 1 =>
    if bytes[limit]? = some NEWLINE then some limit
    else lastIndexOf bytes limit

def characterEnd (bytes : List ℕ) : ℕ → ℕ
  | 0 => 0
  | index + 1 =>
    if Continues (bytes[index + 1]?.getD 0) then characterEnd bytes index
    else index + 1

def characterStart (bytes : List ℕ) (index : ℕ) : ℕ :=
  index + ((bytes.drop index).takeWhile fun byte => Continues byte).length

def lineCount (bytes : List ℕ) : ℕ :=
  if bytes.length = 0 then 0
  else bytes.count NEWLINE + if bytes.getLast? = some NEWLINE then 0 else 1

/-- The end of line `maxLines`, looking from `index` with `lines` seen. -/
def headEnd (maxLines : ℕ) : List ℕ → ℕ → ℕ → Option ℕ
  | [], _, _ => none
  | byte :: rest, index, lines =>
    if byte = NEWLINE then
      if lines + 1 = maxLines then some (index + 1)
      else headEnd maxLines rest (index + 1) (lines + 1)
    else headEnd maxLines rest (index + 1) lines

def headRange (bytes : List ℕ) (limits : OutputLimits) : ℕ × ℕ :=
  if limits.maxLines = 0 ∨ limits.maxBytes = 0 then (0, 0)
  else
    let lineEnd := (headEnd limits.maxLines bytes 0 0).getD bytes.length
    if lineEnd > limits.maxBytes then
      match lastIndexOf bytes limits.maxBytes with
      | none => (0, characterEnd bytes limits.maxBytes)
      | some newline => (0, newline + 1)
    else (0, lineEnd)

/-- The start of the last `maxLines` lines, looking back from `limit` with
`lines` lines seen; 0 where there are fewer. -/
def lineStart (bytes : List ℕ) (maxLines : ℕ) : ℕ → ℕ → ℕ
  | 0, _ => 0
  | limit + 1, lines =>
    if bytes[limit]? = some NEWLINE then
      if lines = maxLines then limit + 1
      else lineStart bytes maxLines limit (lines + 1)
    else lineStart bytes maxLines limit lines

/-- The start of the last `maxBytes` bytes: the first line that starts among
them, or a cut of the last line when it alone is too long. -/
def byteStart (bytes : List ℕ) (maxBytes : ℕ) : ℕ :=
  let cut := bytes.length - maxBytes
  match indexOf bytes (cut - 1) with
  | some newline =>
    if newline + 1 < bytes.length then newline + 1
    else characterStart bytes cut
  | none => characterStart bytes cut

def tailRange (bytes : List ℕ) (limits : OutputLimits) : ℕ × ℕ :=
  if limits.maxLines = 0 ∨ limits.maxBytes = 0 then
    (bytes.length, bytes.length)
  else
    -- A trailing newline ends the last line rather than starting another.
    let limit :=
      if bytes[bytes.length - 1]? = some NEWLINE then bytes.length - 1
      else bytes.length
    let start := lineStart bytes limits.maxLines limit 1
    if bytes.length - start > limits.maxBytes then
      (byteStart bytes limits.maxBytes, bytes.length)
    else (start, bytes.length)

def boundOutput (text : Text) (limits : OutputLimits) : OutputSlice :=
  let bytes := encode text
  let range :=
    match limits.retain with
    | .head => headRange bytes limits
    | .tail => tailRange bytes limits
  let kept := (bytes.take range.2).drop range.1
  { text := if kept.length = bytes.length then text else decode kept
    bytes := kept.length
    droppedBytes := (bytes.length : ℤ) - kept.length
    droppedLines := (lineCount bytes : ℤ) - lineCount kept }

/-- The bytes of `content` from its first code above ASCII on. -/
def byteLengthFrom : Text → ℕ
  | [] => 0
  | [code] => if code ≤ 0x7f then 1 else if code ≤ 0x7ff then 2 else 3
  | code :: next :: rest =>
    if code ≤ 0x7f then 1 + byteLengthFrom (next :: rest)
    else if code ≤ 0x7ff then 2 + byteLengthFrom (next :: rest)
    else if 0xd800 ≤ code ∧ code ≤ 0xdbff then
      if 0xdc00 ≤ next ∧ next ≤ 0xdfff then 4 + byteLengthFrom rest
      else 3 + byteLengthFrom (next :: rest)
    else 3 + byteLengthFrom (next :: rest)

def utf8ByteLength (content : Text) : ℕ :=
  (content.takeWhile (· ≤ 0x7f)).length + byteLengthFrom (content.dropWhile (· ≤ 0x7f))

def countNewlines (text : Text) : ℕ :=
  text.count 0x0a

def endsWithNewline (text : Text) : Bool :=
  text.getLast? = some 0x0a

/-- Lines of text with `newlines` newlines; a final unterminated line counts. -/
def lines (newlines : ℕ) (terminated : Bool) : ℕ :=
  newlines + if terminated then 0 else 1

/-- The newline with `maxLines` newlines behind it, looking back from `limit`
with `newlines` seen. -/
def marginStart (bytes : List ℕ) (maxLines : ℕ) : ℕ → ℕ → ℕ
  | 0, _ => 0
  | limit + 1, newlines =>
    if bytes[limit]? = some NEWLINE then
      if newlines + 1 > maxLines then limit
      else marginStart bytes maxLines limit (newlines + 1)
    else marginStart bytes maxLines limit newlines

/-- The shortest suffix of `text` with more than `maxBytes` bytes or more than
`maxLines` newlines, or all of it. -/
def tailMargin (text : Text) (limits : OutputLimits) : Text :=
  let bytes := encode text
  let byteStart :=
    if bytes.length > limits.maxBytes then
      characterEnd bytes (bytes.length - limits.maxBytes - 1)
    else 0
  let start := max byteStart (marginStart bytes limits.maxLines bytes.length 0)
  if start = 0 then text else decode (bytes.drop start)

/-! ## The buffer -/

structure StoredChunk where
  text : Text
  (bytes newlines : ℕ)
deriving DecidableEq

structure OutputBuffer where
  limits : OutputLimits
  decoder : Option Utf8.Partial
  started : Bool
  chunks : List StoredChunk
  (storedBytes storedNewlines : ℕ)
  full : Bool
  (totalBytes totalNewlines : ℕ)
  endsWithNewline : Bool
deriving DecidableEq

inductive OutputChunk where
  | string (text : Text)
  | bytes (bytes : List UInt8)
deriving DecidableEq

namespace OutputBuffer

def new (limits : OutputLimits) : OutputBuffer :=
  { limits
    decoder := none
    started := false
    chunks := []
    storedBytes := 0
    storedNewlines := 0
    full := false
    totalBytes := 0
    totalNewlines := 0
    endsWithNewline := true }

/-- Drop leading chunks while the rest still holds more than a window. -/
def dropLeading (limits : OutputLimits) : List StoredChunk → ℕ → ℕ → List StoredChunk × ℕ × ℕ
  | first :: next :: rest, storedBytes, storedNewlines =>
    let bytesAfter := storedBytes - first.bytes
    let newlinesAfter := storedNewlines - first.newlines
    if bytesAfter ≤ limits.maxBytes + 1 ∧
        newlinesAfter ≤ limits.maxLines + 1 then
      (first :: next :: rest, storedBytes, storedNewlines)
    else dropLeading limits (next :: rest) bytesAfter newlinesAfter
  | chunks, storedBytes, storedNewlines => (chunks, storedBytes, storedNewlines)

def count (buffer : OutputBuffer) (text : Text) : OutputBuffer :=
  { buffer with
    totalBytes := buffer.totalBytes + utf8ByteLength text
    totalNewlines := buffer.totalNewlines + countNewlines text
    endsWithNewline := Chord.endsWithNewline text }

/-- Store a text, and for tail retention drop what no window needs. -/
def store (buffer : OutputBuffer) (text : Text) : OutputBuffer :=
  let chunk : StoredChunk :=
    { text, bytes := utf8ByteLength text, newlines := countNewlines text }
  let chunks := buffer.chunks ++ [chunk]
  let storedBytes := buffer.storedBytes + chunk.bytes
  let storedNewlines := buffer.storedNewlines + chunk.newlines
  match buffer.limits.retain with
  | .head =>
    { buffer with
      chunks, storedBytes, storedNewlines
      full :=
        storedBytes > buffer.limits.maxBytes ||
          storedNewlines ≥ buffer.limits.maxLines }
  | .tail =>
    let kept := dropLeading buffer.limits chunks storedBytes storedNewlines
    { buffer with
      chunks := kept.1
      storedBytes := kept.2.1
      storedNewlines := kept.2.2 }

def accept (buffer : OutputBuffer) (text : Text) : OutputBuffer × Bool :=
  if text.length = 0 then (buffer, false)
  else
    let counted := buffer.count text
    if buffer.full then (counted, true) else (counted.store text, true)

def skip (buffer : OutputBuffer) (skipped : OutputSkip) : OutputBuffer :=
  if skipped.bytes = 0 then buffer
  else
    { buffer with
      totalBytes := buffer.totalBytes + skipped.bytes
      totalNewlines := buffer.totalNewlines + skipped.newlines
      endsWithNewline := skipped.endsWithNewline
      chunks := []
      storedBytes := 0
      storedNewlines := 0 }

/-- `text` without a byte-order mark at its start. -/
def withoutMark (text : Text) : Text :=
  if text.head? = some 0xfeff then text.tail else text

/-- The end of an incomplete character before a string chunk or a skip, the
text of the chunk, and the decoder after it. -/
def read (buffer : OutputBuffer) (chunk : OutputChunk)
    (skipped : Option OutputSkip) : Text × Text × Option Utf8.Partial :=
  match chunk with
  | .string text => (Utf8.text (flush buffer.decoder), text, none)
  | .bytes bytes =>
    let pending :=
      if skipped.isSome then Utf8.text (flush buffer.decoder) else []
    let decoder := if skipped.isSome then none else buffer.decoder
    let decoded := feedAll decoder (bytes.map UInt8.toNat)
    (pending, Utf8.text decoded.2, decoded.1)

def push (buffer : OutputBuffer) (chunk : OutputChunk)
    (skipped : Option OutputSkip) : OutputBuffer × Except String Bool :=
  let (pending, text, decoder) := buffer.read chunk skipped
  let first := !buffer.started && pending.isEmpty && skipped.isNone
  let started := buffer.started || !pending.isEmpty || !text.isEmpty || skipped.isSome
  let text :=
    match chunk with
    | .string _ => text
    | .bytes _ => if first then withoutMark text else text
  let buffer := { buffer with decoder, started }
  match skipped with
  | none =>
    let accepted := buffer.accept (pending ++ text)
    (accepted.1, .ok accepted.2)
  | some skipped =>
    if buffer.limits.retain = .tail then
      let buffer := (buffer.accept pending).1
      let buffer := buffer.skip skipped
      ((buffer.accept text).1, .ok true)
    else (buffer, .error "Skipped output requires tail retention")

/-- `end` -/
def finish (buffer : OutputBuffer) : OutputBuffer :=
  let text := Utf8.text (flush buffer.decoder)
  ({ buffer with decoder := none }.accept text).1

def stored (buffer : OutputBuffer) : Text :=
  buffer.chunks.flatMap StoredChunk.text

def compact (buffer : OutputBuffer) : OutputBuffer :=
  if buffer.limits.retain = .tail ∨ buffer.chunks.length > 1 then
    let text :=
      match buffer.limits.retain with
      | .tail => tailMargin buffer.stored buffer.limits
      | .head => buffer.stored
    let bytes :=
      match buffer.limits.retain with
      | .tail => utf8ByteLength text
      | .head => buffer.storedBytes
    let chunks : List StoredChunk :=
      if text = [] then []
      else [{ text, bytes, newlines := countNewlines text }]
    { buffer with
      chunks
      storedBytes := bytes
      storedNewlines := (chunks.head?.map StoredChunk.newlines).getD 0 }
  else buffer

def snapshot (buffer : OutputBuffer) : BoundedOutput × OutputBuffer :=
  let stored := buffer.stored
  let kept := boundOutput stored buffer.limits
  let storedLines := lines buffer.storedNewlines (stored.isEmpty || Chord.endsWithNewline stored)
  let keptLines := (storedLines : ℤ) - kept.droppedLines
  ({ text := sanitizeOutput kept.text
     droppedBytes := (buffer.totalBytes : ℤ) - kept.bytes
     droppedLines :=
       (lines buffer.totalNewlines buffer.endsWithNewline : ℤ) - keptLines },
    buffer.compact)

end OutputBuffer

end PiEmbodied.Chord
