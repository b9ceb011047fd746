import PiEmbodied.Runs
import PiEmbodied.Chord.OutputTail

/-!
# Output of a whole stream

The stream of a run of pushes is decoded byte by byte and unit by unit, without
chunks.  In every run in which no string chunk parts a surrogate pair, a
snapshot shows the sanitized tail window of that stream.
-/

namespace PiEmbodied.Chord

open Utf8 (SplitsPair encode feed feedAll flush)
open List (append_assoc append_nil cons_append flatMap_cons flatMap_nil length_append map_cons
  mem_cons_of_mem mem_cons_self nil_append not_mem_nil)

/-! ## The stream without chunks -/

/-- The parts of a stream that no cut parts further.  `stop` is an empty string
chunk, `omitted` the text behind a skip, `ended` the end of the stream. -/
inductive Atom where
  | byte (byte : UInt8)
  | unit (unit : UInt16)
  | stop
  | omitted (text : Text)
  | ended
deriving DecidableEq

structure Heard where
  decoder : Option Utf8.Partial
  started : Bool
  text : Text
deriving DecidableEq

namespace Heard

def silent : Heard :=
  { decoder := none, started := false, text := [] }

def flushed (heard : Heard) : Text :=
  heard.text ++ Utf8.text (flush heard.decoder)

/-- One more atom.  Only bytes at the very start can be a byte-order mark. -/
def hear (heard : Heard) : Atom → Heard
  | .byte byte =>
    let fed := feed heard.decoder byte.toNat
    let text := Utf8.text fed.2
    { decoder := fed.1
      started := heard.started || !text.isEmpty
      text :=
        heard.text ++
          if heard.started then text else OutputBuffer.withoutMark text }
  | .unit unit => { decoder := none, started := true, text := heard.flushed ++ [unit] }
  | .stop =>
    { decoder := none
      started := heard.started || !(Utf8.text (flush heard.decoder)).isEmpty
      text := heard.flushed }
  | .omitted text => { decoder := none, started := true, text := heard.flushed ++ text }
  | .ended => { decoder := none, started := heard.started, text := heard.flushed }

end Heard

def OutputChunk.atoms : OutputChunk → List Atom
  | .string text => text.map .unit
  | .bytes data => data.map .byte

def OutputChunk.text : OutputChunk → Text
  | .string text => text
  | .bytes data => Utf8.text (feedAll none (data.map UInt8.toNat)).2

/-- What a program does with a buffer.  A push may come with the text omitted
right before its chunk. -/
inductive OutputOperation where
  | push (chunk : OutputChunk) (omitted : Option Text)
  | finish
  | snapshot
deriving DecidableEq

namespace OutputOperation

def content : OutputOperation → List Atom
  | .push chunk (some omitted) => .omitted omitted :: chunk.atoms
  | .push (.string []) none => [.stop]
  | .push chunk none => chunk.atoms
  | .finish => [.ended]
  | .snapshot => []

end OutputOperation

def Heard.listen (heard : Heard) (operation : OutputOperation) : Heard :=
  Runs.after Heard.hear heard operation.content

def streamText (operations : List OutputOperation) : Text :=
  (Runs.after Heard.hear Heard.silent (operations.flatMap OutputOperation.content)).text

theorem streamText_eq (operations : List OutputOperation) :
    streamText operations = (Runs.after Heard.listen Heard.silent operations).text := by
  rw [streamText, Runs.after_flatMap]
  rfl

variable (started : Bool) (first second : Text)

theorem withoutMark_append :
    OutputBuffer.withoutMark (first ++ second) =
      if first = [] then OutputBuffer.withoutMark second
      else OutputBuffer.withoutMark first ++ second := by
  cases first with
  | nil => rfl
  | cons unit rest =>
    rw [if_neg (List.cons_ne_nil unit rest), OutputBuffer.withoutMark,
      OutputBuffer.withoutMark, cons_append, List.head?_cons,
      List.head?_cons, List.tail_cons, List.tail_cons]
    split
    · rfl
    · rfl

theorem text_append (first second : List ℕ) :
    Utf8.text (first ++ second) = Utf8.text first ++ Utf8.text second := by
  exact List.flatMap_append

theorem opening_append :
    ((if started then first else OutputBuffer.withoutMark first) ++
        if started || !first.isEmpty then second
        else OutputBuffer.withoutMark second) =
      if started then first ++ second
      else OutputBuffer.withoutMark (first ++ second) := by
  cases started with
  | true => rfl
  | false =>
    rw [if_neg Bool.false_ne_true, if_neg Bool.false_ne_true, withoutMark_append]
    cases first with
    | nil => rfl
    | cons unit rest => simp

theorem started_append :
    (started || !first.isEmpty || !second.isEmpty) = (started || !(first ++ second).isEmpty) := by
  cases first with
  | nil | cons unit rest => simp

theorem hear_bytes (heard : Heard) (bytes : List UInt8) :
    Runs.after Heard.hear heard (bytes.map Atom.byte) =
      { decoder := (feedAll heard.decoder (bytes.map UInt8.toNat)).1
        started :=
          heard.started ||
            !(Utf8.text (feedAll heard.decoder (bytes.map UInt8.toNat)).2).isEmpty
        text :=
          heard.text ++
            if heard.started then
              Utf8.text (feedAll heard.decoder (bytes.map UInt8.toNat)).2
            else
              OutputBuffer.withoutMark
                (Utf8.text (feedAll heard.decoder (bytes.map UInt8.toNat)).2) } := by
  induction bytes generalizing heard with
  | nil => simp [feedAll, Utf8.text, OutputBuffer.withoutMark]
  | cons byte rest ih =>
    rw [map_cons, Runs.after_cons, ih, map_cons, feedAll]
    simp only [Heard.hear, text_append, append_assoc, started_append]
    exact congrArg
      (fun opened : Text => ({ decoder := _, started := _, text := heard.text ++ opened } : Heard))
      (opening_append _ _ _)

theorem hear_units (heard : Heard) (unit : UInt16) (rest : Text) :
    Runs.after Heard.hear heard ((unit :: rest).map Atom.unit) =
      { decoder := none
        started := true
        text := heard.flushed ++ unit :: rest } := by
  induction rest generalizing heard unit with
  | nil => rfl
  | cons next rest ih =>
    rw [map_cons, Runs.after_cons, ih]
    simp [Heard.hear, Heard.flushed, flush, Utf8.text]

/-- `stored` shows what `whole` shows, and parts no pair that `whole` does
not. -/
structure Shows (limits : OutputLimits) (whole stored : Text) : Prop where
  covers : Covers limits whole stored
  parts : ∀ after, SplitsPair stored after → SplitsPair whole after

namespace Shows

variable {limits : OutputLimits} {whole stored : Text}

theorem refl (whole : Text) : Shows limits whole whole :=
  ⟨Or.inl rfl, fun _ splits => splits⟩

theorem trans {last : Text} (first : Shows limits whole stored)
    (second : Shows limits stored last) : Shows limits whole last := by
  refine ⟨?_, fun after splits => first.parts after (second.parts after splits)⟩
  rcases second.covers with rfl | ⟨between, storedBytes, exceeds⟩
  · exact first.covers
  · right
    rcases first.covers with rfl | ⟨before, wholeBytes, _⟩
    · exact ⟨between, storedBytes, exceeds⟩
    · refine ⟨before ++ between, ?_, exceeds⟩
      rw [wholeBytes, storedBytes, append_assoc]

theorem splitsPair_append {first second after : Text} (more : second ≠ []) :
    SplitsPair (first ++ second) after ↔ SplitsPair second after := by
  unfold SplitsPair
  rw [List.getLast?_append_of_ne_nil first more]

variable {added : Text}

theorem append (shows : Shows limits whole stored) (apart : ¬ SplitsPair whole added) :
    Shows limits (whole ++ added) (stored ++ added) := by
  have storedApart : ¬ SplitsPair stored added :=
    fun splits => apart (shows.parts added splits)
  constructor
  · rcases shows.covers with rfl | ⟨before, bytes, exceeds⟩
    · exact Or.inl rfl
    · right
      refine ⟨before, ?_, ?_⟩
      · rw [Utf8.encode_append apart, Utf8.encode_append storedApart, bytes, append_assoc]
      · rw [Utf8.encode_append storedApart]
        exact exceeds_append_right exceeds _
  · intro after splits
    by_cases more : added = []
    · rw [more, append_nil] at splits ⊢
      exact shows.parts after splits
    · rw [splitsPair_append more] at splits ⊢
      exact splits

theorem of_exceeds {added : Text} (apart : ¬ SplitsPair whole added)
    (exceeds : Exceeds limits (encode added)) : Shows limits (whole ++ added) added := by
  constructor
  · exact Or.inr ⟨encode whole, Utf8.encode_append apart, exceeds⟩
  · intro after splits
    have more : added ≠ [] := by
      rintro rfl
      exact ne_nil_of_exceeds exceeds rfl
    rw [splitsPair_append more]
    exact splits

theorem tailMargin (shows : Shows limits whole stored) :
    Shows limits whole (tailMargin stored limits) :=
  ⟨covers_tailMargin shows.covers,
    fun after splits => shows.parts after (splitsPair_tailMargin splits)⟩

end Shows

/-! ## Stored chunks -/

def texts (chunks : List StoredChunk) : Text :=
  chunks.flatMap StoredChunk.text

def StoredChunk.Counted (chunk : StoredChunk) : Prop :=
  chunk.text ≠ [] ∧ chunk.bytes = (encode chunk.text).length ∧
    chunk.newlines = countNewlines chunk.text

def Joined : List StoredChunk → Prop
  | [] => True
  | first :: rest => ¬ SplitsPair first.text (texts rest) ∧ Joined rest

structure Keeps (chunks : List StoredChunk) (storedBytes storedNewlines : ℕ) : Prop where
  counted : ∀ chunk ∈ chunks, chunk.Counted
  joined : Joined chunks
  bytes : storedBytes = (encode (texts chunks)).length
  newlines : storedNewlines = countNewlines (texts chunks)

theorem countNewlines_append :
    countNewlines (first ++ second) = countNewlines first + countNewlines second := by
  exact List.count_append

variable {chunks : List StoredChunk}

theorem texts_ne_nil (more : chunks ≠ []) (counted : ∀ chunk ∈ chunks, chunk.Counted) :
    texts chunks ≠ [] := by
  cases chunks with
  | nil => exact absurd rfl more
  | cons first rest =>
    intro none
    rw [texts, flatMap_cons, List.append_eq_nil_iff] at none
    exact (counted first mem_cons_self).1 none.1

theorem texts_append_single (chunks : List StoredChunk) (chunk : StoredChunk) :
    texts (chunks ++ [chunk]) = texts chunks ++ chunk.text := by
  rw [texts, List.flatMap_append, flatMap_cons, flatMap_nil, append_nil]
  rfl

theorem joined_append_single {chunk : StoredChunk} (counted : ∀ stored ∈ chunks, stored.Counted)
    (joined : Joined chunks) (apart : ¬ SplitsPair (texts chunks) chunk.text) :
    Joined (chunks ++ [chunk]) := by
  induction chunks with
  | nil => exact ⟨Utf8.not_splitsPair_nil_right chunk.text, trivial⟩
  | cons first rest ih =>
    obtain ⟨here, later⟩ := joined
    have restCounted : ∀ stored ∈ rest, stored.Counted :=
      fun stored member => counted stored (mem_cons_of_mem first member)
    rw [texts, flatMap_cons] at apart
    rw [cons_append, Joined]
    cases rest with
    | nil =>
      rw [flatMap_nil, append_nil] at apart
      refine ⟨?_, ⟨Utf8.not_splitsPair_nil_right _, trivial⟩⟩
      rw [nil_append, texts, flatMap_cons, flatMap_nil, append_nil]
      exact apart
    | cons second others =>
      have more := texts_ne_nil (List.cons_ne_nil second others) restCounted
      constructor
      · rw [texts_append_single]
        unfold SplitsPair at here ⊢
        rw [List.head?_append_of_ne_nil _ more]
        exact here
      · apply ih restCounted later
        rwa [← texts, Shows.splitsPair_append more] at apart

variable {storedBytes storedNewlines : ℕ}

theorem Keeps.push {text : Text} (keeps : Keeps chunks storedBytes storedNewlines)
    (more : text ≠ []) (apart : ¬ SplitsPair (texts chunks) text) :
    Keeps
      (chunks ++ [⟨text, utf8ByteLength text, countNewlines text⟩])
      (storedBytes + utf8ByteLength text)
      (storedNewlines + countNewlines text) := by
  constructor
  · intro chunk member
    rcases List.mem_append.mp member with old | new
    · exact keeps.counted chunk old
    · rw [List.mem_singleton.mp new]
      exact ⟨more, utf8ByteLength_eq text, rfl⟩
  · exact joined_append_single keeps.counted keeps.joined apart
  · rw [texts_append_single, Utf8.encode_append apart, length_append,
      keeps.bytes, utf8ByteLength_eq]
  · rw [texts_append_single, countNewlines_append, keeps.newlines]

theorem Keeps.tail {first : StoredChunk} {rest : List StoredChunk}
    (keeps : Keeps (first :: rest) storedBytes storedNewlines) :
    Keeps rest (storedBytes - first.bytes) (storedNewlines - first.newlines) ∧
      storedBytes = first.bytes + (storedBytes - first.bytes) := by
  obtain ⟨_, firstBytes, firstNewlines⟩ := keeps.counted first mem_cons_self
  have bytes := keeps.bytes
  have newlines := keeps.newlines
  rw [texts, flatMap_cons, ← texts, Utf8.encode_append keeps.joined.1,
    length_append, ← firstBytes] at bytes
  rw [texts, flatMap_cons, ← texts, countNewlines_append, ← firstNewlines] at newlines
  refine ⟨⟨?_, keeps.joined.2, by omega, by omega⟩, by omega⟩
  intro chunk member
  exact keeps.counted chunk (mem_cons_of_mem first member)

theorem dropLeading_keeps
    (limits : OutputLimits) (keeps : Keeps chunks storedBytes storedNewlines) :
    Keeps (OutputBuffer.dropLeading limits chunks storedBytes storedNewlines).1
        (OutputBuffer.dropLeading limits chunks storedBytes storedNewlines).2.1
        (OutputBuffer.dropLeading limits chunks storedBytes storedNewlines).2.2 ∧
      Shows limits (texts chunks)
        (texts (OutputBuffer.dropLeading limits chunks storedBytes storedNewlines).1) := by
  induction chunks, storedBytes, storedNewlines using OutputBuffer.dropLeading.induct limits with
  | case1 first next rest bytes newlines bytesAfter newlinesAfter fits =>
    rw [OutputBuffer.dropLeading, if_pos fits]
    exact ⟨keeps, Shows.refl _⟩
  | case2 first next rest bytes newlines bytesAfter newlinesAfter exceeds
      ih =>
      rw [OutputBuffer.dropLeading, if_neg exceeds]
      have tail := keeps.tail.1
      obtain ⟨laterKeeps, laterShows⟩ := ih tail
      refine ⟨laterKeeps, Shows.trans ?_ laterShows⟩
      have tailBytes := tail.bytes
      have tailNewlines := tail.newlines
      rw [texts, flatMap_cons, ← texts]
      apply Shows.of_exceeds keeps.joined.1
      rw [Exceeds, ← tailBytes, ← countNewlines_eq, ← tailNewlines]
      omega
  | case3 chunks bytes newlines short =>
    rw [OutputBuffer.dropLeading]
    · exact ⟨keeps, Shows.refl _⟩
    · exact short

theorem dropLeading_small (limits : OutputLimits) {cap : ℕ}
    (keeps : Keeps chunks storedBytes storedNewlines)
    (small : ∀ chunk ∈ chunks, chunk.bytes ≤ cap) :
    (∀ chunk ∈ (OutputBuffer.dropLeading limits chunks storedBytes storedNewlines).1,
      chunk.bytes ≤ cap) ∧
      (OutputBuffer.dropLeading limits chunks storedBytes storedNewlines).2.1 ≤
        limits.maxBytes + 1 + cap := by
  induction chunks, storedBytes, storedNewlines using OutputBuffer.dropLeading.induct limits with
  | case1 first next rest bytes newlines bytesAfter newlinesAfter fits =>
    rw [OutputBuffer.dropLeading, if_pos fits]
    refine ⟨small, ?_⟩
    have firstSmall := small first mem_cons_self
    have split := keeps.tail.2
    have restSmall : bytes - first.bytes ≤ limits.maxBytes + 1 := fits.1
    simp only
    omega
  | case2 first next rest bytes newlines bytesAfter newlinesAfter exceeds
      ih =>
      rw [OutputBuffer.dropLeading, if_neg exceeds]
      exact ih keeps.tail.1 fun chunk member => small chunk (mem_cons_of_mem first member)
  | case3 chunks bytes newlines short =>
    rw [OutputBuffer.dropLeading]
    · refine ⟨small, ?_⟩
      simp only
      cases chunks with
      | nil =>
        have none : bytes = 0 := keeps.bytes
        omega
      | cons first rest =>
        cases rest with
        | nil =>
          have firstSmall := small first mem_cons_self
          have split := keeps.tail.2
          have none : bytes - first.bytes = 0 := keeps.tail.1.bytes
          omega
        | cons second others => exact absurd rfl (short first second others)
    · exact short

/-! ## The buffer holds the stream -/

structure Totals (buffer : OutputBuffer) (whole : Text) : Prop where
  bytes : buffer.totalBytes = (encode whole).length
  newlines : buffer.totalNewlines = countNewlines whole
  ends : buffer.endsWithNewline = (whole.isEmpty || endsWithNewline whole)

/-- A tail buffer that has heard `whole`. -/
structure Holds (limits : OutputLimits) (buffer : OutputBuffer) (whole : Text) :
    Prop where
  bounds : buffer.limits = limits
  open_ : buffer.full = false
  totals : Totals buffer whole
  keeps : Keeps buffer.chunks buffer.storedBytes buffer.storedNewlines
  shows : Shows limits whole (texts buffer.chunks)

theorem endsWithNewline_append {second : Text} (more : second ≠ []) :
    ((first ++ second).isEmpty || endsWithNewline (first ++ second)) =
      endsWithNewline second := by
  rw [endsWithNewline, endsWithNewline, List.getLast?_append_of_ne_nil first more]
  have notEmpty : (first ++ second).isEmpty = false := by simp [more]
  rw [notEmpty, Bool.false_or]

variable {buffer : OutputBuffer}

theorem totals_count {whole text : Text} (totals : Totals buffer whole) (more : text ≠ [])
    (apart : ¬ SplitsPair whole text) : Totals (buffer.count text) (whole ++ text) := by
  constructor
  · rw [Utf8.encode_append apart, length_append, ← totals.bytes, ← utf8ByteLength_eq]
    rfl
  · rw [countNewlines_append, ← totals.newlines]
    rfl
  · rw [endsWithNewline_append whole more]
    rfl

theorem store_tail (isTail : buffer.limits.retain = .tail) (text : Text) :
    buffer.store text =
      { buffer with
        chunks :=
          (OutputBuffer.dropLeading buffer.limits
            (buffer.chunks ++ [⟨text, utf8ByteLength text, countNewlines text⟩])
            (buffer.storedBytes + utf8ByteLength text)
            (buffer.storedNewlines + countNewlines text)).1
        storedBytes :=
          (OutputBuffer.dropLeading buffer.limits
            (buffer.chunks ++ [⟨text, utf8ByteLength text, countNewlines text⟩])
            (buffer.storedBytes + utf8ByteLength text)
            (buffer.storedNewlines + countNewlines text)).2.1
        storedNewlines :=
          (OutputBuffer.dropLeading buffer.limits
            (buffer.chunks ++ [⟨text, utf8ByteLength text, countNewlines text⟩])
            (buffer.storedBytes + utf8ByteLength text)
            (buffer.storedNewlines + countNewlines text)).2.2 } := by
  rw [OutputBuffer.store]
  simp only [isTail]

theorem accept_nil (buffer : OutputBuffer) : (buffer.accept []).1 = buffer :=
  rfl

theorem accept_open {text : Text} (open_ : buffer.full = false) (more : text ≠ []) :
    (buffer.accept text).1 = (buffer.count text).store text := by
  have notZero : text.length ≠ 0 := by simpa using more
  rw [OutputBuffer.accept, if_neg notZero]
  simp only
  rw [open_]
  rfl

section Accept

variable {limits : OutputLimits} {buffer : OutputBuffer} {whole : Text}

theorem accept_holds_of_shows {text : Text} (isTail : limits.retain = .tail)
    (bounds : buffer.limits = limits) (open_ : buffer.full = false) (totals : Totals buffer whole)
    (keeps : Keeps buffer.chunks buffer.storedBytes buffer.storedNewlines)
    (more : text ≠ []) (apart : ¬ SplitsPair whole text)
    (storedApart : ¬ SplitsPair (texts buffer.chunks) text)
    (shows : Shows limits (whole ++ text) (texts buffer.chunks ++ text)) :
    Holds limits (buffer.accept text).1 (whole ++ text) := by
  have countedBounds : (buffer.count text).limits = limits := bounds
  have counted := totals_count totals more apart
  obtain ⟨laterKeeps, laterShows⟩ := dropLeading_keeps limits (keeps.push more storedApart)
  rw [texts_append_single] at laterShows
  rw [accept_open open_ more, store_tail (by rw [countedBounds]; exact isTail), countedBounds]
  exact
    { bounds := rfl
      open_ := open_
      totals := ⟨counted.bytes, counted.newlines, counted.ends⟩
      keeps := laterKeeps
      shows := shows.trans laterShows }

theorem accept_holds (isTail : limits.retain = .tail) (holds : Holds limits buffer whole)
    {text : Text} (apart : ¬ SplitsPair whole text) :
    Holds limits (buffer.accept text).1 (whole ++ text) := by
  by_cases more : text = []
  · rw [more, append_nil, accept_nil]
    exact holds
  · exact accept_holds_of_shows isTail holds.bounds holds.open_ holds.totals holds.keeps more apart
      (fun splits => apart (holds.shows.parts text splits))
      (holds.shows.append apart)

def measure (omitted : Text) : OutputSkip :=
  { bytes := utf8ByteLength omitted
    newlines := countNewlines omitted
    endsWithNewline := endsWithNewline omitted }

theorem skip_nil (buffer : OutputBuffer) : buffer.skip (measure []) = buffer :=
  rfl

def emptied (buffer : OutputBuffer) : OutputBuffer :=
  { buffer with chunks := [], storedBytes := 0, storedNewlines := 0 }

variable {omitted : Text}

theorem skip_of_ne_nil (more : omitted ≠ []) (buffer : OutputBuffer) :
    buffer.skip (measure omitted) = emptied (buffer.count omitted) := by
  have notZero : (measure omitted).bytes ≠ 0 := by
    rw [measure, utf8ByteLength_eq]
    simpa using more
  rw [OutputBuffer.skip, if_neg notZero]
  rfl

/-- Omitted output and the text after it, which shows that nothing before can
be in the window. -/
theorem skip_holds (isTail : limits.retain = .tail) (holds : Holds limits buffer whole)
    {text : Text} (omittedApart : ¬ SplitsPair whole omitted)
    (apart : ¬ SplitsPair (whole ++ omitted) text)
    (exceeds : omitted ≠ [] → Exceeds limits (encode text)) :
    Holds limits ((buffer.skip (measure omitted)).accept text).1 (whole ++ omitted ++ text) := by
  by_cases more : omitted = []
  · rw [more, append_nil] at apart ⊢
    rw [skip_nil]
    exact accept_holds isTail holds apart
  · have textMore : text ≠ [] := by
      rintro rfl
      exact ne_nil_of_exceeds (exceeds more) rfl
    have counted := totals_count holds.totals more omittedApart
    have emptiedTotals : Totals (emptied (buffer.count omitted)) (whole ++ omitted) :=
      ⟨counted.bytes, counted.newlines, counted.ends⟩
    rw [skip_of_ne_nil more]
    exact accept_holds_of_shows isTail holds.bounds holds.open_ emptiedTotals
      ⟨fun _ member => absurd member not_mem_nil, trivial, rfl, rfl⟩
      textMore apart (Utf8.not_splitsPair_nil_left text)
      (Shows.of_exceeds apart (exceeds more))

theorem compact_tail (isTail : buffer.limits.retain = .tail) :
    buffer.compact =
      { buffer with
        chunks :=
          if tailMargin buffer.stored buffer.limits = [] then []
          else
            [{ text := tailMargin buffer.stored buffer.limits
               bytes := utf8ByteLength (tailMargin buffer.stored buffer.limits)
               newlines := countNewlines (tailMargin buffer.stored buffer.limits) }]
        storedBytes := utf8ByteLength (tailMargin buffer.stored buffer.limits)
        storedNewlines :=
          countNewlines (tailMargin buffer.stored buffer.limits) } := by
  rw [OutputBuffer.compact, if_pos (Or.inl isTail)]
  simp only [isTail]
  split
  · rename_i none
    rw [none]
    rfl
  · rfl

theorem texts_compact (text : Text) (bytes newlines : ℕ) :
    texts (if text = [] then [] else [⟨text, bytes, newlines⟩]) = text := by
  split
  · rename_i none
    rw [none]
    rfl
  · exact append_nil text

theorem compact_holds (isTail : limits.retain = .tail) (holds : Holds limits buffer whole) :
    Holds limits buffer.compact whole := by
  have bounds := holds.bounds
  rw [compact_tail (by rw [bounds]; exact isTail)]
  refine
    { bounds := bounds
      open_ := holds.open_
      totals := ⟨holds.totals.bytes, holds.totals.newlines, holds.totals.ends⟩
      keeps := ⟨?_, ?_, ?_, ?_⟩
      shows := ?_ }
  · intro chunk member
    simp only at member
    split at member
    · exact absurd member not_mem_nil
    · rename_i more
      rw [List.mem_singleton.mp member]
      exact ⟨more, utf8ByteLength_eq _, rfl⟩
  · simp only
    split
    · trivial
    · exact ⟨Utf8.not_splitsPair_nil_right _, trivial⟩
  · simp only [texts_compact]
    exact utf8ByteLength_eq _
  · simp only [texts_compact]
  · simp only [texts_compact, bounds]
    exact holds.shows.tailMargin

/-- The stored bytes stay within a window and one chunk of at most `cap`
bytes. -/
structure Small (limits : OutputLimits) (cap : ℕ) (buffer : OutputBuffer) : Prop where
  chunks : ∀ chunk ∈ buffer.chunks, chunk.bytes ≤ cap
  stored : buffer.storedBytes ≤ limits.maxBytes + 1 + cap

variable {cap : ℕ}

section

variable (isTail : limits.retain = .tail)
include isTail

theorem accept_small {text : Text} (bounds : buffer.limits = limits) (open_ : buffer.full = false)
    (keeps : Keeps buffer.chunks buffer.storedBytes buffer.storedNewlines)
    (storedApart : ¬ SplitsPair (texts buffer.chunks) text) (small : Small limits cap buffer)
    (short : (encode text).length ≤ cap) :
    Small limits cap (buffer.accept text).1 := by
  by_cases more : text = []
  · rw [more, accept_nil]
    exact small
  · have countedBounds : (buffer.count text).limits = limits := bounds
    have pushedSmall :
        ∀ chunk ∈ buffer.chunks ++ [⟨text, utf8ByteLength text, countNewlines text⟩],
          chunk.bytes ≤ cap := by
      intro chunk member
      rcases List.mem_append.mp member with old | new
      · exact small.chunks chunk old
      · rw [List.mem_singleton.mp new]
        exact Nat.le_trans (Nat.le_of_eq (utf8ByteLength_eq text)) short
    obtain ⟨chunks, stored⟩ := dropLeading_small limits (keeps.push more storedApart) pushedSmall
    rw [accept_open open_ more, store_tail (by rw [countedBounds]; exact isTail), countedBounds]
    exact ⟨chunks, stored⟩

theorem accept_holds_small {text : Text} (holds : Holds limits buffer whole)
    (apart : ¬ SplitsPair whole text) (small : Small limits cap buffer)
    (short : (encode text).length ≤ cap) :
    Small limits cap (buffer.accept text).1 :=
  accept_small isTail holds.bounds holds.open_ holds.keeps
    (fun splits => apart (holds.shows.parts text splits)) small short

theorem skip_small {text : Text} (holds : Holds limits buffer whole)
    (apart : ¬ SplitsPair (whole ++ omitted) text) (small : Small limits cap buffer)
    (short : (encode text).length ≤ cap) :
    Small limits cap ((buffer.skip (measure omitted)).accept text).1 := by
  by_cases more : omitted = []
  · rw [more, append_nil] at apart
    rw [more, skip_nil]
    exact accept_holds_small isTail holds apart small short
  · have emptiedSmall : Small limits cap (emptied (buffer.count omitted)) :=
      ⟨fun _ member => absurd member not_mem_nil, Nat.zero_le _⟩
    rw [skip_of_ne_nil more]
    exact accept_small isTail holds.bounds holds.open_
      ⟨fun _ member => absurd member not_mem_nil, trivial, rfl, rfl⟩
      (Utf8.not_splitsPair_nil_left text) emptiedSmall short

theorem compact_small (bounds : buffer.limits = limits) (large : limits.maxBytes + 4 ≤ cap) :
    Small limits cap buffer.compact := by
  have short := length_encode_tailMargin buffer.stored limits
  rw [compact_tail (by rw [bounds]; exact isTail), bounds]
  constructor
  · intro chunk member
    simp only at member
    split at member
    · exact absurd member not_mem_nil
    · rw [List.mem_singleton.mp member]
      simp only
      rw [utf8ByteLength_eq]
      omega
  · simp only
    rw [utf8ByteLength_eq]
    omega

theorem snapshot_of_holds (holds : Holds limits buffer whole) :
    buffer.snapshot.1 =
      { text := sanitizeOutput (boundOutput whole limits).text
        droppedBytes := (boundOutput whole limits).droppedBytes
        droppedLines := (boundOutput whole limits).droppedLines } := by
  have bounds := holds.bounds
  have sameText := covers_text isTail holds.shows.covers
  have sameBytes := covers_tailBytes holds.shows.covers
  have totals := holds.totals
  have storedNewlines := holds.keeps.newlines
  have storedEq : buffer.stored = texts buffer.chunks := rfl
  rw [OutputBuffer.snapshot]
  simp only
  rw [bounds, storedEq, sameText, storedNewlines, ← lineCount_encode,
    totals.newlines, totals.ends, ← lineCount_encode, totals.bytes,
    boundOutput_tail isTail whole, boundOutput_tail isTail (texts _), sameBytes]
  simp only [BoundedOutput.mk.injEq, true_and]
  omega

end

end Accept

/-! ## What a producer does -/

namespace OutputOperation

/-- The contract of a skip: the text of its chunk is more than the window. -/
def Contract (limits : OutputLimits) : OutputOperation → Prop
  | .push chunk (some omitted) => omitted ≠ [] → Exceeds limits (encode chunk.text)
  | _ => True

/-- No string, pushed or omitted, starts within a surrogate pair. -/
def KeepsPairs (heard : Heard) : OutputOperation → Prop
  | .push (.string text) none => ¬ SplitsPair heard.flushed text
  | .push (.string text) (some omitted) =>
    ¬ SplitsPair heard.flushed omitted ∧ ¬ SplitsPair (heard.flushed ++ omitted) text
  | .push (.bytes _) (some omitted) => ¬ SplitsPair heard.flushed omitted
  | _ => True

instance (limits : OutputLimits) (operation : OutputOperation) :
    Decidable (operation.Contract limits) :=
  match operation with
  | .push _ (some _) => inferInstanceAs (Decidable (_ → _))
  | .push _ none | .finish | .snapshot => isTrue trivial

instance (heard : Heard) (operation : OutputOperation) :
    Decidable (operation.KeepsPairs heard) :=
  match operation with
  | .push (.string _) none => inferInstanceAs (Decidable (¬ _))
  | .push (.string _) (some _) => inferInstanceAs (Decidable (_ ∧ _))
  | .push (.bytes _) (some _) => inferInstanceAs (Decidable (¬ _))
  | .push (.bytes _) none | .finish | .snapshot => isTrue trivial

def size : OutputOperation → ℕ
  | .push (.string text) _ => utf8ByteLength text
  | .push (.bytes data) _ => data.length
  | _ => 0

end OutputOperation

def OutputBuffer.perform (buffer : OutputBuffer) : OutputOperation → OutputBuffer
  | .push chunk omitted => (buffer.push chunk (omitted.map measure)).1
  | .finish => buffer.finish
  | .snapshot => buffer.snapshot.2

structure Hears (limits : OutputLimits) (cap : ℕ) (heard : Heard)
    (buffer : OutputBuffer) : Prop where
  decoder : buffer.decoder = heard.decoder
  started : buffer.started = heard.started
  sound : Utf8.Sound heard.decoder
  holds : Holds limits buffer heard.text
  small : Small limits cap buffer

abbrev Heard.pending (heard : Heard) : Text :=
  Utf8.text (flush heard.decoder)

theorem pending_apart (heard : Heard) : ¬ SplitsPair heard.text heard.pending :=
  Utf8.not_splitsPair_text_right _ (Utf8.flush_isScalar heard.decoder)

theorem pending_apart_right (heard : Heard) (text : Text) : ¬ SplitsPair heard.pending text :=
  Utf8.not_splitsPair_text_left (Utf8.flush_isScalar heard.decoder) text

theorem length_encode_pending (heard : Heard) : (encode heard.pending).length ≤ 3 := by
  rw [Heard.pending]
  cases heard.decoder with
  | none => exact Nat.zero_le 3
  | some incomplete => exact Nat.le_refl 3

variable {heard : Heard}

theorem pending_append_apart {text : Text} (apart : ¬ SplitsPair heard.flushed text) :
    ¬ SplitsPair heard.text (heard.pending ++ text) := by
  by_cases none : heard.pending = []
  · rw [Heard.flushed, ← Heard.pending, none, append_nil] at apart
    rw [none, nil_append]
    exact apart
  · intro splits
    apply pending_apart heard
    unfold SplitsPair at splits ⊢
    rwa [List.head?_append_of_ne_nil _ none] at splits

variable {points : List ℕ}

theorem withoutMark_text (allScalar : ∀ point ∈ points, Utf8.IsScalar point) :
    ∃ others,
      OutputBuffer.withoutMark (Utf8.text points) = Utf8.text others ∧
        (∀ point ∈ others, Utf8.IsScalar point) ∧
        (Utf8.encodePoints others).length ≤ (Utf8.encodePoints points).length := by
  rw [OutputBuffer.withoutMark]
  split
  · rename_i isMark
    cases points with
    | nil => exact ⟨[], rfl, allScalar, Nat.le_refl _⟩
    | cons point rest =>
      refine ⟨rest, ?_, fun later member => allScalar later (mem_cons_of_mem point member), ?_⟩
      · rw [Utf8.text, flatMap_cons] at isMark ⊢
        rw [Utf8.unitsOf] at isMark ⊢
        split at isMark
        · rename_i single
          rw [if_pos single]
          rfl
        · rename_i pair
          have isScalar := allScalar point mem_cons_self
          rw [cons_append, List.head?_cons, Option.some.injEq, ← UInt16.toNat_inj,
            Utf8.toNat_toUInt16
              (by unfold Utf8.IsScalar at isScalar; omega)] at isMark
          have markNat : (0xfeff : UInt16).toNat = 0xfeff := rfl
          unfold Utf8.IsScalar at isScalar
          omega
      · rw [Utf8.length_encodePoints_cons]
        exact Nat.le_add_left _ _
  · exact ⟨points, rfl, allScalar, Nat.le_refl _⟩

theorem encode_text (allScalar : ∀ point ∈ points, Utf8.IsScalar point) :
    encode (Utf8.text points) = Utf8.encodePoints points := by
  rw [encode, Utf8.codePoints_text allScalar]

theorem listen_string (heard : Heard) (text : Text) :
    heard.listen (.push (.string text) none) =
      { decoder := none
        started := heard.started || !heard.pending.isEmpty || !text.isEmpty
        text := heard.text ++ (heard.pending ++ text) } := by
  cases text with
  | nil => simp [Heard.listen, OutputOperation.content, Heard.hear, Heard.flushed]
  | cons unit rest =>
    rw [Heard.listen, OutputOperation.content, OutputChunk.atoms, hear_units]
    · simp [Heard.flushed]
    · intro same
      cases same

theorem listen_skip_string (heard : Heard) (text omitted : Text) :
    heard.listen (.push (.string text) (some omitted)) =
      { decoder := none
        started := true
        text := heard.flushed ++ omitted ++ text } := by
  rw [Heard.listen, OutputOperation.content, OutputChunk.atoms, Runs.after_cons]
  cases text with
  | nil => simp [Heard.hear]
  | cons unit rest =>
    rw [hear_units]
    simp [Heard.hear, Heard.flushed, flush, Utf8.text]

theorem listen_bytes (heard : Heard) (data : List UInt8) :
    heard.listen (.push (.bytes data) none) = Runs.after Heard.hear heard (data.map Atom.byte) := by
  rw [Heard.listen, OutputOperation.content, OutputChunk.atoms]
  intro same
  cases same

theorem listen_skip_bytes (heard : Heard) (data : List UInt8) (omitted : Text) :
    heard.listen (.push (.bytes data) (some omitted)) =
      { decoder := (feedAll none (data.map UInt8.toNat)).1
        started := true
        text :=
          heard.flushed ++ omitted ++ Utf8.text (feedAll none (data.map UInt8.toNat)).2 } := by
  rw [Heard.listen, OutputOperation.content, OutputChunk.atoms, Runs.after_cons, hear_bytes]
  simp [Heard.hear]

/-! ## One operation -/

theorem store_reads (buffer : OutputBuffer) (text : Text) :
    (buffer.store text).decoder = buffer.decoder ∧
      (buffer.store text).started = buffer.started := by
  rw [OutputBuffer.store]
  cases buffer.limits.retain with
  | head | tail => exact ⟨rfl, rfl⟩

theorem accept_reads (buffer : OutputBuffer) (text : Text) :
    (buffer.accept text).1.decoder = buffer.decoder ∧
      (buffer.accept text).1.started = buffer.started := by
  rw [OutputBuffer.accept]
  split
  · exact ⟨rfl, rfl⟩
  · simp only
    split
    · exact ⟨rfl, rfl⟩
    · exact store_reads (buffer.count text) text

theorem skip_reads (buffer : OutputBuffer) (skipped : OutputSkip) :
    (buffer.skip skipped).decoder = buffer.decoder ∧
      (buffer.skip skipped).started = buffer.started := by
  rw [OutputBuffer.skip]
  split
  · exact ⟨rfl, rfl⟩
  · exact ⟨rfl, rfl⟩

section Steps

variable {limits : OutputLimits} {cap : ℕ} {heard : Heard} {buffer : OutputBuffer}

theorem hears_accept (isTail : limits.retain = .tail) (hears : Hears limits cap heard buffer)
    (decoder : Option Utf8.Partial) (sound : Utf8.Sound decoder)
    (started : Bool) {text : Text} (apart : ¬ SplitsPair heard.text text)
    (short : (encode text).length ≤ cap) :
    Hears limits cap { decoder := decoder, started := started, text := heard.text ++ text }
      (({ buffer with decoder := decoder, started := started } : OutputBuffer).accept text).1 := by
  have holds := hears.holds
  have readHolds :
      Holds limits { buffer with decoder := decoder, started := started }
        heard.text :=
    { bounds := holds.bounds
      open_ := holds.open_
      totals := ⟨holds.totals.bytes, holds.totals.newlines, holds.totals.ends⟩
      keeps := holds.keeps
      shows := holds.shows }
  have readSmall : Small limits cap { buffer with decoder := decoder, started := started } :=
    ⟨hears.small.chunks, hears.small.stored⟩
  exact
    { decoder := (accept_reads _ text).1
      started := (accept_reads _ text).2
      sound := sound
      holds := accept_holds isTail readHolds apart
      small := accept_holds_small isTail readHolds apart readSmall short }

variable {omitted : Text}

theorem hears_skip (isTail : limits.retain = .tail) (hears : Hears limits cap heard buffer)
    {text : Text} (omittedApart : ¬ SplitsPair heard.text omitted)
    (apart : ¬ SplitsPair (heard.text ++ omitted) text)
    (exceeds : omitted ≠ [] → Exceeds limits (encode text)) (short : (encode text).length ≤ cap) :
    Hears limits cap { heard with text := heard.text ++ omitted ++ text }
      ((buffer.skip (measure omitted)).accept text).1 :=
  { decoder := by
      rw [(accept_reads _ text).1, (skip_reads _ _).1]
      exact hears.decoder
    started := by
      rw [(accept_reads _ text).2, (skip_reads _ _).2]
      exact hears.started
    sound := hears.sound
    holds := skip_holds isTail hears.holds omittedApart apart exceeds
    small := skip_small isTail hears.holds apart hears.small short }

theorem length_decoded {decoder : Option Utf8.Partial} (sound : Utf8.Sound decoder)
    (data : List UInt8) :
    (encode (Utf8.text (feedAll decoder (data.map UInt8.toNat)).2)).length ≤
      3 * data.length + 3 := by
  have weight := Utf8.feedAll_weight decoder (data.map UInt8.toNat)
  have light : Utf8.weight decoder ≤ 3 := by
    cases decoder with
    | none => exact Nat.zero_le 3
    | some incomplete => exact Nat.le_refl 3
  rw [List.length_map] at weight
  rw [encode_text (Utf8.feedAll_endsWell sound _).2]
  omega

theorem hears_push_string (isTail : limits.retain = .tail) (hears : Hears limits cap heard buffer)
    {text : Text} (apart : ¬ SplitsPair heard.flushed text)
    (short : 3 * utf8ByteLength text + 3 ≤ cap) :
    Hears limits cap (heard.listen (.push (.string text) none))
      (buffer.push (.string text) none).1 := by
  have accepted :=
    @hears_accept limits cap heard buffer isTail hears none Utf8.sound_none
      (heard.started || !heard.pending.isEmpty || !text.isEmpty)
      (heard.pending ++ text) (pending_append_apart apart) (by
        rw [Utf8.encode_append (pending_apart_right heard text), length_append]
        have pendingShort := length_encode_pending heard
        rw [utf8ByteLength_eq] at short
        omega)
  rw [listen_string, OutputBuffer.push]
  simp only [OutputBuffer.read, hears.decoder, hears.started, Option.isSome_none, Bool.or_false]
  exact accepted

variable {data : List UInt8}

theorem hears_push_bytes (isTail : limits.retain = .tail) (hears : Hears limits cap heard buffer)
    (short : 3 * data.length + 3 ≤ cap) :
    Hears limits cap (heard.listen (.push (.bytes data) none))
      (buffer.push (.bytes data) none).1 := by
  have endsWell := Utf8.feedAll_endsWell hears.sound (data.map UInt8.toNat)
  have decodedShort := length_decoded hears.sound data
  obtain ⟨others, opened, othersScalar, fewer⟩ :
      ∃ others,
        (if heard.started then
          Utf8.text (feedAll heard.decoder (data.map UInt8.toNat)).2
        else
          OutputBuffer.withoutMark
            (Utf8.text (feedAll heard.decoder (data.map UInt8.toNat)).2)) =
          Utf8.text others ∧
        (∀ point ∈ others, Utf8.IsScalar point) ∧
        (Utf8.encodePoints others).length ≤
          (Utf8.encodePoints (feedAll heard.decoder (data.map UInt8.toNat)).2).length := by
    split
    · exact ⟨_, rfl, endsWell.2, Nat.le_refl _⟩
    · exact withoutMark_text endsWell.2
  have accepted :=
    @hears_accept limits cap heard buffer isTail hears
      (feedAll heard.decoder (data.map UInt8.toNat)).1 endsWell.1
      (heard.started ||
        !(Utf8.text (feedAll heard.decoder (data.map UInt8.toNat)).2).isEmpty)
      (Utf8.text others)
      (Utf8.not_splitsPair_text_right _ othersScalar) (by
        rw [encode_text endsWell.2] at decodedShort
        rw [encode_text othersScalar]
        omega)
  rw [listen_bytes, hear_bytes, opened, OutputBuffer.push]
  simp only [OutputBuffer.read, hears.decoder, hears.started,
    Option.isSome_none, Option.isNone_none, Bool.or_false,
    Bool.false_eq_true, if_false, List.isEmpty_nil, Bool.not_true,
    Bool.and_true, nil_append]
  have sameOpening :
      (if (!heard.started) = true then
        OutputBuffer.withoutMark
          (Utf8.text (feedAll heard.decoder (data.map UInt8.toNat)).2)
      else Utf8.text (feedAll heard.decoder (data.map UInt8.toNat)).2) =
        Utf8.text others := by
    rw [← opened]
    cases heard.started with
    | true | false => rfl
  rw [sameOpening]
  exact accepted

theorem hears_push_skip_string
    (isTail : limits.retain = .tail) (hears : Hears limits cap heard buffer)
    {text : Text} (omittedApart : ¬ SplitsPair heard.flushed omitted)
    (apart : ¬ SplitsPair (heard.flushed ++ omitted) text)
    (exceeds : omitted ≠ [] → Exceeds limits (encode text))
    (short : 3 * utf8ByteLength text + 3 ≤ cap) :
    Hears limits cap (heard.listen (.push (.string text) (some omitted)))
      (buffer.push (.string text) (some (measure omitted))).1 := by
  have ended :=
    @hears_accept limits cap heard buffer isTail hears none Utf8.sound_none
      true heard.pending (pending_apart heard) (by
        have pendingShort := length_encode_pending heard
        omega)
  have accepted :=
    hears_skip isTail ended omittedApart apart exceeds (by
      rw [utf8ByteLength_eq] at short
      omega)
  have bufferIsTail : buffer.limits.retain = .tail := by
    rw [hears.holds.bounds]
    exact isTail
  rw [listen_skip_string, OutputBuffer.push]
  simp only [OutputBuffer.read, hears.decoder, bufferIsTail,
    Option.isSome_some, Bool.or_true, if_true]
  exact accepted

theorem hears_push_skip_bytes
    (isTail : limits.retain = .tail) (hears : Hears limits cap heard buffer)
    (omittedApart : ¬ SplitsPair heard.flushed omitted)
    (exceeds :
      omitted ≠ [] → Exceeds limits (encode (Utf8.text (feedAll none (data.map UInt8.toNat)).2)))
    (short : 3 * data.length + 3 ≤ cap) :
    Hears limits cap (heard.listen (.push (.bytes data) (some omitted)))
      (buffer.push (.bytes data) (some (measure omitted))).1 := by
  have endsWell := Utf8.feedAll_endsWell Utf8.sound_none (data.map UInt8.toNat)
  have decodedShort := length_decoded Utf8.sound_none data
  have ended :=
    @hears_accept limits cap heard buffer isTail hears
      (feedAll none (data.map UInt8.toNat)).1 endsWell.1
      true heard.pending (pending_apart heard) (by
        have pendingShort := length_encode_pending heard
        omega)
  have accepted :=
    hears_skip isTail ended omittedApart
      (Utf8.not_splitsPair_text_right _ endsWell.2) exceeds (by omega)
  have bufferIsTail : buffer.limits.retain = .tail := by
    rw [hears.holds.bounds]
    exact isTail
  rw [listen_skip_bytes, OutputBuffer.push]
  simp only [OutputBuffer.read, hears.decoder, bufferIsTail,
    Option.isSome_some, Option.isNone_some, Bool.or_true, Bool.and_false,
    Bool.false_eq_true, if_true, if_false]
  exact accepted

theorem hears_finish (isTail : limits.retain = .tail) (hears : Hears limits cap heard buffer)
    (large : limits.maxBytes + 4 ≤ cap) :
    Hears limits cap (heard.listen .finish) buffer.finish := by
  have ended :=
    @hears_accept limits cap heard buffer isTail hears none Utf8.sound_none
      heard.started heard.pending (pending_apart heard) (by
        have pendingShort := length_encode_pending heard
        omega)
  rw [OutputBuffer.finish, hears.decoder]
  have sameStarted :
      ({ buffer with decoder := none } : OutputBuffer) =
        { buffer with decoder := none, started := heard.started } := by
    rw [← hears.started]
  rw [sameStarted]
  exact ended

theorem hears_snapshot (isTail : limits.retain = .tail) (hears : Hears limits cap heard buffer)
    (large : limits.maxBytes + 4 ≤ cap) :
    Hears limits cap (heard.listen .snapshot) buffer.snapshot.2 := by
  have bounds := hears.holds.bounds
  have compacted :
      buffer.compact.decoder = buffer.decoder ∧ buffer.compact.started = buffer.started := by
    rw [compact_tail (by rw [bounds]; exact isTail)]
    exact ⟨rfl, rfl⟩
  exact
    { decoder := compacted.1.trans hears.decoder
      started := compacted.2.trans hears.started
      sound := hears.sound
      holds := compact_holds isTail hears.holds
      small := compact_small isTail bounds large }

end Steps

/-- What chunks of at most `longest` bytes are stored as: a byte decodes to
three at most, and an incomplete character and a margin add a few. -/
def chunkCap (limits : OutputLimits) (longest : ℕ) : ℕ :=
  max (3 * longest + 3) (limits.maxBytes + 4)

variable {limits : OutputLimits} {longest : ℕ}

theorem hears_perform {operation : OutputOperation} (isTail : limits.retain = .tail)
    (hears : Hears limits (chunkCap limits longest) heard buffer)
    (keepsPairs : operation.KeepsPairs heard)
    (contract : operation.Contract limits) (short : operation.size ≤ longest) :
    Hears limits (chunkCap limits longest) (heard.listen operation) (buffer.perform operation) := by
  have large : limits.maxBytes + 4 ≤ chunkCap limits longest := Nat.le_max_right _ _
  have chunkLarge : 3 * longest + 3 ≤ chunkCap limits longest := Nat.le_max_left _ _
  cases operation with
  | finish => exact hears_finish isTail hears large
  | snapshot => exact hears_snapshot isTail hears large
  | push chunk omitted =>
    cases chunk with
    | string text =>
      have sized : utf8ByteLength text ≤ longest := short
      cases omitted with
      | none => exact hears_push_string isTail hears keepsPairs (by omega)
      | some omitted =>
        exact hears_push_skip_string isTail hears keepsPairs.1 keepsPairs.2 contract (by omega)
    | bytes data =>
      have sized : data.length ≤ longest := short
      cases omitted with
      | none => exact hears_push_bytes isTail hears (by omega)
      | some omitted => exact hears_push_skip_bytes isTail hears keepsPairs contract (by omega)

/-! ## Whole runs -/

def wholeOutput (limits : OutputLimits) (whole : Text) : BoundedOutput :=
  { text := sanitizeOutput (boundOutput whole limits).text
    droppedBytes := (boundOutput whole limits).droppedBytes
    droppedLines := (boundOutput whole limits).droppedLines }

/-- What a producer of chunks of at most `longest` bytes does: it keeps the
contract of skips, and no string starts within a surrogate pair. -/
structure Produces (limits : OutputLimits) (longest : ℕ)
    (operations : List OutputOperation) : Prop where
  contract : ∀ operation ∈ operations, operation.Contract limits
  sizes : ∀ operation ∈ operations, operation.size ≤ longest
  keepsPairs :
    Runs.AllAllowed Heard.listen (fun heard operation => operation.KeepsPairs heard)
      Heard.silent operations

def OutputBuffer.run (limits : OutputLimits) (operations : List OutputOperation) :
    OutputBuffer :=
  Runs.after OutputBuffer.perform (OutputBuffer.new limits) operations

theorem hears_new (limits : OutputLimits) (cap : ℕ) :
    Hears limits cap Heard.silent (OutputBuffer.new limits) :=
  { decoder := rfl
    started := rfl
    sound := Utf8.sound_none
    holds :=
      { bounds := rfl
        open_ := rfl
        totals := ⟨rfl, rfl, rfl⟩
        keeps :=
          ⟨fun _ member => absurd member not_mem_nil, trivial, rfl, rfl⟩
        shows := Shows.refl [] }
    small := ⟨fun _ member => absurd member not_mem_nil, Nat.zero_le _⟩ }

variable {operations : List OutputOperation}

theorem hears_run (isTail : limits.retain = .tail) (produces : Produces limits longest operations) :
    Hears limits (chunkCap limits longest) (Runs.after Heard.listen Heard.silent operations)
      (OutputBuffer.run limits operations) := by
  have allAllowed :=
    Runs.allAllowed_and Heard.listen produces.keepsPairs
      fun operation member =>
        And.intro (produces.contract operation member) (produces.sizes operation member)
  refine
    Runs.after_related Heard.listen OutputBuffer.perform ?_
      (hears_new limits (chunkCap limits longest)) allAllowed
  rintro heard buffer operation ⟨keepsPairs, contract, short⟩ hears
  exact hears_perform isTail hears keepsPairs contract short

theorem snapshot_run (isTail : limits.retain = .tail)
    (produces : Produces limits longest operations) :
    (OutputBuffer.run limits operations).snapshot.1 =
      wholeOutput limits (streamText operations) := by
  rw [streamText_eq]
  exact snapshot_of_holds isTail (hears_run isTail produces).holds

/-- `output` shows the end of `whole` within the limits and counts the bytes
and lines that it leaves out. -/
def ShowsEnd (limits : OutputLimits) (whole : Text) (output : BoundedOutput) : Prop :=
  ∃ omitted shown,
    encode whole = omitted ++ shown ∧
      shown.length ≤ limits.maxBytes ∧ lineCount shown ≤ limits.maxLines ∧
      output.text = sanitizeOutput (if omitted = [] then whole else Utf8.decode shown) ∧
      output.droppedBytes = omitted.length ∧
      output.droppedLines = (lineCount (encode whole) : ℤ) - lineCount shown

theorem wholeOutput_showsEnd (isTail : limits.retain = .tail) (whole : Text) :
    ShowsEnd limits whole (wholeOutput limits whole) := by
  have kept := tailBytes_eq_drop (encode whole) limits
  have split := List.take_append_drop (tailRange (encode whole) limits).1 (encode whole)
  rw [← kept] at split
  have lengths := congrArg List.length split
  rw [length_append] at lengths
  refine ⟨_, _, split.symm, length_tailBytes_le_maxBytes _ _,
    lineCount_tailBytes_le_maxLines _ _, ?_, ?_, ?_⟩
  · rw [wholeOutput, boundOutput_tail isTail]
    simp only
    by_cases all : (tailBytes (encode whole) limits).length = (encode whole).length
    · rw [if_pos all, if_pos (List.length_eq_zero_iff.mp (by omega))]
    · rw [if_neg all, if_neg]
      intro none
      rw [none] at lengths
      rw [List.length_nil] at lengths
      omega
  · rw [wholeOutput, boundOutput_tail isTail]
    simp only
    omega
  · rw [wholeOutput, boundOutput_tail isTail]

/-- In every run in which no string starts within a surrogate pair, a snapshot
is the sanitized bounded tail of the whole stream, whatever its cut, and the
stored bytes are at most a window and a chunk. -/
theorem output_exact {limits : OutputLimits} {longest : ℕ} {operations : List OutputOperation}
    (isTail : limits.retain = .tail) (produces : Produces limits longest operations) :
    (OutputBuffer.run limits operations).snapshot.1 = wholeOutput limits (streamText operations) ∧
      ShowsEnd limits (streamText operations) (OutputBuffer.run limits operations).snapshot.1 ∧
      (OutputBuffer.run limits operations).storedBytes ≤
        limits.maxBytes + 1 + chunkCap limits longest ∧
      ∀ {otherLongest : ℕ} {others : List OutputOperation}, Produces limits otherLongest others →
        others.flatMap OutputOperation.content = operations.flatMap OutputOperation.content →
        (OutputBuffer.run limits others).snapshot.1 =
          (OutputBuffer.run limits operations).snapshot.1 := by
  have shown := snapshot_run isTail produces
  refine ⟨shown, ?_, (hears_run isTail produces).small.stored, ?_⟩
  · rw [shown]
    exact wholeOutput_showsEnd isTail (streamText operations)
  · intro otherLongest others otherProduces sameContent
    have sameText : streamText others = streamText operations := by
      rw [streamText, streamText, sameContent]
    rw [shown, snapshot_run isTail otherProduces, sameText]

/-- A euro sign in two byte chunks, a snapshot between, then a string after a
skip. -/
def euroRun : List OutputOperation :=
  [.push (.bytes [0xe2, 0x82]) none, .snapshot, .push (.bytes [0xac]) none,
    .push (.string (units "one\ntwo\n")) (some (units "x\n")), .snapshot]

theorem output_exact_euroRun :
    (OutputBuffer.run ⟨6, 3, .tail⟩ euroRun).snapshot.1 =
      wholeOutput ⟨6, 3, .tail⟩ (streamText euroRun) :=
  (@output_exact ⟨6, 3, .tail⟩ 8 euroRun rfl
    ⟨by decide +kernel, by decide +kernel, by decide +kernel⟩).1

/-- A surrogate pair cut between two strings counts six bytes and shows four:
two bytes are reported dropped though everything is shown, unlike in one
chunk. -/
theorem output_drifts_within_pair :
    let limits : OutputLimits := ⟨100, 10, .tail⟩
    let parted : List OutputOperation :=
      [.push (.string [0xd83d]) none, .push (.string [0xde42]) none]
    let joined : List OutputOperation := [.push (.string [0xd83d, 0xde42]) none]
    parted.flatMap OutputOperation.content = joined.flatMap OutputOperation.content ∧
      (OutputBuffer.run limits parted).snapshot.1 =
        { text := [0xd83d, 0xde42], droppedBytes := 2, droppedLines := 0 } ∧
      wholeOutput limits (streamText parted) =
        { text := [0xd83d, 0xde42], droppedBytes := 0, droppedLines := 0 } ∧
      (OutputBuffer.run limits joined).snapshot.1 = wholeOutput limits (streamText parted) := by
  decide +kernel

end PiEmbodied.Chord
