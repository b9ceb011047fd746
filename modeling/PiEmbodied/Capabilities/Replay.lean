import PiEmbodied.Entries
import PiEmbodied.Capabilities.Operator

/-!
# Replay of a recorded session

The calls read from a recorded session, and the provider that sends them again
turn by turn while its hooks watch how their results differ from the recorded
ones.
-/

namespace PiEmbodied.Replay

open Operator (isSpace trim)
open List (append_nil flatMap_cons length_cons map_cons map_flatMap map_nil mem_cons_of_mem
  mem_cons_self of_mem_zip zip_cons_cons)

/-! ## Patterns -/

inductive Piece where
  | literal (text : String)
  /-- `\S+` -/
  | nonSpaces
  /-- `\w+` -/
  | wordChars
  /-- `[\s\S]*` -/
  | anything
  deriving DecidableEq

/-- A pattern from the start of the text, `whole` if it ends where the text
ends. -/
structure Pattern where
  pieces : List Piece
  whole : Bool
  deriving DecidableEq

def isWordChar (c : Char) : Bool :=
  c.isAlphanum || c = '_'

def matchPieces (whole : Bool) : List Piece → List Char → Bool
  | [], rest => !whole || rest.isEmpty
  | .literal text :: pieces, chars =>
    text.toList.isPrefixOf chars && matchPieces whole pieces (chars.drop text.toList.length)
  | .nonSpaces :: pieces, chars =>
    (List.range (chars.takeWhile fun c => !isSpace c).length).any fun more =>
      matchPieces whole pieces (chars.drop (more + 1))
  | .wordChars :: pieces, chars =>
    (List.range (chars.takeWhile isWordChar).length).any fun more =>
      matchPieces whole pieces (chars.drop (more + 1))
  | .anything :: pieces, chars =>
    (List.range (chars.length + 1)).any fun skipped =>
      matchPieces whole pieces (chars.drop skipped)

def Pattern.test (pattern : Pattern) (text : List Char) : Bool :=
  matchPieces pattern.whole pattern.pieces text

def SKIP : List String := ["write", "edit", "bash"]

def NOT_RUN : List Pattern :=
  [⟨[.literal "Tool execution was blocked"], true⟩, ⟨[.literal "Operation aborted"], true⟩,
    ⟨[.literal "Tool ", .nonSpaces, .literal " not found"], true⟩,
    ⟨[.literal "Tool call \"", .nonSpaces,
        .literal
          "\" was not executed: the response hit the output token limit"],
      false⟩,
    ⟨[.nonSpaces, .literal " is not available."], true⟩,
    ⟨[.literal "The robot failed: ", .anything, .literal "The episode is over."], true⟩,
    ⟨[.literal "The episode is finished."], true⟩,
    ⟨[.literal "Planner ", .wordChars, .literal " budget exhausted; the episode is over."], true⟩,
    ⟨[.literal "operator submitted a terminal verdict"], false⟩,
    ⟨[.literal "operator aborted this run"], false⟩,
    ⟨[.literal "refused; request_scene_reset"], false⟩,
    ⟨[.literal "finish refused"], false⟩,
    ⟨[.anything,
        .literal
          "was not executed; decide again from the current observation."],
      true⟩,
    ⟨[.literal "file access is disabled"], false⟩,
    ⟨[.literal "file access denied"], false⟩]

def notRun (error : String) : Bool :=
  NOT_RUN.any fun pattern => pattern.test (trim error.toList)

variable {ι : Type}

/-- A call in a reply.  Whether its body started is what happened in the
recorded run: nothing below reads it. -/
structure ToolCall (ι : Type) where
  (id name : String)
  arguments : ι
  ran : Bool
  deriving DecidableEq

inductive Part (ι : Type) where
  | text (text : String)
  | thinking (thinking : String)
  | toolCall (call : ToolCall ι)
  | other
  deriving DecidableEq

inductive StopReason where
  | pending
  | stop
  | length
  | toolUse
  | error
  | aborted
  | deferred
  deriving DecidableEq

def StopReason.text : StopReason → String
  | .pending => "pending"
  | .stop => "stop"
  | .length => "length"
  | .toolUse => "toolUse"
  | .error => "error"
  | .aborted => "aborted"
  | .deferred => "deferred"

/-- A tool result, with the text of each block that has one. -/
structure ToolResult where
  toolCallId : String
  content : List (Option String)
  isError : Bool
  deriving DecidableEq

inductive Message (ι : Type) where
  | assistant (stopReason : StopReason) (content : List (Part ι))
  | toolResult (result : ToolResult)
  | other
  deriving DecidableEq

structure Entry (ι : Type) where
  id : String
  parentId : Option String
  /-- None for an entry of another type. -/
  message : Option (Message ι)
  deriving DecidableEq

inductive Line (ι : Type) where
  | blank
  /-- No JSON, such as a line cut off by a crash, with the parser's error. -/
  | broken (error : String)
  /-- An object without an id. -/
  | unnamed
  | entry (entry : Entry ι)
  deriving DecidableEq

/-! ## Loading -/

structure Call (ι : Type) where
  name : String
  arguments : ι
  error : Option String
  ran : Bool
  deriving DecidableEq

structure Blocked where
  (name reason : String)
  deriving DecidableEq

structure Turn (ι : Type) where
  (text thinking : String)
  calls : List (Call ι)
  blocked : List Blocked
  deriving DecidableEq

structure Recording (ι : Type) where
  path : String
  turns : List (Turn ι)
  finished : Bool
  deriving DecidableEq

def resultText (result : ToolResult) : String :=
  " ".intercalate (result.content.filterMap fun text => text.filter fun text => text ≠ "")

def collapse : Bool → List Char → List Char
  | _, [] => []
  | inSpace, c :: rest =>
    if isSpace c then
      if inSpace then collapse true rest else ' ' :: collapse true rest
    else c :: collapse false rest

def brief (text : String) : String :=
  String.ofList ((collapse false text.toList).take 300)

def Line.entries : Line ι → List (Entry ι)
  | .entry recorded => [recorded]
  | _ => []

def Line.error : Line ι → Option String
  | .broken error => some error
  | _ => none

/-- From an entry back to the first one, oldest first.  Parents are earlier
entries, so the walk is no longer than the file. -/
def branchTo (byId : List (String × Entry ι)) : ℕ → Option (Entry ι) → List (Entry ι)
  | 0, _ | _ + 1, none => []
  | steps + 1, some entry =>
    branchTo byId steps (entry.parentId.bind fun id => Entries.get byId id) ++ [entry]

def branch (lines : List (Line ι)) : List (Entry ι) :=
  let entries := lines.flatMap Line.entries
  let byId := entries.foldl (fun byId entry => Entries.set byId entry.id entry) []
  branchTo byId entries.length entries.getLast?

def resultsOf (results : List ToolResult) : List (String × ToolResult) :=
  results.foldl
    (fun results result => Entries.set results result.toolCallId result) []

def Entry.result (entry : Entry ι) : Option ToolResult :=
  match entry.message with
  | some (.toolResult result) => some result
  | _ => none

def abnormalReason (stopReason : StopReason) : String :=
  "the reply ended with stopReason \"" ++ stopReason.text ++ "\"" ++
    (if stopReason = .length then ", so its arguments may be truncated" else "")

def endedNormally (stopReason : StopReason) : Bool :=
  stopReason = .toolUse || stopReason = .stop

/-- A recorded call: sent again, or blocked in the recording. -/
def readCall (results : List (String × ToolResult)) (stopReason : StopReason)
    (call : ToolCall ι) : Call ι ⊕ Blocked :=
  let error := ((Entries.get results call.id).filter ToolResult.isError).map resultText
  if !endedNormally stopReason then
    .inr ⟨call.name, abnormalReason stopReason⟩
  else
    match error with
    | none => .inl ⟨call.name, call.arguments, none, call.ran⟩
    | some error =>
      if notRun error then .inr ⟨call.name, brief error⟩
      else .inl ⟨call.name, call.arguments, some error, call.ran⟩

def partCall : Part ι → Option (ToolCall ι)
  | .toolCall call => some call
  | _ => none

def readTurn (results : List (String × ToolResult)) (stopReason : StopReason)
    (content : List (Part ι)) : Option (Turn ι) :=
  let read := (content.filterMap partCall).map (readCall results stopReason)
  let calls := read.filterMap Sum.getLeft?
  let blocked := read.filterMap Sum.getRight?
  if calls.isEmpty && blocked.isEmpty then none
  else
    some
      { text :=
          "\n".intercalate
            (content.filterMap fun part =>
              match part with
              | .text text => some text
              | _ => none)
        thinking :=
          "\n".intercalate
            (content.filterMap fun part =>
              match part with
              | .thinking thinking => some thinking
              | _ => none)
        calls := calls
        blocked := blocked }

def Entry.turn (results : List (String × ToolResult)) (entry : Entry ι) : Option (Turn ι) :=
  match entry.message with
  | some (.assistant stopReason content) => readTurn results stopReason content
  | _ => none

def loadRecording (path : String) (lines : List (Line ι)) : Except String (Recording ι) :=
  match (lines.filterMap Line.error).head? with
  | some error => .error error
  | none =>
    let branch := branch lines
    let results := resultsOf (branch.filterMap Entry.result)
    let turns := branch.filterMap (Entry.turn results)
    .ok
      { path := path
        turns := turns
        finished := turns.any fun turn => turn.calls.any fun call => call.name = "finish" }

/-! ## The provider -/

structure Emitted where
  (id name : String)
  /-- The recorded error. -/
  recorded : Option String
  deriving DecidableEq

structure State where
  cursor : ℕ := 0
  started : Bool := false
  «over» : Bool := false
  emitted : List Emitted := []
  /-- Why the replay stopped inside the current batch. -/
  halt : Option String := none
  ids : ℕ := 0
  deriving DecidableEq

/-- How the result of an emitted call diverged from the recorded one. -/
def divergence (emitted : Emitted) (isError : Bool) (text : String) :
    Option String :=
  match isError, emitted.recorded with
  | true, none =>
    some
      (emitted.name ++ " failed: " ++ brief text ++ "; it succeeded in the recording")
  | false, some recorded =>
    some
      (emitted.name ++ " succeeded; it failed in the recording (" ++ brief recorded ++ ")")
  | _, _ => none

def toolResult (state : State) (id : String) (isError : Bool) (text : String) :
    State :=
  match state.emitted.find? fun emitted => emitted.id = id with
  | none => state
  | some emitted =>
    if state.halt.isSome then state
    else { state with halt := divergence emitted isError text }

def toolCall (state : State) (id : String) : Option String :=
  match state.halt with
  | none => none
  | some halt =>
    if state.emitted.any fun emitted => emitted.id = id then
      some
        ("replay stopped (" ++ halt ++ "); this recorded call was not sent")
    else none

/-- Errors among the last calls' results, and whether an outcome diverged. -/
def failuresFrom (results : List (String × ToolResult)) : Bool → List Emitted → List String × Bool
  | stop, [] => ([], stop)
  | true, emitted :: rest =>
    let later := failuresFrom results true rest
    ((emitted.name ++ " not sent") :: later.1, later.2)
  | false, emitted :: rest =>
    match Entries.get results emitted.id with
    | none =>
      let later := failuresFrom results false rest
      ((emitted.name ++ ": no result; continuing") :: later.1, later.2)
    | some result =>
      match divergence emitted result.isError (resultText result) with
      | some diverged =>
        let later := failuresFrom results true rest
        (diverged :: later.1, later.2)
      | none =>
        let later := failuresFrom results false rest
        if result.isError then
          ((emitted.name ++ " failed, as in the recording: " ++
            brief (resultText result) ++ "; continuing") :: later.1,
            later.2)
        else later

def failures (emitted : List Emitted) (messages : List ToolResult) : List String × Bool :=
  failuresFrom (resultsOf messages) false emitted

structure Reply (ι : Type) where
  notes : List String
  (text thinking : String)
  calls : List (ToolCall ι)
  deriving DecidableEq

def Turn.sendable (turn : Turn ι) : List (Call ι) :=
  turn.calls.filter fun call => call.name ∉ SKIP

def Turn.skipNotes (turn : Turn ι) : List String :=
  (turn.blocked.map fun blocked =>
      "skipped " ++ blocked.name ++ " (it never ran in the recording: " ++ blocked.reason ++ ")") ++
    (turn.calls.filter fun call => call.name ∈ SKIP).map fun call =>
      "skipped " ++ call.name ++ " (it would rewrite the recorded run's files)"

/-- The next turn with calls to send: the turns passed with it, their notes. -/
def advance : List (Turn ι) → ℕ → List String →
    ℕ × List String × Option (Turn ι)
  | [], cursor, notes => (cursor, notes, none)
  | turn :: rest, cursor, notes =>
    if turn.sendable.isEmpty then
      advance rest (cursor + 1) (notes ++ turn.skipNotes)
    else (cursor + 1, notes ++ turn.skipNotes, some turn)

def callId (number : ℕ) : String := "replay_" ++ toString number

def numbered (ids : ℕ) (calls : List (Call ι)) : List (ToolCall ι) :=
  calls.mapIdx fun index call =>
    { id := callId (ids + index + 1)
      name := call.name
      arguments := call.arguments
      ran := call.ran }

def emittedOf (ids : ℕ) (calls : List (Call ι)) : List Emitted :=
  calls.mapIdx fun index call =>
    { id := callId (ids + index + 1)
      name := call.name
      recorded := call.error }

def noteLines (notes : List String) : List String :=
  notes.map fun note => "replay: " ++ note

def endReply (notes : List String) (text : String) : Reply ι :=
  { notes := notes
    text := "\n".intercalate (noteLines notes ++ [text])
    thinking := ""
    calls := [] }

/-- What the session start loads: none without the flag, or why the recording
cannot be read. -/
abbrev Loaded (ι : Type) := Option (Except String (Recording ι))

def sessionStart (path : String) (lines : List (Line ι)) : Loaded ι :=
  match loadRecording path lines with
  | .ok recording => some (.ok recording)
  | .error error =>
    some (.error ("cannot read --replay " ++ path ++ ": " ++ error))

def loadError (loaded : Loaded ι) : String :=
  match loaded with
  | some (.error message) => message
  | _ => "no --replay session given; nothing to replay."

def stopText (cursor turns : ℕ) : String :=
  "Replay stopped: a call's outcome diverged from the recording's; no further recorded motion is sent (" ++
    toString cursor ++ " of " ++ toString turns ++ " turns replayed)."

def completeText (finished : Bool) : String :=
  if finished then "Replay complete: all recorded turns were replayed."
  else
    "Replay complete: the recording has no finish; the episode is reported at shutdown."

def nextTurn (recording : Recording ι) (state : State) (notes : List String) : State × Reply ι :=
  match advance (recording.turns.drop state.cursor) state.cursor notes with
  | (cursor, notes, none) =>
    ({ state with cursor := cursor, «over» := true },
      endReply notes (completeText recording.finished))
  | (cursor, notes, some turn) =>
    ({ state with
        cursor := cursor
        emitted := emittedOf state.ids turn.sendable
        ids := state.ids + turn.sendable.length },
      { notes := notes
        text := "\n".intercalate ((noteLines notes ++ [turn.text]).filter fun text => text ≠ "")
        thinking := turn.thinking
        calls := numbered state.ids turn.sendable })

def next (loaded : Loaded ι) (state : State) (messages : List ToolResult) : State × Reply ι :=
  let failed : List String × Bool :=
    if state.started then failures state.emitted messages else ([], false)
  let fresh := { state with emitted := [], halt := none }
  if state.over then
    (fresh, endReply failed.1 "The replay already ran in this session.")
  else
    match loaded with
    | some (.ok recording) =>
      let notes :=
        if state.started then failed.1
        else
          failed.1 ++ [toString recording.turns.length ++ " recorded turns from " ++ recording.path]
      let begun := { fresh with started := true }
      if failed.2 then
        ({ begun with «over» := true }, endReply notes
          (stopText state.cursor recording.turns.length))
      else nextTurn recording begun notes
    | loaded =>
      ({ fresh with started := true, «over» := true }, endReply failed.1 (loadError loaded))

def streamSimple (loaded : Loaded ι) (state : State)
    (messages : List ToolResult) (aborted : Bool) : State × Reply ι :=
  if aborted then
    ({ state with «over» := state.over || state.started }, ⟨[], "", "", []⟩)
  else next loaded state messages

def agentEnd (state : State) : State :=
  { state with «over» := state.over || state.started }

/-! ## Runs -/

/-- What becomes of an emitted call in this run, if the replay lets it go: it is
refused before its body starts (an unknown tool, arguments that do not fit,
another hook, an abort), or its body runs. -/
inductive Behaviour where
  | refused (text : String)
  | runs (isError : Bool) (text : String)
  deriving DecidableEq

/-- How the agent loop runs the calls of a reply.  The calls past the last
behaviour are not reached. -/
structure Batch where
  sequential : Bool
  behaviours : List Behaviour
  deriving DecidableEq

structure Outcome where
  /-- Whether the body started. -/
  executed : Bool
  result : Option (Bool × String)
  deriving DecidableEq

def Outcome.unreached : Outcome := ⟨false, none⟩

def Outcome.refused (text : String) : Outcome := ⟨false, some (true, text)⟩

def Outcome.ran (isError : Bool) (text : String) : Outcome :=
  ⟨true, some (isError, text)⟩

/-- One call after another: each result is seen before the next call. -/
def runSequential : State → List String → List Behaviour → List Outcome
  | _, [], _ => []
  | _, ids, [] => ids.map fun _ => .unreached
  | state, _ :: ids, .refused text :: rest => .refused text :: runSequential state ids rest
  | state, id :: ids, .runs isError text :: rest =>
    match toolCall state id with
    | some reason => .refused reason :: runSequential state ids rest
    | none => .ran isError text :: runSequential (toolResult state id isError text) ids rest

def runParallel (state : State) : List String → List Behaviour → List Outcome
  | [], _ => []
  | ids, [] => ids.map fun _ => .unreached
  | _ :: ids, .refused text :: rest => .refused text :: runParallel state ids rest
  | id :: ids, .runs isError text :: rest =>
    (match toolCall state id with
      | some reason => .refused reason
      | none => .ran isError text) ::
      runParallel state ids rest

def runBatch (state : State) (calls : List (ToolCall ι)) (batch : Batch) :
    List Outcome :=
  if batch.sequential then
    runSequential state (calls.map ToolCall.id) batch.behaviours
  else runParallel state (calls.map ToolCall.id) batch.behaviours

/-- A recorded call that was sent, with its recorded error and what became of
it. -/
structure Sent (ι : Type) where
  call : ToolCall ι
  recorded : Option String
  outcome : Outcome
  deriving DecidableEq

def sentOf (state : State) (calls : List (ToolCall ι)) (outcomes : List Outcome) : List (Sent ι) :=
  (calls.zip (state.emitted.zip outcomes)).map fun sent => ⟨sent.1, sent.2.1.recorded, sent.2.2⟩

def Sent.message (sent : Sent ι) : Option ToolResult :=
  sent.outcome.result.map fun result => ⟨sent.call.id, [some result.2], result.1⟩

def Sent.diverged (sent : Sent ι) : Bool :=
  sent.outcome.result.any fun result => result.1 != sent.recorded.isSome

/-- A session: the state of the replay, the results in the context, and the
calls sent so far. -/
structure Run (ι : Type) where
  state : State
  context : List ToolResult
  log : List (Sent ι)
  deriving DecidableEq

inductive Event where
  /-- The agent asks for a reply and runs its calls. -/
  | request (aborted : Bool) (batch : Batch)
  | agentEnd
  deriving DecidableEq

def step (loaded : Loaded ι) (run : Run ι) : Event → Run ι
  | .agentEnd => { run with state := agentEnd run.state }
  | .request aborted batch =>
    let replied := streamSimple loaded run.state run.context aborted
    let sent := sentOf replied.1 replied.2.calls (runBatch replied.1 replied.2.calls batch)
    { state := replied.1
      context := run.context ++ sent.filterMap Sent.message
      log := run.log ++ sent }

def begin_ (context : List ToolResult) : Run ι := ⟨{}, context, []⟩

/-! ## What is kept of a recording -/

/-- What a call does: its name and arguments, and whether it ran. -/
abbrev Key (ι : Type) := String × ι × Bool

def ToolCall.key (call : ToolCall ι) : Key ι :=
  (call.name, call.arguments, call.ran)

def Call.key (call : Call ι) : Key ι := (call.name, call.arguments, call.ran)

def Sent.key (sent : Sent ι) : Key ι := sent.call.key

def Entry.calls (entry : Entry ι) : List (ToolCall ι) :=
  match entry.message with
  | some (.assistant _ content) => content.filterMap partCall
  | _ => []

/-- The calls of the branch that a session file records, in order. -/
def recordedCalls (lines : List (Line ι)) : List (ToolCall ι) :=
  (branch lines).flatMap Entry.calls

def recordedResults (lines : List (Line ι)) : List (String × ToolResult) :=
  resultsOf ((branch lines).filterMap Entry.result)

def Recording.sendable (recording : Recording ι) : List (Call ι) :=
  recording.turns.flatMap Turn.sendable

variable {results : List (String × ToolResult)}
  {stopReason : StopReason} {call : ToolCall ι} {kept : Call ι}

theorem key_of_read (isKept : (readCall results stopReason call).getLeft? = some kept) :
    kept.key = call.key := by
  rw [readCall] at isKept
  split at isKept
  · cases isKept
  · split at isKept
    · cases isKept
      rfl
    · split at isKept
      · cases isKept
      · cases isKept
        rfl

variable {β γ : Type} {δ : Type}

theorem filterMap_map_sublist {keep : β → Option γ} {named : γ → δ} {name : β → δ}
    (same : ∀ item kept, keep item = some kept → named kept = name item) (items : List β) :
    ((items.filterMap keep).map named).Sublist (items.map name) := by
  induction items with
  | nil => exact List.Sublist.refl []
  | cons item rest ih =>
    cases isKept : keep item with
    | none =>
      rw [List.filterMap_cons_none isKept]
      exact ih.cons (name item)
    | some kept =>
      rw [List.filterMap_cons_some isKept, map_cons, map_cons, same item kept isKept]
      exact ih.cons_cons (name item)

theorem flatMap_sublist {small large : β → List γ}
    (each : ∀ item, (small item).Sublist (large item)) (items : List β) :
    (items.flatMap small).Sublist (items.flatMap large) := by
  induction items with
  | nil => exact List.Sublist.refl []
  | cons item rest ih =>
    rw [flatMap_cons, flatMap_cons]
    exact (each item).append ih

theorem readTurn_calls (results : List (String × ToolResult)) (stopReason : StopReason)
    (content : List (Part ι)) :
    (readTurn results stopReason content).toList.flatMap Turn.calls =
      (content.filterMap partCall).filterMap fun call =>
        (readCall results stopReason call).getLeft? := by
  have composed :
      ((content.filterMap partCall).filterMap fun call =>
          (readCall results stopReason call).getLeft?) =
        ((content.filterMap partCall).map
          (readCall results stopReason)).filterMap Sum.getLeft? := by
    rw [List.filterMap_map]
    rfl
  rw [composed, readTurn]
  split
  · rename_i nothing
    rw [Bool.and_eq_true, List.isEmpty_iff] at nothing
    exact nothing.1.symm
  · exact append_nil _

theorem flatMap_filterMap (keep : β → Option γ) (parts : γ → List δ) (items : List β) :
    (items.filterMap keep).flatMap parts =
      items.flatMap fun item => (keep item).toList.flatMap parts := by
  induction items with
  | nil => rfl
  | cons item rest ih =>
    rw [flatMap_cons, ← ih]
    cases isKept : keep item with
    | none => rw [List.filterMap_cons_none isKept]; rfl
    | some kept =>
      rw [List.filterMap_cons_some isKept, flatMap_cons]
      congr 1
      exact (append_nil _).symm

variable {path : String} {lines : List (Line ι)} {recording : Recording ι}

theorem sendable_sublist (loaded : loadRecording path lines = .ok recording) :
    (recording.sendable.map Call.key).Sublist ((recordedCalls lines).map ToolCall.key) := by
  rw [loadRecording] at loaded
  split at loaded
  · cases loaded
  · cases loaded
    rw [Recording.sendable, recordedCalls, map_flatMap, map_flatMap]
    dsimp only
    rw [flatMap_filterMap]
    apply flatMap_sublist
    intro entry
    rw [Entry.turn, Entry.calls]
    split
    · rename_i stopReason content _
      have isCalls := readTurn_calls (recordedResults lines) stopReason content
      have sent :
          ((readTurn (recordedResults lines) stopReason content).toList.flatMap
              fun turn => turn.sendable.map Call.key).Sublist
            ((readTurn (recordedResults lines) stopReason content).toList.flatMap fun turn =>
              turn.calls.map Call.key) := by
        apply flatMap_sublist
        intro turn
        exact List.filter_sublist.map Call.key
      have named :
          ((readTurn (recordedResults lines) stopReason content).toList.flatMap
              fun turn => turn.calls.map Call.key).Sublist
            ((content.filterMap partCall).map ToolCall.key) := by
        rw [← map_flatMap, isCalls]
        exact filterMap_map_sublist (fun _ _ isKept => key_of_read isKept) _
      exact sent.trans named
    · exact List.Sublist.refl []

/-! ## Calls that ran -/

def recordedError (results : List (String × ToolResult)) (id : String) :
    Option String :=
  ((Entries.get results id).filter ToolResult.isError).map resultText

/-- Whether every call that did not run can be told: it is of a skipped tool, or
its recorded error is one of a call that never executed. -/
def Covered (lines : List (Line ι)) : Prop :=
  lines.filterMap Line.error = [] →
    ∀ entry ∈ branch lines, ∀ stopReason content,
      entry.message = some (.assistant stopReason content) →
        endedNormally stopReason = true →
          ∀ call ∈ content.filterMap partCall, call.ran = false →
            call.name ∈ SKIP ∨ (recordedError (recordedResults lines) call.id).any notRun = true

/-- A call is kept if its reply ended normally and its error is none of a call
that never executed. -/
theorem readCall_kept (results : List (String × ToolResult)) (stopReason : StopReason)
    (call : ToolCall ι) :
    (readCall results stopReason call).getLeft? =
      if endedNormally stopReason &&
          !(recordedError results call.id).any notRun then
        some
          ⟨call.name, call.arguments, recordedError results call.id, call.ran⟩
      else none := by
  rw [readCall, ← recordedError]
  cases endedNormally stopReason with
  | false => rfl
  | true =>
    cases recordedError results call.id with
    | none => rfl
    | some error =>
      rw [Option.any_some]
      cases isNotRun : notRun error with
      | false | true => simp [isNotRun]

variable {entry : Entry ι}

theorem mem_turn_calls {turn : Turn ι} (isTurn : entry.turn results = some turn) (kept : Call ι) :
    kept ∈ turn.calls ↔
      ∃ stopReason content,
        entry.message = some (.assistant stopReason content) ∧
          ∃ call ∈ content.filterMap partCall,
            (readCall results stopReason call).getLeft? = some kept := by
  rw [Entry.turn] at isTurn
  split at isTurn
  · rename_i stopReason content isReply
    have isCalls := readTurn_calls results stopReason content
    rw [isTurn, Option.toList_some, flatMap_cons, List.flatMap_nil, append_nil] at isCalls
    rw [isCalls, List.mem_filterMap]
    constructor
    · intro isKept
      exact ⟨stopReason, content, isReply, isKept⟩
    · rintro ⟨otherReason, otherContent, isOther, isKept⟩
      rw [isReply] at isOther
      cases isOther
      exact isKept
  · cases isTurn

theorem turn_of_kept {content : List (Part ι)}
    (isReply : entry.message = some (.assistant stopReason content))
    (member : call ∈ content.filterMap partCall)
    (isKept : (readCall results stopReason call).getLeft? = some kept) :
    ∃ turn, entry.turn results = some turn ∧ kept ∈ turn.calls := by
  have isCalls := readTurn_calls results stopReason content
  have inCalls : kept ∈ (readTurn results stopReason content).toList.flatMap Turn.calls := by
    rw [isCalls, List.mem_filterMap]
    exact ⟨call, member, isKept⟩
  obtain ⟨turn, isTurn, inTurn⟩ := List.mem_flatMap.mp inCalls
  rw [Option.mem_toList] at isTurn
  refine ⟨turn, ?_, inTurn⟩
  rw [Entry.turn, isReply]
  exact isTurn

theorem sendable_ran_iff (loaded : loadRecording path lines = .ok recording) :
    (∀ call ∈ recording.sendable, call.ran = true) ↔ Covered lines := by
  rw [loadRecording] at loaded
  split at loaded
  · cases loaded
  · rename_i noError
    cases loaded
    have readable : lines.filterMap Line.error = [] := List.head?_eq_none_iff.mp noError
    constructor
    · intro allRan _ entry inBranch stopReason content isReply normal call isCall notRan
      by_contra uncovered
      rw [not_or] at uncovered
      have isKept := readCall_kept (recordedResults lines) stopReason call
      have notBlocked : (recordedError (recordedResults lines) call.id).any notRun = false :=
        Bool.eq_false_iff.mpr uncovered.2
      rw [normal, notBlocked, Bool.not_false, Bool.and_self, if_pos rfl] at isKept
      obtain ⟨turn, isTurn, inTurn⟩ := turn_of_kept isReply isCall isKept
      have ran := allRan _ (List.mem_flatMap.mpr
        ⟨turn, List.mem_filterMap.mpr ⟨entry, inBranch, isTurn⟩,
          List.mem_filter.mpr ⟨inTurn, decide_eq_true uncovered.1⟩⟩)
      dsimp only at ran
      rw [notRan] at ran
      cases ran
    · intro covered kept member
      obtain ⟨turn, isMember, inTurn⟩ := List.mem_flatMap.mp member
      obtain ⟨entry, inBranch, isTurn⟩ := List.mem_filterMap.mp isMember
      obtain ⟨inCalls, notSkipped⟩ := List.mem_filter.mp inTurn
      obtain ⟨stopReason, content, isReply, call, isCall, isKept⟩ :=
        (mem_turn_calls isTurn kept).mp inCalls
      have shape := readCall_kept (recordedResults lines) stopReason call
      have isLeft := shape.symm.trans isKept
      split at isLeft
      · rename_i conditions
        rw [Bool.and_eq_true, Bool.not_eq_true'] at conditions
        cases isLeft
        cases isRan : call.ran with
        | true => rfl
        | false =>
          rw [decide_eq_true_eq] at notSkipped
          rcases covered readable entry inBranch stopReason content isReply
              conditions.1 call isCall isRan with isSkip | isBlocked
          · exact absurd isSkip notSkipped
          · rw [conditions.2] at isBlocked
            cases isBlocked
      · cases isLeft

/-! ## A batch -/

/-- Whether a call lets the next ones go although its result diverges: it is
refused before its body, which the replay's hook does not see, or it runs beside
the others. -/
def Behaviour.slips (sequential : Bool) (recorded : Option String) : Behaviour → Bool
  | .refused _ => recorded.isNone
  | .runs isError _ => !sequential && isError != recorded.isSome

def Behaviour.isRun : Behaviour → Bool
  | .refused _ => false
  | .runs _ _ => true

/-- A batch where no call whose body runs follows a diverging one unseen. -/
def Calm (emitted : List Emitted) (batch : Batch) : Prop :=
  (emitted.zip batch.behaviours).Pairwise fun first second =>
    first.2.slips batch.sequential first.1.recorded = true → second.2.isRun = false

theorem divergence_isSome (emitted : Emitted) (isError : Bool) (text : String) :
    (divergence emitted isError text).isSome = (isError != emitted.recorded.isSome) := by
  cases isRecorded : emitted.recorded with
  | none | some recorded =>
    cases isError with
    | false | true => simp [divergence, isRecorded]

def Outcome.diverged (outcome : Outcome) (recorded : Option String) : Bool :=
  outcome.result.any fun result => result.1 != recorded.isSome

def Listed (state : State) (calls : List Emitted) : Prop :=
  ∀ emitted ∈ calls, state.emitted.find? (fun other => other.id = emitted.id) = some emitted

variable {state : State}

theorem toolCall_goes (noHalt : state.halt = none) (id : String) : toolCall state id = none := by
  rw [toolCall, noHalt]

variable {halt : String} {emitted : Emitted}

theorem toolCall_stops (halted : state.halt = some halt)
    (listed : state.emitted.find? (fun other => other.id = emitted.id) = some emitted) :
    (toolCall state emitted.id).isSome = true := by
  have isMember : emitted ∈ state.emitted := List.mem_of_find?_eq_some listed
  have isEmitted : (state.emitted.any fun other => other.id = emitted.id) = true :=
    List.any_eq_true.mpr ⟨emitted, isMember, decide_eq_true rfl⟩
  rw [toolCall, halted]
  dsimp only
  rw [if_pos isEmitted]
  rfl

theorem toolResult_emitted (state : State) (id : String) (isError : Bool) (text : String) :
    (toolResult state id isError text).emitted = state.emitted := by
  rw [toolResult]
  split
  · rfl
  · split
    · rfl
    · rfl

theorem toolResult_halt (noHalt : state.halt = none)
    (listed : state.emitted.find? (fun other => other.id = emitted.id) = some emitted)
    (isError : Bool) (text : String) :
    (toolResult state emitted.id isError text).halt =
      divergence emitted isError text := by
  rw [toolResult, listed]
  dsimp only
  rw [noHalt, if_neg (by simp)]

@[simp]
theorem runSequential_nil (state : State) (behaviours : List Behaviour) :
    runSequential state [] behaviours = [] := by
  cases behaviours with
  | nil | cons behaviour later => rfl

@[simp]
theorem runSequential_unreached (state : State) (ids : List String) :
    runSequential state ids [] = ids.map fun _ => .unreached := by
  cases ids with
  | nil | cons id rest => rfl

theorem runSequential_refused (state : State) (id : String) (ids : List String) (text : String)
    (later : List Behaviour) :
    runSequential state (id :: ids) (.refused text :: later) =
      .refused text :: runSequential state ids later :=
  rfl

theorem runSequential_runs (state : State) (id : String) (ids : List String) (isError : Bool)
    (text : String) (later : List Behaviour) :
    runSequential state (id :: ids) (.runs isError text :: later) =
      match toolCall state id with
      | some reason => .refused reason :: runSequential state ids later
      | none =>
        .ran isError text :: runSequential (toolResult state id isError text) ids later :=
  rfl

@[simp]
theorem runParallel_nil (state : State) (behaviours : List Behaviour) :
    runParallel state [] behaviours = [] := by
  cases behaviours with
  | nil | cons behaviour later => rfl

@[simp]
theorem runParallel_unreached (state : State) (ids : List String) :
    runParallel state ids [] = ids.map fun _ => .unreached := by
  cases ids with
  | nil | cons id rest => rfl

theorem runParallel_refused (state : State) (id : String) (ids : List String) (text : String)
    (later : List Behaviour) :
    runParallel state (id :: ids) (.refused text :: later) =
      .refused text :: runParallel state ids later :=
  rfl

theorem runParallel_runs (noHalt : state.halt = none) (id : String) (ids : List String)
    (isError : Bool) (text : String) (later : List Behaviour) :
    runParallel state (id :: ids) (.runs isError text :: later) =
      .ran isError text :: runParallel state ids later := by
  have unfolded :
      runParallel state (id :: ids) (.runs isError text :: later) =
        (match toolCall state id with
          | some reason => .refused reason
          | none => .ran isError text) ::
          runParallel state ids later :=
    rfl
  rw [unfolded, toolCall_goes noHalt]

theorem length_runSequential (state : State) (ids : List String) (behaviours : List Behaviour) :
    (runSequential state ids behaviours).length = ids.length := by
  induction ids generalizing state behaviours with
  | nil => rw [runSequential_nil]; rfl
  | cons id rest ih =>
    cases behaviours with
    | nil => rw [runSequential_unreached, List.length_map]
    | cons behaviour later =>
      cases behaviour with
      | refused text => rw [runSequential_refused, length_cons, ih, length_cons]
      | runs isError text =>
        rw [runSequential_runs]
        split
        · rw [length_cons, ih, length_cons]
        · rw [length_cons, ih, length_cons]

theorem length_runParallel (noHalt : state.halt = none) (ids : List String)
    (behaviours : List Behaviour) : (runParallel state ids behaviours).length = ids.length := by
  induction ids generalizing behaviours with
  | nil => rw [runParallel_nil]; rfl
  | cons id rest ih =>
    cases behaviours with
    | nil => rw [runParallel_unreached, List.length_map]
    | cons behaviour later =>
      cases behaviour with
      | refused text => rw [runParallel_refused, length_cons, ih, length_cons]
      | runs isError text => rw [runParallel_runs noHalt, length_cons, ih, length_cons]

theorem still_unreached (ids : List String) :
    ∀ outcome ∈ ids.map fun _ => Outcome.unreached, outcome.executed = false :=
  List.forall_mem_map.mpr fun _ _ => rfl

theorem runSequential_halted {calls : List Emitted} (listed : Listed state calls)
    (halted : state.halt = some halt) (behaviours : List Behaviour) :
    ∀ outcome ∈ runSequential state (calls.map Emitted.id) behaviours,
      outcome.executed = false := by
  induction calls generalizing behaviours with
  | nil =>
    rw [map_nil, runSequential_nil]
    exact List.forall_mem_nil _
  | cons call rest ih =>
    obtain ⟨isOwn, listedRest⟩ := List.forall_mem_cons.mp listed
    rw [map_cons]
    cases behaviours with
    | nil =>
      rw [runSequential_unreached]
      exact still_unreached _
    | cons behaviour later =>
      have stillRest := ih listedRest later
      cases behaviour with
      | refused text =>
        rw [runSequential_refused]
        exact List.forall_mem_cons.mpr ⟨rfl, stillRest⟩
      | runs isError text =>
        obtain ⟨reason, isReason⟩ := Option.isSome_iff_exists.mp (toolCall_stops halted isOwn)
        rw [runSequential_runs, isReason]
        exact List.forall_mem_cons.mpr ⟨rfl, stillRest⟩

variable {behaviours : List Behaviour}

/-- Of either way to run a batch. -/
theorem still_of_allRefused {run : List String → List Behaviour → List Outcome}
    (nil : ∀ behaviours, run [] behaviours = [])
    (unreached : ∀ ids, run ids [] = ids.map fun _ => .unreached)
    (refuses : ∀ id ids text later,
      run (id :: ids) (.refused text :: later) = .refused text :: run ids later)
    (calls : List Emitted) (refused : ∀ call ∈ calls.zip behaviours, call.2.isRun = false) :
    ∀ outcome ∈ run (calls.map Emitted.id) behaviours, outcome.executed = false := by
  induction calls generalizing behaviours with
  | nil =>
    rw [map_nil, nil]
    exact List.forall_mem_nil _
  | cons call rest ih =>
    cases behaviours with
    | nil =>
      rw [unreached]
      exact still_unreached _
    | cons behaviour later =>
      rw [zip_cons_cons] at refused
      obtain ⟨isRefused, refusedRest⟩ := List.forall_mem_cons.mp refused
      cases behaviour with
      | refused text =>
        rw [map_cons, refuses]
        exact List.forall_mem_cons.mpr ⟨rfl, ih refusedRest⟩
      | runs isError text => cases isRefused

theorem slips_refused {recorded : Option String} {text : String} (sequential : Bool)
    (diverged : (Outcome.refused text).diverged recorded = true) :
    (Behaviour.refused text).slips sequential recorded = true := by
  cases recorded with
  | none => rfl
  | some recorded => cases diverged

/-- After a diverging result no later body of the batch starts. -/
def Stops (calls : List (Emitted × Outcome)) : Prop :=
  calls.Pairwise fun first second =>
    first.2.diverged first.1.recorded = true → second.2.executed = false

theorem stops_of_still {calls : List Emitted} {outcomes : List Outcome}
    (still : ∀ outcome ∈ outcomes, outcome.executed = false) : Stops (calls.zip outcomes) := by
  apply List.pairwise_of_forall_mem_list
  intro _ _ second member _
  exact still second.2 (of_mem_zip member).2

theorem stops_sequential {calls : List Emitted} (noHalt : state.halt = none)
    (listed : Listed state calls)
    (calm :
      (calls.zip behaviours).Pairwise fun first second =>
        first.2.slips true first.1.recorded = true → second.2.isRun = false) :
    Stops
      (calls.zip (runSequential state (calls.map Emitted.id) behaviours)) := by
  induction calls generalizing state behaviours with
  | nil => exact List.Pairwise.nil
  | cons call rest ih =>
    have listedRest : Listed state rest := fun emitted member =>
      listed emitted (mem_cons_of_mem _ member)
    cases behaviours with
    | nil =>
      rw [runSequential_unreached]
      exact stops_of_still (still_unreached _)
    | cons behaviour later =>
      obtain ⟨calmHead, calmRest⟩ := List.pairwise_cons.mp calm
      cases behaviour with
      | refused text =>
        rw [map_cons, runSequential_refused, zip_cons_cons]
        apply List.pairwise_cons.mpr
        refine ⟨?_, ih noHalt listedRest calmRest⟩
        intro second member diverged
        have slips := slips_refused true diverged
        exact still_of_allRefused (runSequential_nil state) (runSequential_unreached state)
          (runSequential_refused state) rest (fun other isOther => calmHead other isOther slips)
          second.2 (of_mem_zip member).2
      | runs isError text =>
        have isOwn := listed call mem_cons_self
        have isHalt := toolResult_halt noHalt isOwn isError text
        have listedAfter : Listed (toolResult state call.id isError text) rest := by
          intro emitted member
          rw [toolResult_emitted]
          exact listedRest emitted member
        rw [map_cons, runSequential_runs, toolCall_goes noHalt, zip_cons_cons]
        apply List.pairwise_cons.mpr
        cases halts : divergence call isError text with
        | none =>
          constructor
          · intro second member diverged
            have isSome := divergence_isSome call isError text
            rw [halts] at isSome
            rw [Outcome.diverged] at diverged
            exact absurd (isSome.trans diverged) Bool.false_ne_true
          · exact ih (isHalt.trans halts) listedAfter calmRest
        | some halt =>
          have still := runSequential_halted listedAfter (isHalt.trans halts) later
          constructor
          · intro second member _
            exact still second.2 (of_mem_zip member).2
          · exact stops_of_still still

theorem stops_parallel (noHalt : state.halt = none) {calls : List Emitted}
    (calm :
      (calls.zip behaviours).Pairwise fun first second =>
        first.2.slips false first.1.recorded = true → second.2.isRun = false) :
    Stops
      (calls.zip (runParallel state (calls.map Emitted.id) behaviours)) := by
  have stillOf {rest : List Emitted} {later : List Behaviour} :=
    @still_of_allRefused later _ (runParallel_nil state) (runParallel_unreached state)
      (runParallel_refused state) rest
  induction calls generalizing behaviours with
  | nil => exact List.Pairwise.nil
  | cons call rest ih =>
    cases behaviours with
    | nil =>
      rw [runParallel_unreached]
      exact stops_of_still (still_unreached _)
    | cons behaviour later =>
      obtain ⟨calmHead, calmRest⟩ := List.pairwise_cons.mp calm
      cases behaviour with
      | refused text =>
        rw [map_cons, runParallel_refused, zip_cons_cons]
        apply List.pairwise_cons.mpr
        refine ⟨?_, ih calmRest⟩
        intro second member diverged
        have slips := slips_refused false diverged
        exact stillOf (fun other isOther => calmHead other isOther slips)
          second.2 (of_mem_zip member).2
      | runs isError text =>
        rw [map_cons, runParallel_runs noHalt, zip_cons_cons]
        apply List.pairwise_cons.mpr
        refine ⟨?_, ih calmRest⟩
        intro second member diverged
        have slips :
            (Behaviour.runs isError text).slips false call.recorded =
              true :=
          diverged
        exact stillOf (fun other isOther => calmHead other isOther slips)
          second.2 (of_mem_zip member).2

end PiEmbodied.Replay
