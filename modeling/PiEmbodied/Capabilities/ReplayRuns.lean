import PiEmbodied.Capabilities.Replay

/-!
# Runs of a replay

What a session sends of its recording, whatever becomes of the calls it sends.
-/

namespace PiEmbodied.Replay

open Runs
open List (append_nil ext_getElem map_cons map_map map_nil of_mem_zip)

variable {ι : Type}

/-! ## Ids -/

theorem callId_injective : Function.Injective callId := by
  intro left right same
  have lists := congrArg String.toList same
  rw [callId, callId, String.toList_append, String.toList_append] at lists
  have digits : Nat.toDigits 10 left = Nat.toDigits 10 right := by
    have sameText : (toString left).toList = (toString right).toList :=
      List.append_cancel_left lists
    have leftText : (toString left).toList = Nat.toDigits 10 left := String.toList_ofList
    have rightText : (toString right).toList = Nat.toDigits 10 right := String.toList_ofList
    exact leftText.symm.trans (sameText.trans rightText)
  calc
    left = Nat.ofDigitChars 10 (Nat.toDigits 10 left) 0 := Nat.ofDigitChars_ten_toDigits.symm
    _ = Nat.ofDigitChars 10 (Nat.toDigits 10 right) 0 := by rw [digits]
    _ = right := Nat.ofDigitChars_ten_toDigits

def idsFrom (ids count : ℕ) : List String :=
  (List.range count).map fun index => callId (ids + index + 1)

theorem nodup_idsFrom (ids count : ℕ) : (idsFrom ids count).Nodup := by
  apply List.Nodup.map _ List.nodup_range
  intro first second same
  have numbers := callId_injective same
  omega

theorem numbered_ids (ids : ℕ) (calls : List (Call ι)) :
    (numbered ids calls).map ToolCall.id = idsFrom ids calls.length := by
  apply ext_getElem
  · simp [numbered, idsFrom]
  · intro index _ _
    simp [numbered, idsFrom]

theorem emittedOf_ids (ids : ℕ) (calls : List (Call ι)) :
    (emittedOf ids calls).map Emitted.id = idsFrom ids calls.length := by
  apply ext_getElem
  · simp [emittedOf, idsFrom]
  · intro index _ _
    simp [emittedOf, idsFrom]

theorem find_own {β : Type} {key : β → String} {items : List β}
    (distinct : (items.map key).Nodup) {own : β} (member : own ∈ items) :
    items.find? (fun other => key other = key own) = some own := by
  induction items with
  | nil => cases member
  | cons first rest ih =>
    rw [map_cons, List.nodup_cons] at distinct
    rcases List.mem_cons.mp member with rfl | isLater
    · simp
    · have differs : key first ≠ key own := by
        intro same
        exact distinct.1 (same ▸ List.mem_map_of_mem isLater)
      rw [List.find?_cons_of_neg (by simp [differs])]
      exact ih distinct.2 isLater

theorem get_resultsOf_append (earlier : List ToolResult) (own : List ToolResult) (id : String) :
    Entries.get (resultsOf (earlier ++ own)) id =
      (own.reverse.find? fun result => result.toolCallId = id).or
        (Entries.get (resultsOf earlier) id) := by
  induction own using List.reverseRecOn with
  | nil => simp
  | append_singleton others last ih =>
    have pushed :
        resultsOf (earlier ++ (others ++ [last])) =
          Entries.set (resultsOf (earlier ++ others)) last.toolCallId
            last := by
      rw [resultsOf, resultsOf, ← List.append_assoc, List.foldl_append]
      rfl
    rw [pushed, Entries.get_set, ih, List.reverse_append]
    by_cases same : id = last.toolCallId
    · subst same
      simp
    · simp [same, Ne.symm same]

theorem failuresFrom_stop (results : List (String × ToolResult)) (stop : Bool)
    (emitted : List Emitted) :
    (failuresFrom results stop emitted).2 =
      (stop || emitted.any fun call =>
        (Entries.get results call.id).any fun result =>
          result.isError != call.recorded.isSome) := by
  induction emitted generalizing stop with
  | nil =>
    cases stop with
    | false | true => rfl
  | cons call rest ih =>
    cases stop with
    | true =>
      have passed :
          (failuresFrom results true (call :: rest)).2 = (failuresFrom results true rest).2 :=
        rfl
      rw [passed, ih, Bool.true_or, Bool.true_or]
    | false =>
      rw [failuresFrom, List.any_cons, Bool.false_or]
      cases found : Entries.get results call.id with
      | none =>
        rw [Option.any_none, Bool.false_or]
        exact ih false
      | some result =>
        have isSome := divergence_isSome call result.isError (resultText result)
        rw [Option.any_some]
        dsimp only
        cases diverged : divergence call result.isError (resultText result) with
        | some reason =>
          rw [diverged] at isSome
          rw [← isSome, Option.isSome_some, Bool.true_or]
          exact ih true
        | none =>
          rw [diverged] at isSome
          rw [← isSome, Option.isSome_none, Bool.false_or]
          dsimp only
          split
          · exact ih false
          · exact ih false

/-! ## The calls of a reply -/

structure Replied (state : State) (calls : List (Call ι)) (ids : ℕ) : Prop where
  emitted : state.emitted = emittedOf ids calls
  halt : state.halt = none

theorem length_numbered (ids : ℕ) (calls : List (Call ι)) :
    (numbered ids calls).length = calls.length :=
  List.length_mapIdx

theorem length_emittedOf (ids : ℕ) (calls : List (Call ι)) :
    (emittedOf ids calls).length = calls.length :=
  List.length_mapIdx

theorem numbered_keys (ids : ℕ) (calls : List (Call ι)) :
    (numbered ids calls).map ToolCall.key = calls.map Call.key := by
  apply ext_getElem
  · simp [numbered]
  · intro index _ _
    simp [numbered, ToolCall.key, Call.key]

variable {state : State} {calls : List (Call ι)} {ids : ℕ}

theorem emitted_ids (replied : Replied state calls ids) :
    (numbered ids calls).map ToolCall.id = state.emitted.map Emitted.id := by
  rw [numbered_ids, replied.emitted, emittedOf_ids]

theorem listed_own (replied : Replied state calls ids) : Listed state state.emitted := by
  have distinct : (state.emitted.map Emitted.id).Nodup := by
    rw [replied.emitted, emittedOf_ids]
    exact nodup_idsFrom ids calls.length
  intro emitted member
  exact find_own distinct member

theorem length_runBatch (noHalt : state.halt = none) (calls : List (ToolCall ι)) (batch : Batch) :
    (runBatch state calls batch).length = calls.length := by
  rw [runBatch]
  split
  · rw [length_runSequential, List.length_map]
  · rw [length_runParallel noHalt, List.length_map]

def sentCalls (state : State) (calls : List (Call ι)) (ids : ℕ) (batch : Batch) : List (Sent ι) :=
  sentOf state (numbered ids calls) (runBatch state (numbered ids calls) batch)

section

variable (replied : Replied state calls ids)
include replied

theorem lengths (batch : Batch) :
    (state.emitted.zip (runBatch state (numbered ids calls) batch)).length =
      (numbered ids calls).length := by
  rw [List.length_zip, length_runBatch replied.halt, replied.emitted,
    length_emittedOf, length_numbered, Nat.min_self]

theorem sentCalls_calls (batch : Batch) :
    (sentCalls state calls ids batch).map Sent.call = numbered ids calls := by
  rw [sentCalls, sentOf, map_map]
  exact List.map_fst_zip (Nat.le_of_eq (lengths replied batch).symm)

theorem sentCalls_keys (batch : Batch) :
    (sentCalls state calls ids batch).map Sent.key = calls.map Call.key := by
  rw [← numbered_keys ids calls, ← sentCalls_calls replied batch, map_map]
  rfl

end

variable {batch : Batch}

theorem sentCalls_stops (replied : Replied state calls ids) (calm : Calm state.emitted batch) :
    (sentCalls state calls ids batch).Pairwise fun first second =>
      first.diverged = true → second.outcome.executed = false := by
  have stops : Stops (state.emitted.zip (runBatch state (numbered ids calls) batch)) := by
    rw [runBatch, emitted_ids replied]
    rw [Calm] at calm
    split
    · rename_i isSequential
      rw [isSequential] at calm
      exact stops_sequential replied.halt (listed_own replied) calm
    · rename_i isParallel
      rw [Bool.eq_false_iff.mpr isParallel] at calm
      exact stops_parallel replied.halt calm
  rw [Stops, ← @List.map_snd_zip _ _ (numbered ids calls) _
    (Nat.le_of_eq (lengths replied batch)), List.pairwise_map] at stops
  rw [sentCalls, sentOf, List.pairwise_map]
  exact stops

theorem same_id_of_mem {calls : List (ToolCall ι)} {emitted : List Emitted}
    (same : calls.map ToolCall.id = emitted.map Emitted.id)
    (outcomes : List Outcome) {sent : ToolCall ι × Emitted × Outcome}
    (member : sent ∈ calls.zip (emitted.zip outcomes)) : sent.1.id = sent.2.1.id := by
  induction calls generalizing emitted outcomes with
  | nil => cases member
  | cons call rest ih =>
    cases emitted with
    | nil => cases member
    | cons first others =>
      obtain ⟨sameId, sameIds⟩ := List.cons.inj same
      cases outcomes with
      | nil => cases member
      | cons outcome later =>
        rw [List.zip_cons_cons, List.zip_cons_cons] at member
        rcases List.mem_cons.mp member with rfl | isLater
        · exact sameId
        · exact ih sameIds later isLater

theorem get_own (replied : Replied state calls ids) (batch : Batch)
    (context : List ToolResult) {result : ToolResult}
    (member : result ∈ (sentCalls state calls ids batch).filterMap Sent.message) :
    Entries.get
        (resultsOf (context ++ (sentCalls state calls ids batch).filterMap Sent.message))
        result.toolCallId = some result := by
  have isPart :
      (((sentCalls state calls ids batch).filterMap Sent.message).map ToolResult.toolCallId).Sublist
        ((sentCalls state calls ids batch).map fun sent => sent.call.id) := by
    apply filterMap_map_sublist
    intro sent message isMessage
    obtain ⟨_, _, rfl⟩ := Option.map_eq_some_iff.mp isMessage
    rfl
  have isIds :
      ((sentCalls state calls ids batch).map fun sent => sent.call.id) =
        idsFrom ids calls.length := by
    rw [← numbered_ids ids calls, ← sentCalls_calls replied batch, map_map]
    rfl
  rw [isIds] at isPart
  have distinct := isPart.nodup (nodup_idsFrom ids calls.length)
  rw [get_resultsOf_append, find_own _ (List.mem_reverse.mpr member), Option.some_or]
  rw [List.map_reverse]
  exact List.nodup_reverse.mpr distinct

variable {sent : Sent ι}

theorem failures_of_diverged (replied : Replied state calls ids) (batch : Batch)
    (context : List ToolResult) (member : sent ∈ sentCalls state calls ids batch)
    (diverged : sent.diverged = true) :
    (failures state.emitted
      (context ++ (sentCalls state calls ids batch).filterMap Sent.message)).2 =
      true := by
  rw [Sent.diverged, Option.any_eq_true] at diverged
  obtain ⟨⟨isError, text⟩, isResult, differs⟩ := diverged
  have isMessage : sent.message = some ⟨sent.call.id, [some text], isError⟩ := by
    rw [Sent.message, isResult, Option.map_some]
  have found := get_own replied batch context (List.mem_filterMap.mpr ⟨sent, member, isMessage⟩)
  rw [sentCalls, sentOf] at member
  obtain ⟨triple, isMember, rfl⟩ := List.mem_map.mp member
  have sameId := same_id_of_mem (emitted_ids replied) _ isMember
  have isEmitted : triple.2.1 ∈ state.emitted := (of_mem_zip (of_mem_zip isMember).2).1
  rw [failures, failuresFrom_stop, Bool.false_or, List.any_eq_true]
  refine ⟨triple.2.1, isEmitted, ?_⟩
  rw [← sameId, found, Option.any_some]
  exact differs

theorem advance_passed (turns : List (Turn ι)) (cursor : ℕ) (notes : List String) :
    ∃ passed,
      (advance turns cursor notes).1 = cursor + passed ∧
        (turns.take passed).flatMap Turn.sendable =
          (advance turns cursor notes).2.2.toList.flatMap Turn.sendable ∧
        ((advance turns cursor notes).2.2 = none → turns.length ≤ passed) ∧
        ((advance turns cursor notes).2.2 ≠ none → 0 < passed) := by
  induction turns generalizing cursor notes with
  | nil =>
    exact
      ⟨0, rfl, rfl, fun _ => Nat.le_refl 0, fun isSome => (isSome rfl).elim⟩
  | cons turn rest ih =>
    rw [advance]
    split
    · rename_i nothing
      obtain ⟨passed, isCursor, isPassed, isEnd, _⟩ := ih (cursor + 1) (notes ++ turn.skipNotes)
      refine ⟨passed + 1, by omega, ?_, ?_, fun _ => Nat.succ_pos passed⟩
      · rw [List.take_succ_cons, List.flatMap_cons, List.isEmpty_iff.mp nothing, List.nil_append]
        exact isPassed
      · intro ended
        have := isEnd ended
        rw [List.length_cons]
        omega
    · refine ⟨1, rfl, ?_, fun ended => ?_, fun _ => Nat.one_pos⟩
      · rw [List.take_succ_cons, List.take_zero]
        rfl
      · cases ended

def Recording.sentBy (recording : Recording ι) (cursor : ℕ) : List (Call ι) :=
  (recording.turns.take cursor).flatMap Turn.sendable

def turnCalls (turn : Option (Turn ι)) : List (Call ι) :=
  turn.toList.flatMap Turn.sendable

theorem sentBy_advance (recording : Recording ι) (cursor : ℕ) (notes : List String) :
    recording.sentBy
        (advance (recording.turns.drop cursor) cursor notes).1 =
      recording.sentBy cursor ++
        turnCalls
          (advance (recording.turns.drop cursor) cursor notes).2.2 := by
  obtain ⟨passed, isCursor, isPassed, _, _⟩ :=
    advance_passed (recording.turns.drop cursor) cursor notes
  rw [isCursor, Recording.sentBy, Recording.sentBy, turnCalls, List.take_add,
    List.flatMap_append, isPassed]

/-! ## Steps -/

/-- Whether no body of a reply's calls starts after a diverging result that the
hooks do not see. -/
def CalmStep (loaded : Loaded ι) (run : Run ι) : Event → Prop
  | .agentEnd => True
  | .request aborted batch =>
    let replied := streamSimple loaded run.state run.context aborted
    replied.2.calls = [] ∨ Calm replied.1.emitted batch

/-- What a session has sent of a recording: the calls of the turns passed, none
executed after a diverging one, and nothing follows once one diverged. -/
structure Kept (recording : Recording ι) (run : Run ι) : Prop where
  sent : run.log.map Sent.key = (recording.sentBy run.state.cursor).map Call.key
  stops :
    run.log.Pairwise fun first second => first.diverged = true → second.outcome.executed = false
  stopped :
    (∃ sent ∈ run.log, sent.diverged = true) →
      run.state.over = true ∨
        (run.state.started = true ∧ (failures run.state.emitted run.context).2 = true)

theorem kept_begin (recording : Recording ι) (context : List ToolResult) :
    Kept recording (begin_ context) where
  sent := rfl
  stops := List.Pairwise.nil
  stopped := fun ⟨_, member, _⟩ => by cases member

theorem Kept.quiet {recording : Recording ι} {run : Run ι} (kept : Kept recording run)
    {state : State} (sameCalls : recording.sentBy state.cursor = recording.sentBy run.state.cursor)
    (stopped :
      (∃ sent ∈ run.log, sent.diverged = true) →
        state.over = true ∨
          (state.started = true ∧ (failures state.emitted run.context).2 = true)) :
    Kept recording { run with state := state } where
  sent := by
    dsimp only
    rw [sameCalls]
    exact kept.sent
  stops := kept.stops
  stopped := stopped

variable {recording : Recording ι} {run : Run ι}

theorem Kept.replied (kept : Kept recording run)
    (together : ∀ sent ∈ run.log, sent.diverged = false)
    (isStarted : state.started = true) (replied : Replied state calls ids)
    (isCursor : recording.sentBy state.cursor = recording.sentBy run.state.cursor ++ calls)
    (calm : Calm state.emitted batch) :
    Kept recording
      { state := state
        context := run.context ++ (sentCalls state calls ids batch).filterMap Sent.message
        log := run.log ++ sentCalls state calls ids batch } where
  sent := by
    dsimp only
    rw [isCursor, List.map_append, List.map_append, kept.sent, sentCalls_keys replied]
  stops := by
    apply List.pairwise_append.mpr
    refine ⟨kept.stops, sentCalls_stops replied calm, ?_⟩
    intro first member second _ diverged
    rw [together first member] at diverged
    cases diverged
  stopped := by
    intro someDiverged
    obtain ⟨sent, member, diverged⟩ := someDiverged
    have isOwn : sent ∈ sentCalls state calls ids batch := by
      rcases List.mem_append.mp member with isEarlier | isOwn
      · rw [together sent isEarlier] at diverged
        cases diverged
      · exact isOwn
    exact .inr ⟨isStarted, failures_of_diverged replied batch run.context isOwn diverged⟩

inductive Requested (recording : Recording ι) (state : State)
    (failed aborted : Bool) : State → List (ToolCall ι) → Prop where
  /-- The replay is over, or a request aborted before it began. -/
  | quiet (after : State) (sameCursor : after.cursor = state.cursor)
      (isOver : after.over = true ∨ after = state ∧ state.started = false)
      (why : aborted = true ∨ state.over = true ∨ failed = true) :
      Requested recording state failed aborted after []
  /-- No turn is left. -/
  | ended (after : State) (isOver : after.over = true)
      (noneLeft : recording.turns.length ≤ after.cursor)
      (sameCalls : recording.sentBy after.cursor = recording.sentBy state.cursor) :
      Requested recording state failed aborted after []
  | turn (after : State) (calls : List (Call ι))
      (goes : state.over = false ∧ failed = false)
      (isStarted : after.started = true) (notOver : after.over = false)
      (replied : Replied after calls state.ids)
      (isCursor : recording.sentBy after.cursor = recording.sentBy state.cursor ++ calls)
      (later : state.cursor < after.cursor) :
      Requested recording state failed aborted after (numbered state.ids calls)

def stopsNow (state : State) (messages : List ToolResult) : Bool :=
  state.started && (failures state.emitted messages).2

theorem requested_nextTurn (recording : Recording ι) {begun : State} (notes : List String)
    {failed : Bool} (aborted : Bool) (goes : state.over = false ∧ failed = false)
    (sameCursor : begun.cursor = state.cursor) (sameIds : begun.ids = state.ids)
    (isStarted : begun.started = true) (notOver : begun.over = false) (noHalt : begun.halt = none) :
    Requested recording state failed aborted (nextTurn recording begun notes).1
      (nextTurn recording begun notes).2.calls := by
  have sentBy := sentBy_advance recording state.cursor notes
  obtain ⟨passed, isCursor, _, isEnd, isTurn⟩ :=
    advance_passed (recording.turns.drop state.cursor) state.cursor notes
  rw [nextTurn, sameCursor]
  split
  · rename_i cursor after isNone
    rw [isNone] at sentBy isCursor isEnd
    have noneLeft := isEnd rfl
    rw [List.length_drop] at noneLeft
    apply Requested.ended
    · rfl
    · dsimp only at isCursor ⊢
      omega
    · exact sentBy.trans (append_nil _)
  · rename_i cursor after turn isSome
    rw [isSome] at sentBy isCursor isTurn
    have isLater := isTurn (Option.some_ne_none turn)
    rw [sameIds]
    apply Requested.turn
    · exact goes
    · exact isStarted
    · exact notOver
    · exact ⟨rfl, noHalt⟩
    · rwa [turnCalls, Option.toList_some, List.flatMap_cons, List.flatMap_nil,
        append_nil] at sentBy
    · dsimp only at isCursor ⊢
      omega

theorem requested (recording : Recording ι) (state : State) (messages : List ToolResult)
    (aborted : Bool) :
    Requested recording state (stopsNow state messages) aborted
      (streamSimple (some (.ok recording)) state messages aborted).1
      (streamSimple (some (.ok recording)) state messages aborted).2.calls := by
  rw [streamSimple]
  split
  · rename_i isAborted
    apply Requested.quiet
    · rfl
    · cases isStarted : state.started with
      | true => exact .inl (Bool.or_true _)
      | false =>
        refine .inr ⟨?_, rfl⟩
        rw [Bool.or_false]
        cases state
        cases isStarted
        rfl
    · exact .inl isAborted
  · rw [next]
    dsimp only
    split
    · rename_i isOver
      exact Requested.quiet _ rfl (.inl isOver) (.inr (.inl isOver))
    · rename_i notOver
      have isGoing : state.over = false := Bool.eq_false_iff.mpr notOver
      cases isStarted : state.started with
      | true =>
        rw [if_pos rfl, stopsNow, isStarted, Bool.true_and]
        split
        · rename_i failed
          exact Requested.quiet _ rfl (.inl rfl) (.inr (.inr failed))
        · rename_i goesOn
          exact requested_nextTurn recording _ aborted
            ⟨isGoing, Bool.eq_false_iff.mpr goesOn⟩ rfl rfl rfl isGoing rfl
      | false =>
        rw [stopsNow, isStarted, Bool.false_and]
        exact requested_nextTurn recording _ aborted ⟨isGoing, rfl⟩ rfl rfl
          rfl isGoing rfl

theorem kept_step (kept : Kept recording run) {event : Event}
    (calm : CalmStep (some (.ok recording)) run event) :
    Kept recording (step (some (.ok recording)) run event) := by
  cases event with
  | agentEnd =>
    have stopped : (∃ sent ∈ run.log, sent.diverged = true) → (agentEnd run.state).over = true := by
      intro someDiverged
      rw [agentEnd]
      rcases kept.stopped someDiverged with isOver | ⟨isStarted, _⟩
      · exact Bool.or_eq_true_iff.mpr (.inl isOver)
      · exact Bool.or_eq_true_iff.mpr (.inr isStarted)
    exact @Kept.quiet ι recording run kept (agentEnd run.state) rfl
      fun someDiverged => .inl (stopped someDiverged)
  | request aborted batch =>
    have does := requested recording run.state run.context aborted
    rw [CalmStep] at calm
    rw [step]
    revert does calm
    generalize
      streamSimple (some (.ok recording)) run.state run.context aborted = replied
    obtain ⟨after, reply⟩ := replied
    dsimp only
    generalize reply.calls = calls
    intro calm does
    have sendsNothing :
        sentOf after ([] : List (ToolCall ι))
          (runBatch after ([] : List (ToolCall ι)) batch) = [] := by
      rw [sentOf, List.zip_nil_left, map_nil]
    cases does with
    | quiet sameCursor isOver _ =>
      rw [sendsNothing, List.filterMap_nil, append_nil, append_nil]
      apply kept.quiet (congrArg recording.sentBy sameCursor)
      intro someDiverged
      rcases isOver with isOver | ⟨rfl, _⟩
      · exact .inl isOver
      · exact kept.stopped someDiverged
    | ended isOver _ sameCalls =>
      rw [sendsNothing, List.filterMap_nil, append_nil, append_nil]
      exact kept.quiet sameCalls fun _ => .inl isOver
    | turn calls goes isStarted _ replied isCursor _ =>
      have together : ∀ sent ∈ run.log, sent.diverged = false := by
        intro sent member
        rw [← Bool.not_eq_true]
        intro diverged
        rcases kept.stopped ⟨sent, member, diverged⟩ with
          isOver | ⟨hasStarted, stops⟩
        · rw [goes.1] at isOver
          cases isOver
        · have failed := goes.2
          rw [stopsNow, hasStarted, stops] at failed
          cases failed
      have calmBatch : Calm after.emitted batch := by
        rcases calm with nothing | calmBatch
        · have noCalls : calls = [] := by
            rw [← List.length_eq_zero_iff, ← length_numbered run.state.ids calls, nothing]
            rfl
          rw [replied.emitted, noCalls]
          exact List.Pairwise.nil
        · exact calmBatch
      exact kept.replied together isStarted replied isCursor calmBatch

theorem kept_run {context : List ToolResult} {events : List Event}
    (calm :
      AllAllowed (step (some (.ok recording)))
        (CalmStep (some (.ok recording))) (begin_ context) events) :
    Kept recording (after (step (some (.ok recording))) (begin_ context) events) := by
  have steps :
      ∀ run event,
        CalmStep (some (.ok recording)) run event →
          Kept recording run → Kept recording (step (some (.ok recording)) run event) :=
    fun _ _ calmStep kept => kept_step kept calmStep
  exact after_of_allAllowed _ steps (kept_begin recording context) calm

theorem log_unread {loaded : Loaded ι} (unread : ∀ recording, loaded ≠ some (.ok recording))
    (run : Run ι) (event : Event) : (step loaded run event).log = run.log := by
  cases event with
  | agentEnd => rfl
  | request aborted batch =>
    have sendsNothing : (streamSimple loaded run.state run.context aborted).2.calls = [] := by
      rw [streamSimple]
      split
      · rfl
      · rw [next]
        · dsimp only
          split
          · rfl
          · rfl
        · exact unread
    rw [step]
    dsimp only
    rw [sendsNothing, sentOf, List.zip_nil_left, map_nil, append_nil]

/-! ## A run like the recorded one -/

def Emitted.repeats (emitted : Emitted) : Behaviour :=
  .runs emitted.recorded.isSome ""

def repeating (emitted : List Emitted) : Batch :=
  ⟨true, emitted.map Emitted.repeats⟩

def Emitted.repeated (emitted : Emitted) : Outcome :=
  .ran emitted.recorded.isSome ""

theorem calm_repeating (emitted : List Emitted) : Calm emitted (repeating emitted) := by
  apply List.pairwise_of_forall_mem_list
  intro first member second _ slips
  have isBehaviour := (of_mem_zip member).2
  obtain ⟨call, _, isCall⟩ := List.mem_map.mp isBehaviour
  rw [← isCall] at slips
  cases slips

theorem runSequential_repeats {calls : List Emitted} (noHalt : state.halt = none)
    (listed : Listed state calls) :
    runSequential state (calls.map Emitted.id) (calls.map Emitted.repeats) =
      calls.map Emitted.repeated := by
  induction calls generalizing state with
  | nil => rfl
  | cons call rest ih =>
    have isOwn := listed call List.mem_cons_self
    have isHalt := toolResult_halt noHalt isOwn call.recorded.isSome ""
    have agrees : divergence call call.recorded.isSome "" = none := by
      have isSome := divergence_isSome call call.recorded.isSome ""
      rw [bne_self_eq_false] at isSome
      exact
        Option.isNone_iff_eq_none.mp (Option.isSome_eq_false_iff.mp isSome)
    rw [map_cons, map_cons, map_cons, Emitted.repeats,
      runSequential_runs, toolCall_goes noHalt]
    dsimp only
    rw [ih (isHalt.trans agrees)]
    · rfl
    · intro emitted member
      rw [toolResult_emitted]
      exact listed emitted (List.mem_cons_of_mem _ member)

section

variable (replied : Replied state calls ids)
include replied

theorem runBatch_repeating :
    runBatch state (numbered ids calls) (repeating state.emitted) =
      state.emitted.map Emitted.repeated := by
  rw [runBatch, repeating, if_pos rfl, emitted_ids replied]
  exact runSequential_repeats replied.halt (listed_own replied)

theorem message_repeating {emitted : Emitted} (member : emitted ∈ state.emitted) :
    ToolResult.mk emitted.id [some ""] emitted.recorded.isSome ∈
      (sentCalls state calls ids (repeating state.emitted)).filterMap
        Sent.message := by
  have sideBySide := lengths replied (repeating state.emitted)
  have isPair :
      (emitted, emitted.repeated) ∈
        state.emitted.zip
          (runBatch state (numbered ids calls) (repeating state.emitted)) := by
    rw [runBatch_repeating replied]
    have pairs :
        state.emitted.zip (state.emitted.map Emitted.repeated) =
          state.emitted.map fun call => (call, call.repeated) := by
      apply ext_getElem
      · simp
      · intro index _ _
        simp
    rw [pairs]
    exact List.mem_map.mpr ⟨emitted, member, rfl⟩
  rw [← @List.map_snd_zip _ _ (numbered ids calls) _ (Nat.le_of_eq sideBySide)] at isPair
  obtain ⟨triple, isTriple, isSecond⟩ := List.mem_map.mp isPair
  have sameId := same_id_of_mem (emitted_ids replied) _ isTriple
  apply List.mem_filterMap.mpr
  refine ⟨⟨triple.1, triple.2.1.recorded, triple.2.2⟩, ?_, ?_⟩
  · rw [sentCalls, sentOf]
    exact List.mem_map.mpr ⟨triple, isTriple, rfl⟩
  · rw [Sent.message, sameId, isSecond]
    rfl

theorem failures_repeating (context : List ToolResult) :
    (failures state.emitted
      (context ++
        (sentCalls state calls ids (repeating state.emitted)).filterMap
          Sent.message)).2 = false := by
  rw [failures, failuresFrom_stop, Bool.false_or, List.any_eq_false]
  intro emitted member
  have found := get_own replied (repeating state.emitted) context (message_repeating replied member)
  rw [found, Option.any_some, bne_self_eq_false]
  exact Bool.false_ne_true

end

theorem sends_all (recording : Recording ι) (left : ℕ) {run : Run ι}
    (enough : recording.turns.length ≤ run.state.cursor + left) (notOver : run.state.over = false)
    (goesOn : stopsNow run.state run.context = false) :
    ∃ events,
      AllAllowed (step (some (.ok recording))) (CalmStep (some (.ok recording))) run events ∧
        recording.turns.length ≤ (after (step (some (.ok recording))) run events).state.cursor := by
  induction left generalizing run with
  | zero => exact ⟨[], trivial, enough⟩
  | succ left ih =>
    have does := requested recording run.state run.context false
    generalize isReply :
      streamSimple (some (.ok recording)) run.state run.context false = replied at does
    obtain ⟨state, reply⟩ := replied
    dsimp only at does
    have isCalm :
        CalmStep (some (.ok recording)) run (.request false (repeating state.emitted)) := by
      rw [CalmStep, isReply]
      exact .inr (calm_repeating state.emitted)
    have isStep :
        step (some (.ok recording)) run (.request false (repeating state.emitted)) =
          { state := state
            context :=
              run.context ++
                (sentOf state reply.calls
                  (runBatch state reply.calls (repeating state.emitted))).filterMap Sent.message
            log :=
              run.log ++
                sentOf state reply.calls
                  (runBatch state reply.calls (repeating state.emitted)) } := by
      rw [step, isReply]
    generalize isCalls : reply.calls = sentAll at does isStep
    cases does with
    | quiet _ _ why =>
      rw [notOver, goesOn] at why
      simp at why
    | ended _ noneLeft _ =>
      refine ⟨[.request false (repeating state.emitted)], ⟨isCalm, trivial⟩, ?_⟩
      rw [after_cons, after_nil, isStep]
      exact noneLeft
    | turn calls goes isStarted stillGoing replied isCursor later =>
      have stops :
          stopsNow state
            (run.context ++
              (sentCalls state calls run.state.ids
                (repeating state.emitted)).filterMap Sent.message) =
            false := by
        rw [stopsNow, failures_repeating replied, Bool.and_false]
      obtain ⟨events, areCalm, reaches⟩ :=
        @ih (step (some (.ok recording)) run (.request false (repeating state.emitted)))
          (by rw [isStep]; dsimp only; omega)
          (by rw [isStep]; exact stillGoing)
          (by rw [isStep]; exact stops)
      exact ⟨.request false (repeating state.emitted) :: events, ⟨isCalm, areCalm⟩, reaches⟩

/-! ## Only what ran -/

/-- Whether a session sends again only what a recording ran: recorded calls, in
order and each once, none of a skipped tool and none whose body did not start,
and after a diverging result no call is executed. -/
structure Sound (lines : List (Line ι)) (log : List (Sent ι)) : Prop where
  order : (log.map Sent.key).Sublist ((recordedCalls lines).map ToolCall.key)
  kept : ∀ sent ∈ log, sent.call.name ∉ SKIP
  ran : ∀ sent ∈ log, sent.call.ran = true
  stops : log.Pairwise fun first second => first.diverged = true → second.outcome.executed = false

theorem sound_nil (lines : List (Line ι)) : Sound lines [] where
  order := List.nil_sublist _
  kept := fun _ member => by cases member
  ran := fun _ member => by cases member
  stops := List.Pairwise.nil

theorem sentBy_sublist (recording : Recording ι) (cursor : ℕ) :
    (recording.sentBy cursor).Sublist recording.sendable := by
  have split := List.take_append_drop cursor recording.turns
  rw [Recording.sentBy, Recording.sendable]
  conv => rhs; rw [← split]
  rw [List.flatMap_append]
  exact List.sublist_append_left _ _

theorem Kept.sendable (kept : Kept recording run) (member : sent ∈ run.log) :
    ∃ call ∈ recording.sendable, call.key = sent.key := by
  have isKey := List.mem_map_of_mem (f := Sent.key) member
  rw [kept.sent] at isKey
  obtain ⟨call, isSent, isSame⟩ := List.mem_map.mp isKey
  exact ⟨call, (sentBy_sublist recording _).subset isSent, isSame⟩

variable {path : String} {lines : List (Line ι)}

theorem sound_of_kept (loaded : loadRecording path lines = .ok recording)
    (covered : Covered lines) (kept : Kept recording run) :
    Sound lines run.log where
  order := by
    rw [kept.sent]
    exact ((sentBy_sublist recording _).map Call.key).trans (sendable_sublist loaded)
  kept := by
    intro sent member
    obtain ⟨call, isCall, isSame⟩ := kept.sendable member
    obtain ⟨turn, _, inTurn⟩ := List.mem_flatMap.mp isCall
    have notSkipped := of_decide_eq_true (List.mem_filter.mp inTurn).2
    have sameName : call.name = sent.call.name := congrArg Prod.fst isSame
    rw [← sameName]
    exact notSkipped
  ran := by
    intro sent member
    obtain ⟨call, isCall, isSame⟩ := kept.sendable member
    have sameRan : call.ran = sent.call.ran := congrArg (fun key => key.2.2) isSame
    rw [← sameRan]
    exact (sendable_ran_iff loaded).mpr covered call isCall
  stops := kept.stops

theorem covered_of_error {error : String} (unread : loadRecording path lines = .error error) :
    Covered lines := by
  intro readable
  rw [loadRecording, readable] at unread
  cases unread

theorem sends_what_ran_iff (path : String) (lines : List (Line ι)) :
    (∀ context events,
        AllAllowed (step (sessionStart path lines))
            (CalmStep (sessionStart path lines)) (begin_ context) events →
          Sound lines (after (step (sessionStart path lines)) (begin_ context) events).log) ↔
      Covered lines := by
  cases isLoaded : loadRecording path lines with
  | error error =>
    have isStart :
        sessionStart path lines =
          some
            (.error ("cannot read --replay " ++ path ++ ": " ++ error)) := by
      rw [sessionStart, isLoaded]
    constructor
    · intro _
      exact covered_of_error isLoaded
    · intro _ context events _
      have nothing : (after (step (sessionStart path lines)) (begin_ context) events).log = [] := by
        apply after_invariant (step (sessionStart path lines)) (fun run => run.log = [])
        · intro run event isEmpty
          rw [log_unread _ run event, isEmpty]
          intro recording isRead
          rw [isStart] at isRead
          cases isRead
        · rfl
      rw [nothing]
      exact sound_nil lines
  | ok recording =>
    have isStart : sessionStart path lines = some (.ok recording) := by rw [sessionStart, isLoaded]
    rw [isStart]
    constructor
    · intro sound
      apply (sendable_ran_iff isLoaded).mp
      intro call member
      obtain ⟨events, areCalm, reaches⟩ :=
        @sends_all ι recording recording.turns.length (begin_ []) (Nat.le_add_left _ _) rfl rfl
      have kept := kept_run areCalm
      have isKey : call.key ∈
          (after (step (some (.ok recording))) (begin_ []) events).log.map Sent.key := by
        rw [kept.sent, Recording.sentBy, List.take_of_length_le reaches]
        exact List.mem_map_of_mem member
      obtain ⟨sent, isSent, isSame⟩ := List.mem_map.mp isKey
      have sameRan : sent.call.ran = call.ran := congrArg (fun key => key.2.2) isSame
      rw [← sameRan]
      exact (sound [] events areCalm).ran sent isSent
    · intro covered context events areCalm
      exact sound_of_kept isLoaded covered (kept_run areCalm)

/-- A session with a motion that timed out and one that the closed-loop gate
refused after it. -/
def refusedMotion : List (Line String) :=
  [.entry ⟨"s1", none, none⟩, .entry ⟨"e1", none, some .other⟩,
    .entry
      ⟨"e2", some "e1",
        some
          (.assistant .toolUse [.toolCall ⟨"m1", "move_to", "[0.4, 0, 0.2]", true⟩])⟩,
    .entry
      ⟨"e3", some "e2", some (.toolResult ⟨"m1", [some "move_to timed out"], true⟩)⟩,
    .entry
      ⟨"e4", some "e3",
        some
          (.assistant .toolUse [.toolCall ⟨"m2", "move_to", "[0.4, 0.1, 0.2]", false⟩])⟩,
    .entry
      ⟨"e5", some "e4",
        some
          (.toolResult
            ⟨"m2",
              [some
                "move_to refused: the last motion (move_to) has an unknown outcome (move_to timed out). Re-observe with look before issuing another motion."],
              true⟩)⟩]

def refusedMotionRun : Run String :=
  after (step (sessionStart "session.jsonl" refusedMotion)) (begin_ [])
    [.request false ⟨true, [.runs true "move_to timed out"]⟩,
      .request false ⟨true, [.runs false "moved"]⟩]

/-- The refused motion is sent, and its body runs. -/
theorem sends_refusedMotion : ¬ Sound refusedMotion refusedMotionRun.log := by
  intro sound
  have isLog :
      refusedMotionRun.log.map (fun sent => (sent.key, sent.outcome.executed)) =
        [(("move_to", "[0.4, 0, 0.2]", true), true),
          (("move_to", "[0.4, 0.1, 0.2]", false), true)] := by
    decide +kernel
  have isSent :
      (("move_to", "[0.4, 0.1, 0.2]", false), true) ∈
        refusedMotionRun.log.map fun sent =>
          (sent.key, sent.outcome.executed) := by
    rw [isLog]
    exact List.mem_cons_of_mem _ List.mem_cons_self
  obtain ⟨sent, member, isKey⟩ := List.mem_map.mp isSent
  have notRan : sent.call.ran = false := congrArg (fun pair => pair.1.2.2) isKey
  rw [sound.ran sent member] at notRan
  cases notRan

end PiEmbodied.Replay
