import PiEmbodied.Runs

/-!
# Running a program's primitive calls

The program of `code.run` sends calls over a pipe.  The server checks each call
against the run's budgets, runs the primitive, and books what it did.
-/

namespace PiEmbodied.Services

/-! ## Arguments -/

inductive Floating where
  | finite (value : ℚ)
  | nonfinite
deriving DecidableEq

def Floating.isNonfinite : Floating → Bool
  | .finite _ => false
  | .nonfinite => true

inductive Value where
  | none
  | bool (value : Bool)
  | int (value : ℤ)
  | float (value : Floating)
  | str (text : String)
  /-- An array; `floats` for a float or complex type. -/
  | array (floats : Bool) (items : List Floating)
  | list (items : List Value)
  | dict (items : List (String × Value))

mutual

/-- `_nonfinite`, which does not look deeper than 64 levels. -/
def Value.holdsNonfinite (depth : ℕ) : Value → Bool
  | .float value => decide (depth ≤ 64) && value.isNonfinite
  | .array floats items => decide (depth ≤ 64) && floats && items.any Floating.isNonfinite
  | .list items => decide (depth ≤ 64) && itemsHoldNonfinite (depth + 1) items
  | .dict items => decide (depth ≤ 64) && fieldsHoldNonfinite (depth + 1) items
  | _ => false

def itemsHoldNonfinite (depth : ℕ) : List Value → Bool
  | [] => false
  | item :: rest => item.holdsNonfinite depth || itemsHoldNonfinite depth rest

def fieldsHoldNonfinite (depth : ℕ) : List (String × Value) → Bool
  | [] => false
  | (_, item) :: rest => item.holdsNonfinite depth || fieldsHoldNonfinite depth rest

end

structure Arguments where
  args : List Value
  kwargs : List (String × Value)

def Arguments.holdNonfinite (a : Arguments) : Bool :=
  (Value.list a.args).holdsNonfinite 0 || (Value.dict a.kwargs).holdsNonfinite 0

/-! ## The run -/

/-- A primitive; an error is the text of what its function raised. -/
structure Primitive where
  name : String
  moveM : Option (Arguments → Except String Floating)
  check : Option (Arguments → Except String Unit)

/-- What one call of `run` was given; a negative translation cap is refused. -/
structure Settings where
  allowed : List Primitive
  maxCalls : ℤ
  maxMoveM : Option ℚ
  deadline : ℚ
  capNonnegative : ∀ cap, maxMoveM = some cap → 0 ≤ cap

/-- The entry of `by_name`: of two primitives of one name, the later. -/
def Settings.byName (settings : Settings) (name : String) : Option Primitive :=
  (settings.allowed.filter fun prim => prim.name = name).getLast?

inductive Limit where
  | maxCalls
  | maxMoveM
deriving DecidableEq

inductive CallError where
  | notAPrimitive (name : String)
  | stopped
  | callBudget (maxCalls : ℤ)
  | nonfiniteArgument (name : String)
  | nonfiniteMove (name : String)
  | moveBudget (move moved maxMoveM : ℚ)
  | abandoned (name : String)
  | raised (text : String)
  | cannotCross (name : String)
deriving DecidableEq

structure Entry where
  name : String
  arguments : Arguments
  error : Option CallError
  (refused abandoned cancelled : Bool)
  moveM : Option ℚ

/-- A primitive that was run: the place of its entry in the log, its estimated
translation and the time it began. -/
structure Invoked where
  place : ℕ
  name : String
  arguments : Arguments
  (move time : ℚ)

inductive RunEvent where
  | invoked (call : Invoked)
  | abandoned (name : String)
  /-- A stop was requested. -/
  | stopSeen
  /-- The run's abort was set. -/
  | abortSeen
  /-- The deadline had passed, or its stop was issued. -/
  | timeoutSeen

structure Done where
  (stdout stderr : String)
  traceback : Option String
  result : Value

/-- `_Run`, with the abort flag of the runner and the events of the run. -/
structure RunState where
  calls : ℤ
  moved : ℚ
  limit : Option Limit
  log : List Entry
  /-- The fields of the child's last message. -/
  done : Option Done
  stopIssued : Bool
  abandoned : Option String
  abort : Bool
  events : List RunEvent

def RunState.start : RunState where
  calls := 0
  moved := 0
  limit := none
  log := []
  done := none
  stopIssued := false
  abandoned := none
  abort := false
  events := []

/-! ## One call -/

inductive Ending where
  | returned (cancelled : Bool)
  | raised (text : String)
  | abandoned
deriving DecidableEq

/-- What a call meets: whether a stop is requested, when the primitive begins,
how it ends, and whether the deadline's timer or an abort came meanwhile. -/
structure Circumstances where
  stopRequested : Bool
  time : ℚ
  ending : Ending
  (stopIssued aborted : Bool)

inductive Reply where
  | ok
  | error
  | limit
deriving DecidableEq

namespace RunState

variable (s : RunState)

def see (event : RunEvent) : RunState :=
  { s with events := s.events ++ [event] }

def refuse (name : String) (arguments : Arguments) (error : CallError)
    (refused : Bool) : RunState :=
  { s with
    log :=
      s.log ++
        [{ name := name
           arguments := arguments
           error := some error
           refused := refused
           abandoned := false
           cancelled := false
           moveM := none }] }

end RunState

/-- The estimate of a call, unless its function raises or the number is no
translation. -/
def estimate (prim : Primitive) (arguments : Arguments) : Except CallError ℚ :=
  match prim.moveM with
  | none => .ok 0
  | some moveM =>
    match moveM arguments with
    | .error text => .error (.raised text)
    | .ok .nonfinite => .error (.nonfiniteMove prim.name)
    | .ok (.finite move) =>
      if move < 0 then .error (.nonfiniteMove prim.name) else .ok move

def checked (prim : Primitive) (arguments : Arguments) : Except CallError Unit :=
  match prim.check with
  | none => .ok ()
  | some check =>
    match check arguments with
    | .error text => .error (.raised text)
    | .ok () => .ok ()

def slack : ℚ := 1 / 1000000000

def exceeds (settings : Settings) (s : RunState) (prim : Primitive) (move : ℚ) :
    Option ℚ :=
  match prim.moveM, settings.maxMoveM with
  | some _, some maxMoveM =>
    if maxMoveM + slack < s.moved + move then some maxMoveM else none
  | _, _ => none

def invoke (s : RunState) (name : String) (arguments : Arguments) (move : ℚ)
    (met : Circumstances) : RunState × Reply :=
  let call : Invoked := ⟨s.log.length, name, arguments, move, met.time⟩
  let entry : Entry :=
    { name := name
      arguments := arguments
      error := none
      refused := false
      abandoned := false
      cancelled := false
      moveM := none }
  let begun : RunState :=
    { s with
      calls := s.calls + 1
      stopIssued := s.stopIssued || met.stopIssued
      abort := s.abort || met.aborted
      events := s.events ++ [.invoked call] }
  match met.ending with
  | .abandoned =>
    ({ begun with
        log :=
          s.log ++
            [{ entry with
                error := some (.abandoned name)
                abandoned := true }]
        abandoned := some name
        events := s.events ++ [.invoked call, .abandoned name] },
      .error)
  | .raised text =>
    ({ begun with log := s.log ++ [{ entry with error := some (.raised text) }] }, .error)
  | .returned cancelled =>
    if move = 0 then
      ({ begun with log := s.log ++ [{ entry with cancelled := cancelled }] }, .ok)
    else
      ({ begun with
          moved := s.moved + move
          log :=
            s.log ++ [{ entry with moveM := some move, cancelled := cancelled }] },
        .ok)

def call (settings : Settings) (s : RunState) (name : String)
    (arguments : Arguments) (met : Circumstances) : RunState × Reply :=
  match settings.byName name with
  | none => (s.refuse name arguments (.notAPrimitive name) false, .error)
  | some prim =>
    if met.stopRequested then
      ({ (s.refuse name arguments .stopped false).see .stopSeen with
          abort := true },
        .error)
    else if settings.maxCalls ≤ s.calls then
      ({ s.refuse name arguments (.callBudget settings.maxCalls) true with
          limit := some .maxCalls },
        .limit)
    else if arguments.holdNonfinite then
      (s.refuse name arguments (.nonfiniteArgument name) false, .error)
    else
      match checked prim arguments, estimate prim arguments with
      | .error error, _ | _, .error error => (s.refuse name arguments error false, .error)
      | .ok (), .ok move =>
        match exceeds settings s prim move with
        | some maxMoveM =>
          ({ s.refuse name arguments (.moveBudget move s.moved maxMoveM)
                true with
              limit := some .maxMoveM },
            .limit)
        | none => invoke s name arguments move met

/-! ## The loop -/

inductive Message where
  | gone
  | oversized
  | malformed (reason : String)
  | done (fields : Done)
  /-- `deep` where the arguments are nested too deeply to log. -/
  | call (name : String) (arguments : Arguments) (deep : Bool)

/-- What `poll` finds. -/
inductive Poll where
  | failed
  | nothing
  /-- The child exited and left nothing to read. -/
  | exited
  | ready
deriving DecidableEq

/-- What one iteration of the loop meets, in order: the clock and the flags at
its top, the pipe, the call, the clock after it, and the pipe again. -/
structure Turn where
  now : ℚ
  (stopIssued aborted : Bool)
  poll : Poll
  message : Message
  met : Circumstances
  later : ℚ
  (crosses sent : Bool)

inductive Outcome where
  | timeout
  | cancelled
  | died (reason : String)
  | oversized
  | done
  | abandoned (name : String)
deriving DecidableEq

def RunState.gone (s : RunState) : Outcome :=
  if s.abort then .cancelled else .died ""

def afterCall (settings : Settings) (t : Turn) (s : RunState) (name : String) :
    RunState × Option Outcome :=
  match s.abandoned with
  | some abandoned => (s, some (.abandoned abandoned))
  | none =>
    if s.stopIssued || decide (settings.deadline ≤ t.later) then
      (s.see .timeoutSeen, some .timeout)
    else if s.abort then (s.see .abortSeen, some .cancelled)
    else
      let answered : RunState :=
        if t.crosses then s
        else
          { s with
            log :=
              s.log.modify (s.log.length - 1) fun entry =>
                { entry with error := some (.cannotCross name) } }
      (answered, if t.sent then none else some answered.gone)

/-- One iteration of `_serve`: the state and, where the loop ends, its
outcome. -/
def serveTurn (settings : Settings) (before : RunState) (t : Turn) : RunState × Option Outcome :=
  let s : RunState :=
    { before with
      stopIssued := before.stopIssued || t.stopIssued
      abort := before.abort || t.aborted }
  if s.stopIssued || decide (settings.deadline ≤ t.now) then
    (s.see .timeoutSeen, some .timeout)
  else if s.abort then (s.see .abortSeen, some .cancelled)
  else
    match t.poll with
    | .failed => (s, some s.gone)
    | .nothing => (s, none)
    | .exited => (s, some s.gone)
    | .ready =>
      match t.message with
      | .gone => (s, some s.gone)
      | .oversized => (s, some .oversized)
      | .malformed reason => (s, some (.died reason))
      | .done fields => ({ s with done := some fields }, some .done)
      | .call name arguments deep =>
        if deep then (s, some (.died "arguments nested too deeply"))
        else
          afterCall settings t (call settings s name arguments t.met).1 name

/-- `_serve`, as far as the turns given go. -/
def serve (settings : Settings) : RunState → List Turn → RunState × Option Outcome
  | s, [] => (s, none)
  | s, t :: rest =>
    match serveTurn settings s t with
    | (next, some outcome) => (next, some outcome)
    | (next, none) => serve settings next rest

inductive Status where
  | ran
  | error
  | timeout
deriving DecidableEq

/-- The result of `run`, as far as the run's accounting goes. -/
structure Report where
  status : Status
  calls : List Entry
  nCalls : ℤ
  moveM : ℚ
  limit : Option Limit
  abandoned : Option String
  (cancelled stopIssued : Bool)

def report (s : RunState) (outcome : Outcome) : Report where
  status :=
    match outcome with
    | .abandoned _ | .timeout => .timeout
    | .oversized | .cancelled | .died _ => .error
    | .done =>
      if (s.done.bind Done.traceback).isSome then .error else .ran
  calls := s.log
  nCalls := s.calls
  moveM := s.moved
  limit := s.limit
  abandoned :=
    match outcome with
    | .abandoned name => some name
    | _ => none
  cancelled := outcome = .cancelled
  stopIssued :=
    match outcome with
    | .abandoned _ | .timeout => true
    | _ => false

def RunEvent.ends : RunEvent → Bool
  | .invoked _ => false
  | _ => true

def RunEvent.call : RunEvent → Option Invoked
  | .invoked call => some call
  | _ => none

def RunState.invocations (s : RunState) : List Invoked :=
  s.events.filterMap RunEvent.call

def RunState.invokedMove (s : RunState) : ℚ :=
  (s.invocations.map Invoked.move).sum

structure Bounded (settings : Settings) (s : RunState) : Prop where
  calls : (s.invocations.length : ℤ) ≤ max settings.maxCalls 0
  move : ∀ cap, settings.maxMoveM = some cap → s.invokedMove ≤ cap + slack
  inTime : ∀ call ∈ s.invocations, call.time < settings.deadline
  nothingAfter : s.events.Pairwise fun earlier later => earlier.ends = true → later.ends = true
  logged :
    ∀ call ∈ s.invocations, ∃ entry, s.log[call.place]? = some entry ∧
      entry.name = call.name ∧ entry.arguments = call.arguments
  apart : (s.invocations.map Invoked.place).Nodup
  counted : s.calls = s.invocations.length

structure Accounted (settings : Settings) (s : RunState) : Prop where
  calls : (s.invocations.length : ℤ) ≤ max settings.maxCalls 0
  nothingAfter : s.events.Pairwise fun earlier later => earlier.ends = true → later.ends = true
  logged :
    ∀ call ∈ s.invocations, ∃ entry, s.log[call.place]? = some entry ∧
      entry.name = call.name ∧ entry.arguments = call.arguments
  apart : (s.invocations.map Invoked.place).Nodup
  counted : s.calls = s.invocations.length

/-- While nothing was abandoned or aborted, nothing has ended the run. -/
def Going (s : RunState) : Prop :=
  s.abandoned = none → s.abort = false → ∀ event ∈ s.events, event.ends = false

/-- The translation booked is what was invoked, and all of it in time. -/
structure Booked (settings : Settings) (s : RunState) : Prop where
  move : ∀ cap, settings.maxMoveM = some cap → s.invokedMove ≤ cap + slack
  moved : ∀ cap, settings.maxMoveM = some cap → s.abandoned = none → s.moved = s.invokedMove
  inTime : ∀ call ∈ s.invocations, call.time < settings.deadline

variable {settings : Settings} {s : RunState}

theorem bounded_of_accounted (accounted : Accounted settings s) (booked : Booked settings s) :
    Bounded settings s :=
  { accounted with
    move := booked.move
    inTime := booked.inTime }

/-! ## A call -/

theorem call_cases (settings : Settings) (s : RunState) (name : String)
    (arguments : Arguments) (met : Circumstances) :
    (∃ error refused limit,
      (call settings s name arguments met).1 =
        { s.refuse name arguments error refused with limit := limit }) ∨
      (call settings s name arguments met).1 =
          { (s.refuse name arguments .stopped false).see .stopSeen with
            abort := true } ∨
      ∃ prim move, settings.byName name = some prim ∧
        s.calls < settings.maxCalls ∧ estimate prim arguments = .ok move ∧
        (∀ cap, settings.maxMoveM = some cap → move = 0 ∨ s.moved + move ≤ cap + slack) ∧
        (call settings s name arguments met).1 = (invoke s name arguments move met).1 := by
  rw [call]
  split
  · exact .inl ⟨_, _, s.limit, rfl⟩
  · rename_i prim isPrim
    split
    · exact .inr (.inl rfl)
    · split
      · exact .inl ⟨_, _, _, rfl⟩
      · rename_i below
        split
        · exact .inl ⟨_, _, s.limit, rfl⟩
        · split
          · exact .inl ⟨_, _, s.limit, rfl⟩
          · exact .inl ⟨_, _, s.limit, rfl⟩
          · rename_i move _ isMove
            split
            · exact .inl ⟨_, _, _, rfl⟩
            · rename_i fits
              refine .inr (.inr ⟨prim, move, isPrim, by omega, isMove, ?_,
                rfl⟩)
              intro cap isCap
              rw [exceeds, isCap] at fits
              cases isMoveM : prim.moveM with
              | none =>
                rw [estimate, isMoveM] at isMove
                cases isMove
                exact .inl rfl
              | some moveM =>
                simp only [isMoveM] at fits
                split at fits
                · cases fits
                · rename_i within_
                  exact .inr (not_lt.mp within_)

variable {t : RunState}

theorem accounted_same (accounted : Accounted settings s) (sameEvents : t.events = s.events)
    (sameCalls : t.calls = s.calls)
    (keeps :
      ∀ (place : ℕ) (entry : Entry), s.log[place]? = some entry →
        ∃ other, t.log[place]? = some other ∧ other.name = entry.name ∧
          other.arguments = entry.arguments) : Accounted settings t := by
  have sameInvocations : t.invocations = s.invocations := by
    rw [RunState.invocations, sameEvents, RunState.invocations]
  refine ⟨?_, ?_, ?_, ?_, ?_⟩
  · rw [sameInvocations]
    exact accounted.calls
  · rw [sameEvents]
    exact accounted.nothingAfter
  · rw [sameInvocations]
    intro call member
    obtain ⟨entry, isEntry, sameName, sameArguments⟩ := accounted.logged call member
    obtain ⟨other, isOther, otherName, otherArguments⟩ := keeps call.place entry isEntry
    exact ⟨other, isOther, otherName.trans sameName, otherArguments.trans sameArguments⟩
  · rw [sameInvocations]
    exact accounted.apart
  · rw [sameInvocations, sameCalls]
    exact accounted.counted

theorem booked_same {t : RunState} (booked : Booked settings s)
    (sameEvents : t.events = s.events) (sameMoved : t.moved = s.moved)
    (sameAbandoned : t.abandoned = s.abandoned) : Booked settings t := by
  have sameInvocations : t.invocations = s.invocations := by
    rw [RunState.invocations, sameEvents, RunState.invocations]
  have sameMove : t.invokedMove = s.invokedMove := by
    rw [RunState.invokedMove, sameInvocations, RunState.invokedMove]
  refine ⟨?_, ?_, ?_⟩
  · rw [sameMove]
    exact booked.move
  · rw [sameMove, sameMoved, sameAbandoned]
    exact booked.moved
  · rw [sameInvocations]
    exact booked.inTime

theorem invocations_see (s : RunState) {event : RunEvent} (ends : event.ends = true) :
    (s.see event).invocations = s.invocations := by
  have notCall : event.call = none := by
    cases event with
    | invoked call => cases ends
    | _ => rfl
  rw [RunState.invocations, RunState.see, List.filterMap_append, List.filterMap_cons, notCall]
  exact List.append_nil _

theorem accounted_see (accounted : Accounted settings s) (event : RunEvent)
    (ends : event.ends = true) : Accounted settings (s.see event) := by
  have same := invocations_see s ends
  refine ⟨?_, ?_, ?_, ?_, ?_⟩
  · rw [same]
    exact accounted.calls
  · refine List.pairwise_append.mpr ⟨accounted.nothingAfter, List.pairwise_singleton _ _, ?_⟩
    intro earlier _ later isLater _
    rw [List.mem_singleton.mp isLater]
    exact ends
  · rw [same]
    exact accounted.logged
  · rw [same]
    exact accounted.apart
  · rw [same]
    exact accounted.counted

theorem booked_see (booked : Booked settings s) (event : RunEvent) (ends : event.ends = true) :
    Booked settings (s.see event) := by
  have same := invocations_see s ends
  have sameMove : (s.see event).invokedMove = s.invokedMove := by
    rw [RunState.invokedMove, same, RunState.invokedMove]
  refine ⟨?_, ?_, ?_⟩
  · rw [sameMove]
    exact booked.move
  · rw [sameMove]
    exact booked.moved
  · rw [same]
    exact booked.inTime

theorem log_append {log more : List Entry} {place : ℕ} {entry : Entry}
    (found : log[place]? = some entry) : (log ++ more)[place]? = some entry := by
  have inside := (List.getElem?_eq_some_iff.mp found).1
  rw [List.getElem?_append_left inside]
  exact found

/-! ## A primitive that runs -/

/-- The events of an invocation: the call and, where it was abandoned, that. -/
def invokeEvents (call : Invoked) (ending : Ending) : List RunEvent :=
  match ending with
  | .abandoned => [.invoked call, .abandoned call.name]
  | _ => [.invoked call]

theorem invoke_spec (s : RunState) (name : String) (arguments : Arguments) (move : ℚ)
    (met : Circumstances) :
    let next := (invoke s name arguments move met).1
    let call : Invoked := ⟨s.log.length, name, arguments, move, met.time⟩
    next.events = s.events ++ invokeEvents call met.ending ∧
      next.calls = s.calls + 1 ∧
      (∃ entry, next.log = s.log ++ [entry] ∧ entry.name = name ∧ entry.arguments = arguments) ∧
      next.moved =
        (match met.ending with
          | .returned _ => s.moved + move
          | _ => s.moved) ∧
      next.abandoned =
        (match met.ending with
          | .abandoned => some name
          | _ => s.abandoned) := by
  intro next call
  cases isEnding : met.ending with
  | abandoned | raised text =>
    simp only [next, call, invoke, isEnding, invokeEvents]
    exact ⟨trivial, trivial, ⟨_, rfl, rfl, rfl⟩, trivial, trivial⟩
  | returned cancelled =>
    by_cases still : move = 0
    · simp only [next, call, invoke, isEnding, invokeEvents, if_pos still]
      refine ⟨trivial, trivial, ⟨_, rfl, rfl, rfl⟩, ?_, trivial⟩
      rw [still, add_zero]
    · simp only [next, call, invoke, isEnding, invokeEvents, if_neg still]
      exact ⟨trivial, trivial, ⟨_, rfl, rfl, rfl⟩, trivial, trivial⟩

theorem calls_invokeEvents (call : Invoked) (ending : Ending) :
    (invokeEvents call ending).filterMap RunEvent.call = [call] := by
  cases ending with
  | _ => rfl

theorem invocations_invoke (s : RunState) (name : String) (arguments : Arguments) (move : ℚ)
    (met : Circumstances) :
    (invoke s name arguments move met).1.invocations =
      s.invocations ++ [⟨s.log.length, name, arguments, move, met.time⟩] := by
  rw [RunState.invocations, (invoke_spec s name arguments move met).1, List.filterMap_append,
    calls_invokeEvents, RunState.invocations]

theorem accounted_invoke (accounted : Accounted settings s)
    (going : ∀ event ∈ s.events, event.ends = false)
    (below : s.calls < settings.maxCalls) (name : String)
    (arguments : Arguments) (move : ℚ) (met : Circumstances) :
    Accounted settings (invoke s name arguments move met).1 := by
  obtain ⟨isEvents, isCalls, ⟨entry, isLog, sameName, sameArguments⟩, _, _⟩ :=
    invoke_spec s name arguments move met
  have isInvocations := invocations_invoke s name arguments move met
  have counted := accounted.counted
  refine ⟨?_, ?_, ?_, ?_, ?_⟩
  · rw [isInvocations, List.length_append, List.length_singleton]
    push_cast
    omega
  · rw [isEvents]
    refine List.pairwise_append.mpr ⟨accounted.nothingAfter, ?_, ?_⟩
    · cases met.ending with
      | abandoned => exact List.pairwise_pair.mpr (fun ends => by cases ends)
      | _ => exact List.pairwise_singleton _ _
    · intro earlier isEarlier later _ ends
      rw [going earlier isEarlier] at ends
      cases ends
  · rw [isInvocations, isLog]
    intro call member
    rcases List.mem_append.mp member with old | new
    · obtain ⟨other, isOther, same⟩ := accounted.logged call old
      exact ⟨other, log_append isOther, same⟩
    · rw [List.mem_singleton.mp new]
      exact ⟨entry, List.getElem?_concat_length, sameName, sameArguments⟩
  · rw [isInvocations, List.map_append]
    refine List.nodup_append.mpr
      ⟨accounted.apart, List.nodup_cons.mpr ⟨List.not_mem_nil, List.nodup_nil⟩, ?_⟩
    intro place isPlace other isOther same
    obtain ⟨call, member, rfl⟩ := List.mem_map.mp isPlace
    obtain ⟨old, isOld, _⟩ := accounted.logged call member
    have inside := (List.getElem?_eq_some_iff.mp isOld).1
    rw [List.map_singleton, List.mem_singleton] at isOther
    rw [same, isOther] at inside
    exact absurd inside (Nat.lt_irrefl _)
  · rw [isCalls, isInvocations, List.length_append, List.length_singleton]
    push_cast
    rw [counted]

/-- The translation is within the cap when it is invoked, and booked when the
primitive returns or does not move. -/
theorem booked_invoke (booked : Booked settings s) (running : s.abandoned = none) (name : String)
    (arguments : Arguments) {move : ℚ} {met : Circumstances}
    (fits : ∀ cap, settings.maxMoveM = some cap → move = 0 ∨ s.moved + move ≤ cap + slack)
    (returns : ∀ text, met.ending = .raised text → settings.maxMoveM.isSome = true → move = 0)
    (inTime : met.time < settings.deadline) :
    Booked settings (invoke s name arguments move met).1 := by
  obtain ⟨_, _, _, isMoved, isAbandoned⟩ := invoke_spec s name arguments move met
  have isInvocations := invocations_invoke s name arguments move met
  have isSum : (invoke s name arguments move met).1.invokedMove = s.invokedMove + move := by
    rw [RunState.invokedMove, isInvocations, List.map_append, List.sum_append,
      List.map_singleton, List.sum_singleton, RunState.invokedMove]
  refine ⟨?_, ?_, ?_⟩
  · intro cap isCap
    rw [isSum]
    rcases fits cap isCap with rfl | within_
    · rw [add_zero]
      exact booked.move cap isCap
    · rw [← booked.moved cap isCap running]
      exact within_
  · intro cap isCap stillRunning
    rw [isSum, isMoved]
    rw [isAbandoned] at stillRunning
    have before := booked.moved cap isCap running
    cases isEnding : met.ending with
    | abandoned =>
      rw [isEnding] at stillRunning
      cases stillRunning
    | raised text =>
      have still := returns text isEnding (by rw [isCap]; rfl)
      simp only [before, still, add_zero]
    | returned cancelled => simp only [before]
  · rw [isInvocations]
    intro call member
    rcases List.mem_append.mp member with old | new
    · exact booked.inTime call old
    · rw [List.mem_singleton.mp new]
      exact inTime

/-! ## An iteration -/

structure Running (settings : Settings) (s : RunState) : Prop where
  accounted : Accounted settings s
  going : Going s
  running : s.abandoned = none

theorem accounted_call (accounted : Accounted settings s)
    (open_ : ∀ event ∈ s.events, event.ends = false) (name : String)
    (arguments : Arguments) (met : Circumstances) :
    Accounted settings (call settings s name arguments met).1 ∧
      Going (call settings s name arguments met).1 := by
  have refused (error : CallError) (refused : Bool) (limit : Option Limit) :
      Accounted settings { s.refuse name arguments error refused with limit := limit } :=
    accounted_same accounted rfl rfl (fun _ entry found => ⟨entry, log_append found, rfl, rfl⟩)
  rcases call_cases settings s name arguments met with
    ⟨error, isRefused, limit, isNext⟩ | isNext |
      ⟨prim, move, _, below, _, _, isNext⟩
  · rw [isNext]
    exact ⟨refused error isRefused limit, fun _ _ => open_⟩
  · rw [isNext]
    have logged := refused .stopped false s.limit
    refine ⟨?_, fun _ aborted => by cases aborted⟩
    exact accounted_same (accounted_see logged .stopSeen rfl) rfl rfl
      (fun _ entry found => ⟨entry, found, rfl, rfl⟩)
  · rw [isNext]
    refine ⟨accounted_invoke accounted open_ below name arguments move met, ?_⟩
    intro stillRunning _
    obtain ⟨isEvents, _, _, _, isAbandoned⟩ := invoke_spec s name arguments move met
    rw [isEvents]
    rw [isAbandoned] at stillRunning
    intro event member
    rcases List.mem_append.mp member with old | new
    · exact open_ event old
    · cases isEnding : met.ending with
      | abandoned =>
        rw [isEnding] at stillRunning
        cases stillRunning
      | _ =>
        rw [isEnding] at new
        rw [List.mem_singleton.mp new]
        rfl

theorem accounted_afterCall (accounted : Accounted settings s) (going : Going s) (t : Turn)
    (name : String) :
    Accounted settings (afterCall settings t s name).1 ∧
      ((afterCall settings t s name).2 = none →
        Running settings (afterCall settings t s name).1) := by
  rw [afterCall]
  split
  · exact ⟨accounted, fun none_ => by cases none_⟩
  · rename_i running
    split
    · exact ⟨accounted_see accounted .timeoutSeen rfl, fun none_ => by cases none_⟩
    · split
      · exact ⟨accounted_see accounted .abortSeen rfl, fun none_ => by cases none_⟩
      · rename_i _ noAbort
        have isOpen := going running (by simpa using noAbort)
        dsimp only
        by_cases crosses : t.crosses = true
        · rw [if_pos crosses]
          exact ⟨accounted, fun _ => ⟨accounted, going, running⟩⟩
        · rw [if_neg crosses]
          have kept :
              Accounted settings
                { s with
                  log :=
                    s.log.modify (s.log.length - 1) fun entry =>
                      { entry with error := some (.cannotCross name) } } := by
            refine accounted_same accounted rfl rfl ?_
            intro place entry found
            rw [List.getElem?_modify, found]
            simp only [Option.map_eq_map, Option.map_some]
            split
            · exact ⟨_, rfl, rfl, rfl⟩
            · exact ⟨_, rfl, rfl, rfl⟩
          exact ⟨kept, fun _ => ⟨kept, fun _ _ => isOpen, running⟩⟩

def flagged (before : RunState) (t : Turn) : RunState :=
  { before with
    stopIssued := before.stopIssued || t.stopIssued
    abort := before.abort || t.aborted }

theorem serveTurn_cases (settings : Settings) (before : RunState) (t : Turn) :
    (∃ event outcome, event.ends = true ∧
      serveTurn settings before t = ((flagged before t).see event, some outcome)) ∨
      (∃ done outcome,
        serveTurn settings before t = ({ flagged before t with done := done }, outcome)) ∨
      ∃ name arguments deep, t.message = .call name arguments deep ∧
        t.now < settings.deadline ∧ (flagged before t).abort = false ∧
        serveTurn settings before t =
          afterCall settings t (call settings (flagged before t) name arguments t.met).1 name := by
  rw [serveTurn]
  dsimp only
  split
  · exact .inl ⟨.timeoutSeen, _, rfl, rfl⟩
  · rename_i inTime
    split
    · exact .inl ⟨.abortSeen, _, rfl, rfl⟩
    · rename_i noAbort
      split
      · exact .inr (.inl ⟨before.done, _, rfl⟩)
      · exact .inr (.inl ⟨before.done, _, rfl⟩)
      · exact .inr (.inl ⟨before.done, _, rfl⟩)
      · split
        · exact .inr (.inl ⟨before.done, _, rfl⟩)
        · exact .inr (.inl ⟨before.done, _, rfl⟩)
        · exact .inr (.inl ⟨before.done, _, rfl⟩)
        · rename_i fields _
          exact .inr (.inl ⟨some fields, _, rfl⟩)
        · rename_i name arguments deep isMessage
          split
          · exact .inr (.inl ⟨before.done, _, rfl⟩)
          · refine .inr (.inr ⟨name, arguments, deep, isMessage, ?_, ?_, rfl⟩)
            · simp only [Bool.or_eq_true, decide_eq_true_eq, not_or] at inTime
              exact not_le.mp inTime.2
            · simpa [flagged] using noAbort

variable {before : RunState}

theorem accounted_turn (running : Running settings before) (t : Turn) :
    Accounted settings (serveTurn settings before t).1 ∧
      ((serveTurn settings before t).2 = none →
        Running settings (serveTurn settings before t).1) := by
  have kept : Accounted settings (flagged before t) :=
    accounted_same running.accounted rfl rfl (fun _ entry found => ⟨entry, found, rfl, rfl⟩)
  have notAborted : (flagged before t).abort = false → before.abort = false := by
    intro same
    exact (Bool.or_eq_false_iff.mp same).1
  rcases serveTurn_cases settings before t with
    ⟨event, outcome, ends, isNext⟩ | ⟨done, outcome, isNext⟩ |
      ⟨name, arguments, deep, _, _, noAbort, isNext⟩
  · rw [isNext]
    exact ⟨accounted_see kept event ends, fun none_ => by cases none_⟩
  · rw [isNext]
    have same : Accounted settings { flagged before t with done := done } :=
      accounted_same kept rfl rfl (fun _ entry found => ⟨entry, found, rfl, rfl⟩)
    refine ⟨same, fun _ => ⟨same, ?_, running.running⟩⟩
    intro stillRunning aborted
    exact running.going stillRunning (notAborted aborted)
  · rw [isNext]
    have open_ := running.going running.running (notAborted noAbort)
    obtain ⟨called, going⟩ := accounted_call kept open_ name arguments t.met
    exact accounted_afterCall called going t name

/-- The clock does not pass the deadline between the check at the top of the
loop and the start of the primitive, and a primitive that commands a
translation under a cap does not raise. -/
def Orderly (settings : Settings) (t : Turn) : Prop :=
  match t.message with
  | .call name arguments _ =>
    (t.now < settings.deadline → t.met.time < settings.deadline) ∧
      ∀ text prim move, t.met.ending = .raised text → settings.byName name = some prim →
        estimate prim arguments = .ok move →
        settings.maxMoveM.isSome = true → move = 0
  | _ => True

theorem booked_afterCall (booked : Booked settings s) (t : Turn) (name : String) :
    Booked settings (afterCall settings t s name).1 := by
  rw [afterCall]
  split
  · exact booked
  · split
    · exact booked_see booked .timeoutSeen rfl
    · split
      · exact booked_see booked .abortSeen rfl
      · dsimp only
        split
        · exact booked
        · exact booked_same booked rfl rfl rfl

theorem booked_turn (booked : Booked settings before) (running : before.abandoned = none)
    {t : Turn} (orderly : Orderly settings t) :
    Booked settings (serveTurn settings before t).1 := by
  have kept : Booked settings (flagged before t) := booked_same booked rfl rfl rfl
  rcases serveTurn_cases settings before t with
    ⟨event, outcome, ends, isNext⟩ | ⟨done, outcome, isNext⟩ |
      ⟨name, arguments, deep, isMessage, inTime, _, isNext⟩
  · rw [isNext]
    exact booked_see kept event ends
  · rw [isNext]
    exact booked_same kept rfl rfl rfl
  · rw [isNext]
    rw [Orderly, isMessage] at orderly
    obtain ⟨starts, returns⟩ := orderly
    refine booked_afterCall ?_ t name
    rcases call_cases settings (flagged before t) name arguments t.met with
      ⟨error, isRefused, limit, isCall⟩ | isCall |
        ⟨prim, move, isPrim, _, isMove, fits, isCall⟩
    · rw [isCall]
      exact booked_same kept rfl rfl rfl
    · rw [isCall]
      exact booked_same (booked_see kept .stopSeen rfl) rfl rfl rfl
    · rw [isCall]
      refine booked_invoke kept running name arguments fits ?_ (starts inTime)
      intro text isRaised capped
      exact returns text prim move isRaised isPrim isMove capped

/-! ## Whole runs -/

theorem accounted_serve (running : Running settings s) (turns : List Turn) :
    Accounted settings (serve settings s turns).1 := by
  induction turns generalizing s with
  | nil => exact running.accounted
  | cons t rest ih =>
    obtain ⟨accounted, goesOn⟩ := accounted_turn running t
    rw [serve]
    split
    · rename_i next outcome isNext
      rwa [isNext] at accounted
    · rename_i next isNext
      rw [isNext] at goesOn
      exact ih (goesOn rfl)

theorem booked_serve (running : Running settings s) (booked : Booked settings s)
    {turns : List Turn} (orderly : ∀ t ∈ turns, Orderly settings t) :
    Booked settings (serve settings s turns).1 := by
  induction turns generalizing s with
  | nil => exact booked
  | cons t rest ih =>
    have goesOn := (accounted_turn running t).2
    have bookedNext := booked_turn booked running.running (orderly t List.mem_cons_self)
    rw [serve]
    split
    · rename_i next outcome isNext
      rwa [isNext] at bookedNext
    · rename_i next isNext
      rw [isNext] at goesOn bookedNext
      exact ih (goesOn rfl) bookedNext
        (fun other member => orderly other (List.mem_cons_of_mem t member))

theorem running_start (settings : Settings) : Running settings .start where
  accounted :=
    { calls := le_max_right _ _
      nothingAfter := List.Pairwise.nil
      logged := fun _ member => absurd member List.not_mem_nil
      apart := List.nodup_nil
      counted := rfl }
  going := fun _ _ _ member => absurd member List.not_mem_nil
  running := rfl

theorem slack_nonneg : 0 ≤ slack := by
  rw [slack]
  norm_num

theorem booked_start (settings : Settings) : Booked settings .start where
  move := by
    intro cap isCap
    have nonneg := settings.capNonnegative cap isCap
    have some_ := slack_nonneg
    have nothing : RunState.start.invokedMove = 0 := rfl
    rw [nothing]
    linarith
  moved := fun _ _ _ => rfl
  inTime := fun _ member => absurd member List.not_mem_nil

/-- Whatever the program sends and however the primitives end, no more calls
are invoked than the budget has, none after the run saw an end, and every one
is logged and counted.  The translation cap and the deadline hold as well while
the iterations are orderly. -/
theorem serve_bounded (settings : Settings) (turns : List Turn)
    (orderly : ∀ t ∈ turns, Orderly settings t) :
    Bounded settings (serve settings .start turns).1 :=
  bounded_of_accounted (accounted_serve (running_start settings) turns)
    (booked_serve (running_start settings) (booked_start settings) orderly)

/-- One primitive that moves a metre per call, with a metre to go. -/
def metreSettings : Settings where
  allowed := [⟨"move", some fun _ => .ok (.finite 1), none⟩]
  maxCalls := 5
  maxMoveM := some 1
  deadline := 60
  capNonnegative := by
    intro cap isCap
    cases isCap
    norm_num

def moveTurn (time : ℚ) (ending : Ending) : Turn where
  now := time
  stopIssued := false
  aborted := false
  poll := .ready
  message := .call "move" ⟨[], []⟩ false
  met := ⟨false, time, ending, false, false⟩
  later := time
  crosses := true
  sent := true

theorem orderly_moveTurn {time : ℚ} {cancelled : Bool} :
    Orderly metreSettings (moveTurn time (.returned cancelled)) :=
  ⟨id, fun _ _ _ raises => by cases raises⟩

theorem serve_bounded_metre :
    Bounded metreSettings
      (serve metreSettings .start [moveTurn 1 (.returned false), moveTurn 2 (.returned true)]).1 :=
  serve_bounded metreSettings [moveTurn 1 (.returned false), moveTurn 2 (.returned true)]
    (by
      intro t member
      rcases List.mem_cons.mp member with rfl | rest
      · exact orderly_moveTurn
      · rw [List.mem_singleton.mp rest]
        exact orderly_moveTurn)

/-- A primitive that raises after moving is not booked, so the program moves a
metre once more. -/
theorem raised_moves_unbooked :
    let run := serve metreSettings .start
      [moveTurn 1 (.raised "stalled"), moveTurn 2 (.raised "stalled")]
    run.1.invokedMove = 2 ∧ ¬Bounded metreSettings run.1 := by
  intro run
  have isMove : run.1.invokedMove = 2 := by decide +kernel
  refine ⟨isMove, ?_⟩
  intro bounded
  have within_ := bounded.move 1 rfl
  rw [isMove, slack] at within_
  norm_num at within_

end PiEmbodied.Services
