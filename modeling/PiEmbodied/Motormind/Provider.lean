import PiEmbodied.Motormind.Mission

/-!
# The mission's provider

Every turn of the agent is one step of the mission generator: the provider finds
the result of its pending tool call at the end of the context, resumes the
generator with it, and answers with the next robot call.  A result already
answered gets the message it was answered with.  A pending call the robot's
closed loop refused is answered with an observe, after which it is reissued.
-/

namespace PiEmbodied.Motormind

/-! ## Calls and messages -/

inductive MmCall where
  | mm_observe (args why : String)
  | mm_act (args label : String)
deriving DecidableEq

def MmCall.tool : MmCall → String
  | .mm_observe _ _ => "mm_observe"
  | .mm_act _ _ => "mm_act"

def MmCall.args : MmCall → String
  | .mm_observe args _ | .mm_act args _ => args

structure ToolCall where
  (id name arguments : String)
deriving DecidableEq

structure ToolResult where
  toolCallId : String
  isError : Bool
  text : String
deriving DecidableEq

inductive Message where
  | user (text : String)
  | assistant (call : Option ToolCall)
  | toolResult (result : ToolResult)
deriving DecidableEq

def Message.isUser : Message → Bool
  | .user _ => true
  | _ => false

structure Pending where
  id : String
  call : MmCall
  consumed : Bool
deriving DecidableEq

structure MissionRun where
  turns : ℕ
  pending : Option Pending
  /-- The call each consumed result (by its tool call id; `""` for the opening
  message) was answered with, the latest first. -/
  answers : List (String × ToolCall)
  /-- The call to reissue after a reconciliation observe. -/
  reissue : Option MmCall
  ended : Option MissionEnd
  (finished aborted : Bool)
deriving DecidableEq

def startRun : MissionRun where
  turns := 0
  pending := none
  answers := []
  reissue := none
  ended := none
  finished := false
  aborted := false

structure Provider where
  configError : Option String
  session : Bool
  run : Option MissionRun
deriving DecidableEq

def startProvider : Provider where
  configError := none
  session := true
  run := none

inductive TurnKind where
  | opening
  | pending_result (result : ToolResult) (pending : Pending)
  /-- Answered already, under this key. -/
  | answered (key : String)
  | other
deriving DecidableEq

def classify (messages : List Message) (pending : Option Pending)
    (answered : List String) (started : Bool) : TurnKind :=
  match messages.getLast? with
  | none => .other
  | some (.user _) =>
    if started then
      if messages.countP Message.isUser = 1 then .answered "" else .other
    else .opening
  | some (.assistant _) => .other
  | some (.toolResult result) =>
    match pending.filter (·.id = result.toolCallId) with
    | some pending => .pending_result result pending
    | none =>
      if result.toolCallId ∈ answered then .answered result.toolCallId
      else .other

/-- A closed-loop refusal of a motion: the previous motion's outcome is
unknown.  Both phrases stand on one line, in any case. -/
def isClosedLoopRefusal (text : String) : Bool :=
  let lower := text.toList.map Char.toLower
  let opens := "refused: the last motion ".toList
  let closes := " has an unknown outcome".toList
  lower.tails.any fun rest =>
    opens.isPrefixOf rest &&
      ((rest.drop opens.length).takeWhile fun c =>
          c ∉ ['\n', '\r', '\u2028', '\u2029']).tails.any
        (closes.isPrefixOf ·)

/-! ## One turn -/

inductive MissionStep where
  | yielded (call : MmCall)
  | returned (ending : MissionEnd)
  | threw (why : String)
deriving DecidableEq

structure ProviderTurn where
  messages : List Message
  /-- The robot published its handle. -/
  handle : Bool
  /-- The turn's signal is aborted by the time the generator settles. -/
  aborted : Bool
  step : MissionStep
deriving DecidableEq

inductive TurnAnswer where
  | said (call : ToolCall)
  | static
  | failed (why : String) (aborted : Bool)
deriving DecidableEq

inductive EmitCause where
  | mission | reconcile | reissue
deriving DecidableEq

/-- What passes between the provider, the generator and the agent. -/
inductive DriveEvent where
  /-- The generator is resumed with the result of this key. -/
  | resumed (key : String)
  | yielded (call : MmCall)
  | refused (id : String) (call : MmCall)
  | emitted (id : String) (call : MmCall) (cause : EmitCause)
deriving DecidableEq

def toolId (n : ℕ) : String := "motormind-" ++ toString n

def toolCallOf (call : MmCall) (n : ℕ) : ToolCall where
  id := toolId n
  name := call.tool
  arguments := call.args

/-- Answer `key` with a robot call. -/
def MissionRun.emit (r : MissionRun) (key : String) (call : MmCall) :
    MissionRun :=
  { r with
    turns := r.turns + 1
    answers := (key, toolCallOf call (r.turns + 1)) :: r.answers
    pending := some ⟨toolId (r.turns + 1), call, false⟩ }

def MissionStatus.text : MissionStatus → String
  | .task_done => "task_done"
  | .exhausted => "exhausted"
  | .gave_up => "gave_up"
  | .aborted => "aborted"
  | .timeout => "timeout"
  | .cancelled => "cancelled"
  | .error => "error"

/-- The `finish` call: its status, then its summary. -/
def finishCall (ending : MissionEnd) (n : ℕ) : ToolCall where
  id := toolId n
  name := "finish"
  arguments :=
    (if ending.status = .task_done then "success" else "failure") ++ "; " ++
      ending.status.text ++ " (" ++ ending.ended_on ++ "): " ++ ending.summary

/-- Answer `key` with `finish`. -/
def MissionRun.emitFinish (r : MissionRun) (key : String) (ending : MissionEnd) : MissionRun :=
  { r with
    turns := r.turns + 1
    answers := (key, finishCall ending (r.turns + 1)) :: r.answers
    pending := none
    ended := some ending
    finished := true }

/-- Resume the generator with the reply for `key`, and answer with what it
does. -/
def MissionRun.resume (r : MissionRun) (key : String) (t : ProviderTurn) :
    MissionRun × TurnAnswer × List DriveEvent :=
  match t.step with
  | .threw why =>
    ({ r with
        ended := some ⟨.error, "mission_threw", why⟩
        finished := true
        aborted := r.aborted || t.aborted },
      .failed ("motormind: " ++ why) t.aborted, [.resumed key])
  | .returned ending =>
    if t.aborted then
      ({ r with aborted := true }, .failed "aborted" true, [.resumed key])
    else
      (r.emitFinish key ending, .said (finishCall ending (r.turns + 1)), [.resumed key])
  | .yielded call =>
    if t.aborted then
      -- the generator moved on, and its call goes nowhere
      ({ r with aborted := true }, .failed "aborted" true, [.resumed key, .yielded call])
    else
      (r.emit key call, .said (toolCallOf call (r.turns + 1)),
        [.resumed key, .yielded call, .emitted (toolId (r.turns + 1)) call .mission])

def MissionRun.reconciled (r : MissionRun) (result : ToolResult) (pending : Pending) :
    Option MmCall :=
  r.reissue.filter fun _ => pending.call.tool = "mm_observe" ∧ !result.isError

def ToolResult.refused (result : ToolResult) : Bool :=
  result.isError && result.text ≠ "" && isClosedLoopRefusal result.text

/-- The result of the pending call: reconciled, refused, or the mission's. -/
def MissionRun.onResult (r : MissionRun) (result : ToolResult) (pending : Pending)
    (t : ProviderTurn) : MissionRun × TurnAnswer × List DriveEvent :=
  let r := { r with pending := some { pending with consumed := true } }
  match r.reconciled result pending with
  | some call =>
    -- the world is known again: the refused call goes out as it was
    (({ r with reissue := none }).emit result.toolCallId call,
      .said (toolCallOf call (r.turns + 1)),
      [.emitted (toolId (r.turns + 1)) call .reissue])
  | none =>
    if result.refused then
      let look : MmCall := .mm_observe "{}" "reconcile"
      (({ r with reissue := some pending.call }).emit result.toolCallId look,
        .said (toolCallOf look (r.turns + 1)),
        [.refused pending.id pending.call, .emitted (toolId (r.turns + 1)) look .reconcile])
    else r.resume result.toolCallId t

def Provider.kind (p : Provider) (t : ProviderTurn) : TurnKind :=
  classify t.messages (p.run.bind (·.pending)) ((p.run.map fun r => r.answers.map Prod.fst).getD [])
    p.run.isSome

def NO_HANDLE : String :=
  "motormind: the robot published no MotorMind handle (is --mm on and the robot up?)"

def turn (p : Provider) (t : ProviderTurn) : Provider × TurnAnswer × List DriveEvent :=
  match p.configError with
  | some why => (p, .failed why false, [])
  | none =>
    if !p.session then (p, .failed "motormind: no session" false, [])
    else
      let r := p.run.getD startRun
      match p.kind t with
      | .other => (p, .static, [])
      | .answered key =>
        -- the agent retries the turn: the mission does not advance
        match r.answers.lookup key with
        | some was => (p, .said was, [])
        | none => (p, .failed "motormind: no answer recorded for this context" false, [])
      | .opening =>
        if !t.handle then
          ({ p with run := some r }, .failed NO_HANDLE false, [])
        else
          let next := r.resume "" t
          ({ p with run := some next.1 }, next.2.1, next.2.2)
      | .pending_result result pending =>
        if !t.handle then (p, .failed NO_HANDLE false, [])
        else if r.finished then (p, .static, [])
        else
          let next := r.onResult result pending t
          ({ p with run := some next.1 }, next.2.1, next.2.2)

/-- The turns of a session, with everything that passed so far. -/
def drive (state : Provider × List DriveEvent) (t : ProviderTurn) : Provider × List DriveEvent :=
  let next := turn state.1 t
  (next.1, state.2 ++ next.2.2)

def DriveEvent.resumedKey : DriveEvent → Option String
  | .resumed key => some key
  | _ => none

def DriveEvent.yieldedCall : DriveEvent → Option MmCall
  | .yielded call => some call
  | _ => none

/-- The call of a message that carries the mission's own yield. -/
def DriveEvent.missionCall : DriveEvent → Option MmCall
  | .emitted _ call .mission => some call
  | _ => none

def resumedKeys (trace : List DriveEvent) : List String :=
  trace.filterMap DriveEvent.resumedKey

def refusals (call : MmCall) (trace : List DriveEvent) : ℕ :=
  trace.countP fun
    | .refused _ refusedCall => refusedCall = call
    | _ => false

def reissues (call : MmCall) (trace : List DriveEvent) : ℕ :=
  trace.countP fun
    | .emitted _ emittedCall .reissue => emittedCall = call
    | _ => false

/-- Each result resumes the generator at most once; the mission's yields go out
once each, in order; and a call goes out again only for a refusal of its own
that no earlier reissue used. -/
structure ExactlyOnce (trace : List DriveEvent) : Prop where
  resumedOnce : (resumedKeys trace).Nodup
  emittedInOrder : trace.filterMap DriveEvent.missionCall = trace.filterMap DriveEvent.yieldedCall
  reissuedAfterRefusal :
    ∀ before, before <+: trace → ∀ call, reissues call before ≤ refusals call before

def resumesMission (p : Provider) (t : ProviderTurn) : Bool :=
  p.configError.isNone && p.session && t.handle &&
    match p.kind t with
    | .opening => true
    | .pending_result result pending =>
      let r := p.run.getD startRun
      !r.finished && (r.reconciled result pending).isNone && !result.refused
    | _ => false

/-- The turn is aborted by the time the generator it resumed settles. -/
def cutOff (p : Provider) (t : ProviderTurn) : Bool :=
  resumesMission p t && t.aborted &&
    match t.step with
    | .threw _ => false
    | _ => true

theorem toolId_injective : Function.Injective toolId := by
  intro n m equal
  have sameDigits : Nat.toDigits 10 n = Nat.toDigits 10 m := by
    have sameList := congrArg String.toList equal
    simpa [toolId, Nat.toString_eq_ofList_toDigits] using sameList
  calc
    n = Nat.ofDigitChars 10 (Nat.toDigits 10 n) 0 := Nat.ofDigitChars_ten_toDigits.symm
    _ = Nat.ofDigitChars 10 (Nat.toDigits 10 m) 0 := by rw [sameDigits]
    _ = m := Nat.ofDigitChars_ten_toDigits

theorem toolId_ne_empty (n : ℕ) : toolId n ≠ "" := by
  intro equal
  have sameList := congrArg String.toList equal
  simp [toolId] at sameList

/-! ## One turn keeps the law -/

structure Driven (r : MissionRun) (trace : List DriveEvent) : Prop where
  law : ExactlyOnce trace
  resumedOld : ∀ key ∈ resumedKeys trace, key = "" ∨ ∃ n ≤ r.turns, key = toolId n
  pendingFresh :
    ∀ pending, r.pending = some pending → r.finished = false →
      pending.id = toolId r.turns ∧ pending.id ∉ resumedKeys trace
  reissueBacked :
    ∀ call, reissues call trace + (if r.reissue = some call then 1 else 0) ≤
      refusals call trace

theorem driven_start : Driven startRun [] where
  law :=
    ⟨List.nodup_nil, rfl, fun before isPrefix call => by
      rw [List.prefix_nil.mp isPrefix]
      exact Nat.le_refl 0⟩
  resumedOld := fun _ member => absurd member List.not_mem_nil
  pendingFresh := by
    intro pending isPending
    cases isPending
  reissueBacked := fun call => by simp [startRun, reissues]

theorem prefix_append_cases {α : Type*} {before first second : List α}
    (isPrefix : before <+: first ++ second) :
    before <+: first ∨ ∃ part, part <+: second ∧ before = first ++ part := by
  rcases List.prefix_or_prefix_of_prefix isPrefix
      (List.prefix_append first second) with short | ⟨part, rfl⟩
  · exact .inl short
  · exact .inr ⟨part, (List.prefix_append_right_inj first).mp isPrefix, rfl⟩

@[simp]
theorem resumedKeys_append (first second : List DriveEvent) :
    resumedKeys (first ++ second) = resumedKeys first ++ resumedKeys second :=
  List.filterMap_append

@[simp]
theorem reissues_append (call : MmCall) (first second : List DriveEvent) :
    reissues call (first ++ second) = reissues call first + reissues call second :=
  List.countP_append

@[simp]
theorem refusals_append (call : MmCall) (first second : List DriveEvent) :
    refusals call (first ++ second) = refusals call first + refusals call second :=
  List.countP_append

variable {trace : List DriveEvent}

theorem reissues_mono {before : List DriveEvent} (isPrefix : before <+: trace) (call : MmCall) :
    reissues call before ≤ reissues call trace := by
  obtain ⟨rest, rfl⟩ := isPrefix
  rw [reissues_append]
  exact Nat.le_add_right _ _

variable {r : MissionRun} {events : List DriveEvent}

theorem Driven.backed (driven : Driven r trace) (none : ∀ call, reissues call events = 0) :
    ∀ part, part <+: events → ∀ call,
      reissues call trace + reissues call part ≤ refusals call trace + refusals call part := by
  intro part isPrefix call
  have noReissue := reissues_mono isPrefix call
  have before := driven.reissueBacked call
  have all := none call
  omega

theorem Driven.extend {r next : MissionRun} {trace events : List DriveEvent}
    (driven : Driven r trace) (turns : r.turns ≤ next.turns)
    (once : (resumedKeys trace ++ resumedKeys events).Nodup)
    (old : ∀ key ∈ resumedKeys events, key = "" ∨ ∃ n ≤ next.turns, key = toolId n)
    (inOrder : events.filterMap DriveEvent.missionCall = events.filterMap DriveEvent.yieldedCall)
    (backed :
      ∀ part, part <+: events → ∀ call,
        reissues call trace + reissues call part ≤ refusals call trace + refusals call part)
    (pendingFresh :
      ∀ pending, next.pending = some pending → next.finished = false →
        pending.id = toolId next.turns ∧ pending.id ∉ resumedKeys trace ++ resumedKeys events)
    (reissueBacked :
      ∀ call,
        reissues call trace + reissues call events + (if next.reissue = some call then 1 else 0) ≤
          refusals call trace + refusals call events) :
    Driven next (trace ++ events) where
  law := by
    refine ⟨by rwa [resumedKeys_append], ?_, ?_⟩
    · rw [List.filterMap_append, List.filterMap_append, inOrder, driven.law.emittedInOrder]
    · intro before isPrefix call
      rcases prefix_append_cases isPrefix with
        short | ⟨part, partPrefix, rfl⟩
      · exact driven.law.reissuedAfterRefusal before short call
      · rw [reissues_append, refusals_append]
        exact backed part partPrefix call
  resumedOld := by
    intro key member
    rw [resumedKeys_append] at member
    rcases List.mem_append.mp member with before | now
    · rcases driven.resumedOld key before with empty | ⟨n, bound, same⟩
      · exact .inl empty
      · exact .inr ⟨n, bound.trans turns, same⟩
    · exact old key now
  pendingFresh := by
    intro pending isPending unfinished
    rw [resumedKeys_append]
    exact pendingFresh pending isPending unfinished
  reissueBacked := by
    intro call
    rw [reissues_append, refusals_append]
    exact reissueBacked call

theorem Driven.nextId_fresh (driven : Driven r trace) :
    toolId (r.turns + 1) ∉ resumedKeys trace := by
  intro member
  rcases driven.resumedOld _ member with empty | ⟨n, bound, same⟩
  · exact toolId_ne_empty _ empty
  · have sameTurn := toolId_injective same
    omega

variable {key : String} {t : ProviderTurn}

theorem resume_driven (driven : Driven r trace) (freshKey : key ∉ resumedKeys trace)
    (oldKey : key = "" ∨ ∃ n ≤ r.turns, key = toolId n)
    (settles : t.aborted = true → ∃ why, t.step = .threw why) :
    Driven (r.resume key t).1 (trace ++ (r.resume key t).2.2) := by
  have once : (resumedKeys trace ++ [key]).Nodup := by
    refine List.nodup_append.mpr ⟨driven.law.resumedOnce, List.nodup_singleton key, ?_⟩
    intro other member last isLast
    rw [List.mem_singleton.mp isLast]
    rintro rfl
    exact freshKey member
  have notAborted (goes : ∀ why, t.step ≠ .threw why) : t.aborted = false := by
    by_contra aborted
    obtain ⟨why, threw⟩ := settles (by simpa using aborted)
    exact goes why threw
  have laterKey : ∀ other ∈ [key], other = "" ∨ ∃ n ≤ r.turns + 1, other = toolId n := by
    intro other member
    rw [List.mem_singleton.mp member]
    rcases oldKey with empty | ⟨n, bound, same⟩
    · exact .inl empty
    · exact .inr ⟨n, Nat.le_succ_of_le bound, same⟩
  unfold MissionRun.resume
  cases step : t.step with
  | threw why =>
    dsimp only
    refine driven.extend (Nat.le_refl _) once ?_ rfl
      (driven.backed fun _ => rfl) ?_ driven.reissueBacked
    · intro other member
      rw [List.mem_singleton.mp member]
      exact oldKey
    · intro pending _ unfinished
      cases unfinished
  | returned ending =>
    simp only [notAborted (by simp [step]), Bool.false_eq_true, if_false]
    refine driven.extend (Nat.le_succ _) once laterKey rfl
      (driven.backed fun _ => rfl) ?_ driven.reissueBacked
    · intro pending isPending _
      cases isPending
  | yielded call =>
    simp only [notAborted (by simp [step]), Bool.false_eq_true, if_false]
    refine driven.extend (Nat.le_succ _) once laterKey rfl
      (driven.backed fun _ => rfl) ?_ driven.reissueBacked
    · intro pending isPending _
      cases isPending
      refine ⟨rfl, ?_⟩
      intro member
      rcases List.mem_append.mp member with before | now
      · exact driven.nextId_fresh before
      · have sameKey := List.mem_singleton.mp now
        rcases oldKey with empty | ⟨n, bound, same⟩
        · exact toolId_ne_empty _ (sameKey.trans empty)
        · have sameTurn := toolId_injective (sameKey.trans same)
          omega

variable {pending : Pending}

theorem Driven.consume (driven : Driven r trace) (isPending : r.pending = some pending) :
    Driven { r with pending := some { pending with consumed := true } } trace :=
  { driven with
    pendingFresh := by
      intro other isOther unfinished
      cases isOther
      exact driven.pendingFresh pending isPending unfinished }

variable {call : MmCall}

theorem Driven.emitOwn {reissue : Option MmCall} (driven : Driven r trace)
    (noResume : resumedKeys events = [])
    (noYield : events.filterMap DriveEvent.missionCall = events.filterMap DriveEvent.yieldedCall)
    (backed :
      ∀ part, part <+: events → ∀ call,
        reissues call trace + reissues call part ≤ refusals call trace + refusals call part)
    (reissueBacked :
      ∀ call,
        reissues call trace + reissues call events + (if reissue = some call then 1 else 0) ≤
          refusals call trace + refusals call events) :
    Driven (({ r with reissue := reissue }).emit key call) (trace ++ events) := by
  refine driven.extend (Nat.le_succ _) ?_ ?_ noYield backed ?_ reissueBacked
  · rw [noResume, List.append_nil]
    exact driven.law.resumedOnce
  · intro other member
    rw [noResume] at member
    exact absurd member List.not_mem_nil
  · intro pending isPending _
    cases isPending
    rw [noResume, List.append_nil]
    exact ⟨rfl, driven.nextId_fresh⟩

variable {result : ToolResult}

theorem reconciled_reissue (found : r.reconciled result pending = some call) :
    r.reissue = some call :=
  (Option.filter_eq_some_iff.mp found).1

theorem onResult_driven (driven : Driven r trace) (unfinished : r.finished = false)
    (isPending : r.pending = some pending) (answers : pending.id = result.toolCallId)
    (settles :
      r.reconciled result pending = none → result.refused = false →
        t.aborted = true → ∃ why, t.step = .threw why) :
    Driven (r.onResult result pending t).1 (trace ++ (r.onResult result pending t).2.2) := by
  obtain ⟨currentId, freshId⟩ := driven.pendingFresh pending isPending unfinished
  have consumed := driven.consume isPending
  have sameReissue :
      ({ r with pending := some { pending with consumed := true } }
          : MissionRun).reconciled result pending =
        r.reconciled result pending := rfl
  unfold MissionRun.onResult
  dsimp only
  rw [sameReissue]
  cases found : r.reconciled result pending with
  | some call =>
    dsimp only
    have waiting := reconciled_reissue found
    have room : ∀ other,
        reissues other trace + reissues other [.emitted (toolId (r.turns + 1)) call .reissue] ≤
          refusals other trace := by
      intro other
      have before := driven.reissueBacked other
      simp only [waiting, Option.some.injEq] at before
      simpa [reissues] using before
    refine consumed.emitOwn rfl rfl ?_ ?_
    · intro part isPrefix other
      have fewer := reissues_mono isPrefix other
      have enough := room other
      omega
    · intro other
      have enough := room other
      simpa [refusals] using enough
  | none =>
    dsimp only
    by_cases refused : result.refused = true
    · rw [if_pos refused]
      refine consumed.emitOwn rfl rfl (driven.backed fun _ => rfl) ?_
      intro other
      have before := driven.reissueBacked other
      have gained :
          (if pending.call = other then 1 else 0) ≤
            refusals other
              [.refused pending.id pending.call,
                .emitted (toolId (r.turns + 1)) (.mm_observe "{}" "reconcile") .reconcile] := by
        simp [refusals, List.countP_cons]
      have none :
          reissues other
            [.refused pending.id pending.call,
              .emitted (toolId (r.turns + 1)) (.mm_observe "{}" "reconcile") .reconcile] = 0 := rfl
      simp only [Option.some.injEq]
      omega
    · rw [if_neg refused]
      refine resume_driven consumed ?_ ?_ ?_
      · rwa [← answers]
      · exact .inr ⟨r.turns, Nat.le_refl _, answers ▸ currentId⟩
      · exact settles found (by simpa using refused)

/-! ## A session -/

/-- The session's state and trace agree; nothing passed before the opening
turn. -/
def SessionDriven (state : Provider × List DriveEvent) : Prop :=
  Driven (state.1.run.getD startRun) state.2 ∧ (state.1.run = none → state.2 = [])

variable {messages : List Message} {pending : Option Pending}
  {answered : List String} {started : Bool}

theorem classify_pending {messages : List Message} {pending : Option Pending}
    {answered : List String} {started : Bool} {found : Pending}
    (kind : classify messages pending answered started = .pending_result result found) :
    pending = some found ∧ found.id = result.toolCallId := by
  unfold classify at kind
  split at kind
  · cases kind
  · split_ifs at kind
  · cases kind
  · rename_i last _
    split at kind
    · rename_i waiting isWaiting
      cases kind
      obtain ⟨isPending, sameId⟩ := Option.filter_eq_some_iff.mp isWaiting
      exact ⟨isPending, by simpa using sameId⟩
    · split_ifs at kind

theorem classify_opening (kind : classify messages pending answered started = .opening) :
    started = false := by
  unfold classify at kind
  split at kind
  · cases kind
  · cases started with
    | false => rfl
    | true =>
      simp only [if_true] at kind
      split_ifs at kind
  · cases kind
  · split at kind
    · cases kind
    · split_ifs at kind

theorem drive_driven (state : Provider × List DriveEvent) (t : ProviderTurn)
    (notCut : cutOff state.1 t = false) (driven : SessionDriven state) :
    SessionDriven (drive state t) := by
  obtain ⟨p, trace⟩ := state
  obtain ⟨drivenRun, noTrace⟩ := driven
  have unchanged : SessionDriven (p, trace ++ []) := by
    rw [List.append_nil]
    exact ⟨drivenRun, noTrace⟩
  unfold drive turn
  dsimp only at notCut drivenRun noTrace ⊢
  cases config : p.configError with
  | some why => exact unchanged
  | none =>
    dsimp only
    by_cases session : p.session = true
    · simp only [session, Bool.not_true, Bool.false_eq_true, if_false]
      cases kind : p.kind t with
      | other => exact unchanged
      | answered key =>
        dsimp only
        cases (p.run.getD startRun).answers.lookup key <;>
          exact unchanged
      | opening =>
        have notStarted := Option.isSome_eq_false_iff.mp (classify_opening kind)
        have noRun : p.run = none := Option.isNone_iff_eq_none.mp notStarted
        have empty := noTrace noRun
        rw [noRun] at drivenRun ⊢
        dsimp only [Option.getD_none] at drivenRun ⊢
        by_cases handle : t.handle = true
        · simp only [handle, Bool.not_true, Bool.false_eq_true, if_false]
          refine ⟨?_, fun stillNone => by cases stillNone⟩
          refine resume_driven drivenRun ?_ (.inl rfl) ?_
          · rw [empty]
            exact List.not_mem_nil
          · intro aborted
            cases step : t.step with
            | threw why => exact ⟨why, rfl⟩
            | _ =>
              simp [cutOff, resumesMission, config, session, handle, kind, aborted, step] at notCut
        · simp only [handle, Bool.not_false, if_true]
          refine ⟨?_, fun stillNone => by cases stillNone⟩
          rw [List.append_nil]
          exact drivenRun
      | pending_result result pending =>
        obtain ⟨isPending, sameId⟩ := classify_pending kind
        obtain ⟨r, isRun, waiting⟩ := Option.bind_eq_some_iff.mp isPending
        rw [isRun] at drivenRun ⊢
        dsimp only [Option.getD_some] at drivenRun ⊢
        by_cases handle : t.handle = true
        · simp only [handle, Bool.not_true, Bool.false_eq_true, if_false]
          by_cases finished : r.finished = true
          · rw [if_pos finished]
            exact unchanged
          · rw [if_neg finished]
            refine ⟨?_, fun stillNone => by cases stillNone⟩
            refine onResult_driven drivenRun (by simpa using finished) waiting sameId ?_
            intro notReconciled notRefused aborted
            cases step : t.step with
            | threw why => exact ⟨why, rfl⟩
            | _ =>
              simp [cutOff, resumesMission, config, session, handle,
                kind, isRun, finished, notReconciled, notRefused,
                aborted, step] at notCut
        · simp only [handle, Bool.not_false, if_true]
          exact unchanged
    · simp only [session, Bool.not_false, if_true]
      exact unchanged

def startSession (configError : Option String) (session : Bool) : Provider × List DriveEvent :=
  (⟨configError, session, none⟩, [])

/-- In every session where no turn is aborted while the generator it resumed
runs, the mission is driven exactly once. -/
theorem drive_exactly_once (configError : Option String) (session : Bool)
    (turns : List ProviderTurn)
    (notCut :
      Runs.AllAllowed drive (fun state t => cutOff state.1 t = false)
        (startSession configError session) turns) :
    ExactlyOnce
      (Runs.after drive (startSession configError session) turns).2 := by
  have driven :
      SessionDriven
        (Runs.after drive (startSession configError session) turns) :=
    Runs.after_of_allAllowed drive drive_driven ⟨driven_start, fun _ => rfl⟩ notCut
  exact driven.1.law

private def opened : Message := .user "put the bowl on the plate"

private def act (label : String) : MmCall := .mm_act "{}" label

private def resultTurn (id : String) (aborted : Bool) (call : MmCall) : ProviderTurn where
  messages := [opened, .assistant none, .toolResult ⟨id, false, "{}"⟩]
  handle := true
  aborted := aborted
  step := .yielded call

private def openingTurn : ProviderTurn where
  messages := [opened]
  handle := true
  aborted := false
  step := .yielded (act "reach")

theorem drive_exactly_once_example :
    ExactlyOnce
      (Runs.after drive (startSession none true)
        [openingTurn, resultTurn "motormind-1" false (act "grasp"),
          resultTurn "motormind-1" true (act "lift")]).2 :=
  drive_exactly_once none true _ (by
    refine ⟨by decide, by decide, by decide, trivial⟩)

/-- The turn that answers the first result is aborted after the generator was
resumed, and the agent retries it: the result resumes the generator twice, and
the call yielded in between is never emitted. -/
theorem aborted_turn_loses_call :
    let trace :=
      (Runs.after drive (startSession none true)
        [openingTurn, resultTurn "motormind-1" true (act "grasp"),
          resultTurn "motormind-1" false (act "lift")]).2
    (resumedKeys trace).count "motormind-1" = 2 ∧ .yielded (act "grasp") ∈ trace ∧
      (∀ id cause, .emitted id (act "grasp") cause ∉ trace) ∧
      ¬ ExactlyOnce trace := by
  have ran :
      (Runs.after drive (startSession none true)
        [openingTurn, resultTurn "motormind-1" true (act "grasp"),
          resultTurn "motormind-1" false (act "lift")]).2 =
      [.resumed "", .yielded (act "reach"), .emitted "motormind-1" (act "reach") .mission,
        .resumed "motormind-1", .yielded (act "grasp"),
        .resumed "motormind-1", .yielded (act "lift"),
        .emitted "motormind-2" (act "lift") .mission] := by
    decide
  dsimp only
  rw [ran]
  refine ⟨by decide, by decide, ?_, ?_⟩
  · intro id cause member
    simp [act] at member
  · intro law
    exact absurd law.resumedOnce (by decide)

end PiEmbodied.Motormind
