import PiEmbodied.Capabilities.Operator

/-!
# A persistent policy

A policy conversation works on one goal of the host at a time.  Its document
outlives the process; an observation counts only for the process that made it
and while the world is the one observed.
-/

namespace PiEmbodied.Policy

open Operator (trim)

/-! ## The world -/

structure WorldIdentity where
  (episode revision : String)
  deriving DecidableEq

structure PolicyObservation where
  identity : WorldIdentity
  solved : Bool
  deriving DecidableEq

structure GoalEvent where
  (goalId goal eventId : String)
  input : Option String
  deriving DecidableEq

inductive Status where
  | active
  | waiting
  | success
  | failure
  deriving DecidableEq

structure Goal where
  (id text : String)
  status : Status
  summary : String
  deriving DecidableEq

/-- `JSON.stringify([goalId, eventId])`, which tells both. -/
structure Key where
  (goalId eventId : String)
  deriving DecidableEq

def GoalEvent.key (event : GoalEvent) : Key := ⟨event.goalId, event.eventId⟩

structure Accepted where
  key : Key
  (goal input : String)
  deriving DecidableEq

structure Seen where
  identity : WorldIdentity
  boot : ℕ
  solved : Bool
  deriving DecidableEq

structure LastAction where
  (callId tool episode : String)
  returned : Bool
  deriving DecidableEq

structure PolicyState where
  robot : String := ""
  current : Option String := none
  goals : List Goal := []
  events : List Accepted := []
  memory : String := ""
  requests : ℕ := 0
  actions : ℕ := 0
  observation : Option Seen := none
  lastAction : Option LastAction := none
  deriving DecidableEq

def currentGoal (state : PolicyState) : Option Goal :=
  state.goals.find? fun goal => some goal.id = state.current

/-- The goal of an id set to a status; no two goals have one id. -/
def conclude (goals : List Goal) (id : String) (status : Status) (summary : String) : List Goal :=
  goals.map fun goal =>
    if goal.id = id then { goal with status := status, summary := summary }
    else goal

/-! ## Commits -/

/-- Whether a model request is allowed, counted before it is made. -/
def allow (maxRequests : ℕ) (state : PolicyState) : PolicyState × Bool :=
  match currentGoal state with
  | none => (state, false)
  | some goal =>
    if goal.status ≠ .active then (state, false)
    else if state.requests ≥ maxRequests then
      ({ state with
          goals :=
            conclude state.goals goal.id .waiting
              "Model request budget exhausted; awaiting a host event." },
        false)
    else ({ state with requests := state.requests + 1 }, true)

def assertFresh (boot : ℕ) (now : WorldIdentity) (state : PolicyState) :
    Except String Seen :=
  if (currentGoal state).map Goal.status ≠ some .active then
    .error "no active goal; wait for a host event"
  else
    match state.observation with
    | none =>
      .error
        "observe again before acting or claiming success: the environment or policy runtime changed"
    | some seen =>
      if seen.boot = boot && seen.identity = now then .ok seen
      else
        .error
          "observe again before acting or claiming success: the environment or policy runtime changed"

def commitObserve (boot : ℕ) (observation : PolicyObservation)
    (state : PolicyState) : PolicyState :=
  { state with
    observation := some ⟨observation.identity, boot, observation.solved⟩ }

def commitAct (boot : ℕ) (maxActions : ℕ) (now : WorldIdentity)
    (callId tool : String) (state : PolicyState) : Except String PolicyState :=
  match assertFresh boot now state with
  | .error error => .error error
  | .ok _ =>
    if state.actions ≥ maxActions then
      .error "goal action budget exhausted; finish or wait for operator input"
    else
      .ok
        { state with
          actions := state.actions + 1
          lastAction := some ⟨callId, tool, now.episode, false⟩
          observation := none }

def commitReturned (callId : String) (state : PolicyState) : PolicyState :=
  { state with
    lastAction :=
      state.lastAction.map fun action =>
        if action.callId = callId then { action with returned := true }
        else action }

inductive Conclusion where
  | success
  | failure
  | waiting
  deriving DecidableEq

def Conclusion.status : Conclusion → Status
  | .success => .success
  | .failure => .failure
  | .waiting => .waiting

/-- Success needs a fresh observation of a solved environment. -/
def confirm (boot : ℕ) (now : WorldIdentity) (conclusion : Conclusion)
    (state : PolicyState) : Except String Unit :=
  match conclusion with
  | .success =>
    match assertFresh boot now state with
    | .error error => .error error
    | .ok seen =>
      if seen.solved then .ok ()
      else .error "environment has not confirmed success"
  | _ => .ok ()

def commitFinish (boot : ℕ) (now : WorldIdentity) (conclusion : Conclusion)
    (summary : String) (state : PolicyState) : Except String PolicyState :=
  match currentGoal state with
  | none => .error "no active goal"
  | some goal =>
    if goal.status ≠ .active then .error "no active goal"
    else
      match confirm boot now conclusion state with
      | .error error => .error error
      | .ok () =>
        .ok
          { state with
            goals := conclude state.goals goal.id conclusion.status summary
            observation := none }

def onYield (summary : String) (state : PolicyState) : PolicyState :=
  match currentGoal state with
  | none => state
  | some goal =>
    if goal.status = .active then
      { state with
        goals := conclude state.goals goal.id .waiting summary }
    else state

def mount (robot : String) (state : PolicyState) : Except String PolicyState :=
  if state.robot ≠ "" ∧ state.robot ≠ robot then
    .error "policy store belongs to another robot"
  else .ok { state with robot := robot, observation := none }

def isBlank (text : String) : Bool :=
  (trim text.toList).isEmpty

def GoalEvent.text (event : GoalEvent) : String := event.input.getD ""

def Goal.ended (goal : Goal) : Bool :=
  goal.status = .success || goal.status = .failure

def activate (goals : List Goal) (event : GoalEvent) : Except String (List Goal) :=
  match goals.find? fun goal => goal.id = event.goalId with
  | none => .ok (goals ++ [⟨event.goalId, event.goal, .active, ""⟩])
  | some goal =>
    if goal.text ≠ event.goal ∨ goal.ended = true then
      .error "completed or changed goal requires a new goal ID"
    else
      .ok
        (goals.map fun goal =>
          if goal.id = event.goalId then { goal with status := .active }
          else goal)

def blocks (event : GoalEvent) (current : Option Goal) : Bool :=
  current.any fun goal => goal.id ≠ event.goalId && !goal.ended

def enter (event : GoalEvent) (goals : List Goal) (state : PolicyState) :
    PolicyState :=
  { state with
    goals := goals
    actions :=
      if state.current ≠ some event.goalId then 0 else state.actions
    current := some event.goalId
    requests := 0
    observation := none
    events := state.events ++ [⟨event.key, event.goal, event.text⟩] }

def accept (busy : Bool) (event : GoalEvent) (state : PolicyState) :
    Except String PolicyState :=
  if isBlank event.goalId || isBlank event.eventId || isBlank event.goal then
    .error "goalId, eventId and goal are required"
  else
    match state.events.find? fun accepted => accepted.key = event.key with
    | some existing =>
      if existing.goal ≠ event.goal ∨ existing.input ≠ event.text then
        .error "event ID reused with different content"
      else .ok state
    | none =>
      if busy then
        .error "policy is busy; wait before submitting another event"
      else if blocks event (currentGoal state) then
        .error "finish the current goal before starting another"
      else
        match activate state.goals event with
        | .error error => .error error
        | .ok goals => .ok (enter event goals state)

def resumed (state : PolicyState) : Option GoalEvent :=
  if (currentGoal state).map Goal.status = some .active then
    state.events.getLast?.map fun last =>
      ⟨last.key.goalId, last.goal, last.key.eventId, some last.input⟩
  else none

/-! ## Processes -/

/-- What outlives a process: the document, whether a run is under way, and the
admitted requests. -/
structure Store where
  state : PolicyState
  run : Bool
  admitted : List Key
  deriving DecidableEq

/-- Where the run of a conversation is: tools run one after another. -/
inductive Doing where
  | idle
  /-- A request is counted and not made yet. -/
  | requesting
  /-- An observation is made and not committed yet. -/
  | observed (observation : PolicyObservation)
  /-- An action is committed and not dispatched yet. -/
  | acting (callId : String) (expected : WorldIdentity)
  | dispatched (callId : String)
  deriving DecidableEq

structure Process where
  boot : ℕ
  robot : String
  /-- The names of the enabled primitives. -/
  actions : List String
  (maxRequests maxActions : ℕ)
  mounted : Bool
  doing : Doing
  /-- Events whose first commit is done. -/
  submitting : List Key
  deriving DecidableEq

/-- What happened, with the process, and the identity of the world then. -/
inductive Happened where
  | observed (boot : ℕ) (identity : WorldIdentity) (solved : Bool)
  | dispatched (boot : ℕ) (identity : WorldIdentity) (goal : Option String)
      (maxActions : ℕ)
  /-- A model request after so many accepted events. -/
  | requested (accepted : ℕ) (maxRequests : ℕ)
  deriving DecidableEq

structure System where
  store : Store
  process : Option Process
  world : WorldIdentity
  boots : ℕ
  log : List Happened
  deriving DecidableEq

inductive Event where
  /-- A step of the world, or a reset. -/
  | world (identity : WorldIdentity)
  | openPolicy (robot : String) (actions : List String)
      (maxRequests maxActions : ℕ)
  /-- The commit that binds the store to the robot. -/
  | mount
  /-- The process is closed or crashes. -/
  | close
  | submit (event : GoalEvent)
  | resume
  /-- The second commit of a submitted event. -/
  | admission (key : Key)
  /-- The commit before a request of `streamSimple`. -/
  | allow
  | request
  /-- A request of `completeSimple`, the summary of a compaction. -/
  | complete
  | observe (observation : PolicyObservation)
  | commitObserve
  | act (callId tool : String)
  | dispatch
  | returned (isError : Bool)
  | finish (conclusion : Conclusion) (summary : String)
  | remember (memory : String)
  | yield (summary : String)
  | endRun
  deriving DecidableEq

namespace System

def inState (system : System) (state : PolicyState) : System :=
  { system with store := { system.store with state := state } }

def doing (system : System) (process : Process) (doing : Doing) : System :=
  { system with process := some { process with doing := doing } }

def happens (system : System) (happened : Happened) : System :=
  { system with log := system.log ++ [happened] }

end System

/-- A host's call of `submit` up to its first commit. -/
def submitTo (system : System) (process : Process) (event : GoalEvent) :
    System :=
  if process.mounted then
    match accept system.store.run event system.store.state with
    | .error _ => system
    | .ok state =>
      { system.inState state with
        process :=
          some
            { process with
              submitting := process.submitting ++ [event.key] } }
  else system

/-- The second commit: a request is admitted once, and rejected while a run is
under way. -/
def admitTo (store : Store) (key : Key) : Store :=
  if key ∈ store.admitted then store
  else if store.run then store
  else { store with run := true, admitted := store.admitted ++ [key] }

/-- A tool or a model request of the run under way, one at a time. -/
def runs (system : System) (process : Process) : Bool :=
  system.store.run && process.doing = .idle

def stepIn (system : System) (process : Process) : Event → System
  | .world identity => { system with world := identity }
  | .openPolicy _ _ _ _ => system
  | .mount =>
    match mount process.robot system.store.state with
    | .error _ => { system with process := none }
    | .ok state =>
      { system.inState state with
        process := some { process with mounted := true } }
  | .close => { system with process := none }
  | .submit event => submitTo system process event
  | .resume =>
    match resumed system.store.state with
    | none => system
    | some event => submitTo system process event
  | .admission key =>
    if key ∈ process.submitting then
      { system with store := admitTo system.store key }
    else system
  | .allow =>
    if runs system process then
      match allow process.maxRequests system.store.state with
      | (state, false) => system.inState state
      | (state, true) => (system.inState state).doing process .requesting
    else system
  | .request =>
    if process.doing = .requesting then
      (system.doing process .idle).happens
        (.requested system.store.state.events.length process.maxRequests)
    else system
  | .complete =>
    system.happens
      (.requested system.store.state.events.length process.maxRequests)
  | .observe observation =>
    if runs system process && observation.identity = system.world then
      system.doing process (.observed observation)
    else system
  | .commitObserve =>
    match process.doing with
    | .observed observation =>
      ((system.inState
        (commitObserve process.boot observation system.store.state)).doing process .idle).happens
        (.observed process.boot observation.identity observation.solved)
    | _ => system
  | .act callId tool =>
    if runs system process && tool ∈ process.actions then
      match
        commitAct process.boot process.maxActions system.world callId tool system.store.state with
      | .error _ => system
      | .ok state => (system.inState state).doing process (.acting callId system.world)
    else system
  | .dispatch =>
    match process.doing with
    | .acting callId expected =>
      if system.world = expected then
        (system.doing process (.dispatched callId)).happens
          (.dispatched process.boot system.world system.store.state.current process.maxActions)
      else system.doing process .idle
    | _ => system
  | .returned isError =>
    match process.doing with
    | .dispatched callId =>
      if isError then system.doing process .idle
      else
        (system.inState (commitReturned callId system.store.state)).doing process .idle
    | _ => system
  | .finish conclusion summary =>
    if runs system process then
      match
        commitFinish process.boot system.world conclusion summary system.store.state with
      | .error _ => system
      | .ok state => system.inState state
    else system
  | .remember memory =>
    if runs system process then
      system.inState { system.store.state with memory := memory }
    else system
  | .yield summary =>
    if runs system process then
      system.inState (onYield summary system.store.state)
    else system
  | .endRun =>
    if process.doing = .idle then
      { system with store := { system.store with run := false } }
    else system

def stepClosed (system : System) : Event → System
  | .world identity => { system with world := identity }
  | .openPolicy robot actions maxRequests maxActions =>
    if 0 < maxRequests ∧ 0 < maxActions then
      { system with
        process :=
          some
            { boot := system.boots
              robot := robot
              actions := actions
              maxRequests := maxRequests
              maxActions := maxActions
              mounted := false
              doing := .idle
              submitting := [] }
        boots := system.boots + 1 }
    else system
  | _ => system

def step (system : System) (event : Event) : System :=
  match system.process with
  | some process => stepIn system process event
  | none => stepClosed system event

def begin_ (world : WorldIdentity) : System :=
  ⟨⟨{}, false, []⟩, none, world, 0, []⟩

end PiEmbodied.Policy
