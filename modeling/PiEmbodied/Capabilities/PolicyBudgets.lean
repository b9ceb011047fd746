import PiEmbodied.Capabilities.PolicyRuns

/-!
# The request budget of a persistent policy

Requests are counted before they are made, but for the summaries of
compactions.
-/

namespace PiEmbodied.Policy

open Runs

/-! ## Requests -/

def Happened.isRequest : Happened → Bool
  | .requested _ _ => true
  | _ => false

structure Quiet (before after : System) : Prop where
  events : after.store.state.events = before.store.state.events
  requests : after.store.state.requests = before.store.state.requests
  log : after.log = before.log ∨ ∃ last, last.isRequest = false ∧ after.log = before.log ++ [last]
  doing :
    ∀ process, after.process = some process → process.doing = .requesting →
      ∃ old, before.process = some old ∧ old.doing = .requesting ∧
        old.maxRequests = process.maxRequests

/-- What a step does to the requests of the last accepted event. -/
inductive Counting (system : System) : System → Prop where
  | quiet {after : System} (quiet : Quiet system after) : Counting system after
  | enter (event : GoalEvent) (goals : List Goal) {after : System}
      (isIdle : system.store.run = false)
      (isEntered : after.store.state = enter event goals system.store.state)
      (sameLog : after.log = system.log)
      (doing :
        ∀ process, after.process = some process → process.doing = .requesting →
          ∃ old, system.process = some old ∧ old.doing = .requesting) :
      Counting system after
  | allow {process : Process} {state : PolicyState}
      (isEvents : state.events = system.store.state.events)
      (counts : state.requests = system.store.state.requests + 1)
      (left : system.store.state.requests < process.maxRequests) :
      Counting system ((system.inState state).doing process .requesting)
  | request {process : Process} (isProcess : system.process = some process)
      (isRequesting : process.doing = .requesting) :
      Counting system
        ((system.doing process .idle).happens
          (.requested system.store.state.events.length process.maxRequests))

theorem quiet_refl (system : System) : Quiet system system where
  events := rfl
  requests := rfl
  log := .inl rfl
  doing := fun process isProcess isRequesting => ⟨process, isProcess, isRequesting, rfl⟩

variable {system : System}

theorem Quiet.inState {state : PolicyState} (events : state.events = system.store.state.events)
    (requests : state.requests = system.store.state.requests) :
    Quiet system (system.inState state) where
  events := events
  requests := requests
  log := .inl rfl
  doing := fun process isProcess isRequesting => ⟨process, isProcess, isRequesting, rfl⟩

theorem Quiet.does {after : System} (quiet : Quiet system after) (process : Process)
    {doing : Doing} (notRequesting : doing ≠ .requesting) :
    Quiet system (after.doing process doing) :=
  { quiet with
    doing := by
      intro other isProcess isRequesting
      cases Option.some.inj isProcess
      exact absurd isRequesting notRequesting }

variable {last : Happened}

theorem Quiet.happens {after : System} (quiet : Quiet system after)
    (sameLog : after.log = system.log) (notRequest : last.isRequest = false) :
    Quiet system (after.happens last) :=
  { quiet with
    log := by
      refine .inr ⟨last, notRequest, ?_⟩
      rw [← sameLog]
      rfl }

theorem Quiet.inProcess {after : System} (quiet : Quiet system after) {process : Option Process}
    (same :
      ∀ goesOn, process = some goesOn →
        ∃ old, after.process = some old ∧ old.doing = goesOn.doing ∧
          old.maxRequests = goesOn.maxRequests) :
    Quiet system { after with process := process } :=
  { quiet with
    doing := by
      intro goesOn isProcess isRequesting
      obtain ⟨old, isOld, sameDoing, sameMax⟩ := same goesOn isProcess
      obtain ⟨first, isFirst, wasRequesting, firstMax⟩ :=
        quiet.doing old isOld (sameDoing.trans isRequesting)
      exact ⟨first, isFirst, wasRequesting, firstMax.trans sameMax⟩ }

variable {process : Process}

theorem counting_submitTo (isProcess : system.process = some process) (event : GoalEvent) :
    Counting system (submitTo system process event) := by
  have goesOn :
      ∀ {other : Process},
        some
            { process with
              submitting := process.submitting ++ [event.key] } =
          some other →
        other.doing = .requesting →
          ∃ old, system.process = some old ∧ old.doing = .requesting ∧
            old.maxRequests = other.maxRequests := by
    intro other isOther isRequesting
    cases Option.some.inj isOther
    exact ⟨process, isProcess, isRequesting, rfl⟩
  rw [submitTo]
  split
  · split
    · exact Counting.quiet (quiet_refl system)
    · rename_i state isAccepted
      rcases accept_cases isAccepted with
        ⟨isSame, _⟩ | ⟨isIdle, _, _, goals, _, isEntered⟩
      · rw [isSame]
        apply Counting.quiet
        exact ⟨rfl, rfl, .inl rfl, fun _ => goesOn⟩
      · have wasDoing :
            ∀ other,
              some
                  { process with
                    submitting := process.submitting ++ [event.key] } =
                some other →
              other.doing = .requesting →
                ∃ old, system.process = some old ∧ old.doing = .requesting := by
          intro other isOther isRequesting
          obtain ⟨old, isOld, wasRequesting, _⟩ := goesOn isOther isRequesting
          exact ⟨old, isOld, wasRequesting⟩
        rw [isEntered]
        exact Counting.enter event goals isIdle rfl rfl wasDoing
  · exact Counting.quiet (quiet_refl system)

variable {event : Event}

theorem counting_stepIn (isProcess : system.process = some process) (counted : event ≠ .complete) :
    Counting system (stepIn system process event) := by
  have nothing : Counting system system := Counting.quiet (quiet_refl system)
  cases event with
  | world identity => exact Counting.quiet ⟨rfl, rfl, .inl rfl, (quiet_refl system).doing⟩
  | openPolicy _ _ _ _ => exact nothing
  | mount =>
    rw [stepIn]
    apply Counting.quiet
    split
    · exact (quiet_refl system).inProcess fun _ isSome => by cases isSome
    · rename_i state mounted
      obtain ⟨kept, _, requests, _⟩ := mount_spec mounted
      apply (Quiet.inState kept.events requests).inProcess
      intro goesOn isSome
      cases Option.some.inj isSome
      exact ⟨process, isProcess, rfl, rfl⟩
  | close => exact Counting.quiet ((quiet_refl system).inProcess fun _ isSome => by cases isSome)
  | submit event => exact counting_submitTo isProcess event
  | resume =>
    rw [stepIn]
    split
    · exact nothing
    · exact counting_submitTo isProcess _
  | admission key =>
    rw [stepIn]
    split
    · have sameState : (admitTo system.store key).state = system.store.state := by
        rw [admitTo]
        split
        · rfl
        · split
          · rfl
          · rfl
      apply Counting.quiet
      exact ⟨congrArg PolicyState.events sameState,
        congrArg PolicyState.requests sameState, .inl rfl,
        (quiet_refl system).doing⟩
    · exact nothing
  | allow =>
    rw [stepIn]
    split
    · have kept := allow_kept process.maxRequests system.store.state
      obtain ⟨_, _, counts⟩ := allow_counts process.maxRequests system.store.state
      split
      · rename_i state isAllowed
        rw [isAllowed] at kept counts
        exact Counting.quiet (Quiet.inState kept.events counts)
      · rename_i state isAllowed
        rw [isAllowed] at kept counts
        exact Counting.allow kept.events counts.1 counts.2
    · exact nothing
  | request =>
    rw [stepIn]
    split
    · rename_i isRequesting
      exact Counting.request isProcess isRequesting
    · exact nothing
  | complete => exact absurd rfl counted
  | observe observation =>
    rw [stepIn]
    split
    · apply Counting.quiet
      apply (quiet_refl system).does process
      intro isRequesting
      cases isRequesting
    · exact nothing
  | commitObserve =>
    rw [stepIn]
    split
    · rename_i observation _
      apply Counting.quiet
      have committed :
          Quiet system
            (system.inState (commitObserve process.boot observation system.store.state)) :=
        Quiet.inState rfl rfl
      have idle : Doing.idle ≠ .requesting := fun isRequesting => by cases isRequesting
      exact (committed.does process idle).happens rfl rfl
    · exact nothing
  | act callId tool =>
    rw [stepIn]
    split
    · split
      · exact nothing
      · rename_i state acted
        obtain ⟨_, _, _, _, requests, kept⟩ := commitAct_spec acted
        apply Counting.quiet
        apply (Quiet.inState kept.events requests).does process
        intro isRequesting
        cases isRequesting
    · exact nothing
  | dispatch =>
    rw [stepIn]
    split
    · split
      · apply Counting.quiet
        have acting : ∀ callId, Doing.dispatched callId ≠ .requesting := by
          intro callId isRequesting
          cases isRequesting
        exact ((quiet_refl system).does process (acting _)).happens rfl rfl
      · apply Counting.quiet
        apply (quiet_refl system).does process
        intro isRequesting
        cases isRequesting
    · exact nothing
  | returned isError =>
    rw [stepIn]
    split
    · split
      · apply Counting.quiet
        apply (quiet_refl system).does process
        intro isRequesting
        cases isRequesting
      · rename_i callId _ _
        have committed : Quiet system (system.inState (commitReturned callId system.store.state)) :=
          Quiet.inState rfl rfl
        apply Counting.quiet
        apply committed.does process
        intro isRequesting
        cases isRequesting
    · exact nothing
  | finish conclusion summary =>
    rw [stepIn]
    split
    · split
      · exact nothing
      · rename_i state finished
        obtain ⟨kept, _, requests, _⟩ := commitFinish_spec finished
        exact Counting.quiet (Quiet.inState kept.events requests)
    · exact nothing
  | remember memory =>
    rw [stepIn]
    split
    · exact Counting.quiet (Quiet.inState rfl rfl)
    · exact nothing
  | yield summary =>
    rw [stepIn]
    split
    · obtain ⟨kept, _, requests, _⟩ :=
        onYield_spec summary system.store.state
      exact Counting.quiet (Quiet.inState kept.events requests)
    · exact nothing
  | endRun =>
    rw [stepIn]
    split
    · exact Counting.quiet ⟨rfl, rfl, .inl rfl, (quiet_refl system).doing⟩
    · exact nothing

theorem counting_step (system : System) (counted : event ≠ .complete) :
    Counting system (step system event) := by
  rw [step]
  split
  · rename_i process isProcess
    exact counting_stepIn isProcess counted
  · rcases stepClosed_cases system event with
      same | ⟨world, moved⟩ | ⟨opened, isIdle, _, isOpened⟩
    · rw [same]
      exact Counting.quiet (quiet_refl system)
    · rw [moved]
      exact Counting.quiet ⟨rfl, rfl, .inl rfl, (quiet_refl system).doing⟩
    · rw [isOpened]
      refine Counting.quiet ⟨rfl, rfl, .inl rfl, ?_⟩
      intro process isProcess isRequesting
      cases Option.some.inj isProcess
      rw [isIdle] at isRequesting
      cases isRequesting

/-- The requests made since the last accepted event are counted, one more while
a request is about to be made. -/
structure InvRequests (system : System) : Prop where
  counted : requestsFor system.store.state.events.length system.log ≤ system.store.state.requests
  later :
    ∀ accepted maxRequests,
      Happened.requested accepted maxRequests ∈ system.log →
        accepted ≤ system.store.state.events.length
  requesting :
    ∀ process, system.process = some process → process.doing = .requesting →
      requestsFor system.store.state.events.length system.log < system.store.state.requests ∧
        system.store.state.requests ≤ process.maxRequests
  within : Always Happened.Within system.log

theorem invRequests_begin (world : WorldIdentity) : InvRequests (begin_ world) where
  counted := Nat.le_refl 0
  later := fun _ _ member => by cases member
  requesting := fun _ isProcess => by cases isProcess
  within := always_nil _

theorem requestsFor_quiet
    (notRequest : last.isRequest = false) (accepted : ℕ) (log : List Happened) :
    requestsFor accepted (log ++ [last]) = requestsFor accepted log := by
  rw [requestsFor_append]
  cases last with
  | dispatched _ _ _ _ | observed _ _ _ => rfl
  | requested _ _ => cases notRequest

theorem InvRequests.quiet {before after : System} (inv : InvRequests before)
    (quiet : Quiet before after) : InvRequests after := by
  have sameCount :
      requestsFor after.store.state.events.length after.log =
        requestsFor before.store.state.events.length before.log := by
    rw [quiet.events]
    rcases quiet.log with same | ⟨last, notRequest, appended⟩
    · rw [same]
    · rw [appended, requestsFor_quiet notRequest]
  constructor
  · rw [sameCount, quiet.requests]
    exact inv.counted
  · intro accepted maxRequests member
    rw [quiet.events]
    rcases quiet.log with same | ⟨last, notRequest, appended⟩
    · rw [same] at member
      exact inv.later accepted maxRequests member
    · rw [appended] at member
      rcases List.mem_append.mp member with isEarlier | isLast
      · exact inv.later accepted maxRequests isEarlier
      · rw [← List.mem_singleton.mp isLast] at notRequest
        cases notRequest
  · intro process isProcess isRequesting
    obtain ⟨old, isOld, wasRequesting, sameMax⟩ := quiet.doing process isProcess isRequesting
    rw [sameCount, quiet.requests, ← sameMax]
    exact inv.requesting old isOld wasRequesting
  · rcases quiet.log with same | ⟨last, notRequest, appended⟩
    · rw [same]
      exact inv.within
    · rw [appended]
      apply inv.within.append
      cases last with
      | dispatched _ _ _ _ | observed _ _ _ => trivial
      | requested _ _ => cases notRequest

theorem requestsFor_eq_zero {accepted : ℕ} {log : List Happened}
    (none_ : ∀ maxRequests, Happened.requested accepted maxRequests ∉ log) :
    requestsFor accepted log = 0 := by
  rw [requestsFor, List.countP_eq_zero]
  intro entry member isRequest
  cases entry with
  | requested other maxRequests =>
    have same : other = accepted := of_decide_eq_true isRequest
    rw [same] at member
    exact none_ maxRequests member
  | dispatched _ _ _ _ | observed _ _ _ => cases isRequest

theorem invRequests_step (inv : Inv system) (requests : InvRequests system)
    (counted : event ≠ .complete) : InvRequests (step system event) := by
  have counting := counting_step system counted
  generalize step system event = after at counting
  cases counting with
  | quiet quiet => exact requests.quiet quiet
  | enter event goals isIdle isEntered sameLog doing =>
    have length : after.store.state.events.length = system.store.state.events.length + 1 := by
      rw [isEntered, enter]
      exact List.length_append
    have none_ : requestsFor after.store.state.events.length after.log = 0 := by
      rw [sameLog, length]
      apply requestsFor_eq_zero
      intro maxRequests member
      have := requests.later _ maxRequests member
      omega
    constructor
    · rw [none_]
      exact Nat.zero_le _
    · intro accepted maxRequests member
      rw [sameLog] at member
      have := requests.later accepted maxRequests member
      omega
    · intro process isProcess isRequesting
      obtain ⟨old, isOld, wasRequesting⟩ := doing process isProcess isRequesting
      have isRunning := inv.busy old isOld (by
        rw [wasRequesting]
        intro same
        cases same)
      rw [isIdle] at isRunning
      cases isRunning
    · rw [sameLog]
      exact requests.within
  | @allow process state isEvents counts left =>
    have sameCount :
        requestsFor state.events.length system.log ≤
          system.store.state.requests := by
      rw [isEvents]
      exact requests.counted
    constructor
    · have stillCounted : requestsFor state.events.length system.log ≤ state.requests := by
        omega
      exact stillCounted
    · have sameLater := requests.later
      rwa [← isEvents] at sameLater
    · intro other isOther _
      cases Option.some.inj isOther
      have oneLeft :
          requestsFor state.events.length system.log < state.requests ∧
            state.requests ≤ process.maxRequests := by
        omega
      exact oneLeft
    · exact requests.within
  | @request process isProcess isRequesting =>
    obtain ⟨isCounted, isAllowed⟩ := requests.requesting process isProcess isRequesting
    have oneMore :
        requestsFor system.store.state.events.length
            (system.log ++ [.requested system.store.state.events.length process.maxRequests]) =
          requestsFor system.store.state.events.length system.log + 1 := by
      rw [requestsFor_append, Happened.isRequestFor, decide_eq_true rfl,
        if_pos rfl]
    constructor
    · exact oneMore.trans_le isCounted
    · intro accepted maxRequests member
      rcases List.mem_append.mp member with isEarlier | isLast
      · exact requests.later accepted maxRequests isEarlier
      · have same := List.mem_singleton.mp isLast
        injection same with sameAccepted _
        exact Nat.le_of_eq sameAccepted
    · intro other isOther isDoing
      cases Option.some.inj isOther
      cases isDoing
    · apply requests.within.append
      exact isCounted.trans_le isAllowed

theorem invRequests_run (world : WorldIdentity) {events : List Event}
    (counted : ∀ event ∈ events, event ≠ .complete) :
    InvRequests (after step (begin_ world) events) := by
  have both :=
    after_preserves step (fun event => event ≠ .complete)
      (fun system => Inv system ∧ InvRequests system)
      (fun _ event isCounted invs =>
        ⟨inv_step invs.1 event, invRequests_step invs.1 invs.2 isCounted⟩)
      ⟨inv_begin world, invRequests_begin world⟩ counted
  exact both.2

/-! ## What a store promises -/

/-- What a policy store promises in a state: every action was dispatched on
fresh sight and within its goal's budget, a goal becomes a success on fresh
sight of a solved environment, goals keep their text and their conclusion, and
an event submitted again changes nothing or is refused. -/
structure Meets (system : System) : Prop where
  acts : Always Happened.Fresh system.log
  succeeds :
    ∀ event, ∀ goal ∈ (step system event).store.state.goals,
      goal.status = .success →
        goal ∈ system.store.state.goals ∨
          ∃ process, system.process = some process ∧
            Sighted system.log process.boot system.world true
  goals : ∀ events, GoalsKept system.store.state.goals (after step system events).store.state.goals
  accepted : (system.store.state.events.map Accepted.key).Nodup
  admitted : system.store.admitted.Nodup
  again :
    ∀ existing ∈ system.store.state.events, ∀ event : GoalEvent,
      existing.key = event.key →
        if existing.goal = event.goal ∧ existing.input = event.text then
          accept system.store.run event system.store.state = .ok system.store.state
        else
          ∃ error, accept system.store.run event system.store.state = .error error

theorem Inv.again (inv : Inv system) {existing : Accepted}
    (member : existing ∈ system.store.state.events) {event : GoalEvent}
    (sameKey : existing.key = event.key) :
    if existing.goal = event.goal ∧ existing.input = event.text then
      accept system.store.run event system.store.state = .ok system.store.state
    else
      ∃ error, accept system.store.run event system.store.state = .error error := by
  have onlyOne : ∀ other ∈ system.store.state.events, other.key = event.key → other = existing := by
    intro other isOther otherKey
    exact List.inj_on_of_nodup_map inv.accepted isOther member (otherKey.trans sameKey.symm)
  split
  · rename_i same
    obtain ⟨goalNamed, eventNamed, textNamed⟩ := inv.named existing member
    rw [sameKey] at goalNamed eventNamed
    rw [same.1] at textNamed
    have goalNamed' : isBlank event.goalId = false := goalNamed
    have eventNamed' : isBlank event.eventId = false := eventNamed
    rw [accept, goalNamed', eventNamed', textNamed, if_neg (by simp)]
    split
    · rename_i found isFound
      have matched := List.find?_some isFound
      rw [onlyOne found (List.mem_of_find?_eq_some isFound)
        (of_decide_eq_true matched), if_neg (by simp [same])]
    · rename_i isNew
      have isOther := List.find?_eq_none.mp isNew existing member
      exact absurd (decide_eq_true sameKey) isOther
  · rename_i differs
    cases isAccepted : accept system.store.run event system.store.state with
    | error error => exact ⟨error, rfl⟩
    | ok after =>
      rcases accept_cases isAccepted with
        ⟨_, other, isOther, otherKey, sameContent⟩ | ⟨_, isNew, _⟩
      · rw [onlyOne other isOther otherKey] at sameContent
        exact absurd sameContent differs
      · exact absurd sameKey (isNew existing member)

theorem acts_on_fresh_sight (world : WorldIdentity) (events : List Event) :
    Meets (after step (begin_ world) events) ∧
      ((∀ event ∈ events, event ≠ .complete) →
        Always Happened.Within (after step (begin_ world) events).log) := by
  have inv := inv_run world events
  constructor
  · exact
      { acts := inv.acts
        succeeds := fun event _ member isSuccess => inv.succeeds event member isSuccess
        goals := inv.keepsGoals_run
        accepted := inv.accepted
        admitted := inv.admitted
        again := fun _ member _ sameKey => inv.again member sameKey }
  · intro counted
    exact (invRequests_run world counted).within

/-- One model request an event, and a compaction before the second event's. -/
def compactedRun : List Event :=
  [.openPolicy "test-simulator" ["move_delta"] 1 64, .mount,
    .submit ⟨"g1", "Reach the target", "start", none⟩, .admission ⟨"g1", "start"⟩,
    .allow, .request, .yield "The target is not in sight.", .endRun,
    .submit ⟨"g1", "Reach the target", "scene-ready", none⟩,
    .admission ⟨"g1", "scene-ready"⟩, .complete, .allow, .request]

/-- The summary's request comes on top of the budget. -/
theorem compaction_exceeds_budget :
    ¬ Always Happened.Within (after step (begin_ ⟨"episode-1", "0"⟩) compactedRun).log := by
  intro within
  have isLog :
      (after step (begin_ ⟨"episode-1", "0"⟩) compactedRun).log =
        [.requested 1 1, .requested 2 1] ++ .requested 2 1 :: [] := by
    decide +kernel
  have isLess : requestsFor 2 [.requested 1 1, .requested 2 1] < 1 := within _ _ _ isLog
  revert isLess
  decide

end PiEmbodied.Policy
