import PiEmbodied.Robot.Exclusive

/-!
# Robot calls and the end of an episode

The agent's tool calls pass a gate and then `exclusive`; an operator's call
passes the gate again at its turn.  A unit call of the dashboard or a takeover
and the verifier's lift run the body of `act` themselves.
-/

namespace PiEmbodied.Robot

/-! ## Data -/

/-- A tool that the agent calls: one of the robot's, or `finish`. -/
inductive Called where
  | robot (name : String)
  | finish
deriving DecidableEq

/-- Who calls through `exclusive`: the agent, the operator, the reviewer's
observation, or the start of MotorMind mode. -/
inductive Kind where
  | agent (name : String)
  | operator (name : String)
  | observation
  | startup
deriving DecidableEq

structure Flags where
  (maxTurns timeLimit maxCost maxToolCalls maxTokens : ℚ)

inductive Budget where
  | time | cost | toolCalls | tokens | turns
deriving DecidableEq

structure Episode where
  ready : Bool
  (failed broken : Option String)
  (ran ended reported claimed : Bool)
  started : Option ℚ
  outOfBudget : Option Budget
  timedOut : Bool
  (turns toolCalls tokens : ℕ)
  cost : ℚ

/-- The variables that `session_start` resets. -/
def Episode.fresh : Episode where
  ready := false
  failed := none
  broken := none
  ran := false
  ended := false
  reported := false
  claimed := false
  started := none
  outOfBudget := none
  timedOut := false
  turns := 0
  toolCalls := 0
  tokens := 0
  cost := 0

def Episode.over (e : Episode) : Bool := e.ended || e.broken.isSome

def Episode.fail (e : Episode) (why : String) : Episode :=
  { e with broken := some (e.broken.getD why), ended := true }

inductive Refusal where
  | unavailable
  | failed (why : String)
  | finished
  | budget (which : Budget)
deriving DecidableEq

def Episode.spentBudget (flags : Flags) (now : ℚ) (e : Episode) :
    Option Budget :=
  if 0 < flags.timeLimit ∧
      (∃ started ∈ e.started, flags.timeLimit * 1000 < now - started) then
    some .time
  else if 0 < flags.maxCost ∧ flags.maxCost ≤ e.cost then some .cost
  else if 0 < flags.maxToolCalls ∧ flags.maxToolCalls ≤ e.toolCalls then
    some .toolCalls
  else if 0 < flags.maxTokens ∧ flags.maxTokens ≤ e.tokens then some .tokens
  else if 0 < flags.maxTurns ∧ flags.maxTurns ≤ e.turns then some .turns
  else none

/-- `refusal`, which ends the episode when a budget is spent. -/
def Episode.refusal (flags : Flags) (now : ℚ) (e : Episode) (tool : Called) :
    Episode × Option Refusal :=
  if e.ready = false then (e, some .unavailable)
  else
    match e.broken with
    | some why => (e, some (.failed why))
    | none =>
      if tool = .finish then (e, none)
      else if e.ended then (e, some .finished)
      else
        match e.spentBudget flags now with
        | none => (e, none)
        | some which => ({ e with outOfBudget := some which, ended := true }, some (.budget which))

/-- The gate of a tool would end the episode for a spent budget. -/
def Episode.exhausted (flags : Flags) (now : ℚ) (e : Episode) (tool : Called) :
    Prop :=
  e.ready = true ∧ e.broken = none ∧ tool ≠ .finish ∧ e.ended = false ∧
    e.spentBudget flags now ≠ none

instance (flags : Flags) (now : ℚ) (e : Episode) (tool : Called) :
    Decidable (e.exhausted flags now tool) :=
  inferInstanceAs (Decidable (_ ∧ _ ∧ _ ∧ _ ∧ _))

theorem Episode.refusal_cases (flags : Flags) (now : ℚ) (e : Episode) (tool : Called) :
    (∃ why, e.refusal flags now tool = (e, why) ∧ (why = none → tool = .finish ∨ e.over = false)) ∨
      (e.exhausted flags now tool ∧ ∃ which,
        e.refusal flags now tool =
          ({ e with outOfBudget := some which, ended := true }, some (.budget which))) := by
  rw [refusal]
  by_cases ready : e.ready = false
  · rw [if_pos ready]
    exact .inl ⟨_, rfl, fun isNone => by cases isNone⟩
  rw [if_neg ready]
  cases isBroken : e.broken with
  | some why => exact .inl ⟨_, rfl, fun isNone => by cases isNone⟩
  | none =>
    dsimp only
    by_cases isFinish : tool = .finish
    · rw [if_pos isFinish]
      exact .inl ⟨_, rfl, fun _ => .inl isFinish⟩
    rw [if_neg isFinish]
    by_cases isEnded : e.ended = true
    · rw [if_pos isEnded]
      exact .inl ⟨_, rfl, fun isNone => by cases isNone⟩
    rw [if_neg isEnded]
    have notEnded := Bool.eq_false_iff.mpr isEnded
    cases spent : e.spentBudget flags now with
    | none =>
      refine .inl ⟨_, rfl, fun _ => .inr ?_⟩
      rw [«over», notEnded, isBroken]
      rfl
    | some which =>
      refine .inr ⟨⟨?_, isBroken, isFinish, notEnded, ?_⟩, which, rfl⟩
      · exact Bool.not_eq_false _ ▸ ready
      · rw [spent]
        exact Option.some_ne_none which

/-- A body that began, of a call through `exclusive` or of `act` outside it, and
whether the episode was over. -/
structure Start where
  caller : Option Kind
  «over» : Bool
deriving DecidableEq

/-- A `robot_result` entry: whether the episode had ended, or the session shut
down. -/
structure ResultEntry where
  (ended shutdown : Bool)
deriving DecidableEq

/-- The robot's session.  `admitted` are the agent's calls past the gate that
neither ran nor were blocked by a later handler, `units` the unit calls past
their gate, `direct` the bodies of `act` running outside `exclusive`. -/
structure Session where
  episode : Episode
  lock : Lock Kind
  admitted : List Called
  (units direct : ℕ)
  starts : List Start
  results : List ResultEntry

def Session.initial : Session where
  episode := Episode.fresh
  lock := .free
  admitted := []
  units := 0
  direct := 0
  starts := []
  results := []

/-! ## The calls -/

inductive Event where
  | sessionStart
  /-- The end of `start`: the robot is up, or the message of its failure. -/
  | started (failed : Option String)
  /-- MotorMind's first observation, under the lock. -/
  | startup
  | promptSent (now : ℚ)
  | timer
  | agentStart
  | messageEnd (cost : ℚ) (tokens : ℕ)
  | turnEnd
  /-- The gate of an agent's call. -/
  | toolCall (tool : Called) (now : ℚ)
  /-- A later handler blocks an admitted call. -/
  | block (place : ℕ)
  | execute (place : ℕ) (aborted : Bool)
  /-- The reviewer of an admitted robot call looks first. -/
  | observe (place : ℕ) (aborted : Bool)
  /-- The verifier of an admitted `finish` lifts a gripper. -/
  | lift (place : ℕ)
  /-- `refuses` is the operator module's refusal at the call, `late` and
  `refusesLate` what is met where its turn has come at once. -/
  | operate
      (name : String) (now : ℚ) (refuses aborted : Bool) (late : ℚ)
      (refusesLate : Bool)
  | unitCall (now : ℚ) (refuses : Bool)
  | unitDropped
  | unitStart
  | directEnd
  | abort (call : ℕ)
  | turn (call : ℕ)
  /-- A call goes on: it begins at its turn, or its rejection settles it. -/
  | resume (call : ℕ) (now : ℚ) (refuses : Bool)
  /-- A body ends, for `RpcUnavailable` with its message. -/
  | bodyEnd (call : ℕ) (unavailable : Option String)
  | serverExit (why : String)
  /-- A reference program ran instead of the model. -/
  | oracleRan
  | agentEnd
  | shutdown

namespace Session

variable (flags : Flags) (r : Session)

def beginBody (k : ℕ) (kind : Kind) : Session :=
  { r with
    lock := r.lock.begin_ k
    starts := r.starts ++ [⟨some kind, r.episode.over⟩] }

/-- The turn of a call has come; an operator's passes the gates again. -/
def enter (k : ℕ) (kind : Kind) (now : ℚ) (refuses : Bool) : Session :=
  match kind with
  | .operator name =>
    match r.episode.refusal flags now (.robot name) with
    | (e, some _) => { r with episode := e, lock := r.lock.settle k }
    | (e, none) =>
      if refuses then { r with episode := e, lock := r.lock.settle k }
      else beginBody { r with episode := e } k kind
  | _ => r.beginBody k kind

def exclusive (kind : Kind) (aborted : Bool) (now : ℚ) (refuses : Bool) :
    Session :=
  if r.lock.robotCalls = 0 then
    enter flags { r with lock := r.lock.arrive kind aborted } r.lock.calls.length kind now refuses
  else { r with lock := r.lock.arrive kind aborted }

def beginDirect : Session :=
  { r with
    direct := r.direct + 1
    starts := r.starts ++ [⟨none, r.episode.over⟩] }

def report (shutdown : Bool) : Session :=
  if r.episode.reported = true ∨
      (r.episode.failed = none ∧ ¬(r.episode.ready = true ∧ r.episode.ran = true))
  then r
  else
    { r with
      episode := { r.episode with reported := true }
      results := r.results ++ [⟨r.episode.ended, shutdown⟩] }

def step : Event → Session
  | .sessionStart => { r with episode := .fresh, results := [] }
  | .started none => { r with episode := { r.episode with ready := true } }
  | .started (some why) => { r with episode := { r.episode with failed := some why } }
  | .startup => r.exclusive flags .startup false 0 false
  | .promptSent now =>
    { r with
      episode :=
        { r.episode with started := some (r.episode.started.getD now) } }
  | .timer =>
    if r.episode.ended then r
    else
      { r with
        episode :=
          { r.episode with
            outOfBudget := some .time
            ended := true
            timedOut := true } }
  | .agentStart => { r with episode := { r.episode with ran := true } }
  | .messageEnd cost tokens =>
    { r with
      episode :=
        { r.episode with
          cost := r.episode.cost + cost
          tokens := r.episode.tokens + tokens } }
  | .turnEnd => { r with episode := { r.episode with turns := r.episode.turns + 1 } }
  | .toolCall tool now =>
    match r.episode.refusal flags now tool with
    | (e, some _) => { r with episode := e }
    | (e, none) =>
      { r with
        episode :=
          if tool = .finish then e
          else { e with toolCalls := e.toolCalls + 1 }
        admitted := r.admitted ++ [tool] }
  | .block place => { r with admitted := r.admitted.eraseIdx place }
  | .execute place aborted =>
    match r.admitted[place]? with
    | none => r
    | some .finish =>
      { r with
        admitted := r.admitted.eraseIdx place
        episode := { r.episode with claimed := true, ended := true } }
    | some (.robot name) =>
      { r with admitted := r.admitted.eraseIdx place }.exclusive flags (.agent name) aborted 0 false
  | .observe place aborted =>
    match r.admitted[place]? with
    | some (.robot _) =>
      if r.episode.ready = true ∧ r.episode.broken = none then
        r.exclusive flags .observation aborted 0 false
      else r
    | _ => r
  | .lift place =>
    match r.admitted[place]? with
    | some .finish => r.beginDirect
    | _ => r
  | .operate name now refuses aborted late refusesLate =>
    match r.episode.refusal flags now (.robot name) with
    | (e, some _) => { r with episode := e }
    | (e, none) =>
      if refuses then { r with episode := e }
      else
        { r with episode := e }.exclusive flags (.operator name) aborted late refusesLate
  | .unitCall now refuses =>
    match r.episode.refusal flags now (.robot "act") with
    | (e, some _) => { r with episode := e }
    | (e, none) =>
      if refuses then { r with episode := e }
      else { r with episode := e, units := r.units + 1 }
  | .unitDropped => { r with units := r.units - 1 }
  | .unitStart =>
    if r.units = 0 then r else { r with units := r.units - 1 }.beginDirect
  | .directEnd => { r with direct := r.direct - 1 }
  | .abort k => { r with lock := r.lock.abort k }
  | .turn k => { r with lock := r.lock.turn k }
  | .resume k now refuses =>
    match r.lock.calls[k]? with
    | none => r
    | some call =>
      match call.phase with
      | .granted => r.enter flags k call.kind now refuses
      | .aborting => { r with lock := r.lock.settle k }
      | _ => r
  | .bodyEnd k unavailable =>
    if r.lock.phaseAt k = some .running then
      { r with
        lock := r.lock.settle k
        episode :=
          match unavailable with
          | some why => r.episode.fail why
          | none => r.episode }
    else r
  | .serverExit why => { r with episode := r.episode.fail why }
  | .oracleRan => { r with episode := { r.episode with ran := true, ended := true } }
  | .agentEnd => if r.episode.ended then r.report false else r
  | .shutdown => r.report true

abbrev after (events : List Event) : Session :=
  Runs.after (step flags) initial events

variable {flags : Flags} (k : ℕ) (kind : Kind) (now : ℚ) (refuses : Bool) (event : Event)

theorem enter_lock :
    (r.enter flags k kind now refuses).lock = r.lock.begin_ k ∨
      (r.enter flags k kind now refuses).lock = r.lock.settle k := by
  cases kind with
  | operator name =>
    rw [enter]
    rcases r.episode.refusal flags now (.robot name) with ⟨e, _ | why⟩
    · dsimp only
      split
      · exact .inr rfl
      · exact .inl rfl
    · exact .inr rfl
  | agent name | observation | startup => exact .inl rfl

theorem enter_rest (k : ℕ) (kind : Kind) (now : ℚ) (refuses : Bool) :
    (r.enter flags k kind now refuses).direct = r.direct ∧
      (r.enter flags k kind now refuses).admitted = r.admitted ∧
      (r.enter flags k kind now refuses).units = r.units ∧
      (r.enter flags k kind now refuses).results = r.results := by
  cases kind with
  | operator name =>
    rw [enter]
    rcases r.episode.refusal flags now (.robot name) with ⟨e, _ | why⟩
    · dsimp only
      split
      · exact ⟨rfl, rfl, rfl, rfl⟩
      · exact ⟨rfl, rfl, rfl, rfl⟩
    · exact ⟨rfl, rfl, rfl, rfl⟩
  | agent name | observation | startup => exact ⟨rfl, rfl, rfl, rfl⟩

theorem exclusive_lock (kind : Kind) (aborted : Bool) (now : ℚ) (refuses : Bool) :
    (r.exclusive flags kind aborted now refuses).lock = r.lock.arrive kind aborted ∨
      ∃ k, (r.exclusive flags kind aborted now refuses).lock =
          (r.lock.arrive kind aborted).begin_ k ∨
        (r.exclusive flags kind aborted now refuses).lock =
          (r.lock.arrive kind aborted).settle k := by
  rw [exclusive]
  split
  · exact .inr ⟨_, enter_lock _ _ _ _ _⟩
  · exact .inl rfl

theorem exclusive_rest (kind : Kind) (aborted : Bool) (now : ℚ) (refuses : Bool) :
    (r.exclusive flags kind aborted now refuses).direct = r.direct ∧
      (r.exclusive flags kind aborted now refuses).admitted = r.admitted ∧
      (r.exclusive flags kind aborted now refuses).units = r.units ∧
      (r.exclusive flags kind aborted now refuses).results = r.results := by
  rw [exclusive]
  split
  · exact enter_rest _ _ _ _ _
  · exact ⟨rfl, rfl, rfl, rfl⟩

/-! ## One call at a time -/

/-- An event that calls `exclusive`. -/
def Comes (flags : Flags) (r : Session) : Event → Prop
  | .startup => True
  | .execute place _ => ∃ name, r.admitted[place]? = some (.robot name)
  | .observe place _ =>
    (∃ name, r.admitted[place]? = some (.robot name)) ∧
      r.episode.ready = true ∧ r.episode.broken = none
  | .operate name now refuses _ _ _ =>
    (r.episode.refusal flags now (.robot name)).2 = none ∧ refuses = false
  | _ => False

/-- An event that runs the body of `act` without it. -/
def Outside (r : Session) : Event → Prop
  | .unitStart => r.units ≠ 0
  | .lift place => r.admitted[place]? = some .finish
  | _ => False

/-- A call comes to `exclusive` only while no body runs without it, and a body
runs without it only while no other call is running or waiting. -/
def Apart (flags : Flags) (r : Session) (event : Event) : Prop :=
  (Comes flags r event → r.direct = 0) ∧ (Outside r event → r.lock.robotCalls = 0 ∧ r.direct = 0)

inductive Locks : Lock Kind → Lock Kind → Prop
  | same (l : Lock Kind) : Locks l l
  | turn (l : Lock Kind) (k : ℕ) : Locks l (l.turn k)
  | abort (l : Lock Kind) (k : ℕ) : Locks l (l.abort k)
  | begin_ (l : Lock Kind) (k : ℕ) : Locks l (l.begin_ k)
  | settle (l : Lock Kind) (k : ℕ) : Locks l (l.settle k)

variable {l t : Lock Kind}

theorem Locks.ok (locks : Locks l t) (ok : l.Ok) : t.Ok := by
  cases locks with
  | same => exact ok
  | turn k => exact Lock.ok_turn ok k
  | abort k => exact Lock.ok_abort ok k
  | begin_ k => exact Lock.ok_begin ok k
  | settle k => exact Lock.ok_settle ok k

theorem Locks.robotCalls_le (locks : Locks l t) : t.robotCalls ≤ l.robotCalls := by
  cases locks with
  | same => exact Nat.le_refl _
  | turn k =>
    rw [Lock.turn]
    split
    · exact Nat.le_refl _
    · exact Nat.le_refl _
  | abort k =>
    rw [Lock.abort]
    split
    · exact Nat.le_refl _
    · exact Nat.le_refl _
  | begin_ k =>
    rw [Lock.begin_]
    split
    · exact Nat.le_refl _
    · exact Nat.le_refl _
  | settle k =>
    rw [Lock.settle]
    split
    · exact Nat.sub_le _ 1
    · exact Nat.le_refl _

theorem locks_of_enter :
    Locks r.lock (r.enter flags k kind now refuses).lock := by
  rcases enter_lock r k kind now refuses with begins | settles
  · rw [begins]
    exact .begin_ _ k
  · rw [settles]
    exact .settle _ k

theorem exclusive_locks (aborted : Bool) (now : ℚ) (refuses : Bool) :
    Locks (r.lock.arrive kind aborted) (r.exclusive flags kind aborted now refuses).lock := by
  rcases @exclusive_lock r flags kind aborted now refuses with
    waits | ⟨k, begins | settles⟩
  · rw [waits]
    exact .same _
  · rw [begins]
    exact .begin_ _ k
  · rw [settles]
    exact .settle _ k

theorem step_lock :
    (Locks r.lock (r.step flags event).lock ∧ (r.step flags event).direct ≤ r.direct) ∨
      (Comes flags r event ∧ (r.step flags event).direct = r.direct ∧
        ∃ kind aborted, Locks (r.lock.arrive kind aborted) (r.step flags event).lock) ∨
      (Outside r event ∧ (r.step flags event).lock = r.lock ∧
        (r.step flags event).direct = r.direct + 1) := by
  have unchanged : Locks r.lock r.lock := .same r.lock
  have le := Nat.le_refl r.direct
  cases event with
  | sessionStart | promptSent now | agentStart | messageEnd cost tokens | turnEnd | block place
  | unitDropped | serverExit why | oracleRan => exact .inl ⟨unchanged, le⟩
  | started failed =>
    cases failed with
    | none | some why => exact .inl ⟨unchanged, le⟩
  | startup =>
    exact .inr (.inl ⟨trivial, (exclusive_rest r _ _ _ _).1, _, _, exclusive_locks r _ _ _ _⟩)
  | timer | toolCall tool now =>
    left
    rw [step]
    split
    · exact ⟨unchanged, le⟩
    · exact ⟨unchanged, le⟩
  | execute place aborted =>
    rw [step]
    cases called : r.admitted[place]? with
    | none => exact .inl ⟨unchanged, le⟩
    | some tool =>
      cases tool with
      | finish => exact .inl ⟨unchanged, le⟩
      | robot name =>
        exact .inr (.inl ⟨⟨name, called⟩, (exclusive_rest _ _ _ _ _).1, .agent name, aborted,
          exclusive_locks { r with admitted := r.admitted.eraseIdx place } _ _ _ _⟩)
  | observe place aborted =>
    rw [step]
    cases called : r.admitted[place]? with
    | none => exact .inl ⟨unchanged, le⟩
    | some tool =>
      cases tool with
      | finish => exact .inl ⟨unchanged, le⟩
      | robot name =>
        dsimp only
        split
        · rename_i up
          exact .inr (.inl ⟨⟨⟨name, called⟩, up⟩, (exclusive_rest _ _ _ _ _).1, _, _,
            exclusive_locks _ _ _ _ _⟩)
        · exact .inl ⟨unchanged, le⟩
  | lift place =>
    rw [step]
    cases called : r.admitted[place]? with
    | none => exact .inl ⟨unchanged, le⟩
    | some tool =>
      cases tool with
      | finish => exact .inr (.inr ⟨called, rfl, rfl⟩)
      | robot name => exact .inl ⟨unchanged, le⟩
  | operate name now refuses aborted late refusesLate =>
    rw [step]
    cases gate : r.episode.refusal flags now (.robot name) with
    | mk e why =>
      cases why with
      | some _ => exact .inl ⟨unchanged, le⟩
      | none =>
        dsimp only
        split
        · exact .inl ⟨unchanged, le⟩
        · rename_i passes
          exact .inr (.inl
            ⟨⟨congrArg Prod.snd gate, Bool.eq_false_iff.mpr passes⟩,
              (exclusive_rest _ _ _ _ _).1, .operator name, aborted,
              exclusive_locks { r with episode := e } _ _ _ _⟩)
  | unitCall now refuses =>
    left
    rw [step]
    split
    · exact ⟨unchanged, le⟩
    · split
      · exact ⟨unchanged, le⟩
      · exact ⟨unchanged, le⟩
  | unitStart =>
    rw [step]
    split
    · exact .inl ⟨unchanged, le⟩
    · rename_i some_
      exact .inr (.inr ⟨some_, rfl, rfl⟩)
  | directEnd => exact .inl ⟨unchanged, Nat.sub_le _ 1⟩
  | abort k => exact .inl ⟨.abort _ k, le⟩
  | turn k => exact .inl ⟨.turn _ k, le⟩
  | resume k now refuses =>
    left
    rw [step]
    split
    · exact ⟨unchanged, le⟩
    · split
      · exact ⟨locks_of_enter r _ _ _ _, Nat.le_of_eq (enter_rest r _ _ _ _).1⟩
      · exact ⟨.settle _ k, le⟩
      · exact ⟨unchanged, le⟩
  | bodyEnd k unavailable =>
    left
    dsimp only [step]
    split
    · exact ⟨.settle _ k, le⟩
    · exact ⟨unchanged, le⟩
  | agentEnd =>
    left
    rw [step]
    split
    · rw [report]
      split
      · exact ⟨unchanged, le⟩
      · exact ⟨unchanged, le⟩
    · exact ⟨unchanged, le⟩
  | shutdown =>
    left
    rw [step, report]
    split
    · exact ⟨unchanged, le⟩
    · exact ⟨unchanged, le⟩

/-- The lock is in order, and while a body runs without it no call is running
or waiting. -/
structure Kept (r : Session) : Prop where
  ok : r.lock.Ok
  apart : r.direct = 0 ∨ r.lock.robotCalls = 0
  direct : r.direct ≤ 1

theorem kept_initial : Kept initial :=
  ⟨Lock.ok_free, .inl rfl, Nat.zero_le 1⟩

theorem kept_step (apart : Apart flags r event) (kept : Kept r) :
    Kept (r.step flags event) := by
  rcases r.step_lock event with ⟨locks, le⟩ | ⟨comes, isDirect, _, _, locks⟩ |
    ⟨outside, isLock, isDirect⟩
  · refine ⟨locks.ok kept.ok, ?_, Nat.le_trans le kept.direct⟩
    rcases kept.apart with noDirect | free
    · exact .inl (Nat.le_zero.mp (Nat.le_trans le (Nat.le_of_eq noDirect)))
    · exact .inr (Nat.le_zero.mp (Nat.le_trans locks.robotCalls_le (Nat.le_of_eq free)))
  · refine ⟨locks.ok (Lock.ok_arrive kept.ok _ _), ?_, ?_⟩
    · exact .inl (isDirect.trans (apart.1 comes))
    · exact isDirect ▸ kept.direct
  · obtain ⟨free, noDirect⟩ := apart.2 outside
    refine ⟨isLock ▸ kept.ok, .inr (isLock ▸ free), ?_⟩
    rw [isDirect, noDirect]

/-- At most one body runs; the bodies under the lock begin in the order in which
their calls arrived, each when every call before it has settled; a call that
gave up never begins; and every call settles. -/
structure OneAtATime (r : Session) : Prop where
  single : ∀ i k, r.lock.phaseAt i = some .running → r.lock.phaseAt k = some .running → i = k
  alone : 0 < r.direct → r.direct = 1 ∧ ∀ k, r.lock.phaseAt k ≠ some .running
  inOrder : r.lock.started.Pairwise (· < ·)
  earlier : ∀ k, r.lock.phaseAt k = some .running → r.lock.resolvedBefore k = true
  gaveUp : ∀ k ∈ r.lock.aborted, k ∉ r.lock.started
  settles : r.lock.Settles

theorem oneAtATime_of_kept (kept : Kept r) : OneAtATime r where
  single := fun _ _ first second => Lock.turn_unique kept.ok (.inr first) (.inr second)
  alone := by
    intro some_
    have few := kept.direct
    refine ⟨by omega, ?_⟩
    intro k running
    rcases kept.apart with noDirect | free
    · omega
    · exact absurd (Lock.all_settled_of_none kept.ok free running) (by decide)
  inOrder := kept.ok.ordered
  earlier := fun k running => kept.ok.turns k (.inr running)
  gaveUp := fun k member => (kept.ok.gaveUp k member).1
  settles := Lock.settles_of_ok kept.ok

def unlimited : Flags where
  maxTurns := 0
  timeLimit := 0
  maxCost := 0
  maxToolCalls := 0
  maxTokens := 0

end Session

end PiEmbodied.Robot
