import PiEmbodied.Motormind.Clauses

/-!
# The mission loop

The mission plans once and then runs the subgoals one by one.  After each
attempt it goes on, retries the step once as written, backs up to the grasp
step, or replans; when the plan runs out a whole-task check decides.  One
iteration of the loop is `iterate`: it reads a `Turn`, everything the executor,
the verifier, the planner and the clock answer during that iteration, and
either gives the next state or the mission's end.
-/

namespace PiEmbodied.Motormind

/-! ## Plans -/

structure Subgoal where
  (name subgoal criterion target : String)
  target_boxes : List (String × List ℚ)
  /-- The clause the step serves, negative for none. -/
  clause : ℤ
  max_cycles : ℕ
deriving DecidableEq

structure Plan where
  subgoals : List Subgoal
  clauses : List String
deriving DecidableEq

structure PlanOutcome where
  plan : Option Plan
  error : Option String := none
  gave_up : Option String := none
deriving DecidableEq

structure Words where
  (wantsHolding wantsRelease sameObject : String → String → Bool)
  acts : Subgoal → Bool

/-! ## What one iteration is told -/

inductive Ending where
  | HELD | RELEASED_IN_CODE | ARRIVED | WALL | FROZEN | MODEL_DONE
  | DONE_AFTER_LAST | CANNOT_FROM_THE_SIDE | ERROR | CANCELLED
  | CYCLES_EXHAUSTED | EPISODE_OVER
deriving DecidableEq

inductive ErrorSource where
  | robot | cycle
deriving DecidableEq

inductive CancelBy where
  | monitor | deadline | grasp_watchdog | release_watchdog | mission
deriving DecidableEq

structure Cancel where
  who : CancelBy
  reason : String
deriving DecidableEq

structure SubgoalRun where
  ending : Ending
  ending_text : String
  error : Option String
  error_source : ErrorSource
  episode_over : Bool
  /-- How many of its cycles executed a step. -/
  cyclesWithSteps : ℕ
deriving DecidableEq

inductive VerdictStatus where
  | done | not_done | task_done | abort
deriving DecidableEq

structure Asked where
  status : VerdictStatus
  because : String
  clauses : List ClauseAnswer
deriving DecidableEq

structure Verdict where
  status : VerdictStatus
  because : String
  replan : Bool
  clauses : List ClauseAnswer
  gate : String
  asked : Option Asked
deriving DecidableEq

structure ReleaseMiss where
  missed : Bool
  (offset_mm allowed_mm : ℚ)
deriving DecidableEq

/-- What one attempt is told: the executor's run, the clock and the watchdogs
after it, the picture, the release measurement and the verifier's answers. -/
structure AttemptReply where
  run : SubgoalRun
  cancel : Option Cancel
  /-- The look before the verdict gave a frame. -/
  (look lostGrasp released releaseMeasured : Bool)
  releaseMiss : Option ReleaseMiss
  neverMoved : Bool
  verified : Verdict
  askTask : Option Asked
  /-- The measured push or turn that makes a code event. -/
  (pushed turned : Bool)
  elapsed_s : ℚ
deriving DecidableEq

structure Turn where
  cancel : Option Cancel
  (left_s now : ℚ)
  attempt : AttemptReply
  cancelAfter : Option Cancel
  leftAfter_s : ℚ
  /-- The whole-task check: its look, the verdict, the second look and ask. -/
  taskLook : Bool
  taskVerdict : Verdict
  taskLookAgain : Bool
  taskAskAgain : Option Asked
  /-- The replan: the clock, and the planner's answer and how long it took. -/
  (leftReplan_s nowReplan : ℚ)
  replanned : PlanOutcome
  replan_s : ℚ

inductive MissionStatus where
  | task_done | exhausted | gave_up | aborted | timeout | cancelled | error
deriving DecidableEq

structure MissionEnd where
  status : MissionStatus
  (ended_on summary : String)
deriving DecidableEq

structure MissionInput where
  maxReplans : ℚ

structure MissionState where
  plan : Plan
  (index attempt : ℕ)
  ledger : ClauseState
  (replans no_new_steps actions actions_cap : ℕ)
  backtracked : List String
  askedWholeOnce : Bool
  clauseStarted : List (ℤ × ℚ)
  firstDuration : List (String × ℚ)
  /-- How long the last planner call took. -/
  planCall_s : ℚ

def REPLAN_NEEDS_S : ℚ := 40
def SUBGOAL_MEDIAN_S : ℚ := 21
def SUBGOAL_TAX_S : ℚ := 46 / 10

def cyclesOf (steps : List Subgoal) : ℕ :=
  (steps.map Subgoal.max_cycles).sum

/-- The state the loop starts in, once the first plan is there. -/
def startMission (plan : Plan) (plan_s : ℚ) : MissionState where
  plan := plan
  index := 0
  attempt := 1
  ledger := emptyClauses plan.clauses
  replans := 0
  no_new_steps := 0
  actions := 0
  actions_cap := 2 * cyclesOf plan.subgoals
  backtracked := []
  askedWholeOnce := false
  clauseStarted := []
  firstDuration := []
  planCall_s := plan_s

def openMission (opened : Bool) (first : PlanOutcome) (plan_s : ℚ) : MissionState ⊕ MissionEnd :=
  if !opened then
    .inr ⟨.error, "no_opening_observation", "the robot gave no opening observation"⟩
  else
    match first.plan with
    | none =>
      .inr ⟨.error, "plan_failed",
        first.error.getD "the first plan failed"⟩
    | some plan => .inl (startMission plan plan_s)

/-! ## One attempt -/

def coded (status : VerdictStatus) (because gate : String) (replan : Bool) : Verdict where
  status := status
  because := because
  replan := replan
  clauses := []
  gate := gate
  asked := none

/-- A number as the texts show it, `Number(v.toFixed(1))`. -/
def r1 (v : ℚ) : String :=
  let tenths := ⌊10 * |v| + 1 / 2⌋.toNat
  let digits :=
    if tenths % 10 = 0 then toString (tenths / 10)
    else toString (tenths / 10) ++ "." ++ toString (tenths % 10)
  if v < 0 ∧ tenths ≠ 0 then "-" ++ digits else digits

def releaseVerdict (miss : Option ReleaseMiss) : Verdict :=
  match miss with
  | none => coded .done "released over the place" "released" false
  | some miss =>
    if miss.missed then
      coded .not_done
        ("released " ++ r1 miss.offset_mm ++ " mm from the mark; " ++
          r1 miss.allowed_mm ++ " mm were allowed") "release_missed" true
    else
      coded .done
        ("released " ++ r1 miss.offset_mm ++ " mm from the mark (allowed " ++
          r1 miss.allowed_mm ++ ")") "released" false

def withTask (v : Verdict) (asked : Option Asked) : Verdict :=
  match asked with
  | none => v
  | some a =>
    if a.status = .task_done ∧ v.status = .done then
      { v with status := .task_done, asked := some a }
    else { v with asked := some a }

def noVerdict (r : AttemptReply) : Bool :=
  (r.run.ending = .ERROR && r.run.error_source ≠ .cycle) ||
    r.run.ending = .EPISODE_OVER || r.run.episode_over ||
    r.cancel.any (fun c => c.who = .mission || c.who = .deadline) ||
    (r.run.ending = .CANCELLED && r.cancel.isNone) || !r.look

/-- The verdict of an attempt, code gates first, and the ledger after the
measured releases. -/
def attemptOnce (words : Words) (ledger : ClauseState) (subgoal : Subgoal)
    (r : AttemptReply) : Option Verdict × ClauseState :=
  if noVerdict r then (none, ledger)
  else
    let releaseStep := words.wantsRelease subgoal.criterion subgoal.target
    if r.lostGrasp then
      (some (withTask
        (coded .not_done "the grasp was lost: the gripper reading went from holding to not holding"
          "lost_grasp" true) r.askTask), ledger)
    else if r.run.ending = .CANNOT_FROM_THE_SIDE then
      (some (coded .not_done
        (if r.run.ending_text ≠ "" then r.run.ending_text
          else "the side approach cannot be made here") "cannot" true), ledger)
    else if r.released ∧ r.releaseMeasured then
      let missed := r.releaseMiss.any (·.missed)
      let measured :=
        if 0 ≤ subgoal.clause then
          if missed then measuredMiss ledger subgoal.clause
          else measuredHit ledger subgoal.clause
        else ledger
      (some (withTask (releaseVerdict r.releaseMiss) r.askTask), measured)
    else
      let v := r.verified
      if releaseStep ∧ v.gate = "" ∧ v.asked.isNone ∧
          (r.released ∨ v.status = .done) then
        (some (withTask v r.askTask), ledger)
      else (some v, ledger)

def noteSettled (ledger : ClauseState) (s : Subgoal) (r : AttemptReply) : ClauseState :=
  if s.clause < 0 then ledger
  else if r.pushed ∨ r.turned then codeEvent ledger s.clause
  else ledger

/-- What the check leaves: the last answer, the ledger and whether the extra
question was used up. -/
structure TaskCheck where
  status : VerdictStatus
  because : String
  ledger : ClauseState
  askedWholeOnce : Bool

/-- The verdict on the whole task, asked once more on a new picture when every
clause has a code event behind it. -/
def checkTask (s : MissionState) (t : Turn) : TaskCheck :=
  let v := t.taskVerdict
  let ledger := fold s.ledger v.clauses true none
  let askAgain : Bool :=
    !s.askedWholeOnce ∧ v.status ≠ VerdictStatus.task_done ∧
      (∀ i < ledger.clauses.length, i ∈ ledger.events) ∧
      0 < ledger.clauses.length
  let asked := s.askedWholeOnce || askAgain
  match if askAgain && t.taskLookAgain then t.taskAskAgain else none with
  | none => ⟨v.status, v.because, ledger, asked⟩
  | some second =>
    let ledger := fold ledger second.clauses true none
    if second.status = VerdictStatus.task_done then
      ⟨second.status, second.because, ledger, asked⟩
    else ⟨v.status, v.because, ledger, asked⟩

/-- The check's outcome: the mission's end, or `none` for a replan. -/
def TaskCheck.outcome (c : TaskCheck) (cannotMove : Bool) :
    Option MissionEnd :=
  if c.status = .task_done ∧ allMet c.ledger then
    some ⟨.task_done, "task_done", c.because⟩
  else if c.status = .abort then
    some ⟨.aborted, "verdict_abort", c.because⟩
  else if allMet c.ledger then
    some ⟨.exhausted, "clauses_met_but_not_done",
      "every clause was seen met, yet the check says: " ++ c.because⟩
  else if cannotMove then some ⟨.exhausted, "episode_over", c.because⟩
  else none

def wholeTask (s : MissionState) (t : Turn) (cannotMove : Bool) : MissionState ⊕ MissionEnd :=
  if !t.taskLook then
    .inr ⟨.error, "no_observation", "the robot gave no observation for the task check"⟩
  else
    let check := checkTask s t
    match check.outcome cannotMove with
    | some outcome => .inr outcome
    | none =>
      .inl
        { s with
          ledger := check.ledger
          askedWholeOnce := check.askedWholeOnce }

/-- A replan's new steps: from `keep` on, less any whose clause is met. -/
def freshSteps (subgoals : List Subgoal) (keep : ℕ) (met : Finset ℕ) : List Subgoal :=
  (subgoals.drop keep).filter fun s => !(decide (0 ≤ s.clause) && decide (s.clause.toNat ∈ met))

def clauseEstimate (s : MissionState) (keep : ℕ) (now : ℚ) (clause : ℕ) : ℚ :=
  match s.clauseStarted.lookup (clause : ℤ) with
  | none => SUBGOAL_MEDIAN_S + SUBGOAL_TAX_S
  | some started =>
    let remaining := (s.plan.subgoals.drop keep).filter fun step => step.clause = (clause : ℤ)
    if remaining.isEmpty then now - started
    else
      (remaining.map fun step =>
        min ((s.firstDuration.lookup step.name).getD SUBGOAL_MEDIAN_S) SUBGOAL_MEDIAN_S).sum

/-- The unmet clauses a replan from `keep` is about. -/
def unmetNow (s : MissionState) (keep : ℕ) : List ℕ :=
  if s.plan.subgoals.length ≤ keep then unmet s.ledger
  else
    (unmet s.ledger).filter fun i =>
      (s.plan.subgoals.drop keep).any fun step => step.clause = (i : ℤ)

def doReplan (words : Words) (m : MissionInput) (s : MissionState) (keep : ℕ)
    (t : Turn) : MissionState ⊕ MissionEnd :=
  let estimate := ((unmetNow s keep).map (clauseEstimate s keep t.nowReplan)).sum
  let wouldNeed := s.planCall_s + estimate
  if t.leftReplan_s < max REPLAN_NEEDS_S wouldNeed then
    .inr ⟨.timeout, "replan_refused_for_price",
      r1 t.leftReplan_s ++ " s left, a replan would need " ++ r1 wouldNeed ++ " s"⟩
  else if m.maxReplans ≤ s.replans then
    .inr ⟨.exhausted, "max_replans", toString s.replans ++ " replans used"⟩
  else
    let s :=
      { s with replans := s.replans + 1, planCall_s := t.replan_s }
    match t.replanned.plan with
    | none => .inr ⟨.error, "replan_failed", t.replanned.error.getD "the replan failed"⟩
    | some newPlan =>
      let fresh := freshSteps newPlan.subgoals keep s.ledger.met
      if !fresh.any words.acts then
        let s := { s with no_new_steps := s.no_new_steps + 1 }
        if 2 ≤ s.no_new_steps then
          .inr ⟨.exhausted, "nothing_to_do",
            "the planner twice found nothing left to do"⟩
        else
          let truncated := s.plan.subgoals.take keep
          .inl
            { s with
              plan := { s.plan with subgoals := truncated }
              index := truncated.length
              attempt := 1 }
      else
        match t.replanned.gave_up with
        | some why => .inr ⟨.gave_up, "planner_gave_up", why⟩
        | none =>
          .inl
            { s with
              plan :=
                { newPlan with
                  subgoals := s.plan.subgoals.take keep ++ fresh }
              index := keep
              attempt := 1
              actions_cap := s.actions + 2 * cyclesOf fresh }

/-! ## The loop -/

/-- Walk back over the holding steps of the same object, from `i`. -/
def graspWalk (words : Words) (steps : List Subgoal) (object : String) : ℕ → ℕ
  | 0 => 0
  | i + 1 =>
    match steps[i]? with
    | none => i + 1
    | some before =>
      if words.wantsHolding before.criterion before.target &&
          words.sameObject before.target object then
        graspWalk words steps object i
      else i + 1

def graspStepFor (words : Words) (p : Plan) (failedIndex : ℕ) :
    Option ℕ :=
  match p.subgoals[failedIndex]? with
  | none => none
  | some failed =>
    let i := graspWalk words p.subgoals failed.target failedIndex
    match p.subgoals[i]? with
    | none => none
    | some grasp =>
      if words.wantsHolding grasp.criterion grasp.target then some i
      else none

/-- The lost grasp's way back, when the failed step's object may be grasped
again: once per object. -/
def backtrackTo (words : Words) (s : MissionState) (subgoal : Subgoal) (v : Verdict) :
    Option ℕ :=
  if v.gate = "lost_grasp" then
    match graspStepFor words s.plan s.index with
    | none => none
    | some back =>
      if back ≠ s.index ∧ subgoal.target ∉ s.backtracked then some back
      else none
  else none

/-- Drop the boxes of one step, which was drawn before it slipped. -/
def Plan.dropBoxes (p : Plan) (i : ℕ) : Plan :=
  { p with subgoals := p.subgoals.modify i fun s => { s with target_boxes := [] } }

/-- The ledger after a verdict: the settled code events, then the verdict's
answers, then those of the whole-task question asked with it. -/
def ledgerAfterVerdict (ledger : ClauseState) (subgoal : Subgoal) (v : Verdict)
    (r : AttemptReply) : ClauseState :=
  let settled := noteSettled ledger subgoal r
  let folded := fold settled v.clauses (v.status = .task_done) (some subgoal.criterion)
  match v.asked with
  | none => folded
  | some asked => fold folded asked.clauses true none

def noteDuration (durations : List (String × ℚ)) (name : String) (elapsed_s : ℚ) :
    List (String × ℚ) :=
  if (durations.lookup name).isSome then durations
  else durations ++ [(name, elapsed_s)]

/-- A step verdict's `task_done` settles the step only: the whole-task check
has the last word. -/
def Verdict.stepStatus (v : Verdict) : VerdictStatus :=
  if v.status = .task_done then .done else v.status

def afterVerdict (words : Words) (m : MissionInput) (s : MissionState)
    (subgoal : Subgoal) (v : Verdict) (t : Turn) :
    MissionState ⊕ MissionEnd :=
  let s :=
    { s with
      ledger := ledgerAfterVerdict s.ledger subgoal v t.attempt
      firstDuration := noteDuration s.firstDuration subgoal.name t.attempt.elapsed_s }
  if v.stepStatus = .abort then .inr ⟨.aborted, "verdict_abort", v.because⟩
  else if t.leftAfter_s ≤ 0 then
    .inr ⟨.timeout, "clock_ran_out", "the mission clock ran out"⟩
  else if v.stepStatus = .done then
    .inl { s with index := s.index + 1, attempt := 1 }
  else if !v.replan ∧ s.attempt = 1 ∧ !t.attempt.neverMoved then
    .inl { s with attempt := 2 }
  else
    match backtrackTo words s subgoal v with
    | some back =>
      .inl
        { s with
          plan := s.plan.dropBoxes back
          backtracked := s.backtracked ++ [subgoal.target]
          index := back
          attempt := 1 }
    | none => doReplan words m s s.index t

/-- The state an attempt leaves: the clause's clock started, its actions
counted, the measured releases in the ledger. -/
def MissionState.attempted (s : MissionState) (subgoal : Subgoal) (t : Turn)
    (ledger : ClauseState) : MissionState :=
  { s with
    ledger := ledger
    clauseStarted :=
      if 0 ≤ subgoal.clause ∧
          (s.clauseStarted.lookup subgoal.clause).isNone then
        s.clauseStarted ++ [(subgoal.clause, t.now)]
      else s.clauseStarted
    actions := s.actions + t.attempt.run.cyclesWithSteps }

def iterate (words : Words) (m : MissionInput) (s : MissionState) (t : Turn) :
    MissionState ⊕ MissionEnd :=
  if t.cancel.any (·.who = .mission) then
    .inr ⟨.cancelled, "cancelled", (t.cancel.map (·.reason)).getD ""⟩
  else if t.cancel.any (·.who = .deadline) ∨ t.left_s ≤ 0 then
    .inr ⟨.timeout, "clock_ran_out", "the mission clock ran out"⟩
  else
    match s.plan.subgoals[s.index]? with
    | none =>
      -- the plan ran out
      match wholeTask s t false with
      | .inr outcome => .inr outcome
      | .inl s => doReplan words m s s.plan.subgoals.length t
    | some subgoal =>
      if s.actions_cap ≤ s.actions then
        .inr ⟨.exhausted, "actions_exhausted",
          toString s.actions ++ " actions used; the cap was " ++ toString s.actions_cap⟩
      else
        let judged := attemptOnce words s.ledger subgoal t.attempt
        let s := s.attempted subgoal t judged.2
        if t.attempt.run.ending = .EPISODE_OVER ∨
            t.attempt.run.episode_over then
          match wholeTask s t true with
          | .inr outcome => .inr outcome
          | .inl _ =>
            .inr ⟨.exhausted, "episode_over", "the episode ended before the task was complete"⟩
        else
          match judged.1 with
          | none =>
            if t.attempt.run.ending = .ERROR then
              .inr ⟨.error, "executor_error", t.attempt.run.error.getD t.attempt.run.ending_text⟩
            else if t.cancelAfter.any (·.who = .mission) then
              .inr ⟨.cancelled, "cancelled", (t.cancelAfter.map (·.reason)).getD ""⟩
            else
              .inr ⟨.timeout, "clock_ran_out", "the mission clock ran out during a step"⟩
          | some v => afterVerdict words m s subgoal v t

/-! ## The measure -/

def MissionState.targetsLeft (s : MissionState) : Finset String :=
  (s.plan.subgoals.map Subgoal.target).toFinset \ s.backtracked.toFinset

/-- Replans left, objects not yet backed up for, steps remaining, attempts left
on the current step. -/
def missionMeasure (m : MissionInput) (s : MissionState) : ℕ ×ₗ ℕ ×ₗ ℕ ×ₗ ℕ :=
  toLex (⌈m.maxReplans⌉₊ - s.replans,
    toLex (s.targetsLeft.card, toLex (s.plan.subgoals.length - s.index, 2 - s.attempt)))

@[simp]
theorem dropBoxes_targets (p : Plan) (i : ℕ) :
    (p.dropBoxes i).subgoals.map Subgoal.target = p.subgoals.map Subgoal.target := by
  apply List.ext_getElem?
  intro j
  simp only [Plan.dropBoxes, List.getElem?_map, List.getElem?_modify]
  cases p.subgoals[j]? with
  | none => rfl
  | some step => by_cases same : i = j <;> simp [same]

variable {words : Words} {m : MissionInput} {s next : MissionState} {t : Turn}

theorem doReplan_goes_on {keep : ℕ} (goesOn : doReplan words m s keep t = .inl next) :
    (s.replans : ℚ) < m.maxReplans ∧ next.replans = s.replans + 1 := by
  unfold doReplan at goesOn
  dsimp only at goesOn
  split at goesOn
  · cases goesOn
  · split at goesOn
    · cases goesOn
    · rename_i belowMax
      refine ⟨not_le.mp belowMax, ?_⟩
      split at goesOn
      · cases goesOn
      · split at goesOn
        · split at goesOn
          · cases goesOn
          · cases goesOn
            rfl
        · split at goesOn
          · cases goesOn
          · cases goesOn
            rfl

/-- Everything a judged attempt that goes on can do: the next step, the same
step once more, back to the grasp step, or a replan. -/
theorem afterVerdict_goes_on {subgoal : Subgoal} {v : Verdict}
    (goesOn : afterVerdict words m s subgoal v t = .inl next) :
    (next.plan = s.plan ∧ next.replans = s.replans ∧
      next.backtracked = s.backtracked ∧
      (next.index = s.index + 1 ∨
        next.index = s.index ∧ s.attempt = 1 ∧ next.attempt = 2)) ∨
    (next.replans = s.replans ∧ subgoal.target ∉ s.backtracked ∧
      next.backtracked = s.backtracked ++ [subgoal.target] ∧
      next.plan.subgoals.map Subgoal.target = s.plan.subgoals.map Subgoal.target) ∨
    ((s.replans : ℚ) < m.maxReplans ∧ next.replans = s.replans + 1) := by
  unfold afterVerdict at goesOn
  dsimp only at goesOn
  split at goesOn
  · cases goesOn
  split at goesOn
  · cases goesOn
  split at goesOn
  · cases goesOn
    exact .inl ⟨rfl, rfl, rfl, .inl rfl⟩
  split at goesOn
  · rename_i retry
    cases goesOn
    exact .inl ⟨rfl, rfl, rfl, .inr ⟨rfl, retry.2.1, rfl⟩⟩
  split at goesOn
  · rename_i back found
    cases goesOn
    refine .inr (.inl ⟨rfl, ?_, rfl, dropBoxes_targets s.plan back⟩)
    unfold backtrackTo at found
    split at found
    · split at found
      · cases found
      · split at found
        · rename_i allowed
          exact allowed.2
        · cases found
    · cases found
  · have replanned := doReplan_goes_on goesOn
    exact .inr (.inr replanned)

theorem wholeTask_goes_on {cannotMove : Bool} (goesOn : wholeTask s t cannotMove = .inl next) :
    next.plan = s.plan ∧ next.replans = s.replans := by
  unfold wholeTask at goesOn
  dsimp only at goesOn
  split at goesOn
  · cases goesOn
  · split at goesOn
    · cases goesOn
    · cases goesOn
      exact ⟨rfl, rfl⟩

theorem iterate_goes_on (goesOn : iterate words m s t = .inl next) :
    ((s.replans : ℚ) < m.maxReplans ∧ next.replans = s.replans + 1) ∨
    ∃ subgoal, s.plan.subgoals[s.index]? = some subgoal ∧
      ((next.plan = s.plan ∧ next.replans = s.replans ∧
        next.backtracked = s.backtracked ∧
        (next.index = s.index + 1 ∨
          next.index = s.index ∧ s.attempt = 1 ∧ next.attempt = 2)) ∨
      (next.replans = s.replans ∧ subgoal.target ∉ s.backtracked ∧
        next.backtracked = s.backtracked ++ [subgoal.target] ∧
        next.plan.subgoals.map Subgoal.target = s.plan.subgoals.map Subgoal.target)) := by
  unfold iterate at goesOn
  dsimp only at goesOn
  split at goesOn
  · cases goesOn
  split at goesOn
  · cases goesOn
  split at goesOn
  · -- the plan ran out: the check goes on only to a replan
    split at goesOn
    · cases goesOn
    · rename_i checked
      have same := wholeTask_goes_on checked
      have replanned := doReplan_goes_on goesOn
      rw [same.2] at replanned
      exact .inl replanned
  · rename_i subgoal found
    split at goesOn
    · cases goesOn
    split at goesOn
    · split at goesOn <;> cases goesOn
    split at goesOn
    · split at goesOn
      · cases goesOn
      · split at goesOn <;> cases goesOn
    · rcases afterVerdict_goes_on goesOn with onward | back | replanned
      · exact .inr ⟨subgoal, found, .inl onward⟩
      · exact .inr ⟨subgoal, found, .inr back⟩
      · exact .inl replanned

theorem missionMeasure_replanned (belowMax : (s.replans : ℚ) < m.maxReplans)
    (replans : next.replans = s.replans + 1) : missionMeasure m next < missionMeasure m s := by
  apply Prod.Lex.left
  have : s.replans < ⌈m.maxReplans⌉₊ := Nat.lt_ceil.mpr belowMax
  omega

theorem targetsLeft_backtracked
    {subgoal : Subgoal} (found : s.plan.subgoals[s.index]? = some subgoal)
    (fresh : subgoal.target ∉ s.backtracked)
    (backtracked : next.backtracked = s.backtracked ++ [subgoal.target])
    (targets :
      next.plan.subgoals.map Subgoal.target = s.plan.subgoals.map Subgoal.target) :
    next.targetsLeft.card < s.targetsLeft.card := by
  apply Finset.card_lt_card
  have inPlan : subgoal.target ∈ s.plan.subgoals.map Subgoal.target :=
    List.mem_map.mpr ⟨subgoal, List.mem_of_getElem? found, rfl⟩
  rw [Finset.ssubset_iff_of_subset]
  · refine ⟨subgoal.target, ?_, ?_⟩
    · simp [MissionState.targetsLeft, fresh, -List.mem_map, inPlan]
    · simp [MissionState.targetsLeft, backtracked]
  · intro target member
    simp only [MissionState.targetsLeft, targets, backtracked,
      Finset.mem_sdiff, List.mem_toFinset, List.mem_append,
      List.mem_singleton, not_or] at member ⊢
    exact ⟨member.1, member.2.1⟩

theorem missionMeasure_decreases (goesOn : iterate words m s t = .inl next) :
    missionMeasure m next < missionMeasure m s := by
  rcases iterate_goes_on goesOn with
    ⟨belowMax, replans⟩ | ⟨subgoal, found, onward | back⟩
  · exact missionMeasure_replanned belowMax replans
  · obtain ⟨plan, replans, backtracked, moved⟩ := onward
    have inPlan : s.index < s.plan.subgoals.length := (List.getElem?_eq_some_iff.mp found).1
    unfold missionMeasure MissionState.targetsLeft
    rw [plan, replans, backtracked]
    apply Prod.Lex.right
    apply Prod.Lex.right
    rcases moved with onStep | ⟨sameStep, first, second⟩
    · apply Prod.Lex.left
      omega
    · rw [sameStep, first, second]
      apply Prod.Lex.right
      decide
  · obtain ⟨replans, fresh, backtracked, targets⟩ := back
    unfold missionMeasure
    rw [replans]
    apply Prod.Lex.right
    apply Prod.Lex.left
    exact targetsLeft_backtracked found fresh backtracked targets

/-- The mission ends: whatever the first plan, the executor's endings, the
verdicts, the clause events and the planner's replies are, some iteration is
the last, and every one before it decreases the measure. -/
theorem mission_terminates (words : Words) (m : MissionInput) (plan : Plan) (plan_s : ℚ)
    (turns : ℕ → Turn) :
    (∃ n result, Runs.loop (iterate words m) turns n (startMission plan plan_s) = .inr result) ∧
    (∀ s t next, iterate words m s t = .inl next → missionMeasure m next < missionMeasure m s) :=
  ⟨Runs.loop_stops (iterate words m) (missionMeasure m)
      (fun _ _ _ => missionMeasure_decreases) (startMission plan plan_s)
      turns,
    fun _ _ _ => missionMeasure_decreases⟩

end PiEmbodied.Motormind
