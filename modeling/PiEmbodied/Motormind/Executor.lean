import PiEmbodied.Motormind.Mission

/-!
# The executor's loop

The executor runs one subgoal cycle by cycle: a look, a proposal, and the
proposed actions one at a time, each gated before it runs.  A cycle that
executed something spends the subgoal's budget; cycles that did not move are
counted until the tool is called frozen.  One cycle is `cycle`: it reads a
`CycleTurn`, what the robot, the proposer, the gates' geometry and the clock
answer during it.
-/

namespace PiEmbodied.Motormind

/-! ## Actions and measurements -/

inductive DeltaKind where
  | translate | rotate | gripper | wait | home
deriving DecidableEq

inductive GripperState where
  | open | close
deriving DecidableEq

structure Delta where
  kind : DeltaKind
  /-- m, for a translation. -/
  magnitude : ℚ
  gripper_state : Option GripperState
  label : String
deriving DecidableEq

inductive SegmentOutcome where
  | done | contact | limited | refused | skipped | failed
deriving DecidableEq

def SegmentOutcome.text : SegmentOutcome → String
  | .done => "done"
  | .contact => "contact"
  | .limited => "limited"
  | .refused => "refused"
  | .skipped => "skipped"
  | .failed => "failed"

inductive AbortReason where
  | blocked | skidded
deriving DecidableEq

structure SegmentReport where
  label : String
  kind : DeltaKind
  outcome : SegmentOutcome
  abort_reason : Option AbortReason
  (moved_mm along_axis_mm turned_deg : ℚ)
deriving DecidableEq

structure Jaws where
  holding : Option Bool
  (closed_fraction opening_mm : Option ℚ)
deriving DecidableEq

structure Frame where
  jaws : Jaws
  episode_over : Bool
deriving DecidableEq

def MIN_USEFUL_DESCENT_MM : ℚ := 3
def NO_MOTION_MM : ℚ := 1
def NO_TURN_DEG : ℚ := 1 / 2
def BLOCKED_SHARE : ℚ := 1 / 4
def FROZEN_CYCLES : ℕ := 2
def MAX_CYCLES : ℚ := 30

def ACT_REFUSED : String := "mm_act refused, nothing moved:"

def Ending.text : Ending → String
  | .HELD => "the jaws closed and report holding something"
  | .RELEASED_IN_CODE => "the code let go over the receiver"
  | .ARRIVED => "the tool stopped moving within the arrival threshold of the target"
  | .WALL => "the tool is frozen at the edge of the reach with something in the jaws"
  | .FROZEN => "the tool stopped moving and the subgoal is not achieved"
  | .MODEL_DONE => "the model says the subgoal is achieved"
  | .DONE_AFTER_LAST => "the model gave its last actions and said the subgoal is achieved"
  | .CANNOT_FROM_THE_SIDE => "the side take cannot be done"
  | .ERROR => "the executor stopped on an error"
  | .CANCELLED => "the attempt was cancelled"
  | .CYCLES_EXHAUSTED => "the subgoal's action budget is spent"
  | .EPISODE_OVER => "the episode is over"

/-- `v.toFixed(0)`. -/
def fixed0 (v : ℚ) : String :=
  let rounded := ⌊|v| + 1 / 2⌋.toNat
  if v < 0 then "-" ++ toString rounded else toString rounded

/-- `v.toFixed(1)`. -/
def fixed1 (v : ℚ) : String :=
  let tenths := ⌊10 * |v| + 1 / 2⌋.toNat
  let digits := toString (tenths / 10) ++ "." ++ toString (tenths % 10)
  if v < 0 then "-" ++ digits else digits

/-- Whether the jaws stand where a close left them; `none` when the robot
cannot say. -/
def jawsShut (f : Jaws) : Option Bool :=
  if f.holding = some true then some true
  else
    match f.closed_fraction with
    | some fraction => some (fraction < 1 / 2)
    | none => f.opening_mm.map fun opening => opening < 20

/-- The cycle's command changes what the jaws are doing, whether or not the
batch reached it. -/
def jawsChanged (deltas : List Delta) (before : Jaws) : Bool :=
  let states := (deltas.filter (·.kind = .gripper)).filterMap (·.gripper_state)
  if states.isEmpty then false
  else
    match jawsShut before with
    | none => true
    | some shut => !states.all fun st => (st == GripperState.close) == shut

structure MotionCheck where
  frozen : Bool
  why : String
deriving DecidableEq

/-- The cycle did not move: under a millimetre in all, or stopped short. -/
def noMotion (steps : List SegmentReport) (deltas : List Delta)
    (gripperChanged : Bool) : MotionCheck :=
  if gripperChanged then ⟨false, ""⟩
  else
    let moved := (steps.map fun st => if st.kind = .translate then |st.moved_mm| else 0).sum
    let turned := (steps.map fun st => |st.turned_deg|).sum
    if NO_TURN_DEG ≤ turned then ⟨false, ""⟩
    else if moved < NO_MOTION_MM then
      ⟨true, "the tool moved " ++ fixed1 moved ++ " mm in all"⟩
    else if steps.any (·.abort_reason = some .blocked) then
      ⟨true, "a move stopped early: a segment was blocked"⟩
    else
      let asked :=
        (deltas.map fun d =>
          if d.kind = .translate then d.magnitude * 1000 else 0).sum
      let got := (steps.map fun st => |st.along_axis_mm|).sum
      if MIN_USEFUL_DESCENT_MM < asked ∧ got < BLOCKED_SHARE * asked then
        ⟨true, "a move stopped early: the batch made " ++ fixed1 got ++
          " of the " ++ fixed1 asked ++ " mm it asked for"⟩
      else ⟨false, ""⟩

structure Relook where
  steps : List SegmentReport
  ended : Option (Ending × Option String)
deriving DecidableEq

structure ActReply where
  ok : Bool
  error : String
  segments : List SegmentReport
  (timed_out episode_over cancelled : Bool)
  /-- The gap a close left, when it reports holding. -/
  grasped : Option ℚ
  /-- The payload drags on the last segment. -/
  dragging : Bool
deriving DecidableEq

/-- What is read before and at one action.  The gates run before every action
but the first; the first was gated with the proposal. -/
structure ActionTurn where
  cancelled : Bool
  look : Option Frame
  gate : Option String
  /-- The re-look before a close, when one is arranged here, and the gates
  after it. -/
  closeLook : Option Relook
  gateAfter : Option String
  descentLook : Option Relook
  cancelledLate : Bool
  reply : ActReply
deriving DecidableEq

inductive LetGo where
  | released | failed (error : String)
deriving DecidableEq

structure ArrivedCheck where
  arrived : Bool
  threshold_mm : ℚ
  residual_mm : Option ℚ
deriving DecidableEq

structure CycleTurn where
  cancel : Option String
  look : Option Frame
  (cancelAfterLook sideCannot : Option String)
  /-- The proposed actions, mended, with what each is told; `none` when the
  proposer gave no proposal. -/
  actions : Option (List (Delta × ActionTurn))
  done : Bool
  proposalError : Option String
  /-- The executor lets go for want of a proposal. -/
  letGoEarly : Option LetGo
  /-- A limit shortened or refused a move towards the edge of the reach. -/
  (atTheWall holdingAfter : Bool)
  cancelReason : Option String
  /-- What the jaws hold is about this wide. -/
  span_mm : Option ℚ
  letGoFrozen : Option LetGo
  arrived : Option ArrivedCheck
deriving DecidableEq

/-! ## The batch -/

structure Batch where
  ran : ℕ
  steps : List SegmentReport
  stopped : Option (ℕ × String)
  ended : Option (Ending × Option String)
  cancelledMid : Bool
  grasped : Option ℚ
deriving DecidableEq

def emptyBatch : Batch where
  ran := 0
  steps := []
  stopped := none
  ended := none
  cancelledMid := false
  grasped := none

def Batch.end_ (b : Batch) (ending : Ending) (error : Option String) : Batch :=
  { b with ended := some (ending, error) }

def Batch.stop (b : Batch) (at_ : ℕ) (reason : String) : Batch :=
  { b with stopped := some (at_, reason) }

def Batch.running (b : Batch) : Bool :=
  b.stopped.isNone && b.ended.isNone && !b.cancelledMid

def Batch.relook (b : Batch) (look : Option Relook) : Batch :=
  match look with
  | none => b
  | some r =>
    match r.ended with
    | some ended => { b with steps := b.steps ++ r.steps, ended := some ended }
    | none => { b with steps := b.steps ++ r.steps }

def Batch.lookBeforeClose (b : Batch) (i : ℕ) (a : ActionTurn) : Batch :=
  match a.closeLook with
  | none => b
  | some _ =>
    let looked := b.relook a.closeLook
    if looked.ended.isSome then looked
    else
      match a.gateAfter with
      | some why => looked.stop i why
      | none => looked

/-- The look and the gates before an action; the first action of a batch was
looked at and gated with the proposal. -/
def Batch.gated (b : Batch) (i : ℕ) (a : ActionTurn) : Batch :=
  if i = 0 then b.lookBeforeClose i a
  else
    match a.look with
    | none => b.end_ .ERROR (some "the robot answered the look with an error")
    | some frame =>
      if frame.episode_over then b.end_ .EPISODE_OVER none
      else
        match a.gate with
        | some why => b.stop i why
        | none => b.lookBeforeClose i a

def actionOutcome (steps : List SegmentReport) : Option SegmentReport :=
  (steps.reverse.find? fun st => st.outcome ≠ .skipped).or steps.getLast?

def Batch.acted (b : Batch) (i : ℕ) (reply : ActReply) : Batch :=
  if !reply.ok then
    if ACT_REFUSED.toList.isPrefixOf reply.error.toList then b.stop i reply.error
    else b.end_ .ERROR (some reply.error)
  else
    let b :=
      { b with
        ran := b.ran + 1
        steps := b.steps ++ reply.segments
        grasped := reply.grasped.or b.grasped }
    if reply.timed_out then
      b.end_ .ERROR (some "a segment's outcome is unknown (the RPC timed out)")
    else if reply.episode_over then b.end_ .EPISODE_OVER none
    else if reply.cancelled then { b with cancelledMid := true }
    else
      match actionOutcome reply.segments with
      | none => b
      | some last =>
        if reply.dragging then
          b.stop i "the payload is dragging: a sideways move was blocked while holding"
        else if last.outcome ∉
            [SegmentOutcome.done, .limited, .contact] then
          b.stop i (last.label ++ " ended " ++ last.outcome.text)
        else b

def Batch.action (b : Batch) (i : ℕ) (a : ActionTurn) : Batch :=
  if a.cancelled then { b with cancelledMid := true }
  else
    let b := b.gated i a
    if !b.running then b
    else
      let b := b.relook a.descentLook
      if !b.running then b
      else if a.cancelledLate then { b with cancelledMid := true }
      else b.acted i a.reply

/-- The actions from the `i`-th on, until one stops the batch. -/
def runBatch (i : ℕ) (b : Batch) : List (Delta × ActionTurn) → Batch
  | [] => b
  | (_, a) :: rest =>
    let b := b.action i a
    if b.running then runBatch (i + 1) b rest else b

/-! ## The loop -/

structure SubgoalInput where
  maxCycles : ℚ
  /-- The criterion asks for something in the jaws. -/
  wantsHolding : Bool

def SubgoalInput.cap (input : SubgoalInput) : ℚ :=
  max 1 (min input.maxCycles MAX_CYCLES)

structure LoopState where
  (spent frozen wall inheritedFrozen : ℕ)
  askedPosition : Bool
deriving DecidableEq

/-- The loop's start; a carried target brings its frozen cycles along. -/
def newState (inheritedFrozen : ℕ) : LoopState where
  spent := 0
  frozen := 0
  wall := 0
  inheritedFrozen := inheritedFrozen
  askedPosition := false

structure ExecutorEnd where
  ending : Ending
  ending_text : String
  error : Option String
  error_source : ErrorSource
deriving DecidableEq

def finish (ending : Ending) (error : Option String := none)
    (text : Option String := none) (source : ErrorSource := .robot) :
    ExecutorEnd where
  ending := ending
  ending_text := text.getD ending.text
  error := error
  error_source := source

def LetGo.finish : LetGo → ExecutorEnd
  | .released => Motormind.finish .RELEASED_IN_CODE
  | .failed error => Motormind.finish .ERROR (some error)

def LoopState.counted (s : LoopState) (check : MotionCheck) (atTheWall holding : Bool) :
    LoopState :=
  if check.frozen then
    if atTheWall && holding then { s with wall := s.wall + 1 }
    else { s with frozen := s.frozen + 1 }
  else { s with frozen := 0, wall := 0 }

/-- The exit of a tool that stopped moving: the end, or the one question about
its position. -/
def frozenExit (s : LoopState) (check : MotionCheck) (t : CycleTurn) : LoopState ⊕ ExecutorEnd :=
  match t.letGoFrozen with
  | some letGo => .inr letGo.finish
  | none =>
    let isThere := t.arrived.any (·.arrived)
    if FROZEN_CYCLES ≤ s.wall ∧ !isThere then
      .inr (finish .WALL none
        (some ("frozen at the wall: " ++ check.why ++ "; the target is out of reach from here")))
    else if t.arrived.any (fun a => !a.arrived) ∧ !s.askedPosition then
      .inl { s with askedPosition := true, frozen := 0 }
    else
      match t.arrived.filter (·.arrived) with
      | some a =>
        .inr (finish .ARRIVED none
          (some ("arrived: the tool is " ++ fixed0 (a.residual_mm.getD 0) ++
            " mm from the target, within " ++ fixed0 a.threshold_mm ++
            " mm, and nothing was shoved since the look")))
      | none => .inr (finish .FROZEN none (some ("frozen: " ++ check.why)))

def afterBatch (input : SubgoalInput) (s : LoopState) (frame : Frame)
    (deltas : List Delta) (b : Batch) (t : CycleTurn) :
    LoopState ⊕ ExecutorEnd :=
  let s := if 0 < b.ran then { s with spent := s.spent + 1 } else s
  let check := noMotion b.steps deltas (jawsChanged deltas frame.jaws)
  let s := s.counted check t.atTheWall t.holdingAfter
  match b.ended with
  | some (ending, error) => .inr (finish ending error)
  | none =>
    if b.cancelledMid then
      .inr (finish .CANCELLED none (some (t.cancelReason.getD "cancelled")))
    else
      match b.grasped.filter fun _ =>
          input.wantsHolding ∧ frame.jaws.holding ≠ some true with
      | some gap =>
        .inr (finish .HELD none
          (some ("held in code: the jaws settled " ++ fixed1 gap ++ " mm apart" ++
            (match t.span_mm with
              | none => ""
              | some span => " on something about " ++ fixed0 span ++ " mm across"))))
      | none =>
        if FROZEN_CYCLES ≤ s.frozen ∨ FROZEN_CYCLES ≤ s.wall then
          frozenExit s check t
        else if t.done ∧ b.stopped.isNone then
          .inr (finish .DONE_AFTER_LAST)
        else .inl s

def claimed (s : LoopState) : ExecutorEnd :=
  if 0 < s.inheritedFrozen ∧
      FROZEN_CYCLES ≤ s.inheritedFrozen + s.frozen + 1 then
    finish .FROZEN none (some "frozen: the tool had stopped moving before this claim")
  else finish .MODEL_DONE

def cycle (input : SubgoalInput) (s : LoopState) (t : CycleTurn) : LoopState ⊕ ExecutorEnd :=
  if input.cap ≤ s.spent then .inr (finish .CYCLES_EXHAUSTED)
  else
    match t.cancel with
    | some reason => .inr (finish .CANCELLED none (some reason))
    | none =>
      match t.look with
      | none => .inr (finish .ERROR (some "the robot answered the look with an error"))
      | some frame =>
        if frame.episode_over then .inr (finish .EPISODE_OVER)
        else
          match t.cancelAfterLook with
          | some reason => .inr (finish .CANCELLED none (some reason))
          | none =>
            match t.sideCannot with
            | some why =>
              .inr (finish .CANNOT_FROM_THE_SIDE none
                (some ("cannot take it from the side: " ++ why)))
            | none =>
              match t.actions with
              | none =>
                match t.letGoEarly with
                | some letGo => .inr letGo.finish
                | none =>
                  .inr (finish .ERROR (some (t.proposalError.getD "no proposal")) none .cycle)
              | some [] =>
                if t.done then .inr (claimed s)
                else
                  .inr (finish .ERROR
                    (some "the proposal has no actions and does not claim the subgoal done")
                    none .cycle)
              | some actions =>
                afterBatch input s frame (actions.map Prod.fst) (runBatch 0 emptyBatch actions) t

/-! ## Cycles that execute nothing -/

/-- The first action of the batch does not run and the loop goes on: the gates
after a re-look stop it, or the robot refuses it. -/
def ActionTurn.notRun (a : ActionTurn) : Bool :=
  (a.closeLook.isSome && a.gateAfter.isSome) ||
    (!a.reply.ok && ACT_REFUSED.toList.isPrefixOf a.reply.error.toList)

def lookSteps (look : Option Relook) : List SegmentReport :=
  (look.map (·.steps)).getD []

/-- The executor's own moves before an action that does not run. -/
def ActionTurn.followed (a : ActionTurn) : List SegmentReport :=
  if a.closeLook.isSome && a.gateAfter.isSome then lookSteps a.closeLook
  else lookSteps a.closeLook ++ lookSteps a.descentLook

/-- A cycle whose batch does not run stands still: its batch commands no change
of the jaws, and the executor's own moves left the tool in place. -/
def standsStill (t : CycleTurn) : Bool :=
  match t.look, t.actions with
  | some frame, some ((d, a) :: rest) =>
    !a.notRun ||
      (noMotion a.followed (d :: rest.map Prod.fst)
        (jawsChanged (d :: rest.map Prod.fst) frame.jaws)).frozen
  | _, _ => true

section

variable (b : Batch)
include b

theorem relook_some {r : Relook} {look : Option Relook} (given : look = some r) :
    b.relook look = { b with steps := b.steps ++ r.steps, ended := r.ended.or b.ended } := by
  subst given
  unfold Batch.relook
  dsimp only
  cases r.ended <;> rfl

@[simp]
theorem relook_none : b.relook none = b :=
  rfl

@[simp]
theorem relook_ran (look : Option Relook) : (b.relook look).ran = b.ran := by
  cases look with
  | none => rfl
  | some r => rw [relook_some b rfl]

theorem lookBeforeClose_ran (i : ℕ) (a : ActionTurn) :
    (b.lookBeforeClose i a).ran = b.ran := by
  unfold Batch.lookBeforeClose
  split
  · rfl
  · dsimp only
    split
    · exact relook_ran b _
    · split
      · exact relook_ran b _
      · exact relook_ran b _

theorem gated_ran (i : ℕ) (a : ActionTurn) : (b.gated i a).ran = b.ran := by
  unfold Batch.gated
  split
  · exact lookBeforeClose_ran b i a
  · split
    · rfl
    · split
      · rfl
      · split
        · rfl
        · exact lookBeforeClose_ran b i a

/-- A robot that takes the action makes it count; one that does not leaves the
count. -/
theorem acted_ran (i : ℕ) (reply : ActReply) :
    (b.acted i reply).ran = if reply.ok then b.ran + 1 else b.ran := by
  unfold Batch.acted
  cases reply.ok with
  | false =>
    simp only [Bool.not_false, if_true, Bool.false_eq_true, if_false]
    split <;> rfl
  | true =>
    simp only [Bool.not_true, Bool.false_eq_true, if_false, if_true]
    split
    · rfl
    · split
      · rfl
      · split
        · rfl
        · split
          · rfl
          · split
            · rfl
            · split <;> rfl

theorem action_ran (i : ℕ) (a : ActionTurn) : b.ran ≤ (b.action i a).ran := by
  unfold Batch.action
  split
  · exact Nat.le_refl _
  · dsimp only
    split
    · rw [gated_ran]
    · split
      · rw [relook_ran, gated_ran]
      · split
        · rw [relook_ran, gated_ran]
        · rw [acted_ran, relook_ran, gated_ran]
          split <;> omega

end

theorem runBatch_ran (actions : List (Delta × ActionTurn)) :
    ∀ (i : ℕ) (b : Batch), b.ran ≤ (runBatch i b actions).ran := by
  induction actions with
  | nil =>
    intro i b
    exact Nat.le_refl _
  | cons head rest ih =>
    intro i b
    have first := action_ran b i head.2
    unfold runBatch
    dsimp only
    split
    · exact first.trans (ih (i + 1) _)
    · exact first

theorem lookBeforeClose_cases (b : Batch) (i : ℕ) (a : ActionTurn) :
    (b.lookBeforeClose i a).ended.isSome = true ∨
    (a.closeLook.isSome = true ∧ a.gateAfter.isSome = true ∧
      (b.lookBeforeClose i a).stopped.isSome = true ∧
      (b.lookBeforeClose i a).steps = b.steps ++ lookSteps a.closeLook) ∨
    ((a.closeLook.isSome && a.gateAfter.isSome) = false ∧
      b.lookBeforeClose i a = b.relook a.closeLook) := by
  unfold Batch.lookBeforeClose
  cases look : a.closeLook with
  | none => exact .inr (.inr ⟨rfl, rfl⟩)
  | some r =>
    have looked := relook_some b (rfl : some r = some r)
    by_cases ended : (b.relook (some r)).ended.isSome = true
    · left
      simp only [ended, if_true]
    · cases gate : a.gateAfter with
      | none =>
        right; right
        simp only [ended, Bool.false_eq_true, if_false]
        exact ⟨rfl, trivial⟩
      | some why =>
        right; left
        simp only [ended, Bool.false_eq_true, if_false]
        refine ⟨rfl, rfl, rfl, ?_⟩
        simp only [Batch.stop, looked, lookSteps, Option.map_some, Option.getD_some]

variable {b : Batch}

theorem not_running_of_ended (ended : b.ended.isSome = true) : b.running = false := by
  obtain ⟨ending, isEnded⟩ := Option.isSome_iff_exists.mp ended
  simp [Batch.running, isEnded]

theorem not_running_of_stopped (stopped : b.stopped.isSome = true) : b.running = false := by
  obtain ⟨reason, isStopped⟩ := Option.isSome_iff_exists.mp stopped
  simp [Batch.running, isStopped]

theorem relook_steps (b : Batch) (look : Option Relook) :
    (b.relook look).steps = b.steps ++ lookSteps look := by
  cases look with
  | none => simp [lookSteps]
  | some r => rw [relook_some b rfl]; rfl

theorem relook_stopped (b : Batch) (look : Option Relook) :
    (b.relook look).stopped = b.stopped := by
  cases look with
  | none => rfl
  | some r => rw [relook_some b rfl]

theorem relook_cancelledMid (b : Batch) (look : Option Relook) :
    (b.relook look).cancelledMid = b.cancelledMid := by
  cases look with
  | none => rfl
  | some r => rw [relook_some b rfl]

/-- A robot that does not take the action ends the batch or refused it, and a
refusal leaves the steps. -/
theorem acted_refused (b : Batch) (i : ℕ) (reply : ActReply) (refused : reply.ok = false) :
    (b.acted i reply).ended.isSome = true ∨
    (ACT_REFUSED.toList.isPrefixOf reply.error.toList = true ∧
      (b.acted i reply).stopped.isSome = true ∧
      (b.acted i reply).steps = b.steps) := by
  unfold Batch.acted
  simp only [refused, Bool.not_false, if_true]
  by_cases saysRefused : ACT_REFUSED.toList.isPrefixOf reply.error.toList = true
  · right
    simp only [saysRefused, if_true]
    exact ⟨trivial, rfl, rfl⟩
  · left
    simp only [saysRefused, Bool.false_eq_true, if_false]
    rfl

/-- How a batch's first action can go: it is cancelled, it ends the subgoal, it
does not run, or it runs. -/
theorem firstAction_cases (a : ActionTurn) : (emptyBatch.action 0 a).cancelledMid = true ∨
    (emptyBatch.action 0 a).ended.isSome = true ∨
    (a.notRun = true ∧ (emptyBatch.action 0 a).stopped.isSome = true ∧
      (emptyBatch.action 0 a).steps = a.followed) ∨
    (emptyBatch.action 0 a).ran = 1 := by
  unfold Batch.action
  by_cases cancelled : a.cancelled = true
  · left
    simp only [cancelled, if_true]
  · simp only [cancelled, Bool.false_eq_true, if_false]
    have gated : emptyBatch.gated 0 a = emptyBatch.lookBeforeClose 0 a := rfl
    rw [gated]
    rcases lookBeforeClose_cases emptyBatch 0 a with
      ended | ⟨looked, gateAfter, stopped, steps⟩ | ⟨noGate, same⟩
    · have idle := not_running_of_ended ended
      simp only [idle, Bool.not_false, if_true]
      exact .inr (.inl ended)
    · have idle := not_running_of_stopped stopped
      simp only [idle, Bool.not_false, if_true]
      refine .inr (.inr (.inl ⟨?_, stopped, ?_⟩))
      · simp [ActionTurn.notRun, looked, gateAfter]
      · rw [steps]
        simp [ActionTurn.followed, looked, gateAfter, emptyBatch]
    · rw [same]
      have beforeSteps := relook_steps emptyBatch a.closeLook
      have beforeRan := relook_ran emptyBatch a.closeLook
      have beforeStopped := relook_stopped emptyBatch a.closeLook
      have beforeCancelled := relook_cancelledMid emptyBatch a.closeLook
      generalize emptyBatch.relook a.closeLook = b at *
      by_cases idle : b.running = false
      · simp only [idle, Bool.not_false, if_true]
        right; left
        simpa [Batch.running, beforeStopped, beforeCancelled, emptyBatch] using idle
      · rw [Bool.not_eq_false] at idle
        simp only [idle, Bool.not_true, Bool.false_eq_true, if_false]
        have afterSteps := relook_steps b a.descentLook
        have afterRan := relook_ran b a.descentLook
        have afterStopped := relook_stopped b a.descentLook
        have afterCancelled := relook_cancelledMid b a.descentLook
        generalize b.relook a.descentLook = c at *
        by_cases idleLate : c.running = false
        · simp only [idleLate, Bool.not_false, if_true]
          right; left
          simpa [Batch.running, afterStopped, beforeStopped, afterCancelled,
            beforeCancelled, emptyBatch] using idleLate
        · rw [Bool.not_eq_false] at idleLate
          simp only [idleLate, Bool.not_true, Bool.false_eq_true, if_false]
          by_cases late : a.cancelledLate = true
          · left
            simp only [late, if_true]
          · simp only [late, Bool.false_eq_true, if_false]
            by_cases ok : a.reply.ok = true
            · right; right; right
              rw [acted_ran, if_pos ok, afterRan, beforeRan]
              rfl
            · rw [Bool.not_eq_true] at ok
              rcases acted_refused c 0 a.reply ok with
                ended | ⟨saysRefused, stopped, steps⟩
              · exact .inr (.inl ended)
              · refine .inr (.inr (.inl ⟨?_, stopped, ?_⟩))
                · simp [ActionTurn.notRun, ok, saysRefused]
                · rw [steps, afterSteps, beforeSteps]
                  simp only [ActionTurn.followed, noGate, Bool.false_eq_true, if_false]
                  rfl

/-- A batch that executed nothing and lets the loop go on: its first action did
not run. -/
theorem runBatch_idle (d : Delta) (a : ActionTurn) (rest : List (Delta × ActionTurn))
    (notEnded : (runBatch 0 emptyBatch ((d, a) :: rest)).ended = none)
    (notCancelled : (runBatch 0 emptyBatch ((d, a) :: rest)).cancelledMid = false)
    (idle : (runBatch 0 emptyBatch ((d, a) :: rest)).ran = 0) :
    a.notRun = true ∧ (runBatch 0 emptyBatch ((d, a) :: rest)).steps = a.followed := by
  have first := firstAction_cases a
  simp only [runBatch] at notEnded notCancelled idle ⊢
  by_cases running : (emptyBatch.action 0 a).running = true
  · simp only [running, if_true] at notEnded notCancelled idle ⊢
    have more := runBatch_ran rest 1 (emptyBatch.action 0 a)
    simp only [Batch.running, Bool.and_eq_true, Bool.not_eq_true',
      Option.isNone_iff_eq_none] at running
    rcases first with cancelled | ended | ⟨_, stopped, _⟩ | ran
    · rw [running.2] at cancelled
      cases cancelled
    · rw [running.1.2] at ended
      cases ended
    · rw [running.1.1] at stopped
      cases stopped
    · simp only [Nat.zero_add] at idle
      omega
  · simp only [running, Bool.false_eq_true, if_false] at notEnded notCancelled idle ⊢
    rcases first with cancelled | ended | ⟨notRun, _, steps⟩ | ran
    · rw [notCancelled] at cancelled
      cases cancelled
    · rw [notEnded] at ended
      cases ended
    · exact ⟨notRun, steps⟩
    · omega

/-! ## The cycles of one subgoal -/

variable {input : SubgoalInput} {s next : LoopState} {t : CycleTurn}

/-- How the loop goes on after a batch: on the counts, or with the one question
about the tool's position. -/
theorem afterBatch_goes_on {frame : Frame} {deltas : List Delta}
    (goesOn : afterBatch input s frame deltas b t = .inl next) :
    b.ended = none ∧ b.cancelledMid = false ∧
    ∃ counted : LoopState,
      counted =
        (if 0 < b.ran then { s with spent := s.spent + 1 } else s).counted
          (noMotion b.steps deltas (jawsChanged deltas frame.jaws))
          t.atTheWall t.holdingAfter ∧
      (counted.frozen < FROZEN_CYCLES ∧ counted.wall < FROZEN_CYCLES ∧
          next = counted ∨
        counted.askedPosition = false ∧
          next = { counted with askedPosition := true, frozen := 0 }) := by
  unfold afterBatch at goesOn
  dsimp only at goesOn
  generalize counts :
    (if 0 < b.ran then { s with spent := s.spent + 1 } else s).counted
      (noMotion b.steps deltas (jawsChanged deltas frame.jaws))
      t.atTheWall t.holdingAfter = counted at goesOn
  cases ended : b.ended with
  | some pair =>
    rw [ended] at goesOn
    cases goesOn
  | none =>
    simp only [ended] at goesOn
    by_cases cancelled : b.cancelledMid = true
    · rw [if_pos cancelled] at goesOn
      cases goesOn
    · rw [if_neg cancelled] at goesOn
      refine ⟨rfl, by simpa using cancelled, counted, rfl, ?_⟩
      split at goesOn
      · cases goesOn
      · by_cases stuck : FROZEN_CYCLES ≤ counted.frozen ∨ FROZEN_CYCLES ≤ counted.wall
        · rw [if_pos stuck] at goesOn
          right
          unfold frozenExit at goesOn
          dsimp only at goesOn
          split at goesOn
          · cases goesOn
          · split at goesOn
            · cases goesOn
            · split at goesOn
              · rename_i asked
                exact ⟨by simpa using asked.2, (Sum.inl.inj goesOn).symm⟩
              · split at goesOn <;> cases goesOn
        · rw [if_neg stuck] at goesOn
          left
          split at goesOn
          · cases goesOn
          · exact ⟨by omega, by omega, (Sum.inl.inj goesOn).symm⟩

theorem cycle_goes_on (goesOn : cycle input s t = .inl next) : (s.spent : ℚ) < input.cap ∧
    ∃ frame d a rest, t.look = some frame ∧ t.actions = some ((d, a) :: rest) ∧
      afterBatch input s frame (d :: rest.map Prod.fst)
        (runBatch 0 emptyBatch ((d, a) :: rest)) t = .inl next := by
  unfold cycle at goesOn
  by_cases spent : input.cap ≤ s.spent
  · rw [if_pos spent] at goesOn
    cases goesOn
  · rw [if_neg spent] at goesOn
    refine ⟨not_le.mp spent, ?_⟩
    split at goesOn
    · cases goesOn
    · split at goesOn
      · cases goesOn
      · rename_i frame looked
        split at goesOn
        · cases goesOn
        · split at goesOn
          · cases goesOn
          · split at goesOn
            · cases goesOn
            · split at goesOn
              · split at goesOn <;> cases goesOn
              · split at goesOn <;> cases goesOn
              · rename_i actions nonempty proposed
                rcases actions with _ | ⟨⟨d, a⟩, rest⟩
                · exact absurd rfl nonempty
                · exact ⟨frame, d, a, rest, looked, proposed, goesOn⟩

/-- What is left of the subgoal: of its budget, of the question, and of the
frozen cycles. -/
def cyclesLeft (input : SubgoalInput) (s : LoopState) : ℕ :=
  5 * (⌈input.cap⌉₊ - s.spent) + (if s.askedPosition then 0 else 3) +
    (FROZEN_CYCLES - s.frozen) + (FROZEN_CYCLES - s.wall)

theorem cyclesLeft_decreases
    (input : SubgoalInput) (s : LoopState) (t : CycleTurn) (next : LoopState)
    (still : standsStill t = true) (goesOn : cycle input s t = .inl next) :
    cyclesLeft input next < cyclesLeft input s := by
  obtain ⟨within, frame, d, a, rest, looked, proposed, batch⟩ := cycle_goes_on goesOn
  obtain ⟨notEnded, notCancelled, counted, counts, goes⟩ := afterBatch_goes_on batch
  have budget : s.spent < ⌈input.cap⌉₊ := Nat.lt_ceil.mpr within
  by_cases executed : 0 < (runBatch 0 emptyBatch ((d, a) :: rest)).ran
  · have spent : counted.spent = s.spent + 1 ∧ counted.askedPosition = s.askedPosition := by
      rw [counts, if_pos executed]
      unfold LoopState.counted
      split
      · split <;> exact ⟨rfl, rfl⟩
      · exact ⟨rfl, rfl⟩
    rcases goes with ⟨_, _, same⟩ | ⟨asked, same⟩
    · rw [same]
      simp only [cyclesLeft, spent.1, spent.2, FROZEN_CYCLES]
      omega
    · rw [same]
      rw [spent.2] at asked
      simp only [cyclesLeft, spent.1, asked, FROZEN_CYCLES, if_true, Bool.false_eq_true, if_false]
      omega
  · have idle : (runBatch 0 emptyBatch ((d, a) :: rest)).ran = 0 := by
      omega
    obtain ⟨notRun, followed⟩ := runBatch_idle d a rest notEnded notCancelled idle
    have frozen :
        (noMotion a.followed (d :: rest.map Prod.fst)
          (jawsChanged (d :: rest.map Prod.fst) frame.jaws)).frozen =
            true := by
      simpa [standsStill, looked, proposed, notRun] using still
    rw [if_neg executed, followed] at counts
    have moved : counted.spent = s.spent ∧ counted.askedPosition = s.askedPosition ∧
        (counted.frozen = s.frozen + 1 ∧ counted.wall = s.wall ∨
          counted.frozen = s.frozen ∧ counted.wall = s.wall + 1) := by
      rw [counts]
      simp only [LoopState.counted, frozen, if_true]
      split
      · exact ⟨rfl, rfl, .inr ⟨rfl, rfl⟩⟩
      · exact ⟨rfl, rfl, .inl ⟨rfl, rfl⟩⟩
    obtain ⟨spent, askedPosition, stuck⟩ := moved
    rcases goes with ⟨frozenFew, wallFew, same⟩ | ⟨asked, same⟩
    · rw [same]
      simp only [FROZEN_CYCLES] at frozenFew wallFew
      simp only [cyclesLeft, spent, askedPosition, FROZEN_CYCLES]
      omega
    · rw [same]
      rw [askedPosition] at asked
      simp only [cyclesLeft, spent, asked, FROZEN_CYCLES, if_true, Bool.false_eq_true, if_false]
      omega

/-- When every cycle that executes nothing stands still, the loop of a subgoal
ends within a number of cycles read off `maxCycles`, whatever the proposer and
the robot do. -/
theorem cycles_bounded (input : SubgoalInput) (inheritedFrozen : ℕ) (turns : ℕ → CycleTurn)
    (still : ∀ k, standsStill (turns k) = true) :
    ∃ n ≤ 5 * ⌈input.cap⌉₊ + 8, ∃ result,
      Runs.loop (cycle input) turns n (newState inheritedFrozen) =
        .inr result := by
  refine Runs.loop_stops_within (cycle input) (cyclesLeft input)
    (fun s t next => cyclesLeft_decreases input s t next)
    (5 * ⌈input.cap⌉₊ + 8) (newState inheritedFrozen) turns ?_ still
  simp only [cyclesLeft, newState, FROZEN_CYCLES, Bool.false_eq_true, if_false]
  omega

def refusing : ActReply where
  ok := false
  error := "mm_act refused, nothing moved: the jaws are latched"
  segments := []
  timed_out := false
  episode_over := false
  cancelled := false
  grasped := none
  dragging := false

def refusedAction : ActionTurn where
  cancelled := false
  look := none
  gate := none
  closeLook := none
  gateAfter := none
  descentLook := none
  cancelledLate := false
  reply := refusing

def openJaws : Frame where
  jaws := ⟨some false, some 1, some 80⟩
  episode_over := false

def refusedCycle (d : Delta) : CycleTurn where
  cancel := none
  look := some openJaws
  cancelAfterLook := none
  sideCannot := none
  actions := some [(d, refusedAction)]
  done := false
  proposalError := none
  letGoEarly := none
  atTheWall := false
  holdingAfter := false
  cancelReason := none
  span_mm := none
  letGoFrozen := none
  arrived := none

def sideways : Delta where
  kind := .translate
  magnitude := 1 / 20
  gripper_state := none
  label := "translate 50 mm"

def closing : Delta where
  kind := .gripper
  magnitude := 0
  gripper_state := some .close
  label := "close the gripper"

/-- A refused move stands still, and two of them end the subgoal. -/
theorem cycles_bounded_refused_move : standsStill (refusedCycle sideways) = true ∧
    ∃ n ≤ 5 * ⌈SubgoalInput.cap ⟨6, true⟩⌉₊ + 8, ∃ result,
      Runs.loop (cycle ⟨6, true⟩) (fun _ => refusedCycle sideways) n (newState 0) = .inr result :=
  have still : standsStill (refusedCycle sideways) = true := by decide +kernel
  ⟨still, cycles_bounded ⟨6, true⟩ 0 (fun _ => refusedCycle sideways) fun _ => still⟩

/-- A refused close is counted as a change of the jaws, so the loop neither
spends nor freezes. -/
theorem refused_close_loops :
    cycle ⟨6, true⟩ (newState 0) (refusedCycle closing) = .inl (newState 0) := by
  decide +kernel

/-- Against a robot that refuses every close, a proposer that only closes keeps
the loop going without end. -/
theorem refused_closes_never_end :
    ∃ (input : SubgoalInput) (turns : ℕ → CycleTurn),
      (∀ k, (turns k).cancel = none ∧ (turns k).cancelAfterLook = none) ∧
      ∀ n, ∃ s, Runs.loop (cycle input) turns n (newState 0) = .inl s := by
  refine ⟨⟨6, true⟩, fun _ => refusedCycle closing, fun _ => ⟨rfl, rfl⟩, ?_⟩
  intro n
  induction n with
  | zero => exact ⟨newState 0, rfl⟩
  | succ n ih =>
    rw [Runs.loop, refused_close_loops]
    exact ih

end PiEmbodied.Motormind
