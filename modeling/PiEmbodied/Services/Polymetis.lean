import PiEmbodied.Services.Ur5e

/-!
# The setpoint of a Franka under Polymetis

The arm follows a Cartesian setpoint under impedance: it presses where the
setpoint is not at its pose.  The controller walks the setpoint, restarts an
impedance that was lost, and puts the setpoint back at the pose.
-/

namespace PiEmbodied.Services.Polymetis

open Programs Programs.Program
open Ur5e (Position Pose nano micro furtherOut)

/-! ## Limits -/

inductive ResetMethod where
  | jointStream
  | moveToJointPositions
deriving DecidableEq

abbrev Joints := Fin 7 → ℚ

/-- `PolymetisLimits`, as far as the calls read it. -/
structure Limits where
  zFloor : ℚ
  (workspaceMin workspaceMax : Position)
  (maxMove maxRotate servoStep servoStepRad tick : ℚ)
  settleSteps : ℕ
  (moveTolerance rotateTolerance descentStallRatio divergenceResync maxTrackingError maxTilt : ℚ)
  (gripperCloseThreshold graspOpenWidth : ℚ)
  emptyWidth : Option ℚ
  (gripperSettle gripperMinSettle gripperStableEps gripperMotionEps gripperSustain : ℚ)
  beginJoints : Option Joints
  beginTime : ℚ
  resetMethod : ResetMethod
  resetLift : ℚ
  smooth : Bool
  smoothSubsteps : ℕ
  smoothDt : ℚ
  smoothBlend : Bool
  (smoothCruise smoothChainWindow : ℚ)

/-- What numpy computes; `none` is a result that is not finite. -/
structure Tools (Rotation : Type) where
  norm : Position → ℚ
  /-- `pos + dpos * f` -/
  advance : Position → Position → ℚ → Option Position
  /-- The orientation turned by a fraction of a rotation vector. -/
  turn : Rotation → Position → ℚ → Option Rotation
  /-- `quat_angle` -/
  angle : Rotation → Rotation → ℚ
  /-- The rotation vector of extrinsic angles. -/
  rotvec : Position → Position
  /-- `tool_tilt` -/
  tilt : Rotation → ℚ
  /-- Where `_tcp_to_flange` puts the flange. -/
  flange : Position → Rotation → Position

/-- `lost` is `is_controller_lost_error` of the text. -/
structure RobotError where
  lost : Bool
  text : String
deriving DecidableEq

/-- `get_gripper_state` -/
structure GripperReading where
  width : ℚ
  (isGrasped isMoving : Option Bool)
deriving DecidableEq

/-- What the robot replies, one field for each of its calls; `none` is a pose or
joints of another shape, or with a number that is not finite. -/
structure Reply (Rotation : Type) where
  eePose : Except RobotError (Option (Pose Rotation))
  (update terminate startCartesian : Except RobotError Unit)
  stopRequested : Bool
  clock : ℚ
  gripperPosition : Except RobotError ℚ
  gripperState : Except RobotError GripperReading
  controlGripper : Except RobotError Unit
  jointPositions : Except RobotError (Option Joints)
  (moveToJointPositions startJoint updateJoint : Except RobotError Unit)

inductive Refusal where
  | notFinite (name : String)
  | tooFar
  | rotatesTooFar
  | outside (what : String)
  | tilts
  | noBeginJoints
deriving DecidableEq

inductive Fault where
  | refused (why : Refusal)
  | robot (error : RobotError)
  | invalidPose
  | invalidJoints
  | notFinite
  | lostAgain
  /-- The impedance restarted at a pose that is far from the setpoint. -/
  | restartedFar (gap : ℚ)
  | noSetpoint
deriving DecidableEq

/-! ## The controller -/

inductive Purpose where
  /-- A waypoint of a ramp, which started there. -/
  | ramp (start : Position)
  | hold
  /-- The setpoint that met no controller. -/
  | again
deriving DecidableEq

inductive Event (Rotation : Type) where
  | measured (pose : Pose Rotation)
  /-- The pose could not be read. -/
  | unread
  | sent (purpose : Purpose) (position : Option Position)
      (rotation : Option Rotation)
  /-- The position that was sent to no controller. -/
  | lost (position : Position)
  /-- Cartesian impedance has started. -/
  | impedance
  /-- It could not be started. -/
  | notStarted
deriving DecidableEq

structure Controller (Rotation : Type) where
  target : Option (Pose Rotation)
  commandedOpen : Option Bool
  (restarts callRestarts : ℕ)
  streamDir : Option Position
  streamUntil : ℚ
  recent : List (Event Rotation)

def Controller.initial (Rotation : Type) : Controller Rotation where
  target := none
  commandedOpen := none
  restarts := 0
  callRestarts := 0
  streamDir := none
  streamUntil := 0
  recent := []

inductive Stopped where
  | cancelled
  | blocked
deriving DecidableEq

structure Result where
  ok : Bool
  steps : ℕ
  (cancelled blocked descentBlocked reanchored : Bool)
  (chained flowing : Option Bool)
  restarts : ℕ
deriving DecidableEq

def Result.stopped (ok : Bool) (steps : ℕ) (stopped : Option Stopped) : Result where
  ok := ok
  steps := steps
  cancelled := stopped = some .cancelled
  blocked := stopped = some .blocked
  descentBlocked := false
  reanchored := false
  chained := none
  flowing := none
  restarts := 0

/-- The result of `set_gripper`. -/
structure Gripped where
  (ok cancelled targetOpen : Bool)
  steps : ℕ
  width : ℚ
  (jammed empty : Bool)
deriving DecidableEq

abbrev Action (Rotation Value : Type) :=
  Program (Reply Rotation) Fault (Controller Rotation) Value

section Calls

variable {Rotation : Type}

def robot {Value : Type} (call : Reply Rotation → Except RobotError Value) :
    Action Rotation Value :=
  ask fun reply => (call reply).mapError Fault.robot

def note (event : Event Rotation) : Action Rotation Unit :=
  modify fun c => { c with recent := c.recent ++ [event] }

def setTarget (target : Pose Rotation) : Action Rotation Unit :=
  modify fun c => { c with target := some target }

def setStream (direction : Option Position) : Action Rotation Unit :=
  modify fun c => { c with streamDir := direction }

def refuse {Value : Type} (why : Refusal) : Action Rotation Value :=
  raise (.refused why)

def stopFlag : Action Rotation Bool :=
  ask fun reply => .ok reply.stopRequested

def clock : Action Rotation ℚ :=
  ask fun reply => .ok reply.clock

def readPose (reply : Reply Rotation) : Except Fault (Pose Rotation) :=
  match reply.eePose with
  | .error error => .error (.robot error)
  | .ok none => .error .invalidPose
  | .ok (some pose) => .ok pose

def measured : Action Rotation (Pose Rotation) := do
  let pose ← attempt (ask readPose) fun fault => do
    note .unread
    raise fault
  note (.measured pose)
  pure pose

def setpoint : Action Rotation (Pose Rotation) := do
  let c ← get
  match c.target with
  | none => raise .noSetpoint
  | some target => pure target

/-! ## The impedance -/

def sync : Action Rotation Unit := do
  setStream none
  let pose ← measured
  setTarget pose

def startImpedance : Action Rotation Unit := do
  attempt (robot Reply.terminate) fun _ => pure ()
  attempt (robot Reply.startCartesian) fun fault => do
    note .notStarted
    raise fault
  note .impedance
  sync

variable (limits : Limits) (tools : Tools Rotation)

/-- An impedance that was lost is started again, at the pose; the setpoint is
sent again the first time, where it is near. -/
def restart (pose : Pose Rotation) : Action Rotation Unit := do
  modify fun c => { c with restarts := c.restarts + 1, callRestarts := c.callRestarts + 1 }
  startImpedance
  let c ← get
  if 1 < c.callRestarts then raise .lostAgain
  else do
    let here ← setpoint
    let gap := tools.norm (here.position.sub pose.position)
    if limits.divergenceResync < gap then raise (.restartedFar gap)
    else do
      setTarget pose
      note (.sent .again (some pose.position) (some pose.rotation))
      robot Reply.update

def command (purpose : Purpose) (position : Option Position)
    (rotation : Option Rotation) : Action Rotation Unit :=
  match position, rotation with
  | some p, some q => do
      note (.sent purpose position rotation)
      attempt (robot Reply.update) fun fault =>
        match fault with
        | .robot error =>
          if error.lost then do
            note (.lost p)
            restart limits tools ⟨p, q⟩
          else raise fault
        | fault => raise fault
  | _, _ => raise .notFinite

def prepare : Action Rotation Unit := do
  let c ← get
  match c.target with
  | none => sync
  | some target => do
      let pose ← measured
      if limits.divergenceResync <
          tools.norm (pose.position.sub target.position) then
        sync
      else pure ()

/-- The setpoint is off the pose by more than the tolerances. -/
def isDisplaced (target pose : Pose Rotation) : Bool :=
  limits.moveTolerance < tools.norm (pose.position.sub target.position) ||
    limits.rotateTolerance < tools.angle pose.rotation target.rotation

def displaced : Action Rotation Bool := do
  let pose ← measured
  let target ← setpoint
  pure (isDisplaced limits tools target pose)

def atPose : Action Rotation (Pose Rotation) := do
  let pose ← measured
  setTarget pose
  pure pose

def reanchor : Action Rotation Unit := do
  setStream none
  let pose ← atPose
  command limits tools .hold (some pose.position) (some pose.rotation)

/-- What `_motion` does where its body raises. -/
def recover : Action Rotation Unit := do
  setStream none
  attempt (do
      let c ← get
      let off ←
        match c.target with
        | none => pure true
        | some _ => displaced limits tools
      if off then do
        let pose ← atPose
        note (.sent .hold (some pose.position) (some pose.rotation))
        robot Reply.update
      else pure ())
    fun _ => attempt startImpedance fun _ => pure ()

/-- `_motion`, after it has set its count of the losses back. -/
def guarded (body : Action Rotation Result) : Action Rotation Result := do
  let result ← attempt body fun fault => do
    recover limits tools
    raise fault
  let off ← displaced limits tools
  if off then do
    reanchor limits tools
    let c ← get
    pure
      { result with
        ok := false
        reanchored := true
        flowing := result.flowing.map fun _ => false
        restarts := c.callRestarts }
  else do
    let c ← get
    pure { result with restarts := c.callRestarts }

def motion (body : Action Rotation Result) : Action Rotation Result := do
  modify fun c => { c with callRestarts := 0 }
  guarded limits tools body

def settleLoop : ℕ → Action Rotation Bool
  | 0 => pure true
  | left + 1 => do
      let stop ← stopFlag
      if stop then pure false
      else do
        let target ← setpoint
        command limits tools .hold (some target.position) (some target.rotation)
        settleLoop left

def settle : Action Rotation Bool :=
  settleLoop limits tools (max 1 limits.settleSteps)

def streamLive : Action Rotation Bool := do
  let c ← get
  match c.streamDir with
  | none => pure false
  | some _ => do
      let now ← clock
      pure (now ≤ c.streamUntil)

def endStream : Action Rotation Bool := do
  let live ← streamLive
  setStream none
  if live then settle limits tools else pure true

/-- `_violation` of finite numbers. -/
def violation (p : Position) : Position where
  x := max 0 (limits.workspaceMin.x - p.x) + max 0 (p.x - limits.workspaceMax.x)
  y := max 0 (limits.workspaceMin.y - p.y) + max 0 (p.y - limits.workspaceMax.y)
  z := max 0 (max limits.workspaceMin.z limits.zFloor - p.z) + max 0 (p.z - limits.workspaceMax.z)

/-- `check_target`: the target is refused. -/
def isRefused (start : Position) (target : Option Position) (strict : Bool) :
    Bool :=
  match target with
  | none => true
  | some target =>
    let out := violation limits target
    let was := violation limits start
    furtherOut out was ||
      (strict && micro < out.sum && was.sum - micro ≤ out.sum)

def checkTarget (start : Position) (target : Option Position) (strict : Bool)
    (what : String) : Action Rotation Unit :=
  if isRefused limits start target strict then refuse (.outside what)
  else pure ()

variable {K : Type} [Field K] [LinearOrder K]

/-- The fractions of `smooth_fractions` but for the last; `before` is the one
before. -/
def eased (n : ℕ) (v₀ v₁ : K) : ℕ → K → List K
  | 0, _ => []
  | left + 1, before =>
    let a := 1 - v₀
    let b := v₁ - v₀
    let t : K := (n - left : ℕ) / n
    let s := v₀ * t + (10 * a - 4 * b) * t ^ 3 + (-15 * a + 7 * b) * t ^ 4 + (6 * a - 3 * b) * t ^ 5
    let now := min 1 (max s before)
    now :: eased n v₀ v₁ left now

def smoothFractions (n : ℕ) (v₀ v₁ : K) : List K :=
  let n := max 1 n
  (eased n v₀ v₁ n 0).dropLast ++ [1]

def largestStep : K → List K → K
  | _, [] => 0
  | before, [last] => last - before
  | before, next :: rest => max (next - before) (largestStep next rest)

variable [FloorSemiring K]

def ticks (dist angle : K) : ℕ :=
  max 1 (max ⌈dist / limits.servoStep - nano⌉₊ ⌈angle / limits.servoStepRad - nano⌉₊)

/-- The number of waypoints of a smooth move, in so many tries. -/
def substeps (dist angle v₀ v₁ : K) : ℕ → ℕ → ℕ
  | 0, n => n
  | left + 1, n =>
    let scale : K := min 1 (limits.smoothDt / limits.tick)
    let worst := max (largestStep 0 (smoothFractions n 0 0))
      (largestStep 0 (smoothFractions n v₀ v₁))
    let excess := max (worst * dist / (limits.servoStep * scale))
      (worst * angle / (limits.servoStepRad * scale))
    if excess ≤ 1 + nano then n
    else substeps dist angle v₀ v₁ left (max (n + 1) ⌈n * excess⌉₊)

/-- `plan`, less its delay. -/
def plan (dist angle v₀ v₁ : K) : List K :=
  if limits.smooth then
    smoothFractions (substeps limits dist angle v₀ v₁ 64 limits.smoothSubsteps) v₀ v₁
  else
    let n := ticks limits dist angle
    (List.range n).map fun i : ℕ => ((i : K) + 1) / n

def rampLoop (start : Pose Rotation) (dpos drot : Position) :
    ℕ → List ℚ → Action Rotation (ℕ × Option Stopped)
  | done, [] => pure (done, none)
  | done, f :: rest => do
      let stop ← stopFlag
      if stop then pure (done, some .cancelled)
      else do
        let p := tools.advance start.position dpos f
        let q := tools.turn start.rotation drot f
        checkTarget limits start.position p false "the move"
        command limits tools (.ramp start.position) p q
        match p, q with
        | some p, some q => do
            setTarget ⟨p, q⟩
            let pose ← measured
            let gap := tools.norm (pose.position.sub p)
            if limits.maxTrackingError < gap then do
              reanchor limits tools
              pure (done + 1, some .blocked)
            else rampLoop start dpos drot (done + 1) rest
        | _, _ => raise .notFinite

def ramp (start : Pose Rotation) (dpos drot : Position) (v₀ v₁ : ℚ) :
    Action Rotation (ℕ × Option Stopped) :=
  rampLoop limits tools start dpos drot 0 (plan limits (tools.norm dpos) (tools.norm drot) v₀ v₁)

/-! ## Moves -/

def Position.zero : Position := ⟨0, 0, 0⟩

/-- The cosine of two directions, one of them a unit vector. -/
def cosine (delta : Position) (unit : Position) : ℚ :=
  (delta.x * unit.x + delta.y * unit.y + delta.z * unit.z) / tools.norm delta

def chainMinCos : ℚ := 9 / 10

def moveResult (delta target : Position) (start : Pose Rotation) (steps : ℕ)
    (stopped : Option Stopped) : Action Rotation Result := do
  let final ← measured
  let stalled :=
    delta.z < -1 / 1000 && stopped ≠ some .cancelled &&
      start.position.z - final.position.z < limits.descentStallRatio * -delta.z
  if stalled then reanchor limits tools
  let close := tools.norm (target.sub final.position) ≤ limits.moveTolerance
  pure
    { Result.stopped (stopped = none && !stalled && close) steps stopped with
      descentBlocked := stalled }

def settled : Option Stopped → Action Rotation (Option Stopped)
  | some stopped => pure (some stopped)
  | none => do
      let settled ← settle limits tools
      pure (if settled then none else some .cancelled)

/-- The end of a move's ramp: the stream goes on, or settles. -/
def endMove (delta : Position) (v₁ : ℚ) (stopped : Option Stopped) :
    Action Rotation (Option Stopped) :=
  if stopped = none ∧ 0 < v₁ then do
    let time ← clock
    modify fun c =>
      { c with
        streamDir := some
          ⟨delta.x / tools.norm delta, delta.y / tools.norm delta,
            delta.z / tools.norm delta⟩
        streamUntil := time + limits.smoothChainWindow }
    pure none
  else settled limits tools stopped

def moveOn (delta target : Position) (origin start : Pose Rotation)
    (chained blend continuous : Bool) : Action Rotation Result := do
  setStream none
  let now ← setpoint
  let v₀ := if chained then limits.smoothCruise else 0
  let v₁ := if blend && continuous then limits.smoothCruise else 0
  let (steps, stopped) ← ramp limits tools ⟨origin.position, now.rotation⟩ delta Position.zero v₀ v₁
  let stopped ← endMove limits tools delta v₁ stopped
  let result ← moveResult limits tools delta target start steps stopped
  let c ← get
  if limits.smooth then
    pure
      { result with
        chained := some (0 < v₀)
        flowing := some c.streamDir.isSome }
  else pure result

def move (delta : Position) (continuous : Bool) : Action Rotation Result := do
  let live ← streamLive
  let before ← get
  prepare limits tools
  let start ← measured
  let origin ← setpoint
  let target := tools.advance origin.position delta 1
  checkTarget limits origin.position target true "the move"
  let blend := limits.smooth && limits.smoothBlend && nano < tools.norm delta
  let c ← get
  let chained :=
    blend && live && c.streamDir.isSome &&
      before.streamDir.any fun flowing => chainMinCos ≤ cosine tools delta flowing
  let target := target.getD origin.position
  if chained then
    moveOn limits tools delta target origin start true blend continuous
  else do
    let rests ← endStream limits tools
    if rests then
      moveOn limits tools delta target origin start false blend continuous
    else moveResult limits tools delta target start 0 (some .cancelled)

/-- `move_delta`; `none` is no three finite values. -/
def moveDelta (delta : Option Position) (continuous : Bool) :
    Action Rotation Result :=
  match delta with
  | none => refuse (.notFinite "delta_xyz")
  | some delta =>
    if limits.maxMove + nano < tools.norm delta then refuse .tooFar
    else motion limits tools (move limits tools delta continuous)

/-- `_check_rotation`: the samples that are left. -/
def checkRotation (start : Pose Rotation) (drot : Position) (n : ℕ) : ℕ → Action Rotation Unit
  | 0 => pure ()
  | left + 1 => do
      let q := tools.turn start.rotation drot ((n - left : ℕ) / n)
      let tilts := q.any fun q =>
        limits.maxTilt + nano < tools.tilt q && tools.tilt start.rotation + nano < tools.tilt q
      if tilts then refuse .tilts
      else do
        checkTarget limits (tools.flange start.position start.rotation)
          (q.map (tools.flange start.position)) false "the rotation's flange"
        checkRotation start drot n left

def turnRamp (origin : Pose Rotation) (drot : Position) (rests : Bool) :
    Action Rotation (ℕ × Option Stopped) :=
  if rests then ramp limits tools origin Position.zero drot 0 0
  else pure (0, some .cancelled)

def rotate (drot : Position) : Action Rotation Result := do
  prepare limits tools
  let _ ← measured
  let origin ← setpoint
  let n := ticks limits 0 (tools.norm drot)
  checkRotation limits tools origin drot n n
  let rests ← endStream limits tools
  let (steps, stopped) ← turnRamp limits tools origin drot rests
  let stopped ← settled limits tools stopped
  let final ← measured
  let close := (tools.turn origin.rotation drot 1).any fun target =>
    tools.angle target final.rotation ≤ limits.rotateTolerance
  pure (Result.stopped (stopped = none && close) steps stopped)

/-- `rotate_delta`; `none` is no three finite values. -/
def rotateDelta (rpy : Option Position) : Action Rotation Result :=
  match rpy with
  | none => refuse (.notFinite "delta_rpy")
  | some rpy =>
    let drot := tools.rotvec rpy
    let angle := max (tools.norm drot) (max |rpy.x| (max |rpy.y| |rpy.z|))
    if limits.maxRotate + nano < angle then refuse .rotatesTooFar
    else motion limits tools (rotate limits tools drot)

/-! ## The gripper -/

def width : Action Rotation ℚ :=
  robot Reply.gripperPosition

/-- What `_await_gripper` remembers. -/
structure Awaited where
  last : ℚ
  moved : Bool
  stableSince : Option ℚ

def Awaited.next (awaited : Awaited) (first now current : ℚ) : Awaited where
  last := current
  moved := awaited.moved || limits.gripperMotionEps < |current - first|
  stableSince :=
    if |current - awaited.last| ≤ limits.gripperStableEps then
      some (awaited.stableSince.getD now)
    else none

def Awaited.settled (awaited : Awaited) (decisiveMax : Option ℚ) (began now : ℚ) : Bool :=
  awaited.moved && (awaited.stableSince.any fun since => limits.gripperSustain ≤ now - since) &&
    (decisiveMax.all fun most => awaited.last ≤ most) &&
    limits.gripperMinSettle ≤ now - began

/-- The loop of `_await_gripper`: the width, and whether it was stopped. -/
def awaitLoop (decisiveMax : Option ℚ) (began first : ℚ) : ℕ → Awaited → Action Rotation (ℚ × Bool)
  | 0, _ => outOfFuel
  | fuel + 1, awaited => do
      let time ← clock
      if limits.gripperSettle ≤ time - began then pure (awaited.last, false)
      else do
        let stop ← stopFlag
        if stop then pure (awaited.last, true)
        else do
          let now ← clock
          let current ← width
          let next := awaited.next limits first now current
          if next.settled limits decisiveMax began now then
            pure (current, false)
          else awaitLoop decisiveMax began first fuel next

def awaitGripper (fuel : ℕ) (decisiveMax : Option ℚ) :
    Action Rotation (ℚ × Bool) := do
  let began ← clock
  let first ← width
  awaitLoop limits decisiveMax began first fuel ⟨first, false, none⟩

/-- `gripper_state`: whether an object is grasped, and the fingers closed. -/
def gripperState : Action Rotation (Bool × Bool) := do
  let reading ← robot Reply.gripperState
  let grasped := reading.isGrasped = some true
  pure (grasped, grasped || reading.width < limits.gripperCloseThreshold)

def jammed (isOpen : Bool) (before after : ℚ) : Action Rotation Bool :=
  if limits.gripperMotionEps < |after - before| then pure false
  else do
    let (grasped, closed) ← gripperState limits
    pure (!grasped && closed == isOpen)

def controlGripper (isOpen : Bool) : Action Rotation Unit := do
  robot Reply.controlGripper
  modify fun c => { c with commandedOpen := some isOpen }

/-- What follows a command of the gripper: an empty grasp is opened again. -/
def finishGrip (fuel : ℕ) (isOpen isJammed cancelled : Bool) (current : ℚ) :
    Action Rotation Gripped := do
  let empty := !isOpen && !cancelled && limits.emptyWidth.any fun most => current ≤ most
  if empty then do
    controlGripper true
    let (last, cancelled) ← awaitGripper limits fuel none
    pure
      { ok := false
        cancelled := cancelled
        targetOpen := isOpen
        steps := 2
        width := last
        jammed := isJammed
        empty := true }
  else
    pure
      { ok := !cancelled && !isJammed
        cancelled := cancelled
        targetOpen := isOpen
        steps := 1
        width := current
        jammed := isJammed
        empty := false }

/-- `set_gripper`, once a stream is at rest. -/
def actuate (fuel : ℕ) (isOpen : Bool) : Action Rotation Gripped := do
  let before ← width
  controlGripper isOpen
  let (current, cancelled) ←
    awaitGripper limits fuel (if isOpen then none else some limits.graspOpenWidth)
  if cancelled then finishGrip limits fuel isOpen false true current
  else do
    let isJammed ← jammed limits isOpen before current
    finishGrip limits fuel isOpen isJammed false current

def setGripper (fuel : ℕ) (isOpen : Bool) : Action Rotation Gripped := do
  let rests ← endStream limits tools
  if rests then actuate limits fuel isOpen
  else do
    let current ← width
    pure
      { ok := false
        cancelled := true
        targetOpen := isOpen
        steps := 0
        width := current
        jammed := false
        empty := false }

/-! ## Reset -/

/-- `MAX_JOINT_SPEED_RAD_S` -/
def maxJointSpeed : ℚ := 1 / 2

def peakToMean : ℚ := 15 / 8

def jointGap (q goal : Joints) : ℚ :=
  (List.finRange 7).foldl (fun most i => max most |goal i - q i|) 0

/-- The ticks of the joint stream that are left; not to its end where it is
stopped. -/
def streamJoints : ℕ → Action Rotation Bool
  | 0 => pure true
  | left + 1 => do
      let stop ← stopFlag
      if stop then do
        startImpedance
        pure false
      else do
        robot Reply.updateJoint
        streamJoints left

def holdJoints : ℕ → Action Rotation Unit
  | 0 => pure ()
  | left + 1 => do
      robot Reply.updateJoint
      holdJoints left

/-- The joints go to the begin pose; not where they are stopped. -/
def goJoints (duration : ℚ) : Action Rotation Bool :=
  match limits.resetMethod with
  | .moveToJointPositions => do
      robot Reply.moveToJointPositions
      pure true
  | .jointStream => do
      robot Reply.startJoint
      let ended ← streamJoints (max 1 ⌈duration / limits.tick⌉₊)
      if ended then do
        holdJoints (max 1 limits.settleSteps)
        pure true
      else pure false

def resetLift : Action Rotation (Option Stopped) := do
  let target ← setpoint
  let room := limits.workspaceMax.z - target.position.z
  let lift := max 0 (min limits.resetLift room)
  if 1 / 10000 < lift then do
    let (_, stopped) ← ramp limits tools target ⟨0, 0, lift⟩ Position.zero 0 0
    pure stopped
  else pure none

def readJoints : Action Rotation (Option Joints) :=
  robot Reply.jointPositions

/-- `_reset`, once the hand is open and lifted. -/
def resetJoints (goal : Joints) : Action Rotation Result := do
  let reading ← readJoints
  match reading with
  | none => raise .invalidJoints
  | some q => do
      let duration := max limits.beginTime (peakToMean * jointGap q goal / maxJointSpeed)
      let ended ← attempt (goJoints limits duration) fun fault => do
        startImpedance
        raise fault
      if ended then do
        startImpedance
        let joints ← readJoints
        let target ← setpoint
        let out := violation limits target.position
        let inside := !(micro < out.x || micro < out.y || micro < out.z)
        let reached := joints.any fun joints => jointGap joints goal ≤ 1 / 20
        pure (Result.stopped (reached && inside) 0 none)
      else pure (Result.stopped false 0 (some .cancelled))

/-- `_reset` -/
def resetBody (fuel : ℕ) (goal : Joints) : Action Rotation Result := do
  let grip ← setGripper limits tools fuel true
  if grip.cancelled then pure (Result.stopped false 0 (some .cancelled))
  else do
    prepare limits tools
    let stopped ← resetLift limits tools
    match stopped with
    | some stopped => pure (Result.stopped false 0 (some stopped))
    | none => resetJoints limits goal

def reset (fuel : ℕ) : Action Rotation Result :=
  match limits.beginJoints with
  | none => refuse .noBeginJoints
  | some goal => motion limits tools (resetBody limits tools fuel goal)

inductive Call where
  | moveDelta (delta : Option Position) (continuous : Bool)
  | rotateDelta (rpy : Option Position)
  | setGripper (isOpen : Bool)
  | reset

def perform (fuel : ℕ) (call : Call) : Action Rotation Unit := do
  modify fun c => { c with recent := [] }
  match call with
  | .moveDelta delta continuous => do
      let _ ← moveDelta limits tools delta continuous
      pure ()
  | .rotateDelta rpy => do
      let _ ← rotateDelta limits tools rpy
      pure ()
  | .setGripper isOpen => do
      let _ ← setGripper limits tools fuel isOpen
      pure ()
  | .reset => do
      let _ ← reset limits tools fuel
      pure ()

end Calls

end PiEmbodied.Services.Polymetis
