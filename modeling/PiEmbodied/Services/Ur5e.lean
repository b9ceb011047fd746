import PiEmbodied.Programs
import PiEmbodied.Runs

/-!
# The motions of a UR5e

The controller of the arm keeps a setpoint, from which the next relative move
starts.  Every call of the driver may raise, and a stop may come at any poll.
-/

namespace PiEmbodied.Services.Ur5e

open Programs Programs.Program

/-! ## Poses -/

structure Position where
  (x y z : ℚ)
deriving DecidableEq

namespace Position

def add (p q : Position) : Position :=
  ⟨p.x + q.x, p.y + q.y, p.z + q.z⟩

def sub (p q : Position) : Position :=
  ⟨p.x - q.x, p.y - q.y, p.z - q.z⟩

def sum (p : Position) : ℚ :=
  p.x + p.y + p.z

def longer (p : Position) (bound : ℚ) : Bool :=
  bound < 0 || bound * bound < p.x * p.x + p.y * p.y + p.z * p.z

end Position

structure Pose (Rotation : Type) where
  position : Position
  rotation : Rotation
deriving DecidableEq

/-- What scipy computes of rotations: the angle between two, a turn by
extrinsic angles, and the tilt of the tool from straight down. -/
structure Rotations (Rotation : Type) where
  gap : Rotation → Rotation → ℚ
  turn : Position → Rotation → Rotation
  tilt : Rotation → ℚ

abbrev Joints := Fin 6 → ℚ

/-- `UR5eLimits`, as far as the motions read it.  A validated workspace is not
empty, and its floor is below its top. -/
structure Limits where
  zFloor : ℚ
  (workspaceMin workspaceMax : Position)
  (maxMove maxRotate : ℚ)
  maxTilt : Option ℚ
  (startTimeout moveTimeout resetTimeout moveTolerance rotateTolerance jointTolerance : ℚ)
  (resyncMetres resyncRadians resetLift : ℚ)
  pathSamples : ℕ
  beginJoints : Option Joints
  floorBelowTop : zFloor < workspaceMax.z
  minBelowMax : workspaceMin.x < workspaceMax.x ∧
    workspaceMin.y < workspaceMax.y ∧ workspaceMin.z < workspaceMax.z
  floorInside : workspaceMin.z - 1 / 1000000000 ≤ zFloor

/-- `status` of the arm. -/
structure Status where
  (emergencyStopped protectiveStopped : Bool)
  (safetyMode robotMode : Option ℤ)
  programRunning : Option Bool
deriving DecidableEq

inductive SafetyReason where
  | emergencyStopped
  | protectiveStopped
  | inSafetyMode (mode : ℤ)
  | inRobotMode (mode : ℤ)
deriving DecidableEq, Repr

/-- `ensure_control`, where the arm has one. -/
inductive Ensured where
  | absent
  | running (note : Option String)
  | failed (error : String)

/-- The async register: an operation's id, and whether it runs. -/
abbrev Register := Option ℤ × Bool

/-- The answer of the gripper to an open command, as far as it is read. -/
structure Gripped where
  (cancelled ok : Bool)
deriving DecidableEq

/-- What the driver replies, one field for each of its calls; `none` is a pose
of another shape or with a number that is not finite. -/
structure Reply (Rotation : Type) where
  tcpPose : Except String (Option (Pose Rotation))
  stopRequested : Bool
  status : Except String Status
  ensure : Ensured
  asyncStatus : Except String Register
  (moveL moveJ : Except String Bool)
  stop : Except String Unit
  clock : ℚ
  joints : Except String Joints
  /-- The safety limits of the controller, where it has the query. -/
  withinLimits : Except String (Option Bool)
  forwardKinematics : Except String (Option (Pose Rotation))
  gripper : Except String (Option Gripped)

inductive Refusal where
  | notFinite (name : String)
  | tooFar
  | rotatesTooFar
  | outside (what : String)
  | tilts (what : String)
  | stopInEffect (what : String)
  | notMovable (what : String) (reason : SafetyReason)
  | noControl (what : String) (error : String)
  | limitsUnknown (what : String)
  | outsideSafetyLimits (what : String)
  | jointsOutside (what : String)
  | noBeginJoints
deriving DecidableEq, Repr

inductive Fault where
  | refused (why : Refusal)
  /-- An error of the driver, or of a reply that is no pose. -/
  | driver (error : String)
  | invalidPose
  | rejected (what : String) (reason : Option SafetyReason)
  | aborted (error : String)
deriving DecidableEq, Repr

def Fault.isRefusal : Fault → Bool
  | refused _ => true
  | _ => false

/-! ## The controller -/

/-- What a call read and sent; `start` is the pose that the end of a motion
was judged from. -/
inductive Event (Rotation : Type) where
  | measured (pose : Pose Rotation)
  | joints (q : Joints)
  | sentL (start target : Pose Rotation)
  | sentJ (q : Joints) (target : Pose Rotation)
  /-- The driver raised from a moveL, or from the reading that verifies it. -/
  | unverified

def Event.isMotion {Rotation : Type} : Event Rotation → Bool
  | sentL _ _ | sentJ _ _ => true
  | _ => false

/-- The controller, with the events of the calls before and of this one. -/
structure Controller (Rotation : Type) where
  target : Option (Pose Rotation)
  commands : ℕ
  controlNote : Option String
  (past recent : List (Event Rotation))

def Controller.initial (Rotation : Type) : Controller Rotation where
  target := none
  commands := 0
  controlNote := none
  past := []
  recent := []

inductive Note where
  | neverRan
  | scriptStopped
  | notFinished
  | safetyStopped (reason : SafetyReason)
  | pathOutside
  | liftNotArrived
  | beginPoseOutside
deriving DecidableEq

inductive Interruption where
  | safetyStop (reason : SafetyReason)
  | scriptStopped
deriving DecidableEq

/-- The outcome flags of `_await_motion`. -/
structure Run where
  polls : ℕ
  (started cancelled notStarted timedOut : Bool)
  interrupted : Option Interruption
  rebased : ℕ
deriving DecidableEq

def Run.start : Run where
  polls := 0
  started := false
  cancelled := false
  notStarted := false
  timedOut := false
  interrupted := none
  rebased := 0

def Run.ended (run : Run) : Bool :=
  !run.cancelled && !run.timedOut && !run.notStarted && run.interrupted.isNone

structure Result where
  (ok cancelled notStarted timedOut : Bool)
  interrupted : Option Interruption
  rebased : ℕ
  controlNote : Option String
  (safetyStopped protectiveStopped pathOutside : Bool)
  notes : List Note
deriving DecidableEq

def Result.of (ok : Bool) : Result where
  ok := ok
  cancelled := false
  notStarted := false
  timedOut := false
  interrupted := none
  rebased := 0
  controlNote := none
  safetyStopped := false
  protectiveStopped := false
  pathOutside := false
  notes := []

abbrev Action (Rotation Value : Type) :=
  Program (Reply Rotation) Fault (Controller Rotation) Value

section Motions

variable {Rotation : Type}

def driver {Value : Type} (call : Reply Rotation → Except String Value) :
    Action Rotation Value :=
  ask fun reply => (call reply).mapError Fault.driver

def note (event : Event Rotation) : Action Rotation Unit :=
  modify fun c => { c with recent := c.recent ++ [event] }

def setTarget (target : Option (Pose Rotation)) : Action Rotation Unit :=
  modify fun c => { c with target := target }

def refuse {Value : Type} (why : Refusal) : Action Rotation Value :=
  raise (.refused why)

def measured : Action Rotation (Pose Rotation) := do
  let reading ← driver Reply.tcpPose
  match reading with
  | none => raise .invalidPose
  | some pose => do
      note (.measured pose)
      pure pose

variable (limits : Limits) (rotations : Rotations Rotation)

/-- The measured pose is further from the setpoint than it may be. -/
def diverged (target pose : Pose Rotation) : Bool :=
  (target.position.sub pose.position).longer limits.resyncMetres ||
    limits.resyncRadians < rotations.gap target.rotation pose.rotation

def setpoint : Action Rotation (Pose Rotation) := do
  let pose ← measured
  let c ← get
  match c.target with
  | none => do
      setTarget (some pose)
      pure pose
  | some target =>
    if diverged limits rotations target pose then do
      setTarget (some pose)
      pure pose
    else pure target

/-- `_violation`: how far each axis is outside the workspace. -/
def violation (p : Position) : Position where
  x := max 0 (limits.workspaceMin.x - p.x) + max 0 (p.x - limits.workspaceMax.x)
  y := max 0 (limits.workspaceMin.y - p.y) + max 0 (p.y - limits.workspaceMax.y)
  z := max 0 (max limits.workspaceMin.z limits.zFloor - p.z) + max 0 (p.z - limits.workspaceMax.z)

def nano : ℚ := 1 / 1000000000

def micro : ℚ := 1 / 1000000

def furtherOut (out was : Position) : Bool :=
  was.x + nano < out.x || was.y + nano < out.y || was.z + nano < out.z

/-- `check_target`: why a target is refused. -/
def checkTarget (start target : Pose Rotation) (what : String) :
    Option Refusal :=
  let out := violation limits target.position
  let was := violation limits start.position
  if furtherOut out was || (micro < out.sum && was.sum - micro ≤ out.sum) then
    some (.outside what)
  else
    match limits.maxTilt with
    | none => none
    | some cap =>
      let tilt := rotations.tilt target.rotation
      if cap + nano < tilt ∧ rotations.tilt start.rotation + nano < tilt then
        some (.tilts what)
      else none

def safetyReason (status : Status) : Option SafetyReason :=
  if status.emergencyStopped then some .emergencyStopped
  else if status.protectiveStopped then some .protectiveStopped
  else
    match status.safetyMode, status.robotMode with
    | some mode, robotMode =>
      if mode ≠ 1 ∧ mode ≠ 2 then some (.inSafetyMode mode)
      else
        match robotMode with
        | some robot => if robot ≠ 7 then some (.inRobotMode robot) else none
        | none => none
    | none, some robot => if robot ≠ 7 then some (.inRobotMode robot) else none
    | none, none => none

def safetyStopped : Action Rotation (Option SafetyReason) := do
  let status ← driver Reply.status
  pure (safetyReason status)

def stopFlag : Action Rotation Bool :=
  ask fun reply => .ok reply.stopRequested

def requireMovable (what : String) : Action Rotation Unit := do
  let stop ← stopFlag
  if stop then refuse (.stopInEffect what)
  else do
    let reason ← safetyStopped
    match reason with
    | some reason => do
        setTarget none
        refuse (.notMovable what reason)
    | none => do
        let ensured ← ask fun reply => .ok reply.ensure
        match ensured with
        | .absent => pure ()
        | .failed error => do
            setTarget none
            refuse (.noControl what error)
        | .running none => pure ()
        | .running (some text) =>
          modify fun c => { c with target := none, controlNote := some text }

def rejected {Value : Type} (what : String) : Action Rotation Value := do
  setTarget none
  let reason ← safetyStopped
  raise (.rejected what reason)

/-! ## Waiting for a motion -/

inductive Phase where
  | pending
  | running
  | done
  | rebase
deriving DecidableEq

def asyncPhase (before now : Register) (seenRunning : Bool) : Phase :=
  match before.1, now.1 with
  | some id, some next =>
    if next = id then .pending
    else if now.2 then .running
    else if seenRunning ∨ next = (id + 1) % 128 then .done
    else .rebase
  | _, _ =>
    if now.2 then .running else if seenRunning then .done else .pending

def halted : Action Rotation (Option Interruption) := do
  let status ← driver Reply.status
  match safetyReason status with
  | some reason => pure (some (.safetyStop reason))
  | none =>
    if status.programRunning = some false then pure (some .scriptStopped)
    else pure none

def stopMotion : Action Rotation Unit :=
  driver Reply.stop

def tryStop : Action Rotation Unit :=
  attempt stopMotion fun _ => pure ()

def clock : Action Rotation ℚ :=
  ask fun reply => .ok reply.clock

/-- The loop of `_await_motion`. -/
def awaitLoop (began timeout : ℚ) : ℕ → Register → Run → Action Rotation Run
  | 0, _, _ => outOfFuel
  | fuel + 1, before, run => do
      let stop ← stopFlag
      if stop then do
        stopMotion
        pure { run with cancelled := true }
      else do
        let now ← driver Reply.asyncStatus
        let phase := asyncPhase before now run.started
        if phase = .done then pure { run with started := true }
        else do
          let before := if phase = Phase.rebase then now else before
          let run :=
            { run with
              rebased :=
                if phase = Phase.rebase then run.rebased + 1 else run.rebased
              started := run.started || phase == Phase.running }
          let ended ← halted
          match ended with
          | some interruption => do
              tryStop
              pure { run with interrupted := some interruption }
          | none => do
              let time ← clock
              let elapsed := time - began
              if run.started = false ∧ limits.startTimeout < elapsed then do
                stopMotion
                pure { run with notStarted := true }
              else if timeout < elapsed then do
                stopMotion
                pure { run with timedOut := true }
              else
                awaitLoop began timeout fuel before { run with polls := run.polls + 1 }

def awaitMotion (fuel : ℕ) (before : Register) (timeout : ℚ) :
    Action Rotation Run := do
  let began ← clock
  awaitLoop limits began timeout fuel before .start

def report (result : Result) (run : Run) : Action Rotation Result := do
  let c ← get
  let reported : Result :=
    { result with
      ok := result.ok && !run.notStarted && run.interrupted.isNone
      cancelled := run.cancelled
      notStarted := run.notStarted
      timedOut := run.timedOut
      interrupted := run.interrupted
      rebased := run.rebased
      controlNote := c.controlNote
      notes :=
        result.notes ++ (if run.notStarted then [.neverRan] else []) ++
          (if run.interrupted = some .scriptStopped then [.scriptStopped]
            else []) ++
          (if run.timedOut then [.notFinished] else []) }
  modify fun c => { c with controlNote := none }
  pure reported

def afterMotion (result : Result) : Action Rotation Result := do
  let reason ← safetyStopped
  match reason with
  | none => pure result
  | some reason => do
      setTarget none
      pure
        { result with
          ok := false
          protectiveStopped := reason = .protectiveStopped
          safetyStopped := true
          timedOut := false
          notes := result.notes ++ [.safetyStopped reason] }

def arrived (target final : Pose Rotation) : Bool :=
  !(target.position.sub final.position).longer limits.moveTolerance &&
    rotations.gap target.rotation final.rotation ≤ limits.rotateTolerance

def orUnverified {Value : Type} (program : Action Rotation Value) :
    Action Rotation Value :=
  attempt program fun fault => do
    note .unverified
    raise fault

/-- `_run_l`; `judged` is the pose that the target was judged from. -/
def runL (fuel : ℕ) (judged target : Pose Rotation) (timeout : ℚ) :
    Action Rotation Result := do
  requireMovable "the move"
  let before ← driver Reply.asyncStatus
  note (.sentL judged target)
  let accepted ← orUnverified (driver Reply.moveL)
  if accepted = false then rejected "moveL"
  else do
    modify fun c => { c with commands := c.commands + 1 }
    let run ← attempt (awaitMotion limits fuel before timeout) fun fault => do
      setTarget none
      tryStop
      raise (.aborted (toString (repr fault)))
    let final ← orUnverified measured
    let ok := run.ended && arrived limits rotations target final
    setTarget (if ok then some target else none)
    let result ← report (.of ok) run
    afterMotion result

/-! ## The calls -/

/-- `_move_cap` and `_rotate_cap` -/
def cap (own : ℚ) (given : Option ℚ) : ℚ :=
  match given with
  | none => own
  | some given => min own given

/-- What a checked move sends: its target is judged from the measured pose. -/
def sendChecked (fuel : ℕ) (target : Pose Rotation) (what : String) :
    Action Rotation Result := do
  let now ← measured
  match checkTarget limits rotations now target what with
  | some why => refuse why
  | none => runL limits rotations fuel now target limits.moveTimeout

/-- `move_delta`; `none` is no three finite numbers. -/
def moveDelta (fuel : ℕ) (delta : Option Position) (maxMove : Option ℚ) :
    Action Rotation Result :=
  match delta with
  | none => refuse (.notFinite "delta_xyz")
  | some d =>
    if d.longer (cap limits.maxMove maxMove + nano) then refuse .tooFar
    else do
      let start ← setpoint limits rotations
      let target := { start with position := start.position.add d }
      sendChecked limits rotations fuel target "the move"

def rotateDelta (fuel : ℕ) (delta : Option Position) (maxRotate : Option ℚ) :
    Action Rotation Result :=
  match delta with
  | none => refuse (.notFinite "delta_rpy")
  | some e =>
    if e.longer (cap limits.maxRotate maxRotate + nano) then
      refuse .rotatesTooFar
    else do
      let start ← setpoint limits rotations
      let target :=
        { start with rotation := rotations.turn e start.rotation }
      sendChecked limits rotations fuel target "the rotation"

/-- The orientation given to `move_pose`. -/
inductive Orientation (Rotation : Type) where
  | current
  | given (rotation : Rotation)
  /-- Both of `rotvec` and `rpy`, or no three finite numbers. -/
  | invalid

def movePose (fuel : ℕ) (xyz : Option Position) (orientation : Orientation Rotation)
    (maxMove maxRotate : Option ℚ) : Action Rotation Result :=
  match xyz with
  | none => refuse (.notFinite "xyz")
  | some p => do
      let start ← setpoint limits rotations
      match orientation with
      | .invalid => refuse (.notFinite "rotvec")
      | .current => do
          if (p.sub start.position).longer (cap limits.maxMove maxMove + nano)
          then refuse .tooFar
          else
            sendChecked limits rotations fuel ⟨p, start.rotation⟩ "the pose"
      | .given rotation => do
          if (p.sub start.position).longer (cap limits.maxMove maxMove + nano)
          then refuse .tooFar
          else if
              cap limits.maxRotate maxRotate + nano < rotations.gap rotation start.rotation then
            refuse .rotatesTooFar
          else sendChecked limits rotations fuel ⟨p, rotation⟩ "the pose"

/-- `_fk` -/
def forwardKinematics : Action Rotation (Pose Rotation) := do
  let reading ← driver Reply.forwardKinematics
  match reading with
  | none => raise .invalidPose
  | some pose => pure pose

/-- The position is outside the workspace, as `check_joint_target` has it. -/
def isOutside (p : Position) : Bool :=
  let out := violation limits p
  micro < out.x || micro < out.y || micro < out.z

def checkJointTarget (what : String) : Action Rotation (Pose Rotation) := do
  let within ← attempt (driver Reply.withinLimits) fun _ => refuse (.limitsUnknown what)
  match within with
  | none => refuse (.limitsUnknown what)
  | some false => refuse (.outsideSafetyLimits what)
  | some true => do
      let pose ← forwardKinematics
      if isOutside limits pose.position then refuse (.jointsOutside what)
      else pure pose

/-- The samples of `check_joint_path` that are left. -/
def samplePath (startOut : ℚ) : ℕ → Action Rotation Bool
  | 0 => pure false
  | left + 1 => do
      let pose ← forwardKinematics
      if startOut + micro < (violation limits pose.position).sum then pure true
      else samplePath startOut left

/-- `check_joint_path`: the path leaves the workspace. -/
def checkJointPath : Action Rotation Bool := do
  let start ← forwardKinematics
  samplePath limits (violation limits start.position).sum limits.pathSamples

def readJoints : Action Rotation Joints := do
  let q ← driver Reply.joints
  note (.joints q)
  pure q

def jointsArrived (target q : Joints) : Bool :=
  (List.finRange 6).all fun i => |q i - target i| ≤ limits.jointTolerance

/-- The moveJ of `move_joints`, once it is checked; `pose` is the TCP at the
target. -/
def runJ (fuel : ℕ) (target : Joints) (pose : Pose Rotation) :
    Action Rotation Result := do
  setTarget none
  let before ← driver Reply.asyncStatus
  note (.sentJ target pose)
  let accepted ← driver Reply.moveJ
  if accepted = false then rejected "moveJ"
  else do
    modify fun c => { c with commands := c.commands + 1 }
    let run ← attempt (awaitMotion limits fuel before limits.resetTimeout)
      fun fault => do
        tryStop
        raise (.aborted (toString (repr fault)))
    let q ← readJoints
    let ok := run.ended && jointsArrived limits target q
    if ok then do
      let pose ← measured
      setTarget (some pose)
    else pure ()
    let _ ← readJoints
    let _ ← measured
    let result ← report (.of ok) run
    afterMotion result

/-- `move_joints`; `none` is no six finite angles. -/
def moveJoints (fuel : ℕ) (q : Option Joints) (checkPath : Bool) :
    Action Rotation Result :=
  match q with
  | none => refuse (.notFinite "joints")
  | some target => do
      requireMovable "the joint move"
      let pose ← checkJointTarget limits "the joint move"
      if checkPath then do
        let _ ← readJoints
        let blocked ← checkJointPath limits
        if blocked then do
          let _ ← readJoints
          pure
            { Result.of false with
              pathOutside := true
              notes := [.pathOutside] }
        else runJ limits fuel target pose
      else runJ limits fuel target pose

/-- The gripper opens before a reset; `none` where there is none. -/
def openGripper : Action Rotation Gripped := do
  let stop ← stopFlag
  let gripper ← driver Reply.gripper
  match gripper with
  | none => pure ⟨false, true⟩
  | some gripped =>
    if stop then refuse (.stopInEffect "the gripper command")
    else pure gripped

structure Reset where
  (ok cancelled : Bool)
  (lift move : Option Result)
  notes : List Note
deriving DecidableEq

def finishReset (fuel : ℕ) (target : Joints) (gripped : Gripped) (lift : Option Result) :
    Action Rotation Reset := do
  let move ← moveJoints limits fuel (some target) true
  if move.ok then do
    let final ← measured
    let outside := isOutside limits final.position
    pure
      { ok := gripped.ok && !outside
        cancelled := move.cancelled
        lift := lift
        move := some move
        notes := if outside then [.beginPoseOutside] else [] }
  else
    pure
      { ok := false
        cancelled := move.cancelled
        lift := lift
        move := some move
        notes := if move.pathOutside then move.notes else [] }

def reset (fuel : ℕ) : Action Rotation Reset :=
  match limits.beginJoints with
  | none => refuse .noBeginJoints
  | some target => do
      requireMovable "the reset"
      let _ ← (checkJointTarget limits "the reset" : Action Rotation (Pose Rotation))
      let gripped ← openGripper
      if gripped.cancelled then pure ⟨false, true, none, none, []⟩
      else do
        let start ← setpoint limits rotations
        let room := limits.workspaceMax.z - start.position.z
        let lift := max 0 (min limits.resetLift room)
        if 1 / 10000 < lift then do
          let above :=
            { start with
              position := { start.position with z := start.position.z + lift } }
          let lifted ← runL limits rotations fuel start above limits.moveTimeout
          if lifted.ok then finishReset limits fuel target gripped (some lifted)
          else
            pure
              { ok := false
                cancelled := lifted.cancelled
                lift := some lifted
                move := none
                notes :=
                  if lifted.notes.isEmpty then [.liftNotArrived]
                  else lifted.notes }
        else finishReset limits fuel target gripped none

end Motions

/-! ## What the steps of a call do -/

section Steps

variable {Rotation : Type} {Value : Type} {s : Controller Rotation}

theorem meets_driver {Value : Type} {call : Reply Rotation → Except String Value}
    {post : Value → Controller Rotation → Prop}
    {raises : Fault → Controller Rotation → Prop} {s : Controller Rotation}
    (holds : ∀ value, post value s) (fails : ∀ error, raises (.driver error) s) :
    Meets (driver call) post raises s := by
  intro replies now
  unfold driver ask
  dsimp only
  cases call (replies now) with
  | ok value => exact holds value
  | error error => exact fails error

theorem meets_flag {flag : Reply Rotation → Value} {post : Value → Controller Rotation → Prop}
    {raises : Fault → Controller Rotation → Prop} (holds : ∀ value, post value s) :
    Meets (ask fun reply => .ok (flag reply)) post raises s :=
  fun replies now => holds (flag (replies now))

def Controller.saw (s : Controller Rotation) (event : Event Rotation) :
    Controller Rotation :=
  { s with recent := s.recent ++ [event] }

theorem measured_meets {post : Pose Rotation → Controller Rotation → Prop}
    {raises : Fault → Controller Rotation → Prop}
    (holds : ∀ pose, post pose (s.saw (.measured pose)))
    (fails : ∀ fault, fault.isRefusal = false → raises fault s) : Meets measured post raises s := by
  unfold measured
  refine meets_bind (meets_driver ?_ fun error => fails _ rfl)
  intro reading
  cases reading with
  | none => exact meets_raise (fails _ rfl)
  | some pose => exact meets_bind (meets_modify (meets_pure (holds pose)))

/-- What does not touch the events; the setpoint may be cleared. -/
structure Still (s next : Controller Rotation) : Prop where
  recent : next.recent = s.recent
  past : next.past = s.past
  target : next.target = s.target ∨ next.target = none

theorem Still.refl (s : Controller Rotation) : Still s s :=
  ⟨rfl, rfl, .inl rfl⟩

theorem safetyStopped_meets {post : Option SafetyReason → Controller Rotation → Prop}
    {raises : Fault → Controller Rotation → Prop} (holds : ∀ reason, post reason s)
    (fails : ∀ fault, fault.isRefusal = false → raises fault s) :
    Meets safetyStopped post raises s := by
  unfold safetyStopped
  exact meets_bind (meets_driver (fun _ => meets_pure (holds _)) fun error => fails _ rfl)

theorem requireMovable_meets (what : String) (s : Controller Rotation) :
    Meets (requireMovable what) (fun _ next => Still s next) (fun _ next => Still s next) s := by
  unfold requireMovable
  refine meets_bind (meets_flag fun stop => ?_)
  split
  · exact meets_raise (.refl s)
  · refine meets_bind (safetyStopped_meets (fun reason => ?_) fun _ _ => .refl s)
    cases reason with
    | some reason => exact meets_bind (meets_modify (meets_raise ⟨rfl, rfl, .inr rfl⟩))
    | none =>
      refine meets_bind (meets_flag fun ensured => ?_)
      cases ensured with
      | absent => exact meets_pure (.refl s)
      | failed error => exact meets_bind (meets_modify (meets_raise ⟨rfl, rfl, .inr rfl⟩))
      | running given =>
        cases given with
        | none => exact meets_pure (.refl s)
        | some text => exact meets_modify ⟨rfl, rfl, .inr rfl⟩

theorem rejected_meets (what : String) {post : Value → Controller Rotation → Prop}
    {raises : Fault → Controller Rotation → Prop}
    (fails : ∀ fault, fault.isRefusal = false → raises fault { s with target := none }) :
    Meets (rejected what) post raises s := by
  unfold rejected
  refine meets_bind (meets_modify ?_)
  exact meets_bind (safetyStopped_meets (fun _ => meets_raise (fails _ rfl)) fails)

theorem halted_meets {post : Option Interruption → Controller Rotation → Prop}
    {raises : Fault → Controller Rotation → Prop} (holds : ∀ ended, post ended s)
    (fails : ∀ fault, fault.isRefusal = false → raises fault s) : Meets halted post raises s := by
  unfold halted
  refine meets_bind (meets_driver (fun status => ?_) fun error => fails _ rfl)
  split
  · exact meets_pure (holds _)
  · split
    · exact meets_pure (holds _)
    · exact meets_pure (holds _)

theorem tryStop_meets {post : Unit → Controller Rotation → Prop}
    {raises : Fault → Controller Rotation → Prop} (holds : post () s) :
    Meets tryStop post raises s :=
  meets_attempt (meets_driver (fun _ => holds) fun _ => meets_pure holds)

variable {limits : Limits} {timeout : ℚ}

theorem awaitLoop_meets {limits : Limits} {began timeout : ℚ}
    {post : Run → Controller Rotation → Prop}
    {raises : Fault → Controller Rotation → Prop} {s : Controller Rotation}
    (holds : ∀ run, post run s) (fails : ∀ fault, raises fault s)
    (fuel : ℕ) (before : Register) (run : Run) :
    Meets (awaitLoop limits began timeout fuel before run) post raises s := by
  induction fuel generalizing before run with
  | zero => exact meets_outOfFuel
  | succ fuel ih =>
    rw [awaitLoop]
    refine meets_bind (meets_flag fun stop => ?_)
    have stopped : ∀ after : Run, Meets (stopMotion >>= fun _ => pure after) post raises s :=
      fun after => meets_bind (meets_driver (fun _ => meets_pure (holds _)) fun _ => fails _)
    split
    · exact stopped _
    · refine meets_bind (meets_driver (fun now => ?_) fun _ => fails _)
      dsimp only
      split
      · exact meets_pure (holds _)
      · refine meets_bind (halted_meets (fun ended => ?_) fun _ _ => fails _)
        cases ended with
        | some interruption => exact meets_bind (tryStop_meets (meets_pure (holds _)))
        | none =>
          refine meets_bind (meets_flag fun time => ?_)
          split
          · exact stopped _
          · split
            · exact stopped _
            · exact ih _ _

theorem awaitMotion_meets {fuel : ℕ} {before : Register} {post : Run → Controller Rotation → Prop}
    {raises : Fault → Controller Rotation → Prop} (holds : ∀ run, post run s)
    (fails : ∀ fault, raises fault s) :
    Meets (awaitMotion limits fuel before timeout) post raises s :=
  meets_bind (meets_flag fun _ => awaitLoop_meets holds fails _ _ _)

variable {result : Result}

theorem report_meets {result : Result} {run : Run} {post : Result → Controller Rotation → Prop}
    {raises : Fault → Controller Rotation → Prop}
    (holds : ∀ reported : Result,
      (reported.ok = true → result.ok = true) → post reported { s with controlNote := none }) :
    Meets (report result run) post raises s := by
  unfold report
  refine meets_bind (meets_get ?_)
  refine meets_bind (meets_modify (meets_pure (holds _ ?_)))
  intro isOk
  simp only [Bool.and_eq_true] at isOk
  exact isOk.1.1

theorem afterMotion_meets {post : Result → Controller Rotation → Prop}
    {raises : Fault → Controller Rotation → Prop} (holds : post result s)
    (stops : ∀ after : Result, after.ok = false → post after { s with target := none })
    (fails : ∀ fault, fault.isRefusal = false → raises fault s) :
    Meets (afterMotion result) post raises s := by
  unfold afterMotion
  refine meets_bind (safetyStopped_meets (fun reason => ?_) fails)
  cases reason with
  | none => exact meets_pure holds
  | some reason => exact meets_bind (meets_modify (meets_pure (stops _ rfl)))

theorem orUnverified_meets {program : Action Rotation Value}
    {post : Value → Controller Rotation → Prop} {raises : Fault → Controller Rotation → Prop}
    (holds : program.Meets post (fun fault between => raises fault (between.saw .unverified)) s) :
    Meets (orUnverified program) post raises s := by
  refine meets_attempt (holds.imp (fun _ _ met => met) ?_)
  intro fault between met
  exact meets_bind (meets_modify (meets_raise met))

end Steps

/-! ## What is kept of the events -/

section Kept

variable {Rotation : Type}

def Quiet (events : List (Event Rotation)) : Prop :=
  ∀ event ∈ events, event.isMotion = false

variable {events more : List (Event Rotation)}

theorem quiet_append (quiet : Quiet events) (moreQuiet : Quiet more) : Quiet (events ++ more) :=
  List.forall_mem_append.mpr ⟨quiet, moreQuiet⟩

structure Looked (s next : Controller Rotation) (more : List (Event Rotation)) :
    Prop where
  recent : next.recent = s.recent ++ more
  past : next.past = s.past
  quiet : Quiet more
  target : next.target = s.target ∨ next.target = none

/-- Nothing is sent; the setpoint may also be a pose measured meanwhile. -/
structure Idle (s next : Controller Rotation) (more : List (Event Rotation)) :
    Prop where
  recent : next.recent = s.recent ++ more
  past : next.past = s.past
  quiet : Quiet more
  target :
    (next.target = s.target ∨ next.target = none) ∨
      ∃ pose, next.target = some pose ∧ .measured pose ∈ more

theorem quiet_nil : Quiet ([] : List (Event Rotation)) :=
  fun _ member => absurd member List.not_mem_nil

theorem quiet_cons {event : Event Rotation} (notMotion : event.isMotion = false)
    (quiet : Quiet events) : Quiet (event :: events) := by
  intro other member
  rcases List.mem_cons.mp member with same | among
  · rw [same]
    exact notMotion
  · exact quiet other among

variable {s next : Controller Rotation}

theorem Still.looked (still : Still s next) : Looked s next [] where
  recent := by rw [still.recent, List.append_nil]
  past := still.past
  quiet := quiet_nil
  target := still.target

theorem Looked.idle (looked : Looked s next more) : Idle s next more :=
  { looked with
    target := .inl looked.target }

theorem Still.idle (still : Still s next) : Idle s next [] :=
  still.looked.idle

theorem Idle.looked {between : Controller Rotation} {first second : List (Event Rotation)}
    (before : Idle s between first) (later : Looked between next second) :
    Idle s next (first ++ second) where
  recent := by rw [later.recent, before.recent, List.append_assoc]
  past := later.past.trans before.past
  quiet := quiet_append before.quiet later.quiet
  target := by
    rcases later.target with same | cleared
    · rw [same]
      refine before.target.imp id ?_
      rintro ⟨pose, isPose, seen⟩
      exact ⟨pose, isPose, List.mem_append_left _ seen⟩
    · exact .inl (.inr cleared)

theorem saw_looked (s : Controller Rotation) (event : Event Rotation)
    (notMotion : event.isMotion = false) :
    Looked s (s.saw event) [event] where
  recent := rfl
  past := rfl
  quiet := quiet_cons notMotion quiet_nil
  target := .inl rfl

/-- A motion is sent, and nothing after it; `kept` is what holds of the events
after it and of the setpoint. -/
structure Moved (sent : Event Rotation)
    (kept : List (Event Rotation) → Option (Pose Rotation) → Prop)
    (s next : Controller Rotation) (later : List (Event Rotation)) : Prop where
  recent : next.recent = s.recent ++ sent :: later
  past : next.past = s.past
  quiet : Quiet later
  kept : kept later next.target

def HeldL (limits : Limits) (rotations : Rotations Rotation) (target : Pose Rotation)
    (later : List (Event Rotation)) (stored : Option (Pose Rotation)) : Prop :=
  stored = none ∨
    stored = some target ∧ ∃ final, .measured final ∈ later ∧
      arrived limits rotations target final = true

def HeldJ (limits : Limits) (q : Joints) (later : List (Event Rotation))
    (stored : Option (Pose Rotation)) : Prop :=
  stored = none ∨
    ∃ pose read, stored = some pose ∧ .measured pose ∈ later ∧
      .joints read ∈ later ∧ jointsArrived limits q read = true

end Kept

/-! ## The motions -/

section Sent

variable {Rotation : Type} {limits : Limits} {rotations : Rotations Rotation}
  {s next : Controller Rotation} {sent : Event Rotation}
  {later : List (Event Rotation)}

theorem moved_of_still {between : Controller Rotation}
    {kept : List (Event Rotation) → Option (Pose Rotation) → Prop} (still : Still s between)
    (recent : next.recent = between.recent ++ sent :: later)
    (past : next.past = between.past) (quiet : Quiet later)
    (holds : kept later next.target) : Moved sent kept s next later where
  recent := by rw [recent, still.recent]
  past := past.trans still.past
  quiet := quiet
  kept := holds

/-- What `_run_l` does where it returns. -/
def RanL (limits : Limits) (rotations : Rotations Rotation)
    (judged target : Pose Rotation) (s next : Controller Rotation) : Prop :=
  ∃ later, Moved (.sentL judged target) (HeldL limits rotations target) s next later

def FailedL (limits : Limits) (rotations : Rotations Rotation)
    (judged target : Pose Rotation) (s : Controller Rotation) (fault : Fault)
    (next : Controller Rotation) : Prop :=
  Still s next ∨
    fault.isRefusal = false ∧ ∃ later,
      Moved (.sentL judged target)
        (fun later stored => HeldL limits rotations target later stored ∨ .unverified ∈ later)
        s next later

theorem runL_meets (fuel : ℕ) (judged target : Pose Rotation) (timeout : ℚ)
    (s : Controller Rotation) :
    Meets (runL limits rotations fuel judged target timeout)
      (fun _ next => RanL limits rotations judged target s next)
      (FailedL limits rotations judged target s) s := by
  unfold runL
  refine meets_bind ((requireMovable_meets "the move" s).imp ?_ fun _ _ still => .inl still)
  intro _ between still
  refine meets_bind (meets_driver (fun before => ?_) fun _ => .inl still)
  refine meets_bind (meets_modify ?_)
  -- A setpoint that is cleared, or one that nothing verified.
  have cleared : ∀ (fault : Fault) (next : Controller Rotation),
      next.recent = between.recent ++ [.sentL judged target] →
      next.past = between.past → next.target = none →
      fault.isRefusal = false →
      FailedL limits rotations judged target s fault next :=
    fun fault next recent past isNone notRefusal =>
      .inr ⟨notRefusal, [], moved_of_still still recent past quiet_nil (.inl (.inl isNone))⟩
  refine meets_bind (orUnverified_meets (meets_driver (fun accepted => ?_) ?_))
  swap
  · intro error
    refine .inr ⟨rfl, [.unverified], moved_of_still still ?_ rfl
      (quiet_cons rfl quiet_nil) (.inr List.mem_cons_self)⟩
    exact List.append_assoc _ _ _
  split
  · exact rejected_meets _ fun fault notRefusal => cleared fault _ rfl rfl rfl notRefusal
  refine meets_bind (meets_modify ?_)
  refine meets_bind (meets_attempt (awaitMotion_meets (fun run => ?_) ?_))
  swap
  · intro fault
    refine meets_bind (meets_modify (meets_bind (tryStop_meets ?_)))
    exact meets_raise (cleared _ _ rfl rfl rfl rfl)
  refine meets_bind (orUnverified_meets (measured_meets (fun final => ?_) ?_))
  swap
  · intro fault notRefusal
    refine .inr ⟨notRefusal, [.unverified], moved_of_still still ?_ rfl
      (quiet_cons rfl quiet_nil) (.inr List.mem_cons_self)⟩
    exact List.append_assoc _ _ _
  refine meets_bind (meets_modify ?_)
  have measuredQuiet : Quiet [Event.measured final] := quiet_cons rfl quiet_nil
  have joined :
      between.recent ++ [.sentL judged target] ++ [.measured final] =
        between.recent ++ [.sentL judged target, .measured final] :=
    List.append_assoc _ _ _
  generalize isOk : (run.ended && arrived limits rotations target final) = ok
  have held :
      HeldL limits rotations target [.measured final]
        (if ok = true then some target else none) := by
    cases ok with
    | false => exact .inl rfl
    | true =>
      rw [Bool.and_eq_true] at isOk
      exact .inr ⟨rfl, final, List.mem_cons_self, isOk.2⟩
  refine meets_bind (report_meets fun reported _ => ?_)
  refine afterMotion_meets ?_ (fun after _ => ?_) fun fault notRefusal => ?_
  · exact ⟨_, moved_of_still still joined rfl measuredQuiet held⟩
  · exact ⟨_, moved_of_still still joined rfl measuredQuiet (.inl rfl)⟩
  · exact .inr ⟨notRefusal, _, moved_of_still still joined rfl measuredQuiet (.inl held)⟩

theorem Moved.saw {event : Event Rotation}
    {kept : List (Event Rotation) → Option (Pose Rotation) → Prop}
    (moved : Moved sent kept s next later) (notMotion : event.isMotion = false)
    (holds : kept (later ++ [event]) next.target) :
    Moved sent kept s (next.saw event) (later ++ [event]) where
  recent := by
    change next.recent ++ [event] = _
    rw [moved.recent, List.append_assoc]
    rfl
  past := moved.past
  quiet := quiet_append moved.quiet (quiet_cons notMotion quiet_nil)
  kept := holds

variable {changed : Controller Rotation}

theorem Moved.other {kept : List (Event Rotation) → Option (Pose Rotation) → Prop}
    (moved : Moved sent kept s next later)
    (recent : changed.recent = next.recent) (past : changed.past = next.past)
    (holds : kept later changed.target) :
    Moved sent kept s changed later where
  recent := recent.trans moved.recent
  past := past.trans moved.past
  quiet := moved.quiet
  kept := holds

variable {more : List (Event Rotation)} {stored : Option (Pose Rotation)}

theorem HeldJ.append {q : Joints} (held : HeldJ limits q later stored) :
    HeldJ limits q (later ++ more) stored := by
  rcases held with cleared | ⟨pose, read, isPose, seen, readSeen, inside⟩
  · exact .inl cleared
  · exact .inr ⟨pose, read, isPose, List.mem_append_left _ seen,
      List.mem_append_left _ readSeen, inside⟩

theorem HeldL.append {target : Pose Rotation} {more : List (Event Rotation)}
    {stored : Option (Pose Rotation)} (held : HeldL limits rotations target later stored) :
    HeldL limits rotations target (later ++ more) stored := by
  rcases held with cleared | ⟨isTarget, final, seen, inside⟩
  · exact .inl cleared
  · exact .inr ⟨isTarget, final, List.mem_append_left _ seen, inside⟩

theorem readJoints_meets {post : Joints → Controller Rotation → Prop}
    {raises : Fault → Controller Rotation → Prop} (holds : ∀ q, post q (s.saw (.joints q)))
    (fails : ∀ fault, fault.isRefusal = false → raises fault s) :
    Meets readJoints post raises s := by
  unfold readJoints
  refine meets_bind (meets_driver (fun q => ?_) fun error => fails _ rfl)
  exact meets_bind (meets_modify (meets_pure (holds q)))

/-- What a moveJ of the controller does, returned or raised. -/
def RanJ (limits : Limits) (target : Joints) (pose : Pose Rotation)
    (s next : Controller Rotation) : Prop :=
  ∃ later, Moved (.sentJ target pose) (HeldJ limits target) s next later

variable {target : Joints} {pose : Pose Rotation}

section

variable (ran : RanJ limits target pose s next)
include ran

theorem RanJ.saw (event : Event Rotation) (notMotion : event.isMotion = false) :
    RanJ limits target pose s (next.saw event) := by
  obtain ⟨later, moved⟩ := ran
  exact ⟨_, moved.saw notMotion moved.kept.append⟩

theorem RanJ.other (recent : changed.recent = next.recent) (past : changed.past = next.past)
    (stored : changed.target = next.target ∨ changed.target = none) :
    RanJ limits target pose s changed := by
  obtain ⟨later, moved⟩ := ran
  refine ⟨later, moved.other recent past ?_⟩
  rcases stored with same | cleared
  · rw [same]
    exact moved.kept
  · exact .inl cleared

theorem afterJ_meets {result : Result} {run : Run} :
    Meets
      (readJoints >>= fun _ => measured >>= fun _ =>
        report result run >>= fun reported => afterMotion reported)
      (fun _ next => RanJ limits target pose s next)
      (fun fault next => fault.isRefusal = false ∧
        (Still s next ∨ RanJ limits target pose s next)) next := by
  refine meets_bind (readJoints_meets (fun q => ?_) fun fault notRefusal =>
    ⟨notRefusal, .inr ran⟩)
  have withJoints := ran.saw (.joints q) rfl
  refine meets_bind (measured_meets (fun final => ?_) fun fault notRefusal =>
    ⟨notRefusal, .inr withJoints⟩)
  have withFinal := withJoints.saw (.measured final) rfl
  refine meets_bind (report_meets fun reported _ => ?_)
  refine afterMotion_meets (withFinal.other rfl rfl (.inl rfl))
    (fun after _ => withFinal.other rfl rfl (.inr rfl))
    fun fault notRefusal => ⟨notRefusal, .inr (withFinal.other rfl rfl (.inl rfl))⟩

end

theorem runJ_meets (fuel : ℕ) (target : Joints) (pose : Pose Rotation) (s : Controller Rotation) :
    Meets (runJ limits fuel target pose) (fun _ next => RanJ limits target pose s next)
      (fun fault next => fault.isRefusal = false ∧
        (Still s next ∨ RanJ limits target pose s next)) s := by
  unfold runJ
  refine meets_bind (meets_modify ?_)
  have still : Still s { s with target := none } := ⟨rfl, rfl, .inr rfl⟩
  refine meets_bind (meets_driver (fun before => ?_) fun _ => ⟨rfl, .inl still⟩)
  refine meets_bind (meets_modify ?_)
  have sent :
      RanJ limits target pose s (Controller.saw { s with target := none } (.sentJ target pose)) :=
    ⟨[], moved_of_still still rfl rfl quiet_nil (.inl rfl)⟩
  refine meets_bind (meets_driver (fun accepted => ?_) fun _ => ⟨rfl, .inr sent⟩)
  split
  · exact rejected_meets _ fun fault notRefusal =>
      ⟨notRefusal, .inr (sent.other rfl rfl (.inr rfl))⟩
  refine meets_bind (meets_modify ?_)
  refine meets_bind (meets_attempt (awaitMotion_meets (fun run => ?_) ?_))
  swap
  · intro fault
    refine meets_bind (tryStop_meets (meets_raise ?_))
    exact ⟨rfl, .inr (sent.other rfl rfl (.inl rfl))⟩
  have counted :
      RanJ limits target pose s
        { Controller.saw { s with target := none } (.sentJ target pose) with
          commands := s.commands + 1 } :=
    sent.other rfl rfl (.inl rfl)
  refine meets_bind (readJoints_meets (fun q => ?_) fun fault notRefusal =>
    ⟨notRefusal, .inr counted⟩)
  have read := counted.saw (.joints q) rfl
  generalize isOk : (run.ended && jointsArrived limits target q) = ok
  cases ok with
  | false => exact afterJ_meets read
  | true =>
    rw [Bool.and_eq_true] at isOk
    refine meets_bind (measured_meets (fun final => ?_)
      fun fault notRefusal => ⟨notRefusal, .inr read⟩)
    refine meets_bind (meets_modify (afterJ_meets ?_))
    refine ⟨[.joints q, .measured final],
      moved_of_still still (by simp [Controller.saw]) rfl
        (quiet_cons rfl (quiet_cons rfl quiet_nil)) ?_⟩
    exact .inr ⟨final, q, rfl, by simp, by simp, isOk.2⟩

end Sent

end PiEmbodied.Services.Ur5e
