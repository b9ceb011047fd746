import PiEmbodied.Polylines

/-!
# The move budget of a Franka program

Every call of a program is charged a translation before it runs.  The motion
that follows is a walk of the TCP, each commanded motion executed exactly.
-/

namespace PiEmbodied.Services.MoveBudget

open Polylines

variable {K : Type} [Field K] [LinearOrder K]

/-! ## Geometry -/

abbrev Vec (K : Type) := Fin 3 → K

abbrev Joints (K : Type) := Fin 7 → K

def dot (u v : Vec K) : K :=
  u 0 * v 0 + u 1 * v 1 + u 2 * v 2

/-- `np.linalg.norm` of three numbers, by the laws that hold of it. -/
structure Norm (K : Type) [Field K] [LinearOrder K] extends
    Length K (Vec K) where
  of_unit_le : ∀ v, dot v v = 1 → of v ≤ 1

/-- A quaternion that `unit_wxyz` returns. -/
structure Quaternion (K : Type) [Field K] where
  (w x y z : K)
  isUnit : w * w + x * x + y * y + z * z = 1

/-- The third column of `wxyz_matrix`: where the tool points. -/
def Quaternion.tool (q : Quaternion K) : Vec K :=
  ![2 * (q.x * q.z + q.y * q.w), 2 * (q.y * q.z - q.x * q.w), 1 - 2 * (q.x * q.x + q.y * q.y)]

structure Pose (K : Type) [Field K] where
  position : Vec K
  rotation : Quaternion K

/-- pi's limits; `max_*` are positive where they are on. -/
structure Limits (K : Type) [Field K] [LinearOrder K] where
  (maxMove maxRotate zFloor : Option K)
  workspaceXY : Option (K × K × K × K)
  maxMovePositive : ∀ limit ∈ maxMove, 0 < limit

/-- What a server has: its limits, and what other components compute for it. -/
structure Rig (K : Type) [Field K] [LinearOrder K] where
  limits : Limits K
  norm : Norm K
  /-- The angle between two orientations. -/
  angle : Quaternion K → Quaternion K → K
  /-- `_box_violation` of the backend. -/
  boxViolation : Vec K → K
  /-- `_joint_step_rad`, where the backend streams joints and has `--ik`. -/
  jointStep : Option K
  forwardKinematics : Joints K → Pose K
  /-- The ik service accepts the joint path. -/
  pathOk : Joints K → Joints K → Bool
  /-- The setpoints of a joint stream, and how far each has come. -/
  ticks : Joints K → Joints K → ℕ
  ease : ℕ → ℕ → K

structure Arm (K : Type) [Field K] where
  tcp : Pose K
  joints : Joints K
  /-- The TCP pose of the last reset. -/
  home : Option (Pose K)

inductive Refusal where
  | notThreeNumbers
  | notAQuaternion
  | zApproach
  | tooManyLegs
  | leavesWorkspace
  | noHome
  | jointsNotFinite
  | noJointMoves
  | jointStep
  | pathUnchecked
  | tooFar
  | turnsTooFar
  | notATrajectory
  | pixelOutside
  | noDepth
  | targetBehind
  | gripperBehind
deriving DecidableEq

def nano : K := 1 / 1000000000

def micro : K := 1 / 1000000

def outside (limits : Limits K) (p : Vec K) : K :=
  (match limits.zFloor with
    | some floor => max 0 (floor - p 2)
    | none => 0) +
    match limits.workspaceXY with
    | some (xMin, xMax, yMin, yMax) =>
      max (max 0 (xMin - p 0)) (p 0 - xMax) + max (max 0 (yMin - p 1)) (p 1 - yMax)
    | none => 0

/-- `workspace_refusal`, with the box of the backend. -/
def leaves (rig : Rig K) (start target : Vec K) : Bool :=
  (micro < outside rig.limits target &&
      outside rig.limits start - micro ≤ outside rig.limits target) ||
    micro < rig.boxViolation target

def checkTranslation (rig : Rig K) (delta : Vec K) : Except Refusal K :=
  let norm := rig.norm.of delta
  match rig.limits.maxMove with
  | none => .ok norm
  | some limit => if limit + nano < norm then .error .tooFar else .ok norm

def maxLegs : ℕ := 8

def legShare : K := 95 / 100

variable [FloorRing K]

def legsOf (rig : Rig K) (start : Vec K) : List (Vec K) → List (Vec K)
  | [] => []
  | stop :: rest =>
    let dist := rig.norm.of (stop - start)
    let limit := rig.limits.maxMove.getD (1 / 10)
    let n := if 1 / 10000 < dist then ⌈dist / (legShare * limit)⌉₊ else 0
    parts K start stop n ++ legsOf rig stop rest

def legsInside (rig : Rig K) : Vec K → List (Vec K) → Bool
  | _, [] => true
  | start, p :: rest => !leaves rig start p && legsInside rig p rest

/-- `_route`: the number of rotation legs, and the ends of the others. -/
def route (rig : Rig K) (here : Pose K) (stops : List (Vec K))
    (target : Quaternion K) : Except Refusal (ℕ × List (Vec K)) :=
  let angle := rig.angle target here.rotation
  let limit := rig.limits.maxRotate.getD (1 / 2)
  let rotations :=
    if 1 / 1000 < angle then ⌈angle / (legShare * limit)⌉₊ else 0
  let legs := legsOf rig here.position stops
  if maxLegs < rotations + legs.length then .error .tooManyLegs
  else if legsInside rig here.position legs then .ok (rotations, legs)
  else .error .leavesWorkspace

/-- A call of a program; an argument that is no array of the right shape with
finite numbers is `none`. -/
inductive Call (K : Type) [Field K] where
  | moveDelta (delta : Option (Vec K))
  | rotateDelta (delta : Option (Vec K))
  | setGripper (isOpen : Bool)
  | openGripper
  | closeGripper
  | gotoPose
      (position : Option (Vec K)) (quaternion : Option (Quaternion K))
      (zApproach : Option K)
  | homePose
  | moveToJoints (joints : Option (Joints K))
  | moveAlongTrajectory (trajectory : Option (List (Option (Joints K))))
  | alignWrist
      (row col : ℤ) (maxCorrection : Option K) (execute : Bool)
  /-- A primitive that moves nothing. -/
  | reads (method : String)

inductive Leg where
  /-- Refused, or stopped before it. -/
  | stopped
  /-- The motion ran, and its result ends the call. -/
  | ended
  | went
deriving DecidableEq

/-- What the world makes of a call: how each leg ends, and, of each joint
stream that a stop or an error ends, the setpoints it had sent. -/
structure World where
  leg : ℕ → Leg
  sent : ℕ → Option ℕ

/-- The translation legs, from the number of the first; where the TCP goes. -/
def runLegs (world : World) : ℕ → Vec K → List (Vec K) → List (Vec K)
  | _, _, [] => []
  | i, tcp, p :: rest =>
    let delta := p - tcp
    match world.leg i with
    | .stopped => []
    | .ended => [tcp + delta]
    | .went => (tcp + delta) :: runLegs world (i + 1) (tcp + delta) rest

def gotoPose (rig : Rig K) (arm : Arm K) (world : World)
    (position : Option (Vec K)) (quaternion : Option (Quaternion K))
    (zApproach : Option K) : Except Refusal (List (Vec K)) :=
  match position, quaternion with
  | none, _ => .error .notThreeNumbers
  | some _, none => .error .notAQuaternion
  | some target, some rotation =>
    let za := zApproach.getD 0
    if za < 0 ∨ 3 / 10 < za then .error .zApproach
    else
      let approach := target + (-za) • rotation.tool
      let stops := if 1 / 10000 < za then [approach, target] else [target]
      match route rig arm.tcp stops rotation with
      | .error refusal => .error refusal
      | .ok (rotations, legs) =>
        -- A rotation turns the TCP in place.
        if (List.range rotations).all fun i => world.leg i = .went then
          .ok (runLegs world rotations arm.tcp.position legs)
        else .ok []

def homePose (rig : Rig K) (arm : Arm K) (world : World) : Except Refusal (List (Vec K)) :=
  match arm.home with
  | none => .error .noHome
  | some home => gotoPose rig arm world (some home.position) (some home.rotation) none

/-! ## Joint moves -/

/-- The `i`th of the `FK_SAMPLES` samples of a joint path. -/
def sample (rig : Rig K) (q₀ q₁ : Joints K) (i : ℕ) : Pose K :=
  rig.forwardKinematics (q₀ + ((i : K) / 9) • (q₁ - q₀))

def samplesInside (rig : Rig K) (q₀ q₁ : Joints K) : Bool :=
  (List.range 9).all fun i =>
    !leaves rig (sample rig q₀ q₁ i).position (sample rig q₀ q₁ (i + 1)).position

def checkJointMove (rig : Rig K) (q₀ q₁ : Joints K) : Except Refusal K :=
  match rig.jointStep with
  | none => .error .noJointMoves
  | some step =>
    if (List.finRange 7).any fun i => step + nano < |q₁ i - q₀ i| then
      .error .jointStep
    else if rig.pathOk q₀ q₁ = false then .error .pathUnchecked
    else
      let start := sample rig q₀ q₁ 0
      let last := sample rig q₀ q₁ 9
      match checkTranslation rig (last.position - start.position) with
      | .error refusal => .error refusal
      | .ok move =>
        let turn := rig.angle last.rotation start.rotation
        if rig.limits.maxRotate.any fun limit => limit + nano < turn then
          .error .turnsTooFar
        else if samplesInside rig q₀ q₁ then .ok move
        else .error .leavesWorkspace

/-- The TCP at the setpoints of `_joint_stream`. -/
def stream (rig : Rig K) (q₀ goal : Joints K) : List (Vec K) :=
  let n := max 1 (rig.ticks q₀ goal)
  (List.range n).map fun i : ℕ =>
    (rig.forwardKinematics (q₀ + rig.ease (i + 1) n • (goal - q₀))).position

def sentOf (rig : Rig K) (world : World) (i : ℕ) (q₀ goal : Joints K) : List (Vec K) :=
  match world.sent i with
  | some k => (stream rig q₀ goal).take k
  | none => stream rig q₀ goal

def moveToJoints (rig : Rig K) (arm : Arm K) (world : World)
    (joints : Option (Joints K)) : Except Refusal (List (Vec K)) :=
  match joints with
  | none => .error .jointsNotFinite
  | some goal =>
    match checkJointMove rig arm.joints goal with
    | .error refusal => .error refusal
    | .ok _ => .ok (sentOf rig world 0 arm.joints goal)

def trajectoryMoves (rig : Rig K) : Joints K → List (Option (Joints K)) → Except Refusal K
  | _, [] => .ok 0
  | _, none :: _ => .error .jointsNotFinite
  | q, some goal :: rest =>
    match checkJointMove rig q goal with
    | .error refusal => .error refusal
    | .ok move =>
      match trajectoryMoves rig goal rest with
      | .error refusal => .error refusal
      | .ok total => .ok (move + total)

def runTrajectory (rig : Rig K) (world : World) :
    ℕ → Joints K → List (Option (Joints K)) → List (Vec K)
  | _, _, [] | _, _, none :: _ => []
  | i, q, some goal :: rest =>
    match world.leg i with
    | .stopped => []
    | .ended => stream rig q goal
    | .went =>
      sentOf rig world i q goal ++
        if (world.sent i).isSome then []
        else runTrajectory rig world (i + 1) goal rest

def maxTrajectory : ℕ := 100

def moveAlongTrajectory (rig : Rig K) (arm : Arm K) (world : World)
    (trajectory : Option (List (Option (Joints K)))) :
    Except Refusal (List (Vec K)) :=
  match trajectory with
  | none => .error .notATrajectory
  | some goals =>
    if goals.length = 0 ∨ maxTrajectory < goals.length then
      .error .notATrajectory
    else
      match trajectoryMoves rig arm.joints goals with
      | .error refusal => .error refusal
      | .ok total =>
        let limit := rig.limits.maxMove.getD (1 / 10)
        if (maxLegs : K) * limit + nano < total then .error .tooFar
        else .ok (runTrajectory rig world 0 arm.joints goals)

/-! ## align_wrist -/

/-- The wrist view: its depth, where it is a positive number, the intrinsics,
and the camera's axes and origin in the world. -/
structure View (K : Type) [Field K] where
  (height width : ℤ)
  depth : ℤ → ℤ → Option K
  (fx fy cx cy : K)
  (right down forward origin : Vec K)

/-- `round(x, 5)`: the nearest, and the even one of two. -/
def round5 (x : K) : K :=
  let scaled := x * 100000
  let below := ⌊scaled⌋
  let rest := scaled - below
  let nearest :=
    if rest < 1 / 2 then below
    else if 1 / 2 < rest then below + 1
    else if below % 2 = 0 then below
    else below + 1
  (nearest : K) / 100000

/-- `alignment`: the correction, from the target and the gripper. -/
def alignment (rig : Rig K) (view : View K) (target gripper : Vec K)
    (maxCorrection : K) : Except Refusal (Vec K) :=
  let seen := target - view.origin
  let grip := gripper - view.origin
  let tx := dot view.right seen
  let ty := dot view.down seen
  let tz := dot view.forward seen
  let gx := dot view.right grip
  let gy := dot view.down grip
  let gz := dot view.forward grip
  if tz ≤ 1 / 10000 then .error .targetBehind
  else if gz ≤ 1 / 10000 then .error .gripperBehind
  else
    let ud := view.fx * gx / gz + view.cx
    let vd := view.fy * gy / gz + view.cy
    let u := view.fx * tx / tz + view.cx
    let v := view.fy * ty / tz + view.cy
    let raw := ((u - ud) * tz / view.fx) • view.right + ((v - vd) * tz / view.fy) • view.down
    let norm := rig.norm.of raw
    let delta :=
      if maxCorrection < norm then (maxCorrection / norm) • raw else raw
    .ok fun i => round5 (delta i)

/-- The correction of a pixel, at most the clipped `max_correction_m`. -/
def correction (rig : Rig K) (view : View K) (gripper : Vec K) (row col : ℤ)
    (maxCorrection : Option K) : Except Refusal (Vec K) :=
  if row < 0 ∨ view.height ≤ row ∨ col < 0 ∨ view.width ≤ col then
    .error .pixelOutside
  else
    match view.depth row col with
    | none => .error .noDepth
    | some z =>
      let target :=
        view.origin + (((col : K) - view.cx) * z / view.fx) • view.right +
          (((row : K) - view.cy) * z / view.fy) • view.down +
          z • view.forward
      let limit := min (5 / 100) (max (5 / 1000) (maxCorrection.getD (3 / 100)))
      alignment rig view target gripper limit

/-- `env.move_delta` behind pi's limits: where the TCP goes. -/
def moveDelta (rig : Rig K) (arm : Arm K) (world : World) (delta : Vec K) :
    Except Refusal (List (Vec K)) :=
  match checkTranslation rig delta with
  | .error refusal => .error refusal
  | .ok _ =>
    let here := arm.tcp.position
    let isOff := rig.limits.zFloor.isNone && rig.limits.workspaceXY.isNone
    let target := here + delta
    if isOff = false ∧ micro < outside rig.limits target ∧
        outside rig.limits here - micro ≤ outside rig.limits target then
      .error .leavesWorkspace
    else
      match world.leg 0 with
      | .stopped => .ok []
      | _ => .ok [target]

def alignWrist (rig : Rig K) (view : View K) (arm : Arm K) (world : World)
    (row col : ℤ) (maxCorrection : Option K) (execute : Bool) :
    Except Refusal (List (Vec K)) :=
  match correction rig view arm.tcp.position row col maxCorrection with
  | .error refusal => .error refusal
  | .ok delta => if execute then moveDelta rig arm world delta else .ok []

def codeMoveM (rig : Rig K) (arm : Arm K) : Call K → Except Refusal K
  | .moveDelta none => .error .notThreeNumbers
  | .moveDelta (some delta) => .ok (rig.norm.of delta)
  | .homePose =>
    match arm.home with
    | none => .ok 0
    | some home => .ok (rig.norm.of (home.position - arm.tcp.position))
  | .gotoPose none _ _ => .error .notThreeNumbers
  | .gotoPose (some target) _ zApproach =>
    .ok (rig.norm.of (target - arm.tcp.position) + 2 * |zApproach.getD 0|)
  | .moveToJoints none => .error .jointsNotFinite
  | .moveToJoints (some goal) => checkJointMove rig arm.joints goal
  | .moveAlongTrajectory none => .error .notATrajectory
  | .moveAlongTrajectory (some goals) => trajectoryMoves rig arm.joints (goals.take maxTrajectory)
  | _ => .ok 0

/-- What a call commands: where the TCP goes, one point after the other. -/
def commanded (rig : Rig K) (view : View K) (arm : Arm K) (world : World) :
    Call K → Except Refusal (List (Vec K))
  | .moveDelta none => .error .notThreeNumbers
  | .moveDelta (some delta) => moveDelta rig arm world delta
  | .homePose => homePose rig arm world
  | .gotoPose position quaternion zApproach => gotoPose rig arm world position quaternion zApproach
  | .moveToJoints joints => moveToJoints rig arm world joints
  | .moveAlongTrajectory trajectory => moveAlongTrajectory rig arm world trajectory
  | .alignWrist row col maxCorrection execute =>
    alignWrist rig view arm world row col maxCorrection execute
  | _ => .ok []

def Call.isJointMove : Call K → Bool
  | .moveToJoints _ | .moveAlongTrajectory _ => true
  | _ => false

/-- Where the walk of a call starts: by the forward kinematics of the ik
service, where joints move. -/
def began (rig : Rig K) (arm : Arm K) (call : Call K) : Vec K :=
  if call.isJointMove then (rig.forwardKinematics arm.joints).position
  else arm.tcp.position

/-- The length of the path that a call commands; where it is refused, none. -/
def travelled (rig : Rig K) (view : View K) (arm : Arm K) (world : World) (call : Call K) : K :=
  match commanded rig view arm world call with
  | .error _ => 0
  | .ok path => rig.norm.walk (began rig arm call) path

/-! ## The legs of a pose -/

omit [LinearOrder K] [FloorRing K] in
theorem runLegs_isPrefix (world : World) (i : ℕ) (tcp : Vec K) (legs : List (Vec K)) :
    runLegs world i tcp legs <+: legs := by
  induction legs generalizing i tcp with
  | nil => exact List.prefix_rfl
  | cons p rest ih =>
    rw [runLegs, add_sub_cancel]
    cases world.leg i with
    | stopped => exact List.nil_prefix
    | ended => exact (List.prefix_append [p] rest)
    | went => exact List.cons_prefix_cons.mpr ⟨rfl, ih (i + 1) p⟩

section Legs

variable [IsStrictOrderedRing K]

omit [FloorRing K] in
theorem tool_unit (q : Quaternion K) : dot q.tool q.tool = 1 := by
  have isUnit := q.isUnit
  simp only [dot, Quaternion.tool, Matrix.cons_val]
  linear_combination 4 * (q.x * q.x + q.y * q.y) * isUnit

theorem limit_pos (limits : Limits K) : 0 < limits.maxMove.getD (1 / 10) := by
  cases isLimit : limits.maxMove with
  | none => norm_num
  | some limit => exact limits.maxMovePositive limit isLimit

/-- The legs through some stops are not longer than the way through them, also
from a point that is not their start. -/
theorem walk_legsOf_le (rig : Rig K) (other start : Vec K) (stops : List (Vec K)) :
    rig.norm.walk other (legsOf rig start stops) ≤
      rig.norm.of (start - other) + rig.norm.walk start stops := by
  induction stops generalizing other start with
  | nil => exact add_nonneg (rig.norm.of_nonneg _) le_rfl
  | cons stop rest ih =>
    rw [legsOf, Length.walk_append, Length.walk_cons]
    by_cases far : 1 / 10000 < rig.norm.of (stop - start)
    · have someLegs :
          0 < ⌈rig.norm.of (stop - start) / (legShare * rig.limits.maxMove.getD (1 / 10))⌉₊ := by
        apply Nat.ceil_pos.mpr
        apply div_pos (lt_trans (by norm_num) far)
        exact mul_pos (by norm_num [legShare]) (limit_pos rig.limits)
      rw [if_pos far]
      obtain ⟨isLong, isEnd⟩ := rig.norm.walk_parts start stop someLegs
      have nonempty : parts K start stop
          ⌈rig.norm.of (stop - start) / (legShare * rig.limits.maxMove.getD (1 / 10))⌉₊ ≠ [] := by
        intro isNil
        have isShort := congrArg List.length isNil
        rw [parts, List.length_map, List.length_range] at isShort
        exact someLegs.ne' isShort
      rw [endpoint_eq_of_ne_nil nonempty other start, isEnd]
      have first := rig.norm.walk_le_shift start other (parts K start stop
        ⌈rig.norm.of (stop - start) / (legShare * rig.limits.maxMove.getD (1 / 10))⌉₊)
      have later := ih stop stop
      rw [sub_self, Length.of_zero] at later
      rw [isLong] at first
      linarith
    · rw [if_neg far]
      have later := ih other stop
      have legs := rig.norm.of_sub_le stop start other
      change 0 + rig.norm.walk other (legsOf rig stop rest) ≤ _
      linarith

omit [FloorRing K] in
theorem approach_le (rig : Rig K) (here target : Vec K) (rotation : Quaternion K) {za : K}
    (isUp : 0 ≤ za) :
    rig.norm.walk here [target + (-za) • rotation.tool, target] ≤
      rig.norm.of (target - here) + 2 * za := by
  have isShort := rig.norm.of_unit_le rotation.tool (tool_unit rotation)
  have up : rig.norm.of (za • rotation.tool) ≤ za := by
    rw [rig.norm.scale, abs_of_nonneg isUp]
    exact mul_le_of_le_one_right isUp isShort
  have down : rig.norm.of ((-za) • rotation.tool) ≤ za := by
    rw [neg_smul, Length.of_neg]
    exact up
  have first : target + (-za) • rotation.tool - here = (target - here) + (-za) • rotation.tool := by
    abel
  have second : target - (target + (-za) • rotation.tool) = za • rotation.tool := by
    rw [neg_smul]
    abel
  have legs := rig.norm.triangle (target - here) ((-za) • rotation.tool)
  rw [Length.walk_cons, Length.walk_cons, Length.walk_nil, first, second]
  linarith

variable {rig : Rig K}

omit [IsStrictOrderedRing K] in
theorem route_legs {here : Pose K} {stops : List (Vec K)} {target : Quaternion K}
    {rotations : ℕ} {legs : List (Vec K)}
    (routed : route rig here stops target = .ok (rotations, legs)) :
    legs = legsOf rig here.position stops := by
  unfold route at routed
  dsimp only at routed
  generalize (if 1 / 1000 < rig.angle target here.rotation then _ else 0) =
    turns at routed
  split at routed
  · cases routed
  · split at routed
    · cases routed
      rfl
    · cases routed

theorem gotoPose_le {arm : Arm K} {world : World} {position : Option (Vec K)}
    {quaternion : Option (Quaternion K)} {zApproach : Option K} {path : List (Vec K)}
    (commands : gotoPose rig arm world position quaternion zApproach = .ok path) :
    ∃ target, position = some target ∧
      rig.norm.walk arm.tcp.position path ≤
        rig.norm.of (target - arm.tcp.position) + 2 * |zApproach.getD 0| := by
  unfold gotoPose at commands
  cases position with
  | none => cases commands
  | some target =>
    cases quaternion with
    | none => cases commands
    | some rotation =>
      refine ⟨target, rfl, ?_⟩
      dsimp only at commands
      split at commands
      · cases commands
      next inRange =>
      have isUp : 0 ≤ zApproach.getD 0 := le_of_not_gt fun below => inRange (Or.inl below)
      rw [abs_of_nonneg isUp]
      have far := rig.norm.of_nonneg (target - arm.tcp.position)
      -- By the approach, or straight.
      have wayOf : ∀ stops : List (Vec K),
          stops = (if 1 / 10000 < zApproach.getD 0 then
            [target + (-zApproach.getD 0) • rotation.tool, target]
            else [target]) →
          rig.norm.walk arm.tcp.position stops ≤
            rig.norm.of (target - arm.tcp.position) + 2 * zApproach.getD 0 := by
        intro stops isStops
        rw [isStops]
        split
        · exact approach_le rig _ _ rotation isUp
        · rw [Length.walk_cons, Length.walk_nil]
          linarith
      split at commands
      · cases commands
      next rotations legs routed =>
      have isLegs := route_legs routed
      split at commands
      · cases commands
        have isPart := runLegs_isPrefix world rotations arm.tcp.position legs
        have ran := @Length.walk_le_of_isPrefix _ _ _ _ _ _
          rig.norm.toLength _ arm.tcp.position _ _ isPart
        have way := walk_legsOf_le rig arm.tcp.position arm.tcp.position
          (if 1 / 10000 < zApproach.getD 0 then
            [target + (-zApproach.getD 0) • rotation.tool, target]
            else [target])
        rw [sub_self, Length.of_zero, ← isLegs] at way
        have through := wayOf _ rfl
        linarith
      · cases commands
        rw [Length.walk_nil]
        linarith

omit [FloorRing K] [IsStrictOrderedRing K] in
theorem moveDelta_le {arm : Arm K} {world : World} {delta : Vec K} {path : List (Vec K)}
    (commands : moveDelta rig arm world delta = .ok path) :
    path = [] ∨ path = [arm.tcp.position + delta] := by
  unfold moveDelta at commands
  split at commands
  · cases commands
  · dsimp only at commands
    split at commands
    · cases commands
    · split at commands
      · cases commands
        exact Or.inl rfl
      · cases commands
        exact Or.inr rfl

end Legs

/-! ## What is charged -/

section Charges

variable [IsStrictOrderedRing K]

def chord (rig : Rig K) (q₀ q₁ : Joints K) : K :=
  rig.norm.of ((rig.forwardKinematics q₁).position - (rig.forwardKinematics q₀).position)

def chords (rig : Rig K) : Joints K → List (Option (Joints K)) → K
  | _, [] | _, none :: _ => 0
  | q, some goal :: rest => chord rig q goal + chords rig goal rest

omit [FloorRing K] in
theorem sample_ends (rig : Rig K) (q₀ q₁ : Joints K) :
    sample rig q₀ q₁ 0 = rig.forwardKinematics q₀ ∧
      sample rig q₀ q₁ 9 = rig.forwardKinematics q₁ := by
  unfold sample
  constructor
  · rw [Nat.cast_zero, zero_div, zero_smul, add_zero]
  · rw [Nat.cast_ofNat, div_self (by norm_num), one_smul, add_sub_cancel]

variable {rig : Rig K}

omit [FloorRing K] [IsStrictOrderedRing K] in
theorem checkTranslation_ok {rig : Rig K} {delta : Vec K} {move : K}
    (checked : checkTranslation rig delta = .ok move) : move = rig.norm.of delta := by
  unfold checkTranslation at checked
  cases isLimit : rig.limits.maxMove with
  | none =>
    rw [isLimit] at checked
    cases checked
    rfl
  | some limit =>
    rw [isLimit] at checked
    dsimp only at checked
    split at checked
    · cases checked
    · cases checked
      rfl

omit [FloorRing K] in
theorem checkJointMove_ok {q₀ q₁ : Joints K} {move : K}
    (checked : checkJointMove rig q₀ q₁ = .ok move) : move = chord rig q₀ q₁ := by
  have ends := sample_ends rig q₀ q₁
  unfold checkJointMove at checked
  cases isStep : rig.jointStep with
  | none =>
    rw [isStep] at checked
    cases checked
  | some step =>
    rw [isStep] at checked
    dsimp only at checked
    split at checked
    · cases checked
    split at checked
    · cases checked
    split at checked
    · cases checked
    next translated =>
    split at checked
    · cases checked
    split at checked
    · cases checked
      rw [ends.1, ends.2] at translated
      exact checkTranslation_ok translated
    · cases checked

omit [FloorRing K] in
theorem trajectoryMoves_ok {q : Joints K} {goals : List (Option (Joints K))} {total : K}
    (checked : trajectoryMoves rig q goals = .ok total) : total = chords rig q goals := by
  induction goals generalizing q total with
  | nil =>
    cases checked
    rfl
  | cons goal rest ih =>
    cases goal with
    | none => cases checked
    | some goal =>
      rw [trajectoryMoves] at checked
      split at checked
      · cases checked
      next move moved =>
      split at checked
      · cases checked
      next others isRest =>
        cases checked
        rw [checkJointMove_ok moved, ih isRest]
        rfl

/-- The condition under which a call is charged enough: a correction that is
executed is nil, and joint moves take the TCP straight from end to end. -/
def Straight (rig : Rig K) (view : View K) (arm : Arm K) (world : World) : Call K → Prop
  | .alignWrist row col maxCorrection execute =>
    execute = true → ∀ delta,
      correction rig view arm.tcp.position row col maxCorrection = .ok delta →
      moveDelta rig arm world delta = .ok [arm.tcp.position + delta] →
      rig.norm.of delta ≤ nano
  | .moveToJoints (some goal) =>
    rig.norm.walk (rig.forwardKinematics arm.joints).position (sentOf rig world 0 arm.joints goal) ≤
      chord rig arm.joints goal + nano
  | .moveAlongTrajectory (some goals) =>
    0 < goals.length → goals.length ≤ maxTrajectory →
    chords rig arm.joints goals ≤ (maxLegs : K) * rig.limits.maxMove.getD (1 / 10) + nano →
    rig.norm.walk (rig.forwardKinematics arm.joints).position
        (runTrajectory rig world 0 arm.joints goals) ≤
      chords rig arm.joints goals + nano
  | _ => True

omit [FloorRing K] in
theorem nano_pos : (0 : K) < nano := by
  norm_num [nano]

omit [FloorRing K] in
theorem chords_nonneg (rig : Rig K) (q : Joints K) (goals : List (Option (Joints K))) :
    0 ≤ chords rig q goals := by
  induction goals generalizing q with
  | nil => exact le_rfl
  | cons goal rest ih =>
    cases goal with
    | none => exact le_rfl
    | some goal => exact add_nonneg (rig.norm.of_nonneg _) (ih goal)

variable {view : View K} {arm : Arm K} {world : World} {charge : K}

theorem trajectory_covers_iff {goals : List (Option (Joints K))}
    (charged : trajectoryMoves rig arm.joints (goals.take maxTrajectory) = .ok charge) :
    travelled rig view arm world (.moveAlongTrajectory (some goals)) ≤ charge + nano ↔
      Straight rig view arm world (.moveAlongTrajectory (some goals)) := by
  have isCharge := trajectoryMoves_ok charged
  have notNegative : 0 ≤ charge := by
    rw [isCharge]
    exact chords_nonneg rig _ _
  have slack : (0 : K) < nano := nano_pos
  unfold travelled commanded moveAlongTrajectory Straight
  dsimp only
  by_cases isLong : goals.length = 0 ∨ maxTrajectory < goals.length
  · rw [if_pos isLong]
    refine ⟨fun _ someGoals short => ?_, fun _ => by dsimp only; linarith⟩
    rcases isLong with isEmpty | long
    · exact absurd isEmpty someGoals.ne'
    · exact absurd short (Nat.not_le.mpr long)
  · rw [if_neg isLong]
    obtain ⟨someGoals, short⟩ := not_or.mp isLong
    have whole : goals.take maxTrajectory = goals := List.take_of_length_le (Nat.not_lt.mp short)
    rw [whole] at charged isCharge
    rw [charged]
    dsimp only
    rw [isCharge]
    by_cases tooFar : (maxLegs : K) * rig.limits.maxMove.getD (1 / 10) + nano <
        chords rig arm.joints goals
    · rw [if_pos tooFar]
      refine ⟨fun _ _ _ within => absurd tooFar (not_lt.mpr within), fun _ => ?_⟩
      have known := chords_nonneg rig arm.joints goals
      dsimp only
      linarith
    · rw [if_neg tooFar]
      exact ⟨fun covered _ _ _ => covered, fun straight =>
        straight (Nat.pos_of_ne_zero someGoals) (Nat.not_lt.mp short) (not_lt.mp tooFar)⟩

theorem moveToJoints_covers_iff {goal : Joints K}
    (charged : checkJointMove rig arm.joints goal = .ok charge) :
    travelled rig view arm world (.moveToJoints (some goal)) ≤ charge + nano ↔
      Straight rig view arm world (.moveToJoints (some goal)) := by
  have isCharge := checkJointMove_ok charged
  unfold travelled commanded moveToJoints Straight
  dsimp only
  rw [charged, isCharge]
  exact Iff.rfl

theorem alignWrist_covers_iff {row col : ℤ} {maxCorrection : Option K} {execute : Bool} :
    travelled rig view arm world (.alignWrist row col maxCorrection execute) ≤ nano ↔
      Straight rig view arm world (.alignWrist row col maxCorrection execute) := by
  have slack : (0 : K) < nano := nano_pos
  unfold travelled commanded alignWrist Straight
  dsimp only
  cases isDelta : correction rig view arm.tcp.position row col maxCorrection with
  | error refusal =>
    refine ⟨fun _ _ delta corrects => ?_, fun _ => le_of_lt slack⟩
    cases corrects
  | ok delta =>
    dsimp only
    cases execute with
    | false => exact ⟨fun _ never => absurd never Bool.noConfusion, fun _ => le_of_lt slack⟩
    | true =>
      rw [if_pos rfl]
      cases isMove : moveDelta rig arm world delta with
      | error refusal =>
        refine ⟨fun _ _ other corrects moves => ?_, fun _ => le_of_lt slack⟩
        cases corrects
        rw [isMove] at moves
        cases moves
      | ok path =>
        dsimp only
        rcases moveDelta_le isMove with isNil | isThere
        · rw [isNil]
          refine ⟨fun _ _ other corrects moves => ?_, fun _ => le_of_lt slack⟩
          cases corrects
          rw [isMove, isNil] at moves
          cases moves
        · have isFar :
              rig.norm.walk
                  (began rig arm (.alignWrist row col maxCorrection true)) path =
                rig.norm.of delta := by
            rw [isThere, Length.walk_cons, Length.walk_nil, add_zero]
            exact congrArg rig.norm.of (add_sub_cancel_left _ _)
          rw [isFar]
          constructor
          · intro isShort _ other corrects _
            cases corrects
            exact isShort
          · intro straight
            exact straight rfl delta rfl (isMove.trans (by rw [isThere]))

theorem travelled_le {call : Call K} (notNegative : 0 ≤ charge)
    (isShort : ∀ path, commanded rig view arm world call = .ok path →
      rig.norm.walk (began rig arm call) path ≤ charge) :
    travelled rig view arm world call ≤ charge + nano := by
  have slack : (0 : K) < nano := nano_pos
  unfold travelled
  cases commands : commanded rig view arm world call with
  | error refusal =>
    dsimp only
    linarith
  | ok path =>
    have within := isShort path commands
    dsimp only
    linarith

/-- A call is charged the way of its TCP, exactly where it is straight: only a
correction of the wrist that is executed, and joint moves that bend, go further
than what is charged. -/
theorem charge_covers_iff (rig : Rig K) (view : View K) (arm : Arm K) (world : World)
    (call : Call K) {charge : K} (charged : codeMoveM rig arm call = .ok charge) :
    travelled rig view arm world call ≤ charge + nano ↔
      Straight rig view arm world call := by
  -- A call that commands nothing.
  have still : ∀ other : Call K, commanded rig view arm world other = .ok [] →
      travelled rig view arm world other ≤ 0 + nano := by
    intro other commands
    apply travelled_le le_rfl
    intro path isPath
    rw [commands] at isPath
    cases isPath
    exact le_rfl
  cases call with
  | rotateDelta delta | setGripper isOpen | openGripper | closeGripper | reads method =>
    cases charged
    exact iff_of_true (still _ rfl) trivial
  | moveDelta delta =>
    cases delta with
    | none => cases charged
    | some delta =>
      cases charged
      refine iff_of_true ?_ trivial
      apply travelled_le (rig.norm.of_nonneg delta)
      intro path commands
      rcases moveDelta_le commands with isNil | isThere
      · rw [isNil]
        exact rig.norm.of_nonneg delta
      · rw [isThere, Length.walk_cons, Length.walk_nil, add_zero]
        exact le_of_eq (congrArg rig.norm.of (add_sub_cancel_left _ _))
  | gotoPose position quaternion zApproach =>
    cases position with
    | none => cases charged
    | some target =>
      cases charged
      refine iff_of_true ?_ trivial
      apply travelled_le
      · have far := rig.norm.of_nonneg (target - arm.tcp.position)
        have up := abs_nonneg (zApproach.getD 0)
        linarith
      · intro path commands
        obtain ⟨other, isTarget, isShort⟩ := gotoPose_le commands
        cases isTarget
        exact isShort
  | homePose =>
    refine iff_of_true ?_ trivial
    unfold codeMoveM at charged
    cases isHome : arm.home with
    | none =>
      rw [isHome] at charged
      cases charged
      apply travelled_le le_rfl
      intro path commands
      simp only [commanded, homePose, isHome, reduceCtorEq] at commands
    | some home =>
      rw [isHome] at charged
      cases charged
      apply travelled_le (rig.norm.of_nonneg _)
      intro path commands
      simp only [commanded, homePose, isHome] at commands
      obtain ⟨other, isTarget, isShort⟩ := gotoPose_le commands
      cases isTarget
      rwa [Option.getD_none, abs_zero, mul_zero, add_zero] at isShort
  | moveToJoints joints =>
    cases joints with
    | none => cases charged
    | some goal => exact moveToJoints_covers_iff charged
  | moveAlongTrajectory trajectory =>
    cases trajectory with
    | none => cases charged
    | some goals => exact trajectory_covers_iff charged
  | alignWrist row col maxCorrection execute =>
    cases charged
    rw [zero_add]
    exact alignWrist_covers_iff

end Charges

/-! ## A correction that is not charged -/

def largest (v : Vec ℚ) : ℚ :=
  max |v 0| (max |v 1| |v 2|)

def byAxes : Norm ℚ where
  of := largest
  triangle := by
    intro u v
    unfold largest
    have first := abs_add_le (u 0) (v 0)
    have second := abs_add_le (u 1) (v 1)
    have third := abs_add_le (u 2) (v 2)
    refine max_le ?_ (max_le ?_ ?_)
    · exact first.trans (add_le_add (le_max_left _ _) (le_max_left _ _))
    · exact second.trans (add_le_add ((le_max_left _ _).trans (le_max_right _ _))
        ((le_max_left _ _).trans (le_max_right _ _)))
    · exact third.trans (add_le_add ((le_max_right _ _).trans (le_max_right _ _))
        ((le_max_right _ _).trans (le_max_right _ _)))
  scale := by
    intro t v
    unfold largest
    rw [mul_max_of_nonneg _ _ (abs_nonneg t),
      mul_max_of_nonneg _ _ (abs_nonneg t), ← abs_mul, ← abs_mul, ← abs_mul]
    rfl
  of_unit_le := by
    intro v isUnit
    unfold dot at isUnit
    have first := mul_self_nonneg (v 0)
    have second := mul_self_nonneg (v 1)
    have third := mul_self_nonneg (v 2)
    have small : ∀ w : ℚ, w * w ≤ 1 → |w| ≤ 1 :=
      fun w => abs_le_one_iff_mul_self_le_one.mpr
    exact max_le (small _ (by linarith)) (max_le (small _ (by linarith)) (small _ (by linarith)))

def upright : Quaternion ℚ where
  w := 1
  x := 0
  y := 0
  z := 0
  isUnit := by norm_num

def someRig : Rig ℚ where
  limits :=
    { maxMove := some (1 / 10)
      maxRotate := some (1 / 2)
      zFloor := none
      workspaceXY := none
      maxMovePositive := by
        intro limit isLimit
        cases isLimit
        norm_num }
  norm := byAxes
  angle := fun _ _ => 0
  boxViolation := fun _ => 0
  jointStep := none
  forwardKinematics := fun _ => ⟨0, upright⟩
  pathOk := fun _ _ => true
  ticks := fun _ _ => 1
  ease := fun i n => (i : ℚ) / n

def someArm : Arm ℚ where
  tcp := ⟨![0, 0, 1], upright⟩
  joints := 0
  home := none

def someView : View ℚ where
  height := 480
  width := 640
  depth := fun _ _ => some 1
  fx := 100
  fy := 100
  cx := 320
  cy := 240
  right := ![1, 0, 0]
  down := ![0, 1, 0]
  forward := ![0, 0, 1]
  origin := 0

def smooth : World where
  leg := fun _ => .went
  sent := fun _ => none

def someGoto : Call ℚ :=
  .gotoPose (some ![0, 0, 3 / 4]) (some upright) (some (1 / 10))

theorem someGoto_covered :
    travelled someRig someView someArm smooth someGoto ≤
        byAxes.of (![0, 0, 3 / 4] - ![0, 0, 1]) + 2 * |1 / 10| + nano ↔
      Straight someRig someView someArm smooth someGoto :=
  charge_covers_iff someRig someView someArm smooth someGoto rfl

def someAlign : Call ℚ :=
  .alignWrist 240 321 none true

/-- The call is charged nothing, and moves the TCP by a centimetre. -/
theorem align_is_free :
    codeMoveM someRig someArm someAlign = .ok 0 ∧
      travelled someRig someView someArm smooth someAlign = 1 / 100 ∧
      ¬ travelled someRig someView someArm smooth someAlign ≤ 0 + nano := by
  refine ⟨rfl, ?_, ?_⟩
  · decide +kernel
  · decide +kernel

noncomputable def euclidean : Norm ℝ where
  of v := ‖WithLp.toLp 2 v‖
  triangle u v := by
    rw [WithLp.toLp_add]
    exact norm_add_le _ _
  scale t v := by rw [WithLp.toLp_smul, norm_smul, Real.norm_eq_abs]
  of_unit_le v isUnit := by
    have squares : ∑ i, ‖v i‖ ^ 2 = 1 := by
      rw [Fin.sum_univ_three]
      simp only [Real.norm_eq_abs, pow_two, abs_mul_abs_self]
      exact isUnit
    rw [EuclideanSpace.norm_eq]
    exact le_of_eq (by rw [Real.sqrt_eq_one]; exact squares)

end PiEmbodied.Services.MoveBudget
