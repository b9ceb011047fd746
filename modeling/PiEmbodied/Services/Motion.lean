import PiEmbodied.Floats

/-!
# Collision-free moves

A move of the arm is planned by the ik service and checked by it before each
segment.  The service may be unreachable, raise, or answer with any JSON.
-/

namespace PiEmbodied.Services.Motion

open Floats
open List (length_cons length_nil map_cons not_mem_nil)

/-! ## What the service answers -/

inductive Json where
  | null
  | bool (value : Bool)
  | num (value : Floats.Num)
  | str (text : String)
  | list (items : List Json)
  | dict (fields : List (String × Json))

namespace Json

def truthy : Json → Bool
  | null => false
  | bool value => value
  | num value => !value.isZero
  | str text => text ≠ ""
  | list items => !items.isEmpty
  | dict fields => !fields.isEmpty

end Json

/-- What a call of the service gives: an answer, an error that the planner
catches (`unreachable` where the service could not be reached), or one that it
does not. -/
inductive Answer where
  | json (value : Json)
  | error (unreachable : Bool) (text : String)
  | raises (text : String)

structure Raised where
  text : String
deriving DecidableEq

abbrev Fallible := Except Raised

def raised {α : Type} (text : String) : Fallible α :=
  .error ⟨text⟩

/-! ## Arrays -/

inductive Nested where
  | number (value : Floats.Num)
  | list (items : List Nested)

mutual

/-- The numbers of `np.asarray(value, dtype=float64)`; `parse` is the number
of a text. -/
def toNested (parse : String → Option Floats.Num) : Json → Fallible Nested
  | .null => .ok (.number .nan)
  | .bool value => .ok (.number (.finite (if value then 1 else 0)))
  | .num value => .ok (.number value)
  | .str text =>
    match parse text with
    | some value => .ok (.number value)
    | none => raised "could not convert string to float"
  | .list items =>
    match toNestedItems parse items with
    | .error error => .error error
    | .ok nested => .ok (.list nested)
  | .dict _ => raised "float() argument must be a string or a real number"

def toNestedItems (parse : String → Option Floats.Num) : List Json → Fallible (List Nested)
  | [] => .ok []
  | item :: rest =>
    match toNested parse item, toNestedItems parse rest with
    | .error error, _ | _, .error error => .error error
    | .ok first, .ok later => .ok (first :: later)

end

mutual

def Nested.shape : Nested → Option (List ℕ)
  | .number _ => some []
  | .list items =>
    match shapeOfItems items with
    | none => none
    | some shape => some (items.length :: shape)

def shapeOfItems : List Nested → Option (List ℕ)
  | [] => some []
  | [item] => item.shape
  | item :: next :: rest =>
    match item.shape, shapeOfItems (next :: rest) with
    | some first, some later => if first = later then some first else none
    | _, _ => none

end

/-- `np.asarray(value or [], dtype=float64)` -/
def asArray (parse : String → Option Floats.Num) (value : Option Json) :
    Fallible Nested :=
  let given :=
    match value with
    | none => .list []
    | some value => if value.truthy then value else .list []
  match toNested parse given with
  | .error error => .error error
  | .ok nested =>
    match nested.shape with
    | none => raised "inhomogeneous shape"
    | some _ => .ok nested

def Nested.rows : Nested → List Nested
  | .number _ => []
  | .list items => items

/-- `float(v)` of an array's item, which an array of one number has too. -/
def Nested.toFloat : Nested → Fallible Floats.Num
  | .number value => .ok value
  | .list [item] => item.toFloat
  | .list _ => raised "only length-1 arrays can be converted"

def floats : List Nested → Fallible (List Floats.Num)
  | [] => .ok []
  | item :: rest =>
    match item.toFloat, floats rest with
    | .error error, _ | _, .error error => .error error
    | .ok first, .ok later => .ok (first :: later)

structure Position where
  (x y z : Floats.Num)
deriving DecidableEq

structure Pose where
  position : Position
  quat : Floats.Num × Floats.Num × Floats.Num × Floats.Num
deriving DecidableEq

def Position.values (p : Position) : List Floats.Num :=
  [p.x, p.y, p.z]

def Pose.values (p : Pose) : List Floats.Num :=
  p.position.values ++ [p.quat.1, p.quat.2.1, p.quat.2.2.1, p.quat.2.2.2]

def Pose.isFinite (p : Pose) : Bool :=
  p.values.all Floats.Num.isFinite

def Nested.pose : Nested → Option Pose
  | .list
      [.number x, .number y, .number z, .number a, .number b, .number c,
        .number d] => some ⟨⟨x, y, z⟩, (a, b, c, d)⟩
  | _ => none

/-- numpy and scipy: the transform of a pose from the base frame to the scene,
the length of a path and of the straight line, and whether a pose is a segment
(`min_segment_m`, or 0.2 rad) away from another. -/
structure Geometry where
  toScene : Pose → Fallible Pose
  pathLength : List Pose → Floats.Num
  straight : Position → Position → Floats.Num
  apart : Pose → Pose → Bool
  parse : String → Option Floats.Num

/-- The loop of `select_waypoints` over the poses from index `i`, of which the
last is the goal. -/
def keepFrom (apart : Pose → Pose → Bool) (last : Pose) (i : ℕ) : List Pose → List ℕ
  | [] | [_] => []
  | pose :: next :: rest =>
    if apart pose last then
      i :: keepFrom apart pose (i + 1) (next :: rest)
    else keepFrom apart last (i + 1) (next :: rest)

def keep (apart : Pose → Pose → Bool) : List Pose → List ℕ
  | [] => []
  | [_] => [0]
  | start :: next :: rest => keepFrom apart start 1 (next :: rest) ++ [rest.length + 1]

/-- `np.linspace(0, count - 1, n).round()` -/
def linspace (count n : ℕ) : List ℕ :=
  (List.range n).map fun i : ℕ =>
    (halfEven ((i : ℚ) * ((count - 1 : ℕ) : ℚ) / ((n - 1 : ℕ) : ℚ))).toNat

def selectWaypoints (apart : Pose → Pose → Bool) (maxSegments : ℕ) (path : List Pose) :
    List ℕ :=
  let kept := keep apart path
  if kept.length ≤ maxSegments then kept
  else
    let pick := (linspace kept.length maxSegments).dedup.mergeSort (· ≤ ·)
    pick.filterMap fun i => kept[i]?

/-! ## Planning -/

inductive Status where
  | planned
  | blocked
  | unknown
deriving DecidableEq

inductive PlanMessage where
  | insideFixture (name : String) (depth : ℚ)
  | unreachable (error : String)
  | notPlanned (error : String)
  | invalidResult (result : Json)
  | noPath (error : Option Json) (why : Option String)
  | lacksPath
  | detours (length straight limit : Floats.Num)
  | found (segments : ℕ) (length : Floats.Num) (obstacles : ℕ)

/-- A plan; `indices` are those of the waypoints in the path. -/
structure Plan where
  status : Status
  message : PlanMessage
  (waypoints qPath : List (List Floats.Num))
  leftOut : List String
  excludedByBase : List Json
  obstacles : ℕ
  pathM : Option Floats.Num
  backend : Option Json
  indices : List ℕ

/-- The settings of a planner; `float` of its own detour limit. -/
structure Planner where
  geometry : Geometry
  maxSegments : ℕ
  maxDetour : Floats.Num
  allowUnplanned : Bool

/-- What one call of `plan` is given and meets: where the target lies in the
fixtures, the world left and its names, the answer of the service, and the
diagnosis of a plan that failed. -/
structure Request where
  start : Position
  goal : Pose
  insideFixture : Fallible (Option (String × ℚ))
  world : Fallible (ℕ × List String)
  answer : Answer
  diagnosis : Fallible (Option String)

def Plan.initial (message : PlanMessage) : Plan where
  status := .unknown
  message := message
  waypoints := []
  qPath := []
  leftOut := []
  excludedByBase := []
  obstacles := 0
  pathM := none
  backend := none
  indices := []

def Plan.block (out : Plan) (message : PlanMessage) : Plan :=
  { out with status := .blocked, message := message }

/-- `list(value or [])` -/
def listOf : Option Json → Fallible (List Json)
  | none => .ok []
  | some value =>
    if value.truthy then
      match value with
      | .list items => .ok items
      | .str text => .ok (text.toList.map fun c => .str (String.ofList [c]))
      | .dict fields => .ok (fields.map fun field => .str field.1)
      | _ => raised "object is not iterable"
    else .ok []

def toScenes (g : Geometry) : List Nested → Fallible (List Pose)
  | [] => .ok []
  | row :: rest =>
    match row.pose with
    | none => raised "not a pose"
    | some pose =>
      match g.toScene pose, toScenes g rest with
      | .error error, _ | _, .error error => .error error
      | .ok first, .ok later => .ok (first :: later)

/-- `tcp_scene[-1, :3] = goal[:3]` -/
def aimAt (goal : Position) : List Pose → List Pose
  | [] => []
  | [last] => [{ last with position := goal }]
  | pose :: next :: rest => pose :: aimAt goal (next :: rest)

def qPathAt (rows : List Nested) : List ℕ → Fallible (List (List Floats.Num))
  | [] => .ok []
  | i :: rest =>
    match rows[i]? with
    | none => raised "index out of bounds"
    | some (.number _) => raised "float object is not iterable"
    | some (.list items) =>
      match floats items, qPathAt rows rest with
      | .error error, _ | _, .error error => .error error
      | .ok first, .ok later => .ok (first :: later)

def Pose.waypoint (p : Pose) : List Floats.Num :=
  p.values.map (Floats.Num.roundTo 5)

/-- The end of `plan`: the path in the scene is measured and thinned. -/
def finishPlan (planner : Planner) (request : Request) (out : Plan) (path : List Nested)
    (tcp : List Pose) : Fallible Plan :=
  let g := planner.geometry
  let scene := aimAt request.goal.position tcp
  let length := g.pathLength scene
  let straight := g.straight request.start request.goal.position
  let out := { out with pathM := some (length.roundTo 4) }
  if (straight.add planner.maxDetour).lt length then
    .ok (out.block (.detours length straight planner.maxDetour))
  else
    let indices := selectWaypoints g.apart planner.maxSegments scene
    match qPathAt path indices with
    | .error error => .error error
    | .ok qPath =>
      .ok
        { out with
          status := .planned
          message := .found indices.length length out.obstacles
          waypoints := (indices.filterMap fun i => scene[i]?).map Pose.waypoint
          qPath := qPath
          indices := indices }

/-- `plan` on an answer that has `ok`. -/
def readPlan (planner : Planner) (request : Request) (out : Plan)
    (fields : List (String × Json)) (ok : Json) : Fallible Plan :=
  let out := { out with backend := fields.lookup "backend" }
  match listOf (fields.lookup "excluded_by_base") with
  | .error error => .error error
  | .ok excluded =>
    let out := { out with excludedByBase := excluded }
    if ok.truthy = false then
      match request.diagnosis with
      | .error error => .error error
      | .ok why => .ok (out.block (.noPath (fields.lookup "error") why))
    else
      let parse := planner.geometry.parse
      match asArray parse (fields.lookup "path"),
          asArray parse (fields.lookup "tcp_path") with
      | .error error, _ | _, .error error => .error error
      | .ok (.number _), .ok _ => raised "len() of unsized object"
      | .ok (.list path), .ok tcp =>
        if path.length < 1 ∨ tcp.shape ≠ some [path.length, 7] then
          .ok (out.block .lacksPath)
        else
          match toScenes planner.geometry tcp.rows with
          | .error error => .error error
          | .ok scene => finishPlan planner request out path scene

def plan (planner : Planner) (request : Request) : Fallible Plan :=
  match request.insideFixture, request.world with
  | .error error, _ => .error error
  | .ok (some (name, depth)), _ =>
    let message := PlanMessage.insideFixture name depth
    .ok ((Plan.initial message).block message)
  | .ok none, .error error => .error error
  | .ok none, .ok (kept, dropped) =>
    let out : PlanMessage → Plan := fun message =>
      { Plan.initial message with leftOut := dropped, obstacles := kept }
    match request.answer with
    | .raises text => raised text
    | .error unreachable text =>
      if unreachable && planner.allowUnplanned then
        .ok (out (.unreachable text))
      else .ok ((out (.notPlanned text)).block (.notPlanned text))
    | .json (.dict fields) =>
      match fields.lookup "ok" with
      | none =>
        .ok
          ((out (.invalidResult (.dict fields))).block (.invalidResult (.dict fields)))
      | some ok => readPlan planner request (out .lacksPath) fields ok
    | .json result => .ok ((out (.invalidResult result)).block (.invalidResult result))

/-! ## Checking -/

inductive Clearance where
  | clear
  | contact
  | unknown
deriving DecidableEq

inductive CheckMessage where
  | none
  | unreachable (error : String)
  | notChecked (error : String)
  | invalidResult (result : Json)
  | clear
  | predictedContact (nearest : Option String) (clearance : Floats.Num)

structure Verdict where
  status : Clearance
  minClearance : Option Floats.Num
  worstIndex : Option Json
  nearest : Option String
  message : CheckMessage

def Verdict.initial : Verdict where
  status := .unknown
  minClearance := none
  worstIndex := none
  nearest := none
  message := .none

/-- `float(value)` -/
def Json.toFloat (parse : String → Option Floats.Num) : Json → Fallible Floats.Num
  | .bool value => .ok (.finite (if value then 1 else 0))
  | .num value => .ok value
  | .str text =>
    match parse text with
    | some value => .ok value
    | none => raised "could not convert string to float"
  | _ => raised "float() argument must be a string or a real number"

/-- A field of a dict; one that is `None` counts as absent. -/
def given (fields : List (String × Json)) (name : String) : Option Json :=
  match fields.lookup name with
  | some .null => none
  | field => field

/-- The end of `check`; `category` is the text of the nearest obstacle up to
its first slash. -/
def readCheck (parse : String → Option Floats.Num) (category : Json → String)
    (fields : List (String × Json)) (free : Json) : Fallible Verdict :=
  let clearance : Fallible (Option Floats.Num) :=
    match given fields "min_clearance_m" with
    | none => .ok none
    | some value =>
      match value.toFloat parse with
      | .error error => .error error
      | .ok clearance => .ok (some clearance)
  let nearest :=
    match fields.lookup "nearest" with
    | none => none
    | some value => if value.truthy then some (category value) else none
  match clearance with
  | .error error => .error error
  | .ok clearance =>
    let out : Verdict :=
      { status := if free.truthy then .clear else .contact
        minClearance := clearance.map (Floats.Num.roundTo 4)
        worstIndex := fields.lookup "worst_index"
        nearest := nearest
        message := .clear }
    if free.truthy then .ok out
    else
      match clearance with
      | none => raised "float() argument must be a string or a real number"
      | some clearance => .ok { out with message := .predictedContact nearest clearance }

/-- What one call of `check` meets. -/
structure CheckRequest where
  world : Fallible Unit
  answer : Answer
  category : Json → String

def check (planner : Planner) (request : CheckRequest) : Fallible Verdict :=
  match request.world with
  | .error error => .error error
  | .ok () =>
    let out := Verdict.initial
    match request.answer with
    | .raises text => raised text
    | .error unreachable text =>
      if unreachable && planner.allowUnplanned then
        .ok { out with message := .unreachable text }
      else .ok { out with status := .contact, message := .notChecked text }
    | .json (.dict fields) =>
      match fields.lookup "collision_free" with
      | none =>
        .ok
          { out with
            status := .contact
            message := .invalidResult (.dict fields) }
      | some free => readCheck planner.geometry.parse request.category fields free
    | .json result => .ok { out with status := .contact, message := .invalidResult result }

def requirePlanned (plan : Plan) : Fallible Plan :=
  if plan.status = .blocked then raised "refused" else .ok plan

/-! ## Following -/

/-- The result of a primitive, as far as it is read: `ok` is false, an error
is given, it was cancelled. -/
structure MoveResult where
  (notOk hasError cancelled : Bool)
deriving DecidableEq

def MoveResult.failed (r : MoveResult) : Bool :=
  r.notOk || r.hasError

/-- What a segment meets in turn: its check, the pose read, and for the
translation and the rotation the result and the pose read after it. -/
structure Meeting where
  check : Fallible Verdict
  before : Fallible Pose
  moved : Fallible MoveResult
  afterMove : Fallible Pose
  rotated : Fallible MoveResult
  afterRotate : Fallible Pose

/-- The tolerances of `follow_waypoints` and what it measures: how far a pose
is from a waypoint, in metres and in radians. -/
structure Servo where
  (posEps rotEps stallM stallRad : Floats.Num)
  (short left : Pose → Pose → Floats.Num)

inductive Leg where
  | translate
  | rotate
deriving DecidableEq

structure Sent where
  segment : ℕ
  leg : Leg
deriving DecidableEq

inductive SegmentEnd where
  | done
  | contact (verdict : Verdict)
  | cancelled
  | stalled (leg : Leg) (short : Floats.Num)
  | raised (error : Raised)

structure SegmentRun where
  legs : List Leg
  ending : SegmentEnd

def rotateSegment (servo : Servo) (target : Pose) (m : Meeting) (legs : List Leg)
    (current : Pose) : SegmentRun :=
  if servo.rotEps.lt (servo.left target current) then
    let legs := legs ++ [.rotate]
    match m.rotated with
    | .error error => ⟨legs, .raised error⟩
    | .ok result =>
      if result.cancelled then ⟨legs, .cancelled⟩
      else
        match m.afterRotate with
        | .error error => ⟨legs, .raised error⟩
        | .ok after =>
          if result.failed || servo.stallRad.lt (servo.left target after)
          then ⟨legs, .stalled .rotate (servo.left target after)⟩
          else ⟨legs, .done⟩
  else ⟨legs, .done⟩

/-- The body of the loop of `follow_waypoints`. -/
def runSegment (servo : Servo) (target : Pose) (m : Meeting) : SegmentRun :=
  match m.check, m.before with
  | .error error, _ => ⟨[], .raised error⟩
  | .ok verdict, before =>
    if verdict.status = .contact then ⟨[], .contact verdict⟩
    else
      match before with
      | .error error => ⟨[], .raised error⟩
      | .ok current =>
        if servo.posEps.lt (servo.short target current) then
          match m.moved with
          | .error error => ⟨[.translate], .raised error⟩
          | .ok result =>
            if result.cancelled then ⟨[.translate], .cancelled⟩
            else
              match m.afterMove with
              | .error error => ⟨[.translate], .raised error⟩
              | .ok after =>
                if result.failed ||
                    servo.stallM.lt (servo.short target after)
                then
                  ⟨[.translate], .stalled .translate (servo.short target after)⟩
                else rotateSegment servo target m [.translate] after
        else rotateSegment servo target m [] current

/-- The result of `follow_waypoints`, with the commands it sent; `ending` is
none where it went through to the end. -/
structure Followed where
  segments : ℕ
  ending : Option SegmentEnd
  sent : List Sent

/-- `follow_waypoints`, from waypoint `i`. -/
def followFrom (servo : Servo) (meets : ℕ → Meeting) (sent : List Sent) (i : ℕ) :
    List Pose → Followed
  | [] => ⟨i, none, sent⟩
  | target :: rest =>
    let run := runSegment servo target (meets i)
    let sent := sent ++ run.legs.map fun leg => ⟨i, leg⟩
    match run.ending with
    | .done => followFrom servo meets sent (i + 1) rest
    | ending => ⟨i, some ending, sent⟩

def followWaypoints (servo : Servo) (meets : ℕ → Meeting) (waypoints : List Pose) :
    Followed :=
  followFrom servo meets [] 0 waypoints

def poseOfValues : List Floats.Num → Option Pose
  | [x, y, z, a, b, c, d] => some ⟨⟨x, y, z⟩, (a, b, c, d)⟩
  | _ => none

/-- What a move through the planner sends: its plan and the segments, or the
primitive itself where it runs unplanned. -/
inductive Route where
  | refused (error : Raised)
  | unplanned (plan : Plan)
  | followed (plan : Plan) (followed : Followed)

/-- A motion primitive that goes through the planner: its plan is required,
and every segment of it is checked. -/
def plannedMove (planner : Planner) (servo : Servo) (request : Request)
    (checks : ℕ → CheckRequest) (meets : ℕ → Meeting) : Route :=
  match plan planner request with
  | .error error => .refused error
  | .ok plan =>
    match requirePlanned plan with
    | .error error => .refused error
    | .ok plan =>
      if plan.status ≠ .planned then .unplanned plan
      else
        .followed plan
          (followWaypoints servo (fun i => { meets i with check := check planner (checks i) })
            (plan.waypoints.filterMap poseOfValues))

/-! ## The waypoints kept -/

theorem getLast_of_increasing
    {indices : List ℕ} {largest : ℕ} (increasing : indices.Pairwise (· < ·))
    (member : largest ∈ indices) (bound : ∀ i ∈ indices, i ≤ largest) :
    indices.getLast? = some largest := by
  induction indices with
  | nil => cases member
  | cons first rest ih =>
    obtain ⟨before, restIncreasing⟩ := List.pairwise_cons.mp increasing
    cases rest with
    | nil => rw [List.mem_singleton.mp member]; rfl
    | cons second later =>
      rw [List.getLast?_cons_cons]
      apply ih restIncreasing
      · rcases List.mem_cons.mp member with rfl | inRest
        · have less := before second List.mem_cons_self
          have atMost := bound second (by simp)
          omega
        · exact inRest
      · intro i inRest
        exact bound i (List.mem_cons_of_mem first inRest)

section Keep

variable (apart : Pose → Pose → Bool)

theorem keepFrom_spec (last : Pose) (i : ℕ) (poses : List Pose) :
    (keepFrom apart last i poses).Pairwise (· < ·) ∧
      ∀ j ∈ keepFrom apart last i poses, i ≤ j ∧ j + 1 < i + poses.length := by
  induction poses generalizing last i with
  | nil => exact ⟨List.Pairwise.nil, fun _ member => absurd member not_mem_nil⟩
  | cons pose rest ih =>
    cases rest with
    | nil => exact ⟨List.Pairwise.nil, fun _ member => absurd member not_mem_nil⟩
    | cons next later =>
      rw [keepFrom]
      split_ifs
      · obtain ⟨increasing, bounds⟩ := ih pose (i + 1)
        constructor
        · refine List.pairwise_cons.mpr ⟨?_, increasing⟩
          intro j member
          have bound := bounds j member
          omega
        · intro j member
          simp only [length_cons] at bounds ⊢
          rcases List.mem_cons.mp member with rfl | inRest
          · omega
          · have bound := bounds j inRest
            omega
      · obtain ⟨increasing, bounds⟩ := ih last (i + 1)
        refine ⟨increasing, ?_⟩
        intro j member
        simp only [length_cons] at bounds ⊢
        have bound := bounds j member
        omega

theorem keep_spec {path : List Pose} (some_ : path ≠ []) :
    (keep apart path).Pairwise (· < ·) ∧ (∀ j ∈ keep apart path, j < path.length) ∧
      (keep apart path).getLast? = some (path.length - 1) := by
  cases path with
  | nil => exact absurd rfl some_
  | cons start rest =>
    cases rest with
    | nil => simp [keep]
    | cons next later =>
      obtain ⟨increasing, bounds⟩ := keepFrom_spec apart start 1 (next :: later)
      rw [keep]
      simp only [length_cons] at bounds ⊢
      refine ⟨?_, ?_, ?_⟩
      · refine List.pairwise_append.mpr ⟨increasing, List.pairwise_singleton _ _, ?_⟩
        intro j member k isLast
        rw [List.mem_singleton.mp isLast]
        have bound := bounds j member
        omega
      · intro j member
        rcases List.mem_append.mp member with early | isLast
        · have bound := bounds j early
          omega
        · rw [List.mem_singleton.mp isLast]
          omega
      · rw [List.getLast?_append]
        rfl

end Keep

theorem linspace_one (count : ℕ) : linspace count 1 = [0] := by
  simp [linspace, halfEven]

variable {count n : ℕ}

theorem last_mem_linspace (two : 2 ≤ n) : count - 1 ∈ linspace count n := by
  refine List.mem_map.mpr ⟨n - 1, List.mem_range.mpr (by omega), ?_⟩
  have positive : ((n - 1 : ℕ) : ℚ) ≠ 0 := by
    have less : n - 1 ≠ 0 := by omega
    exact Nat.cast_ne_zero.mpr less
  rw [mul_comm, mul_div_assoc, div_self positive, mul_one]
  have exact_ := halfEven_intCast ((count - 1 : ℕ) : ℤ)
  rw [Int.cast_natCast] at exact_
  rw [exact_]
  rfl

def picks (count n : ℕ) : List ℕ :=
  (linspace count n).dedup.mergeSort (· ≤ ·)

theorem mem_picks {pick : ℕ} : pick ∈ picks count n ↔ pick ∈ linspace count n := by
  unfold picks
  rw [List.mem_mergeSort, List.mem_dedup]

theorem picks_increasing (count n : ℕ) : (picks count n).Pairwise (· < ·) := by
  have unique : (picks count n).Nodup :=
    (List.mergeSort_perm _ _).nodup_iff.mpr (List.nodup_dedup _)
  have sorted : (picks count n).Pairwise (· ≤ ·) := by
    have pairs :=
      @List.pairwise_mergeSort ℕ (fun a b => decide (a ≤ b))
        (fun a b c ab bc => by
          simp only [decide_eq_true_eq] at ab bc ⊢
          omega)
        (fun a b => by
          simp only [Bool.or_eq_true, decide_eq_true_eq]
          omega)
        (linspace count n).dedup
    simpa [picks] using pairs
  refine List.Pairwise.imp₂ ?_ sorted unique
  intro a b atMost different
  exact lt_of_le_of_ne atMost different

theorem length_picks_le (count n : ℕ) : (picks count n).length ≤ n := by
  unfold picks
  rw [List.length_mergeSort]
  have dedup := (List.dedup_sublist (linspace count n)).length_le
  simpa [linspace] using dedup

variable {path : List Pose} {maxSegments : ℕ}

section

variable (apart : Pose → Pose → Bool)
include apart

theorem selectWaypoints_spec (positive : 1 ≤ maxSegments) (some_ : path ≠ []) :
    let selected := selectWaypoints apart maxSegments path
    selected ≠ [] ∧ selected.length ≤ maxSegments ∧
      selected.Pairwise (· < ·) ∧ ∀ i ∈ selected, i < path.length := by
  obtain ⟨increasing, bounds, isLast⟩ := keep_spec apart some_
  intro selected
  by_cases few : (keep apart path).length ≤ maxSegments
  · have same : selected = keep apart path := if_pos few
    rw [same]
    refine ⟨?_, few, increasing, bounds⟩
    intro none
    rw [none] at isLast
    cases isLast
  · have same :
        selected =
          (picks (keep apart path).length maxSegments).filterMap
            fun i => (keep apart path)[i]? := if_neg few
    rw [same]
    refine ⟨?_, ?_, ?_, ?_⟩
    · have first : 0 ∈ picks (keep apart path).length maxSegments := by
        refine mem_picks.mpr (List.mem_map.mpr ⟨0, List.mem_range.mpr positive, ?_⟩)
        simp [halfEven]
      have inside : 0 < (keep apart path).length := by omega
      intro none
      have found := List.mem_filterMap.mpr ⟨0, first, List.getElem?_eq_getElem inside⟩
      rw [none] at found
      cases found
    · exact (List.length_filterMap_le _ _).trans (length_picks_le _ _)
    · refine List.Pairwise.filterMap _ ?_ (picks_increasing _ _)
      intro i j less a isA b isB
      obtain ⟨iInside, rfl⟩ := List.getElem?_eq_some_iff.mp isA
      obtain ⟨jInside, rfl⟩ := List.getElem?_eq_some_iff.mp isB
      exact List.pairwise_iff_getElem.mp increasing i j iInside jInside less
    · intro index member
      obtain ⟨i, _, isIndex⟩ := List.mem_filterMap.mp member
      exact bounds index (List.mem_of_getElem? isIndex)

theorem selectWaypoints_last {maxSegments : ℕ} (positive : 1 ≤ maxSegments) {path : List Pose}
    (some_ : path ≠ []) (room : 2 ≤ maxSegments ∨ (keep apart path).length ≤ 1) :
    (selectWaypoints apart maxSegments path).getLast? = some (path.length - 1) := by
  obtain ⟨increasing, bounds, isLast⟩ := keep_spec apart some_
  by_cases few : (keep apart path).length ≤ maxSegments
  · have same : selectWaypoints apart maxSegments path = keep apart path :=
      if_pos few
    rw [same, isLast]
  · obtain ⟨_, _, selectedIncreasing, selectedBounds⟩ :=
      selectWaypoints_spec apart positive some_
    refine getLast_of_increasing selectedIncreasing ?_ ?_
    · have two : 2 ≤ maxSegments := by omega
      have same :
          selectWaypoints apart maxSegments path =
            (picks (keep apart path).length maxSegments).filterMap
              fun i => (keep apart path)[i]? := if_neg few
      rw [same]
      refine List.mem_filterMap.mpr ⟨(keep apart path).length - 1,
        mem_picks.mpr (last_mem_linspace two), ?_⟩
      rw [← List.getLast?_eq_getElem?]
      exact isLast
    · intro i member
      have bound := selectedBounds i member
      omega

theorem selectWaypoints_one (several : 1 < (keep apart path).length) :
    selectWaypoints apart 1 path = (keep apart path).head?.toList := by
  have same :
      selectWaypoints apart 1 path =
        (picks (keep apart path).length 1).filterMap
          fun i => (keep apart path)[i]? := if_neg (not_le.mpr several)
  rw [same, picks, linspace_one]
  cases kept : keep apart path with
  | nil =>
    rw [kept] at several
    cases several
  | cons first rest => simp

end

/-! ## Plans -/

/-- The path of an answer that `plan` measures and takes: the joints and the
TCP in the scene, aimed at the target, with a length that its comparison does
not refuse. -/
structure Taken (planner : Planner) (request : Request) (path : List Nested)
    (scene : List Pose) : Prop where
  outside : request.insideFixture = .ok none
  world : ∃ world, request.world = .ok world
  answer : ∃ fields ok excluded tcp tcpScene, request.answer = .json (.dict fields) ∧
    fields.lookup "ok" = some ok ∧ ok.truthy = true ∧
    listOf (fields.lookup "excluded_by_base") = .ok excluded ∧
    asArray planner.geometry.parse (fields.lookup "path") = .ok (.list path) ∧
    asArray planner.geometry.parse (fields.lookup "tcp_path") = .ok tcp ∧
    tcp.shape = some [path.length, 7] ∧
    toScenes planner.geometry tcp.rows = .ok tcpScene ∧
    scene = aimAt request.goal.position tcpScene
  some_ : 1 ≤ path.length
  short :
    ((planner.geometry.straight request.start request.goal.position).add
      planner.maxDetour).lt (planner.geometry.pathLength scene) = false
  joints : ∃ qPath,
    qPathAt path (selectWaypoints planner.geometry.apart planner.maxSegments scene) = .ok qPath

variable {planner : Planner} {request : Request} {result : Plan} {out : Plan} {path : List Nested}

theorem finishPlan_planned {tcp : List Pose}
    (finished : finishPlan planner request out path tcp = .ok result)
    (planned : result.status = .planned) :
    let scene := aimAt request.goal.position tcp
    let indices := selectWaypoints planner.geometry.apart planner.maxSegments scene
    ((planner.geometry.straight request.start request.goal.position).add
        planner.maxDetour).lt (planner.geometry.pathLength scene) = false ∧
      (∃ qPath, qPathAt path indices = .ok qPath) ∧
      result.indices = indices ∧
      result.waypoints = (indices.filterMap fun i => scene[i]?).map Pose.waypoint := by
  intro scene indices
  unfold finishPlan at finished
  dsimp only at finished
  split_ifs at finished with detours
  · cases finished
    cases planned
  · split at finished
    · cases finished
    · rename_i qPath isJoints
      cases finished
      exact ⟨by simpa using detours, ⟨qPath, isJoints⟩, rfl, rfl⟩

theorem block_not_planned (out : Plan) (message : PlanMessage) :
    (out.block message).status ≠ .planned := by
  intro same
  cases same

theorem readPlan_planned {fields : List (String × Json)} {ok : Json}
    (read : readPlan planner request out fields ok = .ok result)
    (planned : result.status = .planned) :
    ∃ excluded path tcp tcpScene, ok.truthy = true ∧
      listOf (fields.lookup "excluded_by_base") = .ok excluded ∧
      asArray planner.geometry.parse (fields.lookup "path") = .ok (.list path) ∧
      asArray planner.geometry.parse (fields.lookup "tcp_path") = .ok tcp ∧
      1 ≤ path.length ∧ tcp.shape = some [path.length, 7] ∧
      toScenes planner.geometry tcp.rows = .ok tcpScene ∧
      ∃ before : Plan, finishPlan planner request before path tcpScene = .ok result := by
  unfold readPlan at read
  dsimp only at read
  split at read
  · cases read
  · rename_i excluded isExcluded
    split_ifs at read with notOk
    · split at read
      · cases read
      · cases read
        exact absurd planned (block_not_planned _ _)
    · split at read
      · cases read
      · cases read
      · cases read
      · rename_i path tcp isPath isTcp
        split_ifs at read with lacks
        · cases read
          exact absurd planned (block_not_planned _ _)
        · split at read
          · cases read
          · rename_i tcpScene isScene
            rw [not_or, not_lt, not_not] at lacks
            exact ⟨excluded, path, tcp, tcpScene, by simpa using notOk,
              isExcluded, isPath, isTcp, lacks.1, lacks.2, isScene, _, read⟩

theorem plan_planned (isPlan : plan planner request = .ok result)
    (planned : result.status = .planned) :
    ∃ path scene, Taken planner request path scene ∧
      result.indices = selectWaypoints planner.geometry.apart planner.maxSegments scene ∧
      result.waypoints = (result.indices.filterMap fun i => scene[i]?).map Pose.waypoint := by
  unfold plan at isPlan
  split at isPlan
  · cases isPlan
  · cases isPlan
    exact absurd planned (block_not_planned _ _)
  · cases isPlan
  · rename_i kept dropped outside isWorld
    dsimp only at isPlan
    split at isPlan
    · cases isPlan
    · split_ifs at isPlan
      · cases isPlan
        cases planned
      · cases isPlan
        exact absurd planned (block_not_planned _ _)
    · rename_i fields isAnswer
      split at isPlan
      · cases isPlan
        exact absurd planned (block_not_planned _ _)
      · rename_i ok isOk
        obtain ⟨excluded, path, tcp, tcpScene, truthy, isExcluded, isPath,
          isTcp, some_, isShape, isScene, before, finished⟩ :=
          readPlan_planned isPlan planned
        obtain ⟨short, joints, isIndices, isWaypoints⟩ := finishPlan_planned finished planned
        refine ⟨path, aimAt request.goal.position tcpScene, ?_, isIndices, ?_⟩
        · exact
            { outside := outside
              world := ⟨_, isWorld⟩
              answer := ⟨fields, ok, excluded, tcp, tcpScene, isAnswer, isOk,
                truthy, isExcluded, isPath, isTcp, isShape, isScene, rfl⟩
              some_ := some_
              short := short
              joints := joints }
        · rw [isIndices]
          exact isWaypoints
    · cases isPlan
      exact absurd planned (block_not_planned _ _)

theorem plan_of_taken {scene : List Pose} (taken : Taken planner request path scene) :
    ∃ result, plan planner request = .ok result ∧ result.status = .planned ∧
      result.indices = selectWaypoints planner.geometry.apart planner.maxSegments scene ∧
      result.waypoints = (result.indices.filterMap fun i => scene[i]?).map Pose.waypoint := by
  obtain ⟨⟨kept, dropped⟩, isWorld⟩ := taken.world
  obtain ⟨fields, ok, excluded, tcp, tcpScene, isAnswer, isOk, truthy,
    isExcluded, isPath, isTcp, isShape, isScene, rfl⟩ := taken.answer
  obtain ⟨qPath, isJoints⟩ := taken.joints
  have enough : ¬ (path.length < 1 ∨ tcp.shape ≠ some [path.length, 7]) := by
    rw [not_or, not_lt, not_not]
    exact ⟨taken.some_, isShape⟩
  have notShort := taken.short
  unfold plan
  rw [taken.outside, isWorld]
  dsimp only
  rw [isAnswer]
  dsimp only
  rw [isOk]
  dsimp only
  unfold readPlan
  rw [isExcluded]
  dsimp only
  rw [if_neg (by rw [truthy]; decide), isPath, isTcp]
  dsimp only
  rw [if_neg enough, isScene]
  dsimp only
  unfold finishPlan
  dsimp only
  rw [if_neg (by rw [notShort]; decide), isJoints]
  exact ⟨_, rfl, rfl, rfl, rfl⟩

/-! ## What a plan promises -/

def Position.rounded (p : Position) : Position :=
  ⟨p.x.roundTo 5, p.y.roundTo 5, p.z.roundTo 5⟩

/-- A plan that is `planned` has finite waypoints, no more than the limit, at
increasing indices of the path, the last at the requested position, and its
path is within the detour limit. -/
def PlanSound (planner : Planner) (request : Request) : Prop :=
  ∀ result, plan planner request = .ok result → result.status = .planned → result.waypoints ≠ [] ∧
    (∀ waypoint ∈ result.waypoints, ∀ value ∈ waypoint, value.isFinite = true) ∧
    result.waypoints.length ≤ planner.maxSegments ∧
    result.indices.length = result.waypoints.length ∧
    result.indices.Pairwise (· < ·) ∧
    (∃ last, result.waypoints.getLast? = some last ∧ last.take 3 = request.goal.position.values) ∧
    ∀ path scene, Taken planner request path scene →
      (planner.geometry.pathLength scene).le
        ((planner.geometry.straight request.start
          request.goal.position).add planner.maxDetour) = true

/-- The poses kept are finite, the length and its limit are no NaN, and the
waypoint of the target is the target itself: five decimals hold it, and it is
kept, or the only one kept is there too. -/
structure Regular (planner : Planner) (request : Request) (scene : List Pose) : Prop where
  finite : ∀ i ∈ selectWaypoints planner.geometry.apart planner.maxSegments scene,
    ∀ pose, scene[i]? = some pose → pose.isFinite = true
  measured : planner.geometry.pathLength scene ≠ .nan
  limited :
    (planner.geometry.straight request.start request.goal.position).add planner.maxDetour ≠ .nan
  atTarget :
    if 2 ≤ planner.maxSegments ∨
        (keep planner.geometry.apart scene).length ≤ 1 then
      request.goal.position.rounded = request.goal.position
    else
      ∃ i pose, (keep planner.geometry.apart scene).head? = some i ∧ scene[i]? = some pose ∧
        pose.position.rounded = request.goal.position

variable {poses : List Pose}

theorem toScenes_length {g : Geometry} {rows : List Nested} {poses : List Pose}
    (isScene : toScenes g rows = .ok poses) : poses.length = rows.length := by
  induction rows generalizing poses with
  | nil =>
    cases isScene
    rfl
  | cons row rest ih =>
    rw [toScenes] at isScene
    split at isScene
    · cases isScene
    · split at isScene
      · cases isScene
      · cases isScene
      · rename_i first later _ isLater
        cases isScene
        rw [length_cons, length_cons, ih isLater]

theorem aimAt_length (goal : Position) (poses : List Pose) :
    (aimAt goal poses).length = poses.length := by
  induction poses with
  | nil => rfl
  | cons pose rest ih =>
    cases rest with
    | nil => rfl
    | cons next later =>
      rw [aimAt, length_cons, ih]
      rfl

theorem aimAt_last (goal : Position) (some_ : poses ≠ []) :
    ∃ last, (aimAt goal poses)[poses.length - 1]? = some last ∧ last.position = goal := by
  induction poses with
  | nil => exact absurd rfl some_
  | cons pose rest ih =>
    cases rest with
    | nil => exact ⟨{ pose with position := goal }, rfl, rfl⟩
    | cons next later =>
      obtain ⟨last, isLast, atGoal⟩ := ih (List.cons_ne_nil next later)
      exact ⟨last, isLast, atGoal⟩

section Taken

variable {planner : Planner} {request : Request} {path : List Nested} {scene : List Pose}

theorem Taken.scene_ne_nil (taken : Taken planner request path scene) :
    scene ≠ [] ∧ ∃ last, scene[scene.length - 1]? = some last ∧
      last.position = request.goal.position := by
  obtain ⟨_, _, _, tcp, tcpScene, _, _, _, _, _, _, isShape, isScene,
    rfl⟩ := taken.answer
  have sameLength : tcpScene.length = path.length := by
    rw [toScenes_length isScene]
    cases tcp with
    | number value => cases isShape
    | list items =>
      rw [Nested.shape] at isShape
      split at isShape
      · cases isShape
      · exact (List.cons.inj (Option.some.inj isShape)).1
  have some_ := taken.some_
  have notNil : tcpScene ≠ [] := by
    rintro rfl
    rw [length_nil] at sameLength
    omega
  constructor
  · intro none
    have empty := congrArg List.length none
    rw [aimAt_length, length_nil] at empty
    omega
  · rw [aimAt_length]
    exact aimAt_last _ notNil

theorem Taken.unique (taken : Taken planner request path scene) {otherPath : List Nested}
    {otherScene : List Pose} (other : Taken planner request otherPath otherScene) :
    otherScene = scene := by
  obtain ⟨fields, _, _, tcp, tcpScene, isAnswer, _, _, _, _, isTcp, _, isScene, rfl⟩ := taken.answer
  obtain ⟨otherFields, _, _, otherTcp, otherTcpScene, otherAnswer, _, _, _, _,
    otherIsTcp, _, otherIsScene, rfl⟩ := other.answer
  have sameFields : otherFields = fields := by
    rw [isAnswer] at otherAnswer
    cases otherAnswer
    rfl
  subst sameFields
  have sameTcp : otherTcp = tcp := Except.ok.inj (otherIsTcp.symm.trans isTcp)
  subst sameTcp
  rw [Except.ok.inj (otherIsScene.symm.trans isScene)]

theorem waypoints_of_indices {indices : List ℕ} (inside : ∀ i ∈ indices, i < scene.length) :
    ((indices.filterMap fun i => scene[i]?).map Pose.waypoint).length = indices.length ∧
      ((indices.filterMap fun i => scene[i]?).map Pose.waypoint).getLast? =
        (indices.getLast?.bind fun i => scene[i]?).map Pose.waypoint := by
  induction indices with
  | nil => exact ⟨rfl, rfl⟩
  | cons first rest ih =>
    obtain ⟨sameLength, sameLast⟩ := ih fun i member => inside i (List.mem_cons_of_mem first member)
    have found := List.getElem?_eq_getElem (inside first List.mem_cons_self)
    rw [List.filterMap_cons, found]
    constructor
    · rw [map_cons, length_cons, sameLength, length_cons]
    · cases rest with
      | nil => simp [found]
      | cons second later =>
        rw [List.getLast?_cons_cons, ← sameLast, map_cons]
        cases tail : (List.filterMap (fun i => scene[i]?) (second :: later)).map Pose.waypoint with
        | nil =>
          rw [tail] at sameLength
          cases sameLength
        | cons next more => rw [List.getLast?_cons_cons]

theorem waypoint_finite_iff (pose : Pose) :
    (∀ value ∈ pose.waypoint, value.isFinite = true) ↔ pose.isFinite = true := by
  unfold Pose.waypoint Pose.isFinite
  rw [List.all_eq_true]
  constructor
  · intro finite value member
    have rounded := finite _ (List.mem_map_of_mem member)
    rwa [Floats.Num.isFinite_roundTo] at rounded
  · intro finite value member
    obtain ⟨own, isOwn, rfl⟩ := List.mem_map.mp member
    rw [Floats.Num.isFinite_roundTo]
    exact finite own isOwn

theorem waypoint_take (pose : Pose) : pose.waypoint.take 3 = pose.position.rounded.values :=
  rfl

theorem values_inj {p q : Position} (same : p.values = q.values) : p = q := by
  cases p
  cases q
  simp only [Position.values, List.cons.injEq, and_true] at same
  obtain ⟨rfl, rfl, rfl⟩ := same
  rfl

theorem last_waypoint_iff (positive : 1 ≤ planner.maxSegments)
    (taken : Taken planner request path scene) :
    (∃ last,
      (((selectWaypoints planner.geometry.apart planner.maxSegments
          scene).getLast?.bind fun i => scene[i]?).map Pose.waypoint) =
        some last ∧ last.take 3 = request.goal.position.values) ↔
      if 2 ≤ planner.maxSegments ∨
          (keep planner.geometry.apart scene).length ≤ 1 then
        request.goal.position.rounded = request.goal.position
      else
        ∃ i pose, (keep planner.geometry.apart scene).head? = some i ∧ scene[i]? = some pose ∧
          pose.position.rounded = request.goal.position := by
  obtain ⟨some_, goal, isGoal, atGoal⟩ := taken.scene_ne_nil
  by_cases room : 2 ≤ planner.maxSegments ∨ (keep planner.geometry.apart scene).length ≤ 1
  · rw [if_pos room, selectWaypoints_last _ positive some_ room, Option.bind_some, isGoal]
    constructor
    · rintro ⟨last, isLast, atTarget⟩
      cases isLast
      rw [waypoint_take, atGoal] at atTarget
      exact values_inj atTarget
    · intro onGrid
      refine ⟨_, rfl, ?_⟩
      rw [waypoint_take, atGoal, onGrid]
  · rw [if_neg room]
    rw [not_or, not_le, not_le] at room
    have one : planner.maxSegments = 1 := by omega
    rw [one, selectWaypoints_one _ room.2]
    cases kept : (keep planner.geometry.apart scene).head? with
    | none => simp
    | some i =>
      cases found : scene[i]? with
      | none => simp [found]
      | some pose =>
        simp only [Option.toList_some, List.getLast?_singleton,
          Option.bind_some, found, Option.map_some, Option.some.injEq]
        constructor
        · rintro ⟨last, rfl, atTarget⟩
          exact ⟨i, pose, rfl, found, values_inj atTarget⟩
        · rintro ⟨_, other, rfl, isOther, onTarget⟩
          refine ⟨_, rfl, ?_⟩
          rw [found] at isOther
          cases isOther
          rw [waypoint_take, onTarget]

end Taken

theorem planSound_iff (positive : 1 ≤ planner.maxSegments) (request : Request) :
    PlanSound planner request ↔
      ∀ path scene, Taken planner request path scene →
        Regular planner request scene := by
  constructor
  · intro sound path scene taken
    obtain ⟨result, isPlan, planned, isIndices, isWaypoints⟩ := plan_of_taken taken
    obtain ⟨_, finite, _, _, _, last, within_⟩ := sound result isPlan planned
    obtain ⟨some_, _⟩ := taken.scene_ne_nil
    obtain ⟨_, _, _, inside⟩ := selectWaypoints_spec planner.geometry.apart positive some_
    obtain ⟨measured, limited⟩ := Floats.Num.not_nan_of_le (within_ path scene taken)
    refine ⟨?_, measured, limited, ?_⟩
    · intro i member pose isPose
      rw [← waypoint_finite_iff]
      apply finite
      rw [isWaypoints, isIndices]
      exact List.mem_map_of_mem (List.mem_filterMap.mpr ⟨i, member, isPose⟩)
    · rw [isWaypoints, isIndices, (waypoints_of_indices inside).2] at last
      exact (last_waypoint_iff positive taken).mp last
  · intro regular result isPlan planned
    obtain ⟨path, scene, taken, isIndices, isWaypoints⟩ := plan_planned isPlan planned
    have isRegular := regular path scene taken
    obtain ⟨some_, _⟩ := taken.scene_ne_nil
    obtain ⟨notNone, few, increasing, inside⟩ :=
      selectWaypoints_spec planner.geometry.apart positive some_
    rw [isIndices] at isWaypoints
    obtain ⟨sameLength, sameLast⟩ := waypoints_of_indices inside
    rw [isWaypoints, isIndices, sameLength, sameLast]
    refine ⟨?_, ?_, few, rfl, increasing,
      (last_waypoint_iff positive taken).mpr isRegular.atTarget, ?_⟩
    · intro none
      rw [none, length_nil] at sameLength
      exact notNone (List.eq_nil_of_length_eq_zero sameLength.symm)
    · intro waypoint member
      obtain ⟨pose, isPose, rfl⟩ := List.mem_map.mp member
      obtain ⟨i, isIndex, found⟩ := List.mem_filterMap.mp isPose
      exact (waypoint_finite_iff pose).mpr (isRegular.finite i isIndex pose found)
    · intro otherPath otherScene other
      rw [taken.unique other]
      exact Floats.Num.le_of_not_lt isRegular.measured isRegular.limited taken.short

/-! ## Routes -/

section Follow

variable (servo : Servo)

/-- The translation of a segment was not needed, or was sent, answered and
ended no more than `stallM` short; `current` is the pose read last. -/
def Reached (target : Pose) (m : Meeting) (current : Pose) : Prop :=
  ∃ before, m.before = .ok before ∧
    if servo.posEps.lt (servo.short target before) then
      ∃ result, m.moved = .ok result ∧ result.cancelled = false ∧
        result.failed = false ∧ m.afterMove = .ok current ∧
        servo.stallM.lt (servo.short target current) = false
    else current = before

def Turned (target : Pose) (m : Meeting) (current : Pose) : Prop :=
  servo.rotEps.lt (servo.left target current) = true →
    ∃ result after, m.rotated = .ok result ∧ result.cancelled = false ∧
      result.failed = false ∧ m.afterRotate = .ok after ∧
      servo.stallRad.lt (servo.left target after) = false

def Executed (target : Pose) (m : Meeting) : Prop :=
  (∃ verdict, m.check = .ok verdict ∧ verdict.status ≠ .contact) ∧
    ∃ current, Reached servo target m current ∧ Turned servo target m current

variable {servo}

theorem rotateSegment_spec (target : Pose) (m : Meeting) (legs : List Leg) (current : Pose) :
    let run := rotateSegment servo target m legs current
    (run.ending = .done ↔ Turned servo target m current) ∧
      ∀ leg ∈ run.legs, leg ∈ legs ∨ leg = .rotate := by
  intro run
  have member : ∀ leg ∈ legs ++ [Leg.rotate], leg ∈ legs ∨ leg = .rotate := by
    intro leg isLeg
    rcases List.mem_append.mp isLeg with old | new
    · exact Or.inl old
    · exact Or.inr (List.mem_singleton.mp new)
  have same : run = rotateSegment servo target m legs current := rfl
  unfold rotateSegment at same
  dsimp only at same
  unfold Turned
  split_ifs at same with needed
  · split at same
    · rename_i error isRaised
      rw [same]
      refine ⟨⟨fun done => SegmentEnd.noConfusion done, ?_⟩, member⟩
      intro turned
      obtain ⟨result, _, isResult, _⟩ := turned needed
      cases isRaised.symm.trans isResult
    · rename_i result isResult
      by_cases isCancelled : result.cancelled = true
      · rw [if_pos isCancelled] at same
        rw [same]
        refine ⟨⟨fun done => SegmentEnd.noConfusion done, ?_⟩, member⟩
        intro turned
        obtain ⟨other, _, isOther, notCancelled, _⟩ := turned needed
        cases isResult.symm.trans isOther
        rw [isCancelled] at notCancelled
        cases notCancelled
      · rw [if_neg isCancelled] at same
        split at same
        · rename_i error isRaised
          rw [same]
          refine ⟨⟨fun done => SegmentEnd.noConfusion done, ?_⟩, member⟩
          intro turned
          obtain ⟨_, after, _, _, _, isAfter, _⟩ := turned needed
          cases isRaised.symm.trans isAfter
        · rename_i after isAfter
          split_ifs at same with stalled
          · rw [same]
            refine ⟨⟨fun done => SegmentEnd.noConfusion done, ?_⟩, member⟩
            intro turned
            obtain ⟨other, otherAfter, isOther, _, notFailed, isOtherAfter, close⟩ := turned needed
            cases isResult.symm.trans isOther
            cases isAfter.symm.trans isOtherAfter
            rw [notFailed, close] at stalled
            cases stalled
          · rw [same]
            refine ⟨⟨fun _ _ => ?_, fun _ => rfl⟩, member⟩
            rw [Bool.or_eq_true, not_or, Bool.not_eq_true, Bool.not_eq_true] at stalled
            exact ⟨result, after, isResult, by simpa using isCancelled,
              stalled.1, isAfter, stalled.2⟩
  · rw [same]
    exact ⟨⟨fun _ is_ => absurd is_ needed, fun _ => rfl⟩, fun leg isLeg => Or.inl isLeg⟩

structure SegmentSpec (servo : Servo) (target : Pose) (m : Meeting) (run : SegmentRun) :
    Prop where
  done : run.ending = .done ↔ Executed servo target m
  checked : run.legs ≠ [] → ∃ verdict, m.check = .ok verdict ∧ verdict.status ≠ .contact
  reached : .rotate ∈ run.legs → ∃ current, Reached servo target m current

variable {target : Pose} {m : Meeting} {run : SegmentRun}

theorem spec_of_unchecked (noLegs : run.legs = []) (notDone : run.ending ≠ .done)
    (unchecked : ∀ verdict, m.check = .ok verdict →
      verdict.status = .contact) : SegmentSpec servo target m run where
  done := by
    constructor
    · intro done
      exact absurd done notDone
    · rintro ⟨⟨verdict, isVerdict, clear⟩, _⟩
      exact absurd (unchecked verdict isVerdict) clear
  checked := fun some_ => absurd noLegs some_
  reached := by
    intro turned
    rw [noLegs] at turned
    cases turned

theorem spec_of_unreached (checked : ∃ verdict, m.check = .ok verdict ∧ verdict.status ≠ .contact)
    (never : ∀ current, ¬ Reached servo target m current)
    (notDone : run.ending ≠ .done) (noTurn : .rotate ∉ run.legs) :
    SegmentSpec servo target m run where
  done := by
    constructor
    · intro done
      exact absurd done notDone
    · rintro ⟨_, current, reached, _⟩
      exact absurd reached (never current)
  checked := fun _ => checked
  reached := fun turned => absurd turned noTurn

variable {current : Pose}

theorem spec_of_reached {legs : List Leg}
    (checked : ∃ verdict, m.check = .ok verdict ∧ verdict.status ≠ .contact)
    (only : ∀ other, Reached servo target m other ↔ other = current) :
    SegmentSpec servo target m (rotateSegment servo target m legs current) where
  done := by
    rw [(rotateSegment_spec target m legs current).1]
    constructor
    · intro turned
      exact ⟨checked, current, (only current).mpr rfl, turned⟩
    · rintro ⟨_, other, reached, turned⟩
      rw [← (only other).mp reached]
      exact turned
  checked := fun _ => checked
  reached := fun _ => ⟨current, (only current).mpr rfl⟩

variable {before : Pose}

theorem reached_of_needed (isBefore : m.before = .ok before)
    (needed : servo.posEps.lt (servo.short target before) = true) :
    Reached servo target m current ↔
      ∃ result, m.moved = .ok result ∧ result.cancelled = false ∧
        result.failed = false ∧ m.afterMove = .ok current ∧
        servo.stallM.lt (servo.short target current) = false := by
  constructor
  · rintro ⟨other, isOther, rest⟩
    cases isBefore.symm.trans isOther
    rwa [if_pos needed] at rest
  · intro moved
    refine ⟨before, isBefore, ?_⟩
    rw [if_pos needed]
    exact moved

theorem reached_of_near (isBefore : m.before = .ok before)
    (near : ¬ servo.posEps.lt (servo.short target before) = true) :
    Reached servo target m current ↔ current = before := by
  constructor
  · rintro ⟨other, isOther, rest⟩
    cases isBefore.symm.trans isOther
    rwa [if_neg near] at rest
  · rintro rfl
    refine ⟨current, isBefore, ?_⟩
    rw [if_neg near]

theorem rotate_not_translate : Leg.rotate ∉ [Leg.translate] := by decide

theorem runSegment_spec (target : Pose) (m : Meeting) :
    SegmentSpec servo target m (runSegment servo target m) := by
  unfold runSegment
  cases isVerdict : m.check with
  | error error =>
    refine spec_of_unchecked rfl (fun done => SegmentEnd.noConfusion done) ?_
    intro verdict isOther
    cases isVerdict.symm.trans isOther
  | ok verdict =>
    dsimp only
    by_cases contact : verdict.status = .contact
    · rw [if_pos contact]
      refine spec_of_unchecked rfl (fun done => SegmentEnd.noConfusion done) ?_
      intro other isOther
      cases isVerdict.symm.trans isOther
      exact contact
    rw [if_neg contact]
    have checked : ∃ verdict, m.check = .ok verdict ∧
        verdict.status ≠ .contact := ⟨verdict, isVerdict, contact⟩
    cases isBefore : m.before with
    | error error =>
      refine spec_of_unreached checked ?_ (fun done => SegmentEnd.noConfusion done) not_mem_nil
      rintro current ⟨other, isOther, _⟩
      cases isBefore.symm.trans isOther
    | ok before =>
      dsimp only
      by_cases needed : servo.posEps.lt (servo.short target before) = true
      · rw [if_pos needed]
        cases isResult : m.moved with
        | error error =>
          refine spec_of_unreached checked ?_ (fun done => SegmentEnd.noConfusion done)
            rotate_not_translate
          intro current reached
          obtain ⟨result, isOther, _⟩ := (reached_of_needed isBefore needed).mp reached
          cases isResult.symm.trans isOther
        | ok result =>
          dsimp only
          by_cases isCancelled : result.cancelled = true
          · rw [if_pos isCancelled]
            refine spec_of_unreached checked ?_ (fun done => SegmentEnd.noConfusion done)
              rotate_not_translate
            intro current reached
            obtain ⟨other, isOther, notCancelled, _⟩ :=
              (reached_of_needed isBefore needed).mp reached
            cases isResult.symm.trans isOther
            rw [isCancelled] at notCancelled
            cases notCancelled
          rw [if_neg isCancelled]
          cases isAfter : m.afterMove with
          | error error =>
            refine spec_of_unreached checked ?_ (fun done => SegmentEnd.noConfusion done)
              rotate_not_translate
            intro current reached
            obtain ⟨_, _, _, _, isOther, _⟩ := (reached_of_needed isBefore needed).mp reached
            cases isAfter.symm.trans isOther
          | ok after =>
            dsimp only
            split_ifs with stalled
            · refine spec_of_unreached checked ?_ (fun done => SegmentEnd.noConfusion done)
                rotate_not_translate
              intro current reached
              obtain ⟨other, isOther, _, notFailed, isCurrent, close⟩ :=
                (reached_of_needed isBefore needed).mp reached
              cases isResult.symm.trans isOther
              cases isAfter.symm.trans isCurrent
              rw [notFailed, close] at stalled
              cases stalled
            · refine spec_of_reached checked ?_
              intro current
              rw [reached_of_needed isBefore needed]
              rw [Bool.or_eq_true, not_or, Bool.not_eq_true, Bool.not_eq_true] at stalled
              constructor
              · rintro ⟨_, _, _, _, isCurrent, _⟩
                exact Except.ok.inj (isCurrent.symm.trans isAfter)
              · rintro rfl
                exact ⟨result, isResult, by simpa using isCancelled, stalled.1, isAfter, stalled.2⟩
      · rw [if_neg needed]
        exact spec_of_reached checked fun current => reached_of_near isBefore needed

/-- A route that was followed: the segments reported are those executed to the
end, one after the other, and nothing is sent for a segment after the one that
was not. -/
structure FollowSound (servo : Servo) (meets : ℕ → Meeting) (waypoints : List Pose)
    (followed : Followed) : Prop where
  executed : ∀ i < followed.segments, ∃ target,
    waypoints[i]? = some target ∧ Executed servo target (meets i)
  all : followed.ending = none → followed.segments = waypoints.length
  stopped : followed.ending ≠ none → ∃ target,
    waypoints[followed.segments]? = some target ∧ ¬ Executed servo target (meets followed.segments)
  sent : ∀ command ∈ followed.sent, command.segment ≤ followed.segments ∧
    ∃ target, waypoints[command.segment]? = some target ∧
      (∃ verdict, (meets command.segment).check = .ok verdict ∧ verdict.status ≠ .contact) ∧
      (command.leg = .rotate → ∃ current, Reached servo target (meets command.segment) current)

/-- What holds after the first `i` waypoints. -/
structure FollowedTo (servo : Servo) (meets : ℕ → Meeting) (waypoints : List Pose)
    (sent : List Sent) (i : ℕ) : Prop where
  executed : ∀ j < i, ∃ target, waypoints[j]? = some target ∧ Executed servo target (meets j)
  sent : ∀ command ∈ sent, command.segment < i ∧
    ∃ target, waypoints[command.segment]? = some target ∧
      (∃ verdict, (meets command.segment).check = .ok verdict ∧ verdict.status ≠ .contact) ∧
      (command.leg = .rotate → ∃ current, Reached servo target (meets command.segment) current)

variable {meets : ℕ → Meeting} {waypoints : List Pose} {sent : List Sent}
  {i : ℕ}

theorem sent_of_segment {target : Pose} (soFar : FollowedTo servo meets waypoints sent i)
    (isTarget : waypoints[i]? = some target) :
    ∀ command ∈ sent ++ (runSegment servo target (meets i)).legs.map fun leg => ⟨i, leg⟩,
      command.segment < i + 1 ∧
      ∃ target, waypoints[command.segment]? = some target ∧
        (∃ verdict, (meets command.segment).check = .ok verdict ∧ verdict.status ≠ .contact) ∧
        (command.leg = .rotate →
          ∃ current, Reached servo target (meets command.segment) current) := by
  intro command member
  rcases List.mem_append.mp member with old | new
  · obtain ⟨before, rest⟩ := soFar.sent command old
    exact ⟨by omega, rest⟩
  · obtain ⟨leg, isLeg, rfl⟩ := List.mem_map.mp new
    have spec : SegmentSpec servo target (meets i) _ := runSegment_spec target (meets i)
    refine ⟨Nat.lt_succ_self i, target, isTarget, spec.checked (List.ne_nil_of_mem isLeg), ?_⟩
    rintro rfl
    exact spec.reached isLeg

theorem followFrom_sound {rest : List Pose} (soFar : FollowedTo servo meets waypoints sent i)
    (isRest : waypoints.drop i = rest) (within_ : i ≤ waypoints.length) :
    FollowSound servo meets waypoints (followFrom servo meets sent i rest) := by
  induction rest generalizing sent i with
  | nil =>
    have atEnd : i = waypoints.length := by
      have none := congrArg List.length isRest
      rw [List.length_drop, length_nil] at none
      omega
    exact
      { executed := soFar.executed
        all := fun _ => atEnd
        stopped := fun ended => absurd rfl ended
        sent := fun command member =>
          ⟨Nat.le_of_lt (soFar.sent command member).1, (soFar.sent command member).2⟩ }
  | cons target later ih =>
    have isTarget : waypoints[i]? = some target := by
      have first := congrArg (fun list => list[0]?) isRest
      simpa using first
    have less : i < waypoints.length := (List.getElem?_eq_some_iff.mp isTarget).1
    have spec : SegmentSpec servo target (meets i) _ := runSegment_spec target (meets i)
    have nextSent := sent_of_segment soFar isTarget
    have isLater : waypoints.drop (i + 1) = later := by
      rw [← List.drop_drop, isRest]
      rfl
    rw [followFrom]
    split
    · rename_i isDone
      refine ih ⟨?_, nextSent⟩ isLater less
      intro j before
      rcases Nat.lt_succ_iff_lt_or_eq.mp before with early | rfl
      · exact soFar.executed j early
      · exact ⟨target, isTarget, spec.done.mp isDone⟩
    · rename_i notDone
      exact
        { executed := soFar.executed
          all := by
            intro ended
            cases ended
          stopped := fun _ => ⟨target, isTarget, fun executed => notDone (spec.done.mpr executed)⟩
          sent := fun command member =>
            ⟨Nat.lt_succ_iff.mp (nextSent command member).1, (nextSent command member).2⟩ }

theorem followWaypoints_sound (meets : ℕ → Meeting) (waypoints : List Pose) :
    FollowSound servo meets waypoints (followWaypoints servo meets waypoints) :=
  followFrom_sound
    ⟨fun _ before => absurd before (Nat.not_lt_zero _),
      fun _ member => absurd member not_mem_nil⟩
    rfl (Nat.zero_le _)

end Follow

/-! ## Fail closed -/

/-- The service could not be reached, and moves may then run unplanned. -/
def Excused (planner : Planner) (answer : Answer) : Prop :=
  planner.allowUnplanned = true ∧ ∃ text, answer = .error true text

variable {planner : Planner}

theorem plan_unknown {request : Request} {result : Plan}
    (isPlan : plan planner request = .ok result) (notBlocked : result.status ≠ .blocked)
    (notPlanned : result.status ≠ .planned) : Excused planner request.answer := by
  have blocked : ∀ (out : Plan) (message : PlanMessage), out.block message = result → False := by
    rintro out message rfl
    exact notBlocked rfl
  unfold plan at isPlan
  split at isPlan
  · cases isPlan
  · exact (blocked _ _ (Except.ok.inj isPlan)).elim
  · cases isPlan
  · dsimp only at isPlan
    split at isPlan
    · cases isPlan
    · rename_i unreachable text isAnswer
      split_ifs at isPlan with excused
      · rw [Bool.and_eq_true] at excused
        rw [excused.1] at isAnswer
        exact ⟨excused.2, text, isAnswer⟩
      · exact (blocked _ _ (Except.ok.inj isPlan)).elim
    · split at isPlan
      · exact (blocked _ _ (Except.ok.inj isPlan)).elim
      · unfold readPlan at isPlan
        dsimp only at isPlan
        split at isPlan
        · cases isPlan
        · split_ifs at isPlan
          · split at isPlan
            · cases isPlan
            · exact (blocked _ _ (Except.ok.inj isPlan)).elim
          · split at isPlan
            · cases isPlan
            · cases isPlan
            · cases isPlan
            · split_ifs at isPlan
              · exact (blocked _ _ (Except.ok.inj isPlan)).elim
              · split at isPlan
                · cases isPlan
                · unfold finishPlan at isPlan
                  dsimp only at isPlan
                  split_ifs at isPlan
                  · exact (blocked _ _ (Except.ok.inj isPlan)).elim
                  · split at isPlan
                    · cases isPlan
                    · cases isPlan
                      exact absurd rfl notPlanned
    · exact (blocked _ _ (Except.ok.inj isPlan)).elim

theorem check_passes {request : CheckRequest} {verdict : Verdict}
    (isVerdict : check planner request = .ok verdict) (passes : verdict.status ≠ .contact) :
    verdict.status = .clear ∨ Excused planner request.answer := by
  unfold check at isVerdict
  split at isVerdict
  · cases isVerdict
  · dsimp only at isVerdict
    split at isVerdict
    · cases isVerdict
    · rename_i unreachable text isAnswer
      split_ifs at isVerdict with excused
      · rw [Bool.and_eq_true] at excused
        rw [excused.1] at isAnswer
        exact Or.inr ⟨excused.2, text, isAnswer⟩
      · cases isVerdict
        exact absurd rfl passes
    · split at isVerdict
      · cases isVerdict
        exact absurd rfl passes
      · left
        cases status : verdict.status with
        | clear => rfl
        | contact => exact absurd status passes
        | unknown =>
          -- `readCheck` says `clear` or `contact`.
          unfold readCheck at isVerdict
          dsimp only at isVerdict
          split at isVerdict
          · cases isVerdict
          · split_ifs at isVerdict with free
            · cases isVerdict
              dsimp only at status
              cases status
            · split at isVerdict
              · cases isVerdict
              · cases isVerdict
                dsimp only at status
                cases status
    · cases isVerdict
      exact absurd rfl passes

/-- What a planned move sends: its primitive unplanned where the service could
not be reached and that is allowed, else segments of a plan that is `planned`,
each after its own check said `clear` (or could not reach the service and that
is allowed). -/
def RouteSound (planner : Planner) (servo : Servo) (request : Request)
    (checks : ℕ → CheckRequest) (meets : ℕ → Meeting) : Prop :=
  match plannedMove planner servo request checks meets with
  | .refused _ => True
  | .unplanned _ => Excused planner request.answer
  | .followed plan followed =>
    plan.status = .planned ∧
    FollowSound servo (fun i => { meets i with check := check planner (checks i) })
      (plan.waypoints.filterMap poseOfValues) followed ∧
    ∀ command ∈ followed.sent, ∃ verdict, check planner (checks command.segment) = .ok verdict ∧
      (verdict.status = .clear ∨ Excused planner (checks command.segment).answer)

theorem plannedMove_sound (planner : Planner) (servo : Servo) (request : Request)
    (checks : ℕ → CheckRequest) (meets : ℕ → Meeting) :
    RouteSound planner servo request checks meets := by
  unfold RouteSound plannedMove
  cases isPlan : plan planner request with
  | error error => trivial
  | ok result =>
    dsimp only
    unfold requirePlanned
    by_cases blocked : result.status = .blocked
    · rw [if_pos blocked]
      trivial
    rw [if_neg blocked]
    dsimp only
    by_cases planned : result.status = .planned
    · rw [if_neg (not_not.mpr planned)]
      have sound :=
        @followWaypoints_sound servo (fun i => { meets i with check := check planner (checks i) })
          (result.waypoints.filterMap poseOfValues)
      refine ⟨planned, sound, ?_⟩
      intro command member
      obtain ⟨_, _, _, ⟨verdict, isVerdict, passes⟩, _⟩ := sound.sent command member
      exact ⟨verdict, isVerdict, check_passes isVerdict passes⟩
    · rw [if_pos planned]
      exact plan_unknown isPlan blocked planned

/-- A planner in the base frame, for moves of a tenth of a metre. -/
def tenthPlanner : Planner where
  geometry :=
    { toScene := fun pose => .ok pose
      pathLength := fun _ => .finite (1 / 10)
      straight := fun _ _ => .finite (1 / 10)
      apart := fun _ _ => true
      parse := fun _ => none }
  maxSegments := 10
  maxDetour := .finite (35 / 100)
  allowUnplanned := false

def answerWith (rotation : Floats.Num) : Answer :=
  .json
    (.dict
      [("ok", .bool true), ("path", .list [.list [.num (.finite 0)], .list [.num (.finite 1)]]),
        ("tcp_path",
          .list
            [.list
              [.num (.finite 0), .num (.finite 0), .num (.finite 0),
                .num (.finite 0), .num (.finite 0), .num (.finite 0),
                .num (.finite 1)],
              .list
                [.num (.finite (1 / 10)), .num (.finite 0), .num (.finite 0),
                  .num rotation, .num rotation, .num rotation,
                  .num rotation]])])

def tenthRequest (rotation : Floats.Num) : Request where
  start := ⟨.finite 0, .finite 0, .finite 0⟩
  goal :=
    ⟨⟨.finite (1 / 10), .finite 0, .finite 0⟩, (.finite 0, .finite 0, .finite 0, .finite 1)⟩
  insideFixture := .ok none
  world := .ok (0, [])
  answer := answerWith rotation
  diagnosis := .ok none

def defaultServo : Servo where
  posEps := .finite (2 / 1000)
  rotEps := .finite (2 / 100)
  stallM := .finite (1 / 100)
  stallRad := .finite (5 / 100)
  short := fun _ _ => .finite 0
  left := fun _ _ => .finite 0

theorem tenth_taken (rotation : Floats.Num) :
    Taken tenthPlanner (tenthRequest rotation)
      [.list [.number (.finite 0)], .list [.number (.finite 1)]]
      [⟨⟨.finite 0, .finite 0, .finite 0⟩, (.finite 0, .finite 0, .finite 0, .finite 1)⟩,
        ⟨⟨.finite (1 / 10), .finite 0, .finite 0⟩, (rotation, rotation, rotation, rotation)⟩] where
  outside := rfl
  world := ⟨_, rfl⟩
  answer := ⟨_, _, _, _, _, rfl, rfl, rfl, rfl, rfl, rfl, rfl, rfl, rfl⟩
  some_ := by decide
  short := by
    refine decide_eq_false ?_
    norm_num
  joints := ⟨_, rfl⟩

end PiEmbodied.Services.Motion
