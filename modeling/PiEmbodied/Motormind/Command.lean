import PiEmbodied.Capabilities.Operator
import PiEmbodied.Motormind.Executor
import PiEmbodied.Rays

/-!
# The command language

A command is a list of actions.  Each becomes a delta in SI units; the limits
on the command as a whole refuse it, leave it, or cut the first translation
that would end too far from where the command started and drop what follows.
The numbers are the elements of an ordered field with a square root.
-/

namespace PiEmbodied.Motormind.Command

/-! ## Numbers and vectors -/

structure Texts (K : Type) where
  /-- `String(x)` -/
  number : K → String
  /-- `repr(float(x))` -/
  pyFloat : K → String

structure Js (K : Type) extends Texts K where
  (sqrt cos sin : K → K)
  pi : K

noncomputable def reals (texts : Texts ℝ) : Js ℝ where
  toTexts := texts
  sqrt := Real.sqrt
  cos := Real.cos
  sin := Real.sin
  pi := Real.pi

theorem reals_isRoot (texts : Texts ℝ) : Rays.IsSquareRoot (reals texts).sqrt where
  nonneg := Real.sqrt_nonneg
  square := fun _ nonneg => Real.mul_self_sqrt nonneg

theorem reals_pi_pos (texts : Texts ℝ) : 0 < (reals texts).pi :=
  Real.pi_pos

abbrev Vec3 (K : Type) := Fin 3 → K

abbrev Mat3 (K : Type) := Fin 3 → Vec3 K

structure Pose (K : Type) where
  position_m : Vec3 K
  rotation : Mat3 K

section Definitions

variable {K : Type} [Field K] [LinearOrder K] [FloorRing K]

def dot (a b : Vec3 K) : K :=
  a 0 * b 0 + a 1 * b 1 + a 2 * b 2

def norm (js : Js K) (a : Vec3 K) : K :=
  js.sqrt (dot a a)

/-- `a` normalized; a vector without direction throws. -/
def unit (js : Js K) (a : Vec3 K) : Except String (Vec3 K) :=
  let n := norm js a
  if n ≤ 1 / 10 ^ 12 then
    .error
      ("axis [" ++ js.number (a 0) ++ ", " ++ js.number (a 1) ++ ", " ++
        js.number (a 2) ++ "] has no direction")
  else .ok ((1 / n) • a)

/-- `format(x, f".{d}f")`: to the nearest, ties to even. -/
def pyFixed (x : K) (d : ℕ) : String :=
  let scaled := |x| * 10 ^ d
  let below := ⌊scaled⌋.toNat
  let left := scaled - below
  let kept :=
    if left < 1 / 2 ∨ left = 1 / 2 ∧ below % 2 = 0 then below else below + 1
  let whole := toString (kept / 10 ^ d)
  let frac := toString (kept % 10 ^ d)
  let digits :=
    if d = 0 then whole
    else whole ++ "." ++ String.ofList (List.replicate (d - frac.length) '0') ++ frac
  if x < 0 then "-" ++ digits else digits

def pyList (js : Js K) (v : Vec3 K) : String :=
  "[" ++ js.pyFloat (v 0) ++ ", " ++ js.pyFloat (v 1) ++ ", " ++ js.pyFloat (v 2) ++ "]"

inductive ActionType where
  | move | rotate | gripper | home | wait
deriving DecidableEq

structure Action (K : Type) where
  index : ℤ
  type : ActionType
  direction : Option String
  axis : Option (Vec3 K)
  (distance_mm angle_deg : Option K)
  state : Option GripperState
  (width_mm seconds speed_mm_s rot_speed_deg_s : Option K)
  stop_on_contact : Option Bool
  note : String

/-- What `parseAction` makes sure of. -/
structure Action.Parsed (a : Action K) : Prop where
  distance : a.type = .move → ∃ mm, a.distance_mm = some mm ∧ 0 < mm
  angle : a.type = .rotate → ∃ deg, a.angle_deg = some deg ∧ 0 < deg

structure Caps (K : Type) where
  (max_translation_m max_rotation_rad max_speed_m_s max_rotation_speed_rad_s default_speed_m_s : K)
  default_rotation_speed_rad_s : K
  supports_home : Bool
  (gripper_open_span_m gripper_pad_length_m tilt_reach_deg reach_m arrival_tolerance_m : K)

structure Delta (K : Type) where
  index : ℤ
  kind : DeltaKind
  axis : Option (Vec3 K)
  /-- m or rad. -/
  (magnitude speed : K)
  (stop_on_contact push : Bool)
  gripper_state : Option GripperState
  (open_to_mm seconds : Option K)
  (label note : String)

def Delta.translation (d : Delta K) : Option (Vec3 K) :=
  if d.kind = .translate then d.axis else none

def Delta.shift (d : Delta K) : Vec3 K :=
  match d.translation with
  | some axis => d.magnitude • axis
  | none => 0

def Delta.Sound (d : Delta K) : Prop :=
  d.kind = .translate ∨ d.kind = .rotate →
    ∃ axis, d.axis = some axis ∧ dot axis axis = 1 ∧ 0 < d.magnitude

def DT : K := 1 / 20
def FALLBACK_SPEED_M_S : K := 1 / 80
def FALLBACK_ROTATION_SPEED_RAD_S (js : Js K) : K := 8 * js.pi / 180
def MAX_PUSH_MM : K := 250
def MAX_COMPOSITE_MM : K := 400
def MAX_TURN_DEG : K := 90
def MIN_FIT_MM : K := 1
def REACH_SLACK_M : K := 1 / 200

def GripperState.text : GripperState → String
  | .open => "open"
  | .close => "close"

def actionLabel (js : Js K) (a : Action K) : String :=
  let what :=
    match a.direction with
    | some word => word
    | none => "axis " ++ (a.axis.map (pyList js)).getD "[]"
  let state := (a.state.map GripperState.text).getD "undefined"
  match a.type with
  | .move => "move " ++ what ++ " " ++ pyFixed (a.distance_mm.getD 0) 1 ++ " mm (base)"
  | .rotate => "rotate " ++ what ++ " " ++ pyFixed (a.angle_deg.getD 0) 1 ++ " deg (base)"
  | .gripper =>
    match a.width_mm with
    | some width => "gripper " ++ state ++ " to " ++ pyFixed width 1 ++ " mm"
    | none => "gripper " ++ state
  | .home => "go home"
  | .wait => "wait " ++ pyFixed (a.seconds.getD 0) 2 ++ " s"

/-- A move cut short by a limit; `said` is why. -/
def shortenedLabel (label : String) (mm : K) (said : String) : String :=
  label ++ " (shortened to " ++ pyFixed mm 0 ++ " mm: " ++ said ++ ")"

/-! ## Conversion -/

def TRANSLATION : List (String × Vec3 K) :=
  [("forward", ![1, 0, 0]), ("backward", ![-1, 0, 0]), ("left", ![0, 1, 0]),
    ("right", ![0, -1, 0]), ("up", ![0, 0, 1]), ("down", ![0, 0, -1])]

def ROTATION : List (String × Vec3 K) :=
  [("yaw_left", ![0, 0, 1]), ("yaw_right", ![0, 0, -1]),
    ("pitch_up", ![0, -1, 0]), ("pitch_down", ![0, 1, 0]),
    ("roll_ccw", ![1, 0, 0]), ("roll_cw", ![-1, 0, 0])]

def ROTATION_ALIASES : List (String × String) :=
  [("clockwise", "yaw_right"), ("cw", "yaw_right"),
    ("anticlockwise", "yaw_left"), ("counterclockwise", "yaw_left"),
    ("counter_clockwise", "yaw_left"), ("ccw", "yaw_left")]

/-- `word.trim().toLowerCase()`, as far as the tables see it. -/
def clean (word : String) : String :=
  Operator.lower (Operator.trim word.toList)

def words {α : Type} (table : List (String × α)) : String :=
  ", ".intercalate (table.map Prod.fst)

def translationAxis (word : String) : Except String (Vec3 K) :=
  match TRANSLATION.lookup (clean word) with
  | some axis => .ok axis
  | none =>
    .error
      ("unknown move direction \"" ++ word ++ "\"; the directions are " ++
        words (TRANSLATION (K := K)))

def rotationAxis (word : String) : Except String (Vec3 K) :=
  let w := clean word
  match ROTATION.lookup ((ROTATION_ALIASES.lookup w).getD w) with
  | some axis => .ok axis
  | none =>
    .error
      ("unknown rotate direction \"" ++ word ++ "\"; the directions are " ++
        words (ROTATION (K := K)) ++ " (aliases: " ++
        words ROTATION_ALIASES ++ ")")

def actionError {α : Type} (index : ℤ) (said : String) : Except String α :=
  .error ("action " ++ toString index ++ ": " ++ said)

def axisOf (js : Js K) (a : Action K)
    (named : String → Except String (Vec3 K)) : Except String (Vec3 K) :=
  let axis :=
    match a.axis with
    | some axis => unit js axis
    | none => named (a.direction.getD "")
  match axis with
  | .ok axis => .ok axis
  | .error said => actionError a.index said

/-- `caps.default || fallback` -/
def orElse (given fallback : K) : K :=
  if given = 0 then fallback else given

def given (js : Js K) (speed : Option K) : String :=
  (speed.map js.number).getD "undefined"

def Action.bare (js : Js K) (a : Action K) (kind : DeltaKind) : Delta K where
  index := a.index
  kind := kind
  axis := none
  magnitude := 0
  speed := 0
  stop_on_contact := false
  push := false
  gripper_state := none
  open_to_mm := none
  seconds := none
  label := actionLabel js a
  note := a.note

def moveSpeed (a : Action K) (caps : Caps K) : K :=
  match a.speed_mm_s with
  | some speed => speed / 1000
  | none => orElse caps.default_speed_m_s FALLBACK_SPEED_M_S

def turnSpeed (js : Js K) (a : Action K) (caps : Caps K) : K :=
  match a.rot_speed_deg_s with
  | some speed => speed * js.pi / 180
  | none => orElse caps.default_rotation_speed_rad_s (FALLBACK_ROTATION_SPEED_RAD_S js)

def toTranslation (js : Js K) (a : Action K) (caps : Caps K) : Except String (Delta K) :=
  let contact := a.stop_on_contact = some true
  let mm := a.distance_mm.getD 0
  if contact ∧ MAX_PUSH_MM < mm then
    actionError a.index
      ("a contact push (stop_on_contact) moves at most 250 mm; push " ++
        pyFixed mm 0 ++ " mm as several shorter pushes")
  else
    let speed := moveSpeed a caps
    if speed ≤ 0 then
      actionError a.index ("speed_mm_s must be positive, got " ++ given js a.speed_mm_s)
    else
      match axisOf js a translationAxis with
      | .error said => .error said
      | .ok axis =>
        .ok
          { a.bare js .translate with
            axis := some axis
            magnitude := mm / 1000
            speed := min speed caps.max_speed_m_s
            stop_on_contact := contact
            push := contact }

def toRotation (js : Js K) (a : Action K) (caps : Caps K) : Except String (Delta K) :=
  let speed := turnSpeed js a caps
  if speed ≤ 0 then
    actionError a.index ("rot_speed_deg_s must be positive, got " ++ given js a.rot_speed_deg_s)
  else
    match axisOf js a rotationAxis with
    | .error said => .error said
    | .ok axis =>
      .ok
        { a.bare js .rotate with
          axis := some axis
          magnitude := a.angle_deg.getD 0 * js.pi / 180
          speed := min speed caps.max_rotation_speed_rad_s }

def toDelta (js : Js K) (a : Action K) (caps : Caps K) : Except String (Delta K) :=
  match a.type with
  | .move => toTranslation js a caps
  | .rotate => toRotation js a caps
  | .gripper => .ok { a.bare js .gripper with gripper_state := a.state }
  | .home =>
    if caps.supports_home then .ok (a.bare js .home)
    else
      actionError a.index
        ("this robot has no home; move back with move and rotate actions " ++ "instead")
  | .wait => .ok { a.bare js .wait with seconds := a.seconds }

/-! ## The limits of a command -/

/-- A delta cut to `fits` m, with why and what to do. -/
def Delta.cut (d : Delta K) (fits : K) (dropped : ℕ) (said advice : String) :
    Delta K :=
  { d with
    magnitude := fits
    label := shortenedLabel d.label (fits * 1000) said
    note :=
      said ++ ": " ++ d.label ++ " ran only " ++ pyFixed (fits * 1000) 0 ++ " mm" ++
        (if dropped = 0 then ""
          else ", and the " ++ toString dropped ++ " action(s) after it did not run") ++
        "; " ++ advice ++ "." }

/-- Cuts the translation at `index` and drops every delta after it. -/
def shorten (deltas : List (Delta K)) (index : ℕ) (fits : K)
    (said advice : String) : List (Delta K) :=
  match deltas[index]? with
  | some d => deltas.take index ++ [d.cut fits (deltas.length - index - 1) said advice]
  | none => deltas

def ANOTHER_COMMAND : String := "send what is left as another command"

def turned (js : Js K) (deltas : List (Delta K)) : K :=
  ((deltas.filter fun d => d.kind = .rotate).map fun d =>
    |d.magnitude| * 180 / js.pi).sum

def movesAfterHome : List (Delta K) → Bool
  | [] => false
  | d :: rest =>
    if d.kind = .home then
      rest.any fun d => d.kind = .translate || d.kind = .rotate
    else movesAfterHome rest

/-- The translations from the `i`th on, from where those before it ended. -/
def limitMoves (js : Js K) (deltas : List (Delta K)) :
    ℕ → Vec3 K → List (Delta K) → Except String (List (Delta K))
  | _, _, [] => .ok deltas
  | i, here, d :: rest =>
    match d.translation with
    | none => limitMoves js deltas (i + 1) here rest
    | some axis =>
      let limit : K := MAX_COMPOSITE_MM / 1000
      let stop := here + d.magnitude • axis
      if norm js stop ≤ limit + 1 / 10 ^ 12 then
        limitMoves js deltas (i + 1) stop rest
      else
        let fits := Rays.exit js.sqrt (dot here here) (dot here axis) limit
        if fits * 1000 < MIN_FIT_MM then
          actionError d.index
            ("the command's translations already end " ++ pyFixed (norm js here * 1000) 0 ++
              " mm from where it started; one command ends at most 400 " ++
              "mm away, so " ++ ANOTHER_COMMAND)
        else
          .ok
            (shorten deltas i fits
              ("the command's moves end at most 400 mm from where it " ++ "started")
              ANOTHER_COMMAND)

def commandLimits (js : Js K) (deltas : List (Delta K)) : Except String (List (Delta K)) :=
  let turned := turned js deltas
  if MAX_TURN_DEG + 1 / 10 ^ 9 < turned then
    .error
      ("the command turns " ++ pyFixed turned 1 ++
        " deg in all; one command turns at most 90 deg, so " ++
        ANOTHER_COMMAND)
  else if movesAfterHome deltas then
    .error
      ("nothing may move after home in the same command: where home leaves " ++
        "the robot is not known in advance")
  else limitMoves js deltas 0 0 deltas

def toDeltas (js : Js K) (actions : List (Action K)) (caps : Caps K) :
    Except String (List (Delta K)) :=
  match actions.mapM fun a => toDelta js a caps with
  | .error said => .error said
  | .ok deltas => commandLimits js deltas

end Definitions

end PiEmbodied.Motormind.Command
