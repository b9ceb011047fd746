import PiEmbodied.Motormind.Mend
import PiEmbodied.Turns

/-!
# Segments

A delta runs as segments, one at a time.  A translation or a rotation is cut
into equal ones whose goals are all computed from where the delta starts; the
gripper, a wait and home are one segment each.
-/

namespace PiEmbodied.Motormind.Command

section Definitions

variable {K : Type} [Field K] [LinearOrder K] [FloorRing K]

structure Segment (K : Type) where
  kind : DeltaKind
  (chunk of : ℕ)
  label : String
  goal_position_m : Option (Vec3 K)
  goal_rotation : Option (Mat3 K)
  axis : Option (Vec3 K)
  (distance_m angle_rad speed max_step : Option K)
  (push stop_on_contact : Option Bool)
  state : Option GripperState
  (open_to_mm seconds : Option K)
  ticks : Option ℕ
  duration_s : K

def GRIPPER_SETTLE_TICKS : K := 32

def segmentLabel (label : String) (chunk of : ℕ) : String :=
  label ++ " [" ++ toString chunk ++ "/" ++ toString of ++ "]"

/-- `Number(v.toFixed(d))` -/
def round (v : K) (d : ℕ) : K :=
  let nearest : K := ⌊|v| * 10 ^ d + 1 / 2⌋ / 10 ^ d
  if v < 0 then -nearest else nearest

def matmul (a b : Mat3 K) : Mat3 K :=
  fun i j => a i 0 * b 0 j + a i 1 * b 1 j + a i 2 * b 2 j

/-- The rotation by `angle` (rad) about `axis`, right-handed (Rodrigues). -/
def rotationAbout (js : Js K) (axis : Vec3 K) (angle : K) : Except String (Mat3 K) :=
  match unit js axis with
  | .error said => .error said
  | .ok axis =>
    let x := axis 0
    let y := axis 1
    let z := axis 2
    let c := js.cos angle
    let s := js.sin angle
    let C := 1 - c
    .ok
      ![![c + x * x * C, x * y * C - z * s, x * z * C + y * s],
        ![y * x * C + z * s, c + y * y * C, y * z * C - x * s],
        ![z * x * C - y * s, z * y * C + x * s, c + z * z * C]]

/-- The most one tick moves (m) or turns (rad) toward a segment's goal. -/
def tickLimit (d : Delta K) (caps : Caps K) : K :=
  min
    (if d.kind = .rotate then caps.max_rotation_rad else caps.max_translation_m)
    (d.speed * DT)

def Segment.bare (kind : DeltaKind) (label : String) (duration_s : K) : Segment K where
  kind := kind
  chunk := 1
  of := 1
  label := label
  goal_position_m := none
  goal_rotation := none
  axis := none
  distance_m := none
  angle_rad := none
  speed := none
  max_step := none
  push := none
  stop_on_contact := none
  state := none
  open_to_mm := none
  seconds := none
  ticks := none
  duration_s := duration_s

/-- Where the `i`th of `n` segments ends. -/
def goalOf (js : Js K) (d : Delta K) (axis : Vec3 K) (start : Pose K)
    (n i : ℕ) : Except String (Pose K) :=
  if d.kind = .rotate then
    match rotationAbout js axis (d.magnitude * i / n) with
    | .error said => .error said
    | .ok turn =>
      .ok
        { position_m := start.position_m
          rotation := matmul turn start.rotation }
  else
    .ok
      { position_m := start.position_m + (d.magnitude * i / n) • axis
        rotation := start.rotation }

/-- The `i`th of `n` segments. -/
def motionSegment (d : Delta K) (axis : Vec3 K) (caps : Caps K) (n i : ℕ)
    (goal : Pose K) : Segment K :=
  let part := d.magnitude / n
  { kind := d.kind
    chunk := i
    of := n
    label := segmentLabel d.label i n
    goal_position_m := some goal.position_m
    goal_rotation := some goal.rotation
    axis := some fun k => round (axis k) 4
    distance_m := if d.kind = .rotate then none else some part
    angle_rad := if d.kind = .rotate then some part else none
    speed := some d.speed
    max_step := some (tickLimit d caps)
    push := some d.push
    stop_on_contact := some (d.stop_on_contact || d.push)
    state := none
    open_to_mm := none
    seconds := none
    ticks := none
    duration_s := max DT (part / d.speed) }

def Delta.limit (d : Delta K) (caps : Caps K) : K :=
  if d.kind = .rotate then caps.max_rotation_rad else caps.max_translation_m

def motionSegments (js : Js K) (d : Delta K) (start : Pose K) (caps : Caps K) :
    Except String (List (Segment K)) :=
  match d.axis with
  | none => .error "Cannot read properties of undefined (reading '0')"
  | some axis =>
    let n := pieces d.magnitude (d.limit caps)
    (List.range n).mapM fun k =>
      match goalOf js d axis start n (k + 1) with
      | .error said => .error said
      | .ok goal => .ok (motionSegment d axis caps n (k + 1) goal)

def segmentsFor (js : Js K) (d : Delta K) (start : Pose K) (caps : Caps K) :
    Except String (List (Segment K)) :=
  match d.kind with
  | .gripper =>
    .ok
      [{ Segment.bare .gripper d.label (GRIPPER_SETTLE_TICKS * DT) with
          state := d.gripper_state
          open_to_mm := d.open_to_mm }]
  | .wait =>
    let seconds := d.seconds.getD 0
    .ok
      [{ Segment.bare .wait d.label seconds with
          seconds := d.seconds
          ticks := some (max 1 ⌊seconds / DT⌋.toNat) }]
  | .home => .ok [Segment.bare .home d.label (1 / 2)]
  | .translate | .rotate => motionSegments js d start caps

/-! ## Poses along a motion -/

/-- The turn by `angle` about a unit axis. -/
def turnOf (js : Js K) (axis : Vec3 K) (angle : K) : Mat3 K :=
  Matrix.of.symm
    (Turns.turn (Turns.cross (axis 0) (axis 1) (axis 2)) (js.cos angle) (js.sin angle))

/-- Where a motion has brought the tool after `t` (m or rad). -/
def Delta.poseAt (js : Js K) (d : Delta K) (axis : Vec3 K) (start : Pose K) (t : K) : Pose K :=
  if d.kind = .rotate then
    { position_m := start.position_m
      rotation := matmul (turnOf js axis t) start.rotation }
  else
    { position_m := start.position_m + t • axis
      rotation := start.rotation }

def Segment.Reaches (segment : Segment K) (goal : Pose K) : Prop :=
  segment.goal_position_m = some goal.position_m ∧ segment.goal_rotation = some goal.rotation

/-- `after` is `before` moved by `t` along the axis, or turned by `t` about
it. -/
def Delta.Leads (js : Js K) (d : Delta K) (axis : Vec3 K) (t : K) (before after : Pose K) : Prop :=
  if d.kind = .rotate then
    after.position_m = before.position_m ∧
      ∃ turn, rotationAbout js axis t = .ok turn ∧ after.rotation = matmul turn before.rotation
  else
    after.position_m = before.position_m + t • axis ∧ after.rotation = before.rotation

/-- The segments lead in equal parts from where the delta starts to where it
ends; a part is within the limit but for the tolerance of the cut. -/
structure CutEvenly (js : Js K) (d : Delta K) (axis : Vec3 K) (start : Pose K)
    (caps : Caps K) (goal : ℕ → Pose K) (part : K) (segments : List (Segment K)) : Prop where
  starts : goal 0 = start
  some : segments ≠ []
  reaches : ∀ (i : ℕ) (segment : Segment K), segments[i]? = .some segment →
    segment.kind = d.kind ∧ segment.Reaches (goal (i + 1))
  leads : ∀ i < segments.length, d.Leads js axis part (goal i) (goal (i + 1))
  ends : d.Leads js axis d.magnitude start (goal segments.length)
  whole : part * segments.length = d.magnitude
  positive : 0 < part
  within : part ≤ d.limit caps * (1 + 1 / 10 ^ 9)

def Segmented (js : Js K) (d : Delta K) (start : Pose K) (caps : Caps K)
    (segments : List (Segment K)) : Prop :=
  match d.kind with
  | .translate | .rotate =>
    ∃ axis goal part, d.axis = some axis ∧ CutEvenly js d axis start caps goal part segments
  | kind => ∃ segment, segments = [segment] ∧ segment.kind = kind

end Definitions

section

variable {K : Type} [Field K] [LinearOrder K] [IsStrictOrderedRing K]
  [FloorRing K] {js : Js K}

structure Circular (js : Js K) : Prop where
  cos_zero : js.cos 0 = 1
  sin_zero : js.sin 0 = 0
  cos_add : ∀ a b, js.cos (a + b) = js.cos a * js.cos b - js.sin a * js.sin b
  sin_add : ∀ a b, js.sin (a + b) = js.sin a * js.cos b + js.cos a * js.sin b

theorem le_pieces (total limit : K) : |total| / limit - 1 / 10 ^ 9 ≤ pieces total limit := by
  have ceil := Int.le_ceil (|total| / limit - 1 / 10 ^ 9)
  have nat := Int.self_le_toNat ⌈|total| / limit - 1 / 10 ^ 9⌉
  have larger : ⌈|total| / limit - 1 / 10 ^ 9⌉.toNat ≤ pieces total limit := le_max_right _ _
  have chained : ⌈|total| / limit - 1 / 10 ^ 9⌉ ≤ (pieces total limit : ℤ) := by omega
  exact le_trans ceil (by exact_mod_cast chained)

theorem part_le {total limit : K} (nonneg : 0 ≤ total) (positive : 0 < limit) :
    total / pieces total limit ≤ limit * (1 + 1 / 10 ^ 9) := by
  have some : (1 : K) ≤ pieces total limit := by exact_mod_cast pieces_pos total limit
  have enough := le_pieces total limit
  rw [abs_of_nonneg nonneg, sub_le_iff_le_add, div_le_iff₀ positive] at enough
  rw [div_le_iff₀ (by linarith)]
  have slack : (1 : K) / 10 ^ 9 ≤ 1 / 10 ^ 9 * pieces total limit := by
    have tiny : (0 : K) ≤ 1 / 10 ^ 9 := by positivity
    nlinarith
  calc
    total ≤ (pieces total limit + 1 / 10 ^ 9) * limit := enough
    _ ≤ (pieces total limit + 1 / 10 ^ 9 * pieces total limit) * limit := by gcongr
    _ = limit * (1 + 1 / 10 ^ 9) * pieces total limit := by ring

variable {axis : Vec3 K}

theorem unit_of_unit (isRoot : Rays.IsSquareRoot js.sqrt) (isUnit : dot axis axis = 1) :
    unit js axis = .ok axis := by
  have isNorm : norm js axis = 1 := by
    have root := isRoot.of_square (zero_le_one : (0 : K) ≤ 1)
    rw [mul_one] at root
    rw [norm, isUnit, root]
  have large : ¬ (1 : K) ≤ 1 / 10 ^ 12 := by norm_num
  rw [unit]
  simp only [isNorm, if_neg large, div_one, one_smul]

theorem rotationAbout_eq (isRoot : Rays.IsSquareRoot js.sqrt) (isUnit : dot axis axis = 1)
    (angle : K) : rotationAbout js axis angle = .ok (turnOf js axis angle) := by
  have entries := Turns.turn_cross isUnit (js.cos angle) (js.sin angle)
  rw [rotationAbout, unit_of_unit isRoot isUnit, turnOf, entries]
  rfl

end

section

variable {K : Type} [Field K] {js : Js K}

theorem of_matmul (a b : Mat3 K) : Matrix.of (matmul a b) = Matrix.of a * Matrix.of b := by
  ext i j
  simp [matmul, Matrix.mul_apply, Fin.sum_univ_three]

theorem matmul_assoc (a b c : Mat3 K) : matmul (matmul a b) c = matmul a (matmul b c) := by
  apply Matrix.of.injective
  simp only [of_matmul, mul_assoc]

theorem turnOf_add (circular : Circular js) {axis : Vec3 K} (isUnit : dot axis axis = 1) (a b : K) :
    turnOf js axis (a + b) = matmul (turnOf js axis a) (turnOf js axis b) := by
  have composed :=
    Turns.turn_mul (Turns.cross_cube_of_unit isUnit) (js.cos a) (js.sin a) (js.cos b) (js.sin b)
  apply Matrix.of.injective
  simp only [of_matmul, turnOf, Equiv.apply_symm_apply, composed,
    circular.cos_add, circular.sin_add]

theorem matmul_turnOf_zero (circular : Circular js) (axis : Vec3 K) (rotation : Mat3 K) :
    matmul (turnOf js axis 0) rotation = rotation := by
  apply Matrix.of.injective
  simp [of_matmul, turnOf, Turns.turn, circular.cos_zero, circular.sin_zero]

/-! ## Poses along a motion -/

theorem poseAt_zero (circular : Circular js) (d : Delta K) (axis : Vec3 K) (start : Pose K) :
    d.poseAt js axis start 0 = start := by
  unfold Delta.poseAt
  split
  · simp only [matmul_turnOf_zero circular]
  · simp only [zero_smul, add_zero]

end

section

variable {K : Type} [Field K] [LinearOrder K] [IsStrictOrderedRing K]
  [FloorRing K] {js : Js K} (isRoot : Rays.IsSquareRoot js.sqrt)

include isRoot

variable {axis : Vec3 K}

theorem goalOf_eq (isUnit : dot axis axis = 1) (d : Delta K) (start : Pose K) (n i : ℕ) :
    goalOf js d axis start n i = .ok (d.poseAt js axis start (d.magnitude * i / n)) := by
  unfold goalOf Delta.poseAt
  split
  · rw [rotationAbout_eq isRoot isUnit]
  · rfl

theorem poseAt_leads (circular : Circular js) (isUnit : dot axis axis = 1) (d : Delta K)
    (start : Pose K) (t part : K) :
    d.Leads js axis part (d.poseAt js axis start t) (d.poseAt js axis start (t + part)) := by
  unfold Delta.Leads Delta.poseAt
  split
  · refine ⟨rfl, _, rotationAbout_eq isRoot isUnit part, ?_⟩
    simp only
    rw [add_comm t part, turnOf_add circular isUnit, matmul_assoc]
  · refine ⟨?_, rfl⟩
    simp only
    rw [add_smul, add_assoc]

variable {d : Delta K}

theorem motionSegments_eq
    (isAxis : d.axis = some axis) (isUnit : dot axis axis = 1) (start : Pose K) (caps : Caps K) :
    motionSegments js d start caps =
      .ok
        ((List.range (pieces d.magnitude (d.limit caps))).map fun k =>
          motionSegment d axis caps (pieces d.magnitude (d.limit caps)) (k + 1)
            (d.poseAt js axis start
              (d.magnitude * (k + 1 : ℕ) / pieces d.magnitude (d.limit caps)))) := by
  unfold motionSegments
  simp only [isAxis, goalOf_eq isRoot isUnit]
  exact List.mapM_pure

variable {caps : Caps K}

theorem motionSegments_cut (circular : Circular js) (isAxis : d.axis = some axis)
    (isUnit : dot axis axis = 1) (forward : 0 < d.magnitude) (start : Pose K)
    (limited : 0 < d.limit caps) :
    ∃ segments, motionSegments js d start caps = .ok segments ∧
      CutEvenly js d axis start caps
        (fun i => d.poseAt js axis start (d.magnitude * i / pieces d.magnitude (d.limit caps)))
        (d.magnitude / pieces d.magnitude (d.limit caps)) segments := by
  refine ⟨_, motionSegments_eq isRoot isAxis isUnit start caps, ?_⟩
  have isPos := pieces_pos d.magnitude (d.limit caps)
  have partWithin := part_le forward.le limited
  generalize pieces d.magnitude (d.limit caps) = n at isPos partWithin ⊢
  have notZero : (n : K) ≠ 0 := by exact_mod_cast isPos.ne'
  have next (i : ℕ) : d.magnitude * (i + 1 : ℕ) / n = d.magnitude * i / n + d.magnitude / n := by
    push_cast
    ring
  have atEnd : d.magnitude * n / n = 0 + d.magnitude := by
    rw [mul_div_cancel_right₀ _ notZero, zero_add]
  refine
    { starts := ?_, some := ?_, reaches := ?_, leads := ?_, ends := ?_,
      whole := ?_, positive := ?_, within := partWithin }
  · simp only [Nat.cast_zero, mul_zero, zero_div]
    exact poseAt_zero circular d axis start
  · simpa using isPos.ne'
  · intro i segment found
    rw [List.getElem?_map, Option.map_eq_some_iff] at found
    obtain ⟨k, inRange, isSegment⟩ := found
    have isIndex : i = k := by
      rw [List.getElem?_eq_some_iff] at inRange
      obtain ⟨inside, isK⟩ := inRange
      simpa using isK
    rw [← isSegment, isIndex]
    exact ⟨rfl, rfl, rfl⟩
  · intro i inside
    simp only [next]
    exact poseAt_leads isRoot circular isUnit d start _ _
  · simp only [List.length_map, List.length_range, atEnd]
    have led := poseAt_leads isRoot circular isUnit d start 0 d.magnitude
    rwa [poseAt_zero circular] at led
  · simp only [List.length_map, List.length_range]
    exact div_mul_cancel₀ _ notZero
  · exact div_pos forward (by exact_mod_cast isPos)

/-- A delta that goes forward along a unit axis is cut evenly; the others are
one segment. -/
theorem segmentsFor_segmented (circular : Circular js) (sound : d.Sound) (start : Pose K)
    (limited : 0 < d.limit caps) :
    ∃ segments, segmentsFor js d start caps = .ok segments ∧
      Segmented js d start caps segments := by
  have motion (moves : d.kind = .translate ∨ d.kind = .rotate) :
      ∃ segments, motionSegments js d start caps = .ok segments ∧
        ∃ axis goal part, d.axis = some axis ∧
          CutEvenly js d axis start caps goal part segments := by
    obtain ⟨axis, isAxis, isUnit, forward⟩ := sound moves
    obtain ⟨segments, cut, evenly⟩ :=
      motionSegments_cut isRoot circular isAxis isUnit forward start limited
    exact ⟨segments, cut, axis, _, _, isAxis, evenly⟩
  unfold segmentsFor Segmented
  cases isKind : d.kind with
  | translate => exact motion (Or.inl isKind)
  | rotate => exact motion (Or.inr isKind)
  | gripper | home | wait => exact ⟨_, rfl, _, rfl, rfl⟩

end

end PiEmbodied.Motormind.Command
