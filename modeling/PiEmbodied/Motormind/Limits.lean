import PiEmbodied.Motormind.Command

/-!
# The limits of one command

An accepted command is the proposed one, or the proposed one up to a
translation that was cut.  Its translations stay within the circle, its turns
within a quarter turn, nothing moves after a home, and the limits leave it as
it is.
-/

namespace PiEmbodied.Motormind.Command

section

variable {K : Type} [Field K] [LinearOrder K]

/-! ## Distances -/

theorem dot_zero_left (u : Vec3 K) : dot 0 u = 0 := by
  simp [dot]

variable {axis : Vec3 K}

theorem dot_add_smul (isUnit : dot axis axis = 1) (here : Vec3 K) (t : K) :
    dot (here + t • axis) (here + t • axis) = Rays.squareAt (dot here here) (dot here axis) t := by
  have expanded :
      dot (here + t • axis) (here + t • axis) =
        dot here here + 2 * dot here axis * t + t * t * dot axis axis := by
    simp only [dot, Pi.add_apply, Pi.smul_apply, smul_eq_mul]
    ring
  rw [expanded, isUnit, Rays.squareAt, mul_one]

theorem dot_self_nonneg [IsStrictOrderedRing K] (here : Vec3 K) : 0 ≤ dot here here := by
  simp only [dot]
  have first := mul_self_nonneg (here 0)
  have second := mul_self_nonneg (here 1)
  have third := mul_self_nonneg (here 2)
  linarith

theorem cauchy_of_unit [IsStrictOrderedRing K] (isUnit : dot axis axis = 1) (here : Vec3 K) :
    dot here axis * dot here axis ≤ dot here here := by
  have distance := dot_self_nonneg (here + (-dot here axis) • axis)
  rw [dot_add_smul isUnit, Rays.squareAt] at distance
  linarith

end

section

variable {K : Type} [Field K] [LinearOrder K] [FloorRing K] {js : Js K}

/-! ## Where the translations lead -/

def travelled (deltas : List (Delta K)) : Vec3 K :=
  (deltas.map Delta.shift).sum

@[simp]
theorem travelled_nil : travelled ([] : List (Delta K)) = 0 := by
  simp [travelled]

@[simp]
theorem travelled_append (first second : List (Delta K)) :
    travelled (first ++ second) = travelled first + travelled second := by
  simp [travelled]

@[simp]
theorem travelled_singleton (d : Delta K) : travelled [d] = d.shift := by
  simp [travelled]

def Within (js : Js K) (limit : K) (deltas : List (Delta K)) : Prop :=
  ∀ k, norm js (travelled (deltas.take k)) ≤ limit

variable {limit : K} {deltas : List (Delta K)} {d : Delta K}

theorem within_snoc (within : Within js limit deltas)
    (last : norm js (travelled deltas + d.shift) ≤ limit) : Within js limit (deltas ++ [d]) := by
  intro k
  rcases Nat.lt_or_ge deltas.length k with past | inside
  · rw [List.take_of_length_le (by simp; omega)]
    simpa using last
  · rw [List.take_append_of_le_length inside]
    exact within k

theorem Within.whole (within : Within js limit deltas) : norm js (travelled deltas) ≤ limit := by
  have whole := within deltas.length
  rwa [List.take_length] at whole

theorem Within.front {limit : K} {first second : List (Delta K)}
    (within : Within js limit (first ++ second)) : Within js limit first := by
  intro k
  rcases Nat.lt_or_ge first.length k with past | inside
  · have whole := within first.length
    rw [List.take_left] at whole
    rwa [List.take_of_length_le (by omega)]
  · have atK := within k
    rwa [List.take_append_of_le_length inside] at atK

@[simp]
theorem shift_of_none (still : d.translation = none) : d.shift = 0 := by
  simp [Delta.shift, still]

variable {axis : Vec3 K}

theorem shift_of_some (moves : d.translation = some axis) : d.shift = d.magnitude • axis := by
  simp [Delta.shift, moves]

theorem kind_of_translation (moves : d.translation = some axis) :
    d.kind = .translate ∧ d.axis = some axis := by
  simpa [Delta.translation] using moves

theorem Delta.Sound.translation (sound : d.Sound) (moves : d.translation = some axis) :
    dot axis axis = 1 ∧ 0 < d.magnitude := by
  have isKind := kind_of_translation moves
  obtain ⟨found, isAxis, isUnit, positive⟩ := sound (Or.inl isKind.1)
  have same : found = axis := Option.some.inj (isAxis.symm.trans isKind.2)
  exact ⟨same ▸ isUnit, positive⟩

@[simp]
theorem cut_magnitude (d : Delta K) (fits : K) (dropped : ℕ) (said advice : String) :
    (d.cut fits dropped said advice).magnitude = fits :=
  rfl

@[simp]
theorem cut_translation (d : Delta K) (fits : K) (dropped : ℕ) (said advice : String) :
    (d.cut fits dropped said advice).translation = d.translation :=
  rfl

theorem shorten_at (done rest : List (Delta K)) (d : Delta K) (fits : K) (said advice : String) :
    shorten (done ++ d :: rest) done.length fits said advice =
      done ++ [d.cut fits rest.length said advice] := by
  have isThere : (done ++ d :: rest)[done.length]? = some d := by simp
  have dropped : (done ++ d :: rest).length - done.length - 1 = rest.length := by simp
  simp only [shorten, isThere, dropped, List.take_left]

inductive UpToCut (deltas : List (Delta K)) : List (Delta K) → Prop
  | whole : UpToCut deltas deltas
  | cut {done rest : List (Delta K)} {d : Delta K} {axis : Vec3 K}
      {fits : K} {said advice : String}
      (split : deltas = done ++ d :: rest)
      (moves : d.translation = some axis)
      (positive : 0 < fits)
      (shorter : fits < d.magnitude) :
      UpToCut deltas (done ++ [d.cut fits rest.length said advice])

/-! ## The circle -/

def circle : K :=
  MAX_COMPOSITE_MM / 1000 + 1 / 10 ^ 12

section

variable [IsStrictOrderedRing K]

theorem composite_nonneg : (0 : K) ≤ MAX_COMPOSITE_MM / 1000 := by
  norm_num [MAX_COMPOSITE_MM]

theorem composite_le_circle : (MAX_COMPOSITE_MM / 1000 : K) ≤ circle := by
  norm_num [circle, MAX_COMPOSITE_MM]

variable {deltas : List (Delta K)}

theorem limitMoves_of_within (within : Within js circle deltas) (rest : List (Delta K)) :
    ∀ done : List (Delta K), deltas = done ++ rest →
      limitMoves js deltas done.length (travelled done) rest = .ok deltas := by
  induction rest with
  | nil =>
    intro done split
    rw [limitMoves]
  | cons d rest ih =>
    intro done split
    have splitLater : deltas = (done ++ [d]) ++ rest := by simpa using split
    have later := ih (done ++ [d]) splitLater
    have front : Within js circle (done ++ [d]) := by
      rw [splitLater] at within
      exact within.front
    rw [List.length_append, List.length_singleton, travelled_append, travelled_singleton] at later
    cases moves : d.translation with
    | none =>
      rw [shift_of_none moves, add_zero] at later
      simpa only [limitMoves, moves] using later
    | some axis =>
      have stop := front.whole
      rw [travelled_append, travelled_singleton] at stop
      rw [shift_of_some moves] at later stop
      rw [circle] at stop
      simp only [limitMoves, moves]
      rw [if_pos stop]
      exact later

variable (isRoot : Rays.IsSquareRoot js.sqrt)

include isRoot

theorem norm_zero : norm js 0 = 0 := by
  have root := isRoot.of_square (le_refl (0 : K))
  simpa [norm, dot] using root

theorem limitMoves_fits {kept : List (Delta K)} (sound : ∀ d ∈ deltas, d.Sound)
    (rest : List (Delta K)) :
    ∀ done : List (Delta K), deltas = done ++ rest → Within js circle done →
      limitMoves js deltas done.length (travelled done) rest = .ok kept →
      UpToCut deltas kept ∧ Within js circle kept := by
  induction rest with
  | nil =>
    intro done split within accepted
    rw [limitMoves] at accepted
    rw [List.append_nil] at split
    have same : deltas = kept := Except.ok.inj accepted
    rw [← same]
    exact ⟨.whole, split ▸ within⟩
  | cons d rest ih =>
    intro done split within accepted
    have splitLater : deltas = (done ++ [d]) ++ rest := by simpa using split
    have later := ih (done ++ [d]) splitLater
    rw [List.length_append, List.length_singleton, travelled_append, travelled_singleton] at later
    cases moves : d.translation with
    | none =>
      simp only [limitMoves, moves] at accepted
      rw [shift_of_none moves, add_zero] at later
      apply later _ accepted
      apply within_snoc within
      rw [shift_of_none moves, add_zero]
      exact within.whole
    | some axis =>
      have isMember : d ∈ deltas := by simp [split]
      have isSound := (sound d isMember).translation moves
      simp only [limitMoves, moves] at accepted
      rw [shift_of_some moves] at later
      by_cases fitsWhole :
          norm js (travelled done + d.magnitude • axis) ≤ MAX_COMPOSITE_MM / 1000 + 1 / 10 ^ 12
      · rw [if_pos fitsWhole] at accepted
        apply later _ accepted
        apply within_snoc within
        rw [shift_of_some moves]
        exact fitsWhole
      · rw [if_neg fitsWhole] at accepted
        generalize fitsIs :
          Rays.exit js.sqrt (dot (travelled done) (travelled done))
            (dot (travelled done) axis) (MAX_COMPOSITE_MM / 1000) =
            fits at accepted
        by_cases tooLittle : fits * 1000 < MIN_FIT_MM
        · rw [if_pos tooLittle] at accepted
          cases accepted
        · rw [if_neg tooLittle, split, shorten_at] at accepted
          have isKept := Except.ok.inj accepted
          have cauchy := cauchy_of_unit isSound.1 (travelled done)
          have inside : max (norm js (travelled done)) (MAX_COMPOSITE_MM / 1000) ≤ circle :=
            max_le within.whole composite_le_circle
          have cutStop : norm js (travelled done + fits • axis) ≤ circle := by
            have stops :=
              Rays.distance_le_of_le_exit isRoot cauchy composite_nonneg
                (Rays.exit_nonneg js.sqrt _ _ _) le_rfl
            rw [fitsIs, ← dot_add_smul isSound.1] at stops
            exact le_trans stops inside
          have shorter : fits < d.magnitude := by
            have passed :=
              Rays.exit_add_lt isRoot (t := d.magnitude) 0
                cauchy composite_nonneg le_rfl isSound.2.le
            rw [fitsIs, add_zero, add_zero, ← dot_add_smul isSound.1] at passed
            exact passed (lt_of_le_of_lt inside (not_le.1 fitsWhole))
          have positive : 0 < fits := by
            rw [MIN_FIT_MM] at tooLittle
            linarith
          rw [← isKept]
          constructor
          · exact .cut split moves positive shorter
          · apply within_snoc within
            rw [shift_of_some (d := d.cut _ _ _ _) moves]
            exact cutStop

end

/-! ## Turns and homes -/

section

variable [IsStrictOrderedRing K]

theorem turned_nonneg (piPos : 0 < js.pi) (deltas : List (Delta K)) : 0 ≤ turned js deltas := by
  apply List.sum_nonneg
  intro angle isAngle
  obtain ⟨d, _, rfl⟩ := List.mem_map.1 isAngle
  have magnitude := abs_nonneg d.magnitude
  positivity

theorem turned_append (first second : List (Delta K)) :
    turned js (first ++ second) = turned js first + turned js second := by
  simp [turned]

variable {d : Delta K}

theorem turned_translation {axis : Vec3 K} (moves : d.translation = some axis) :
    turned js [d] = 0 := by
  simp [turned, (kind_of_translation moves).1]

variable {deltas : List (Delta K)}

theorem turned_le_of_upToCut
    (piPos : 0 < js.pi) {kept : List (Delta K)} (upTo : UpToCut deltas kept) :
    turned js kept ≤ turned js deltas := by
  cases upTo with
  | whole => exact le_rfl
  | cut split moves positive shorter =>
    rename_i done rest d axis fits said advice
    have dropped := turned_nonneg piPos (d :: rest)
    have cutTurns : turned js [d.cut fits rest.length said advice] = 0 :=
      turned_translation (d := d.cut _ _ _ _) moves
    rw [split, turned_append, turned_append, cutTurns]
    linarith

theorem turn_le_turned (piPos : 0 < js.pi) (member : d ∈ deltas) (turns : d.kind = .rotate) :
    |d.magnitude| * 180 / js.pi ≤ turned js deltas := by
  apply List.single_le_sum
  · intro angle isAngle
    obtain ⟨other, _, rfl⟩ := List.mem_map.1 isAngle
    have magnitude := abs_nonneg other.magnitude
    positivity
  · apply List.mem_map_of_mem
    exact List.mem_filter.2 ⟨member, by simp [turns]⟩

end

def EndsAtHome (deltas : List (Delta K)) : Prop :=
  ∀ before home after, deltas = before ++ home :: after → home.kind = .home →
    ∀ d ∈ after, d.kind ≠ .translate ∧ d.kind ≠ .rotate

theorem movesAfterHome_eq_false (deltas : List (Delta K)) :
    movesAfterHome deltas = false ↔ EndsAtHome deltas := by
  induction deltas with
  | nil => simp [movesAfterHome, EndsAtHome]
  | cons d rest ih =>
    rw [movesAfterHome]
    by_cases isHome : d.kind = .home
    · rw [if_pos isHome]
      constructor
      · intro still before home after split homes other member
        have isLater : other ∈ rest := by
          cases before with
          | nil =>
            injection split with _ sameRest
            rw [sameRest]
            exact member
          | cons first more =>
            injection split with _ sameRest
            rw [sameRest]
            simp [member]
        have notMoving := List.any_eq_false.1 still other isLater
        simpa using notMoving
      · intro ends
        apply List.any_eq_false.2
        intro other member
        have notMoving := ends [] d rest (List.nil_append _).symm isHome other member
        simpa using notMoving
    · rw [if_neg isHome, ih]
      constructor
      · intro ends before home after split homes
        cases before with
        | nil =>
          injection split with same _
          exact absurd (same ▸ homes) isHome
        | cons first more =>
          injection split with _ sameRest
          exact ends more home after sameRest homes
      · intro ends before home after split homes
        apply ends (d :: before) home after _ homes
        rw [split, List.cons_append]

theorem endsAtHome_of_upToCut {kept : List (Delta K)} (ends : EndsAtHome deltas)
    (upTo : UpToCut deltas kept) : EndsAtHome kept := by
  cases upTo with
  | whole => exact ends
  | cut split moves positive shorter =>
    rename_i done rest d axis fits said advice
    intro before home after isSplit homes
    rcases List.eq_nil_or_concat after with isNil | ⟨front, last, isSnoc⟩
    · simp [isNil]
    · rw [List.concat_eq_append] at isSnoc
      rw [isSnoc, ← List.cons_append, ← List.append_assoc] at isSplit
      obtain ⟨isDone, isLast⟩ := List.append_inj' isSplit rfl
      -- the cut translation would come after the home in `deltas` too
      have notMoving := ends before home (front ++ d :: rest) (by rw [split, isDone]; simp) homes
      exact absurd (kind_of_translation moves).1 (notMoving d (by simp)).1

section

variable [IsStrictOrderedRing K]

structure Guarded (js : Js K) (proposal kept : List (Delta K)) : Prop where
  upTo : UpToCut proposal kept
  within : Within js circle kept
  turns :
    ∀ d ∈ kept, d.kind = .rotate →
      |d.magnitude| * 180 / js.pi ≤ MAX_TURN_DEG + 1 / 10 ^ 9
  home : EndsAtHome kept
  again : commandLimits js kept = .ok kept

theorem commandLimits_of_guarded {deltas : List (Delta K)} (within : Within js circle deltas)
    (turns : turned js deltas ≤ MAX_TURN_DEG + 1 / 10 ^ 9)
    (home : EndsAtHome deltas) : commandLimits js deltas = .ok deltas := by
  have still := (movesAfterHome_eq_false deltas).2 home
  have moves := limitMoves_of_within within deltas [] (List.nil_append _).symm
  rw [List.length_nil, travelled_nil] at moves
  simp only [commandLimits]
  rw [if_neg (not_lt.2 turns), still]
  exact moves

theorem guarded_of_commandLimits (isRoot : Rays.IsSquareRoot js.sqrt) (piPos : 0 < js.pi)
    {proposal kept : List (Delta K)} (sound : ∀ d ∈ proposal, d.Sound)
    (accepted : commandLimits js proposal = .ok kept) : Guarded js proposal kept := by
  simp only [commandLimits] at accepted
  by_cases turnsTooFar : MAX_TURN_DEG + 1 / 10 ^ 9 < turned js proposal
  · rw [if_pos turnsTooFar] at accepted
    cases accepted
  · rw [if_neg turnsTooFar] at accepted
    by_cases moves : movesAfterHome proposal = true
    · rw [if_pos moves] at accepted
      cases accepted
    · rw [if_neg moves] at accepted
      have nothingYet : Within js circle ([] : List (Delta K)) := by
        intro k
        rw [List.take_nil, travelled_nil, norm_zero isRoot]
        exact le_trans composite_nonneg composite_le_circle
      obtain ⟨upTo, within⟩ :=
        limitMoves_fits isRoot sound proposal [] (List.nil_append _).symm nothingYet accepted
      have turns : turned js kept ≤ MAX_TURN_DEG + 1 / 10 ^ 9 :=
        le_trans (turned_le_of_upToCut piPos upTo) (not_lt.1 turnsTooFar)
      have home : EndsAtHome kept :=
        endsAtHome_of_upToCut
          ((movesAfterHome_eq_false proposal).1 (by simpa using moves)) upTo
      refine ⟨upTo, within, ?_, home, ?_⟩
      · intro d member isTurn
        exact le_trans (turn_le_turned piPos member isTurn) turns
      · exact commandLimits_of_guarded within turns home

end

/-! ## Actions -/

theorem bare_sound (a : Action K) {kind : DeltaKind}
    (still : kind ≠ .translate ∧ kind ≠ .rotate) : (a.bare js kind).Sound := by
  intro moves
  rcases moves with translates | rotates
  · exact absurd translates still.1
  · exact absurd rotates still.2

section

variable [IsStrictOrderedRing K] {axis : Vec3 K}

theorem unit_sound (isRoot : Rays.IsSquareRoot js.sqrt) {given : Vec3 K}
    (isUnit : unit js given = .ok axis) : dot axis axis = 1 := by
  simp only [unit] at isUnit
  by_cases short : norm js given ≤ 1 / 10 ^ 12
  · rw [if_pos short] at isUnit
    cases isUnit
  · rw [if_neg short] at isUnit
    have scaled : (1 / norm js given) • given = axis := Except.ok.inj isUnit
    have positive : 0 < norm js given := by
      have longer := not_le.1 short
      have tolerance : (0 : K) < 1 / 10 ^ 12 := by positivity
      linarith
    have square := isRoot.square _ (dot_self_nonneg given)
    have expanded : dot axis axis = 1 / norm js given * (1 / norm js given) * dot given given := by
      rw [← scaled]
      simp only [dot, Pi.smul_apply, smul_eq_mul]
      ring
    rw [expanded, ← square, ← norm]
    field_simp

variable {word : String}

theorem mem_of_lookup {α : Type} {table : List (String × α)} {value : α}
    (isFound : table.lookup word = some value) : (word, value) ∈ table := by
  obtain ⟨before, after, split, _⟩ := List.lookup_eq_some_iff.1 isFound
  simp [split]

theorem translationAxis_sound (isAxis : translationAxis word = .ok axis) : dot axis axis = 1 := by
  simp only [translationAxis] at isAxis
  split at isAxis
  · rename_i found isFound
    have same : found = axis := Except.ok.inj isAxis
    have member := mem_of_lookup isFound
    rw [← same]
    simp only [TRANSLATION, List.mem_cons, Prod.mk.injEq, List.not_mem_nil, or_false] at member
    rcases member with
      ⟨_, rfl⟩ | ⟨_, rfl⟩ | ⟨_, rfl⟩ | ⟨_, rfl⟩ | ⟨_, rfl⟩ | ⟨_, rfl⟩ <;>
      simp [dot]
  · cases isAxis

theorem rotationAxis_sound (isAxis : rotationAxis word = .ok axis) : dot axis axis = 1 := by
  simp only [rotationAxis] at isAxis
  split at isAxis
  · rename_i found isFound
    have same : found = axis := Except.ok.inj isAxis
    have member := mem_of_lookup isFound
    rw [← same]
    simp only [ROTATION, List.mem_cons, Prod.mk.injEq, List.not_mem_nil, or_false] at member
    rcases member with
      ⟨_, rfl⟩ | ⟨_, rfl⟩ | ⟨_, rfl⟩ | ⟨_, rfl⟩ | ⟨_, rfl⟩ | ⟨_, rfl⟩ <;>
      simp [dot]
  · cases isAxis

variable {a : Action K}

theorem axisOf_sound (isRoot : Rays.IsSquareRoot js.sqrt) {named : String → Except String (Vec3 K)}
    (namesUnit : ∀ word axis, named word = .ok axis → dot axis axis = 1)
    (isAxis : axisOf js a named = .ok axis) : dot axis axis = 1 := by
  simp only [axisOf] at isAxis
  split at isAxis
  · rename_i found isFound
    have same : found = axis := Except.ok.inj isAxis
    rw [← same]
    split at isFound
    · exact unit_sound isRoot isFound
    · exact namesUnit _ found isFound
  · cases isAxis

variable {caps : Caps K} {d : Delta K}

section

variable (isRoot : Rays.IsSquareRoot js.sqrt)
include isRoot

theorem toTranslation_sound (parsed : a.Parsed) (isMove : a.type = .move)
    (converted : toTranslation js a caps = .ok d) : d.Sound := by
  simp only [toTranslation] at converted
  split at converted
  · cases converted
  · split at converted
    · cases converted
    · split at converted
      · cases converted
      · rename_i axis isAxis
        have isDelta := Except.ok.inj converted
        obtain ⟨mm, isDistance, positive⟩ := parsed.distance isMove
        intro _
        refine ⟨axis, ?_, ?_, ?_⟩
        · rw [← isDelta]
        · exact axisOf_sound isRoot (fun _ _ => translationAxis_sound) isAxis
        · rw [← isDelta, isDistance]
          exact div_pos positive (by norm_num)

theorem toRotation_sound (piPos : 0 < js.pi) (parsed : a.Parsed) (isRotate : a.type = .rotate)
    (converted : toRotation js a caps = .ok d) : d.Sound := by
  simp only [toRotation] at converted
  split at converted
  · cases converted
  · split at converted
    · cases converted
    · rename_i axis isAxis
      have isDelta := Except.ok.inj converted
      obtain ⟨deg, isAngle, positive⟩ := parsed.angle isRotate
      intro _
      refine ⟨axis, ?_, ?_, ?_⟩
      · rw [← isDelta]
      · exact axisOf_sound isRoot (fun _ _ => rotationAxis_sound) isAxis
      · rw [← isDelta, isAngle]
        exact div_pos (mul_pos positive piPos) (by norm_num)

theorem toDelta_sound (piPos : 0 < js.pi) (parsed : a.Parsed)
    (converted : toDelta js a caps = .ok d) : d.Sound := by
  cases isType : a.type with
  | move =>
    simp only [toDelta, isType] at converted
    exact toTranslation_sound isRoot parsed isType converted
  | rotate =>
    simp only [toDelta, isType] at converted
    exact toRotation_sound isRoot piPos parsed isType converted
  | gripper =>
    simp only [toDelta, isType] at converted
    rw [← Except.ok.inj converted]
    exact @bare_sound K _ _ _ js a .gripper (by simp)
  | home =>
    simp only [toDelta, isType] at converted
    split at converted
    · rw [← Except.ok.inj converted]
      exact bare_sound a (by simp)
    · cases converted
  | wait =>
    simp only [toDelta, isType] at converted
    rw [← Except.ok.inj converted]
    exact @bare_sound K _ _ _ js a .wait (by simp)

end

end

end

/-! ## Over the reals -/

def plain {K : Type} : Texts K where
  number := fun _ => ""
  pyFloat := fun _ => ""

/-- A move forward by `m`. -/
def forward {K : Type} [Field K] (m : K) : Delta K where
  index := 0
  kind := .translate
  axis := some ![1, 0, 0]
  magnitude := m
  speed := 1 / 20
  stop_on_contact := false
  push := false
  gripper_state := none
  open_to_mm := none
  seconds := none
  label := "move forward"
  note := ""

def shortArm {K : Type} [Field K] : Caps K where
  max_translation_m := 1 / 20
  max_rotation_rad := 1 / 4
  max_speed_m_s := 1 / 4
  max_rotation_speed_rad_s := 1
  default_speed_m_s := 1 / 20
  default_rotation_speed_rad_s := 1 / 4
  supports_home := false
  gripper_open_span_m := 2 / 25
  gripper_pad_length_m := 1 / 50
  tilt_reach_deg := 80
  reach_m := 1 / 2
  arrival_tolerance_m := 0

def farOut {K : Type} [Field K] : Pose K where
  position_m := ![1, 0, 0]
  rotation := ![![1, 0, 0], ![0, 1, 0], ![0, 0, 1]]

variable {m : ℝ}

theorem forward_sound (positive : 0 < m) : (forward m).Sound := by
  intro _
  exact ⟨![1, 0, 0], rfl, by simp [dot], positive⟩

theorem dot_forward (m : ℝ) : dot (m • ![1, 0, 0] : Vec3 ℝ) (m • ![1, 0, 0]) = m * m := by
  simp [dot]

theorem forward_limits (positive : 0 < m) (short : m ≤ 2 / 5) :
    commandLimits (reals plain) [forward m] = .ok [forward m] := by
  have stop : norm (reals plain) (0 + m • ![1, 0, 0]) = m := by
    rw [zero_add, norm, dot_forward]
    exact Real.sqrt_mul_self positive.le
  have still : movesAfterHome [forward m] = false := by simp [movesAfterHome, forward]
  have turns : turned (reals plain) [forward m] = 0 := by simp [turned, forward]
  have moves : (forward m).translation = some ![1, 0, 0] := by simp [Delta.translation, forward]
  have inside : m ≤ MAX_COMPOSITE_MM / 1000 + 1 / 10 ^ 12 := by
    rw [MAX_COMPOSITE_MM]
    linarith
  have isMagnitude : (forward m).magnitude = m := by simp [forward]
  simp only [commandLimits, turns, still, limitMoves, moves, isMagnitude, stop]
  rw [if_neg (by norm_num [MAX_TURN_DEG]), if_neg (by simp), if_pos inside]

theorem forward_cut :
    ∃ said advice,
      commandLimits (reals plain) [forward (1 / 2)] =
        .ok [(forward (1 / 2)).cut (2 / 5) 0 said advice] := by
  have stop : norm (reals plain) (0 + (1 / 2 : ℝ) • ![1, 0, 0]) = 1 / 2 := by
    rw [zero_add, norm, dot_forward]
    exact Real.sqrt_mul_self (by norm_num)
  have still : movesAfterHome [forward (1 / 2 : ℝ)] = false := by simp [movesAfterHome, forward]
  have turns : turned (reals plain) [forward (1 / 2)] = 0 := by simp [turned, forward]
  have moves : (forward (1 / 2 : ℝ)).translation = some ![1, 0, 0] := by
    simp [Delta.translation, forward]
  have isMagnitude : (forward (1 / 2 : ℝ)).magnitude = 1 / 2 := by simp [forward]
  have fits : Rays.exit (reals plain).sqrt 0 0 (MAX_COMPOSITE_MM / 1000) = 2 / 5 := by
    norm_num [Rays.exit, MAX_COMPOSITE_MM, reals]
  simp only [commandLimits, turns, still, limitMoves, moves, isMagnitude, stop, dot_zero_left, fits]
  rw [if_neg (by norm_num [MAX_TURN_DEG]), if_neg (by simp),
    if_neg (by norm_num [MAX_COMPOSITE_MM]), if_neg (by norm_num [MIN_FIT_MM])]
  exact ⟨_, _, rfl⟩

end PiEmbodied.Motormind.Command
