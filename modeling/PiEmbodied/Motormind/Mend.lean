import PiEmbodied.Motormind.Limits

/-!
# The menders

The executor inserts a lift before a sideways move over the table, splits a
carry into legs, and splits the first move after a wall grasp into a test and
the rest.  Wherever the jaws act, and at the end, the tool is where the batch
would have had it, but for a lift that no gripper action follows.
-/

namespace PiEmbodied.Motormind.Command

open List (append_assoc cons_append lookup)

section Definitions

variable {K : Type} [Field K] [LinearOrder K] [FloorRing K]

structure Payload (K : Type) where
  (tracking bumped edge : Bool)
  width_mm : Option K

structure SubgoalState (K : Type) where
  /-- `namesSlider(s.target)` -/
  namesSlider : Bool
  /-- `leans(s.subgoal)` -/
  leans : Bool
  /-- `namesEdgePart(s.subgoal)` -/
  namesEdgePart : Bool
  /-- `objectWidthMm(s)` -/
  objectWidthMm : Option K
  startPose : Option (Pose K)
  /-- `located.point` -/
  located : Option (Vec3 K)
  payload : Payload K

structure MendFrame (K : Type) where
  pose : Pose K
  table_z_m : Option K

structure MendOptions (K : Type) where
  gripperOnly : Bool
  heightMm : Option K
  running : Bool

def CLEAR_MM : K := 60
def TRAVERSE_MM : K := 60
def TRAVEL_MM : K := 100
def JAW_PAD_MM : K := 12
def DEFAULT_JAW_HALF_GAP_MM : K := 40
def TILT_REACHES_DEG : K := 80

def LIFT_LABEL : String := "lift over the table"
def DROP_LABEL : String := "back down from over the table"

def carryLegLabel (label : String) (leg legs : ℕ) : String :=
  (if label = "" then "move" else label) ++ " (" ++ toString leg ++ " of " ++
    toString legs ++ ")"

def testLeadLabel (label : String) (mm : K) : String :=
  label ++ " (the first " ++ pyFixed mm 0 ++ " mm)"

def testRestLabel (label : String) : String :=
  label ++ " (the rest)"

def isHorizontal (js : Js K) (pose : Pose K) (caps : Caps K) : Bool :=
  -(pose.rotation 2 2) ≤ js.cos (orElse caps.tilt_reach_deg TILT_REACHES_DEG * js.pi / 180)

def jawHalfGapMm (caps : Caps K) : K :=
  if 0 < caps.gripper_open_span_m then caps.gripper_open_span_m * 1000 / 2
  else DEFAULT_JAW_HALF_GAP_MM

def padMm (caps : Caps K) : K :=
  if 0 < caps.gripper_pad_length_m then caps.gripper_pad_length_m * 1000
  else JAW_PAD_MM

def widerThanJaws (s : SubgoalState K) (caps : Caps K) : Bool :=
  match s.objectWidthMm with
  | some width => 2 * jawHalfGapMm caps < width
  | none => false

/-- How many equal segments `total` takes when one may be at most `limit`. -/
def pieces (total limit : K) : ℕ :=
  max 1 ⌈|total| / limit - 1 / 10 ^ 9⌉.toNat

def horizontalM (js : Js K) (d : Delta K) : K :=
  match d.translation with
  | some axis =>
    if d.push then 0
    else d.magnitude * js.sqrt (axis 0 * axis 0 + axis 1 * axis 1)
  | none => 0

def isSideways (js : Js K) (d : Delta K) : Bool :=
  0 < horizontalM js d

/-! ## The lift -/

inductive Vertical where
  | up | down
deriving DecidableEq

def Vertical.word : Vertical → String
  | .up => "up"
  | .down => "down"

def insertedMove (js : Js K) (direction : Vertical) (mm : K) (caps : Caps K)
    (label : String) : Except String (Delta K) :=
  let move : Action K :=
    { index := -1
      type := .move
      direction := some direction.word
      axis := none
      distance_mm := some mm
      angle_deg := none
      state := none
      width_mm := none
      seconds := none
      speed_mm_s := none
      rot_speed_deg_s := none
      stop_on_contact := none
      note := "" }
  match toDelta js move caps with
  | .error said => .error said
  | .ok d =>
    .ok
      { d with
        label := label
        note := "inserted by the executor: " ++ label }

/-- The last index from `i` on where the test holds, else `best`. -/
def lastWhere {α : Type} (test : α → Bool) : ℕ → ℕ → List α → ℕ
  | _, best, [] => best
  | i, best, item :: rest => lastWhere test (i + 1) (if test item then i else best) rest

/-- How much deltas rise before the first sideways move, mm. -/
def risenMm (deltas : List (Delta K)) : K :=
  (deltas.map fun d =>
    match d.translation with
    | some axis => axis 2 * d.magnitude * 1000
    | none => 0).sum

def topToClear (s : SubgoalState K) (f : MendFrame K) (table : K) (heightMm : Option K) : K :=
  let top :=
    if s.payload.tracking then table
    else
      let height :=
        match heightMm with
        | some mm => mm / 1000
        | none =>
          match s.startPose with
          | some start => start.position_m 2 - 1 / 10 - table
          | none => f.pose.position_m 2 - 1 / 10 - table
      table + max height 0
  match s.located with
  | some point => max top (point 2)
  | none => top

/-- The room under the tool; a held payload that met something has none. -/
def clearanceMm (s : SubgoalState K) (f : MendFrame K) (table : K) (heightMm : Option K) : K :=
  if s.payload.tracking && s.payload.bumped then 0
  else (f.pose.position_m 2 - topToClear s f table heightMm) * 1000

def sidewaysMm (s : SubgoalState K) : K :=
  if s.payload.bumped then 0 else TRAVERSE_MM

/-- The first sideways move, the last one, and how far to lift (mm). -/
structure Lift (K : Type) where
  (first last : ℕ)
  mm : K

def liftFor (js : Js K) (deltas : List (Delta K)) (s : SubgoalState K)
    (f : MendFrame K) (caps : Caps K) (o : MendOptions K) :
    Option (Lift K) :=
  match f.table_z_m with
  | none => none
  | some table =>
    let sideways := (deltas.map fun d => horizontalM js d * 1000).sum
    let first := deltas.findIdx (isSideways js)
    let last := lastWhere (isSideways js) first first (deltas.drop first)
    let before := risenMm (deltas.take first)
    let clearance := clearanceMm s f table o.heightMm
    let lift := TRAVEL_MM - clearance - before
    if o.gripperOnly || isHorizontal js f.pose caps then none
    else if !s.payload.tracking && s.namesSlider then none
    else if s.leans then none
    else if deltas.length ≤ first then none
    else if sideways ≤ sidewaysMm s then none
    else if (deltas.take last).any fun d => d.kind = .gripper then none
    else if CLEAR_MM ≤ clearance + before then none
    else if lift ≤ 0 then none
    else some ⟨first, last, lift⟩

/-- `Math.round`, in a text. -/
def rounded (value : K) : String :=
  toString ⌊value + 1 / 2⌋

def dropBack (js : Js K) (deltas : List (Delta K)) (lift : Lift K)
    (caps : Caps K) : Except String (List (Delta K)) :=
  let after := lift.first + 1
  let afterLast := lastWhere (isSideways js) after lift.last (deltas.drop after) + 1
  match insertedMove js .down lift.mm caps DROP_LABEL with
  | .error said => .error said
  | .ok down => .ok (deltas.insertIdx afterLast down)

def liftBeforeSideways (js : Js K) (deltas : List (Delta K))
    (s : SubgoalState K) (f : MendFrame K) (caps : Caps K)
    (o : MendOptions K) : Except String (List (Delta K) × Option String) :=
  match liftFor js deltas s f caps o with
  | none => .ok (deltas, none)
  | some lift =>
    match insertedMove js .up lift.mm caps LIFT_LABEL with
    | .error said => .error said
    | .ok up =>
      let lifted := deltas.insertIdx lift.first up
      let what := LIFT_LABEL ++ " " ++ rounded lift.mm ++ " mm"
      if lifted.any fun d => d.kind = .gripper then
        match dropBack js lifted lift caps with
        | .error said => .error said
        | .ok dropped =>
          .ok
            (dropped,
              some
                (what ++ ", " ++ DROP_LABEL ++ " " ++ rounded lift.mm ++ " mm"))
      else .ok (lifted, some what)

def isLongCarry (caps : Caps K) (d : Delta K) : Bool :=
  match d.translation with
  | some axis =>
    !d.push && !decide (axis 2 < -(1 / 2)) &&
      !decide (d.magnitude ≤ caps.max_translation_m + 1 / 10 ^ 9)
  | none => false

def legs (d : Delta K) (n : ℕ) : List (Delta K) :=
  (List.range n).map fun k =>
    { d with
      magnitude := d.magnitude / n
      label := carryLegLabel d.label (k + 1) n }

def splitACarry (deltas : List (Delta K)) (s : SubgoalState K)
    (caps : Caps K) : List (Delta K) × Bool :=
  if s.payload.tracking then
    (deltas.flatMap fun d =>
        if isLongCarry caps d then
          legs d (pieces d.magnitude caps.max_translation_m)
        else [d],
      deltas.any (isLongCarry caps))
  else (deltas, false)

def onAWall (s : SubgoalState K) (caps : Caps K) : Bool :=
  s.payload.edge || s.namesEdgePart ||
    (match s.payload.width_mm with
      | some width => width < padMm caps
      | none => false) ||
    widerThanJaws s caps

def isTested (caps : Caps K) (d : Delta K) : Bool :=
  d.translation.isSome && !d.push &&
    decide (2 * (padMm caps / 1000) < d.magnitude)

def lead (d : Delta K) (caps : Caps K) : Delta K :=
  { d with
    magnitude := padMm caps / 1000
    speed := min d.speed caps.default_speed_m_s
    label := testLeadLabel d.label (padMm caps / 1000 * 1000) }

def theRest (d : Delta K) (caps : Caps K) : Delta K :=
  { d with
    magnitude := d.magnitude - padMm caps / 1000
    label := testRestLabel d.label }

def splitFirst (caps : Caps K) : List (Delta K) → List (Delta K) × Bool
  | [] => ([], false)
  | d :: rest =>
    if isTested caps d then (lead d caps :: theRest d caps :: rest, true)
    else
      let later := splitFirst caps rest
      (d :: later.1, later.2)

def firstMoveIsATest (deltas : List (Delta K)) (s : SubgoalState K)
    (caps : Caps K) (o : MendOptions K) : List (Delta K) × Bool :=
  if o.running || o.gripperOnly || !s.payload.tracking then (deltas, false)
  else if onAWall s caps then splitFirst caps deltas
  else (deltas, false)

/-- The menders as the executor runs them: the test when the batch is
proposed, then the lift and the legs. -/
def mended (js : Js K) (caps : Caps K) (deltas : List (Delta K))
    (proposed running : SubgoalState K) (f : MendFrame K)
    (o atProposal : MendOptions K) : Except String (List (Delta K)) :=
  let tested := (firstMoveIsATest deltas proposed caps atProposal).1
  match liftBeforeSideways js tested running f caps o with
  | .error said => .error said
  | .ok lifted => .ok (splitACarry lifted.1 running caps).1

/-- Where a delta leads; `home` leads to the robot's home. -/
def Delta.after (home : Vec3 K) (p : Vec3 K) (d : Delta K) : Vec3 K :=
  if d.kind = .home then home else p + d.shift

def endsAt (home : Vec3 K) (p : Vec3 K) (deltas : List (Delta K)) : Vec3 K :=
  deltas.foldl (Delta.after home) p

def grips (home : Vec3 K) : Vec3 K → List (Delta K) → List (Delta K × Vec3 K)
  | _, [] => []
  | p, d :: rest =>
    if d.kind = .gripper then (d, p) :: grips home (d.after home p) rest
    else grips home (d.after home p) rest

def rotations (deltas : List (Delta K)) : List (Delta K) :=
  deltas.filter fun d => d.kind = .rotate

end Definitions

section

variable {K : Type} [Field K] [LinearOrder K] [FloorRing K]
  {js : Js K} {caps : Caps K} {home p : Vec3 K} {d : Delta K}

theorem after_of_not_home (isNot : d.kind ≠ .home) : d.after home p = p + d.shift := by
  simp [Delta.after, isNot]

theorem endsAt_append (first second : List (Delta K)) :
    endsAt home p (first ++ second) = endsAt home (endsAt home p first) second := by
  simp [endsAt]

@[simp]
theorem endsAt_cons (d : Delta K) (rest : List (Delta K)) :
    endsAt home p (d :: rest) = endsAt home (d.after home p) rest := by
  simp [endsAt]

theorem grips_append (first second : List (Delta K)) :
    grips home p (first ++ second) =
      grips home p first ++ grips home (endsAt home p first) second := by
  induction first generalizing p with
  | nil => simp [grips, endsAt]
  | cons d rest ih =>
    simp only [cons_append, grips, endsAt_cons]
    split
    · rw [ih, cons_append]
    · exact ih

def Delta.isQuiet (d : Delta K) : Prop :=
  d.kind ≠ .gripper ∧ d.kind ≠ .home

theorem quiet_of_translation {axis : Vec3 K} (moves : d.translation = some axis) : d.isQuiet := by
  simp [Delta.isQuiet, (kind_of_translation moves).1]

variable {deltas : List (Delta K)}

theorem walk_quiet (home p : Vec3 K) (quiet : ∀ d ∈ deltas, d.isQuiet) :
    grips home p deltas = [] ∧ endsAt home p deltas = p + travelled deltas := by
  induction deltas generalizing p with
  | nil => simp [grips, endsAt]
  | cons d rest ih =>
    have isQuiet := quiet d (by simp)
    have later := ih (p + d.shift) (fun other member => quiet other (by simp [member]))
    have whole : travelled (d :: rest) = d.shift + travelled rest := by simp [travelled]
    rw [grips, if_neg isQuiet.1, endsAt_cons, after_of_not_home isQuiet.2, whole, ← add_assoc]
    exact later

/-! ## Splitting a translation -/

structure SplitOf (d : Delta K) (parts : List (Delta K)) : Prop where
  moves : d.translation.isSome = true
  same : ∀ part ∈ parts, part.translation = d.translation
  whole : travelled parts = d.shift

inductive Split : List (Delta K) → List (Delta K) → Prop
  | nil : Split [] []
  | keep (d : Delta K) {deltas split : List (Delta K)}
      (rest : Split deltas split) : Split (d :: deltas) (d :: split)
  | parts {d : Delta K} {parts deltas split : List (Delta K)}
      (isSplit : SplitOf d parts) (rest : Split deltas split) :
      Split (d :: deltas) (parts ++ split)

theorem split_refl (deltas : List (Delta K)) : Split deltas deltas := by
  induction deltas with
  | nil => exact .nil
  | cons d rest ih => exact .keep d ih

theorem SplitOf.quiet {d : Delta K} {parts : List (Delta K)}
    (isSplit : SplitOf d parts) : ∀ part ∈ parts, part.isQuiet := by
  intro part member
  obtain ⟨axis, moves⟩ := Option.isSome_iff_exists.1 isSplit.moves
  exact quiet_of_translation ((isSplit.same part member).trans moves)

variable {split : List (Delta K)}

section

variable (isSplit : Split deltas split)
include isSplit

theorem Split.walk (home : Vec3 K) :
    ∀ p, grips home p split = grips home p deltas ∧ endsAt home p split = endsAt home p deltas := by
  induction isSplit with
  | nil => simp
  | keep d rest ih =>
    intro p
    have later := ih (d.after home p)
    simp [grips, later]
  | parts isParts rest ih =>
    rename_i d parts deltas split
    intro p
    obtain ⟨axis, moves⟩ := Option.isSome_iff_exists.1 isParts.moves
    have isQuiet := quiet_of_translation moves
    have walked := walk_quiet home p isParts.quiet
    have later := ih (p + d.shift)
    rw [grips_append, endsAt_append, walked.1, walked.2, isParts.whole,
      List.nil_append, grips, if_neg isQuiet.1, endsAt_cons,
      after_of_not_home isQuiet.2]
    exact later

theorem Split.rotations : rotations split = rotations deltas := by
  induction isSplit with
  | nil => simp
  | keep d rest ih =>
    simp only [Command.rotations, List.filter_cons] at ih ⊢
    rw [ih]
  | parts isParts rest ih =>
    rename_i d parts deltas split
    obtain ⟨axis, moves⟩ := Option.isSome_iff_exists.1 isParts.moves
    have isKind := (kind_of_translation moves).1
    have noneTurns : Command.rotations parts = [] := by
      apply List.filter_eq_nil_iff.2
      intro part member
      have partMoves := (isParts.same part member).trans moves
      simp [(kind_of_translation partMoves).1]
    simp only [Command.rotations, List.filter_append, List.filter_cons] at noneTurns ih ⊢
    rw [noneTurns, ih]
    simp [isKind]

theorem Split.movesNothing :
    (deltas.any fun d => d.kind = .translate || d.kind = .rotate) = false →
      (split.any fun d => d.kind = .translate || d.kind = .rotate) = false := by
  induction isSplit with
  | nil => simp
  | keep d rest ih =>
    intro still
    rw [List.any_cons, Bool.or_eq_false_iff] at still ⊢
    exact ⟨still.1, ih still.2⟩
  | parts isParts rest ih =>
    intro still
    obtain ⟨axis, moves⟩ := Option.isSome_iff_exists.1 isParts.moves
    have isKind := (kind_of_translation moves).1
    simp [isKind] at still

theorem Split.endsAtHome (ends : EndsAtHome deltas) :
    EndsAtHome split := by
  rw [← movesAfterHome_eq_false] at ends ⊢
  induction isSplit with
  | nil => exact ends
  | keep d rest ih =>
    rw [movesAfterHome] at ends ⊢
    by_cases isHome : d.kind = .home
    · rw [if_pos isHome] at ends ⊢
      exact rest.movesNothing ends
    · rw [if_neg isHome] at ends ⊢
      exact ih ends
  | parts isParts rest ih =>
    rename_i d parts deltas split
    obtain ⟨axis, moves⟩ := Option.isSome_iff_exists.1 isParts.moves
    have isKind := (kind_of_translation moves).1
    rw [movesAfterHome, if_neg (by simp [isKind])] at ends
    have later := ih ends
    have noHome := isParts.quiet
    clear isParts ends
    induction parts with
    | nil => exact later
    | cons part more partsHypothesis =>
      rw [cons_append, movesAfterHome, if_neg (noHome part (by simp)).2]
      apply partsHypothesis
      intro other member
      exact noHome other (by simp [member])

end

theorem shift_of_same {part : Delta K} {axis : Vec3 K} (moves : d.translation = some axis)
    (same : part.translation = d.translation) : part.shift = part.magnitude • axis :=
  shift_of_some (same.trans moves)

theorem splitFirst_split (caps : Caps K) (deltas : List (Delta K)) :
    Split deltas (splitFirst caps deltas).1 := by
  induction deltas with
  | nil => exact .nil
  | cons d rest ih =>
    rw [splitFirst]
    by_cases tested : isTested caps d = true
    · rw [if_pos tested]
      have isSome : d.translation.isSome = true := by
        simp only [isTested, Bool.and_eq_true] at tested
        exact tested.1.1
      obtain ⟨axis, moves⟩ := Option.isSome_iff_exists.1 isSome
      have isParts : SplitOf d [lead d caps, theRest d caps] := by
        refine ⟨isSome, ?_, ?_⟩
        · intro part member
          rcases List.mem_pair.1 member with isLead | isRest
          · rw [isLead]
            rfl
          · rw [isRest]
            rfl
        · have leadShift : (lead d caps).shift = _ :=
            shift_of_same moves rfl
          have restShift : (theRest d caps).shift = _ := shift_of_same moves rfl
          simp only [travelled, List.map_cons, List.map_nil, List.sum_cons, List.sum_nil, add_zero]
          rw [leadShift, restShift, shift_of_some moves, ← add_smul]
          simp [lead, theRest]
      exact Split.parts isParts (split_refl rest)
    · rw [if_neg tested]
      exact .keep d ih

theorem firstMoveIsATest_split (deltas : List (Delta K)) (s : SubgoalState K)
    (caps : Caps K) (o : MendOptions K) : Split deltas (firstMoveIsATest deltas s caps o).1 := by
  rw [firstMoveIsATest]
  split
  · exact split_refl deltas
  · split
    · exact splitFirst_split caps deltas
    · exact split_refl deltas

theorem pieces_pos (total limit : K) : 0 < pieces total limit := by
  simp [pieces]

theorem legs_splitOf [IsStrictOrderedRing K] {axis : Vec3 K} (moves : d.translation = some axis)
    {n : ℕ} (positive : 0 < n) : SplitOf d (legs d n) := by
  refine ⟨by simp [moves], ?_, ?_⟩
  · intro part member
    obtain ⟨k, _, rfl⟩ := List.mem_map.1 member
    rfl
  · have everyShift : (legs d n).map Delta.shift = List.replicate n ((d.magnitude / n) • axis) := by
      apply List.eq_replicate_iff.2
      refine ⟨by simp [legs], ?_⟩
      intro shift member
      obtain ⟨part, isPart, rfl⟩ := List.mem_map.1 member
      obtain ⟨k, _, rfl⟩ := List.mem_map.1 isPart
      exact shift_of_same moves rfl
    have nonzero : (n : K) ≠ 0 := by exact_mod_cast positive.ne'
    rw [travelled, everyShift, List.sum_replicate, shift_of_some moves,
      ← Nat.cast_smul_eq_nsmul K, smul_smul]
    field_simp

theorem splitACarry_split [IsStrictOrderedRing K] (deltas : List (Delta K))
    (s : SubgoalState K) (caps : Caps K) : Split deltas (splitACarry deltas s caps).1 := by
  rw [splitACarry]
  split
  · induction deltas with
    | nil => exact .nil
    | cons d rest ih =>
      simp only [List.flatMap_cons]
      by_cases long : isLongCarry caps d = true
      · rw [if_pos long]
        cases moves : d.translation with
        | none => simp [isLongCarry, moves] at long
        | some axis => exact Split.parts (legs_splitOf moves (pieces_pos _ _)) ih
      · rw [if_neg long]
        exact .keep d ih
  · exact split_refl deltas

/-! ## The lift -/

variable {α : Type} (test : α → Bool) (items : List α)

theorem lastWhere_shift :
    ∀ i best, lastWhere test (i + 1) (best + 1) items = lastWhere test i best items + 1 := by
  induction items with
  | nil => simp [lastWhere]
  | cons item rest ih =>
    intro i best
    rw [lastWhere, lastWhere, ← ih]
    split <;> rfl

theorem lastWhere_spec :
    ∀ i best, lastWhere test i best items = best ∨
      ∃ before item after, items = before ++ item :: after ∧ test item = true ∧
        lastWhere test i best items = i + before.length := by
  induction items with
  | nil => simp [lastWhere]
  | cons item rest ih =>
    intro i best
    rw [lastWhere]
    rcases ih (i + 1) (if test item then i else best) with
      same | ⟨before, later, after, split, holds, isIndex⟩
    · rw [same]
      by_cases here : test item = true
      · refine .inr ⟨[], item, rest, by simp, here, by simp [here]⟩
      · exact .inl (if_neg here)
    · refine .inr ⟨item :: before, later, after, by simp [split], holds, ?_⟩
      rw [isIndex, List.length_cons]
      omega

/-- Where the lift goes up and down again: before the first sideways move and
after the last. -/
structure Around (js : Js K) (deltas : List (Delta K)) (lift : Lift K)
    (front middle after : List (Delta K)) : Prop where
  split : deltas = front ++ (middle ++ after)
  first : front.length = lift.first
  head : ∃ d rest, middle = d :: rest ∧ isSideways js d = true
  last : lift.last + 1 = lift.first + middle.length
  final : ∃ d rest, middle = rest ++ [d] ∧ isSideways js d = true
  index :
    lastWhere (isSideways js) lift.first lift.first (middle ++ after) =
      lift.last
  noGripper : ((front ++ middle).dropLast.any fun d => d.kind = .gripper) = false
  positive : 0 < lift.mm

theorem liftFor_around {s : SubgoalState K} {f : MendFrame K} {o : MendOptions K} {lift : Lift K}
    (lifts : liftFor js deltas s f caps o = some lift) :
    ∃ front middle after, Around js deltas lift front middle after := by
  simp only [liftFor] at lifts
  split at lifts
  · cases lifts
  · generalize isFirst : deltas.findIdx (isSideways js) = first at lifts
    generalize isLast : lastWhere (isSideways js) first first (deltas.drop first) = last at lifts
    split_ifs at lifts with _ _ _ isNone _ gripper _ notUp
    have isLift := Option.some.inj lifts
    have inside : first < deltas.length := not_le.1 isNone
    have firstHolds : isSideways js deltas[first] = true := by
      subst isFirst
      exact List.findIdx_getElem
    have dropped : deltas.drop first = deltas[first] :: deltas.drop (first + 1) :=
      List.drop_eq_getElem_cons inside
    have isSplit :
        ∃ before item after, deltas.drop first = before ++ item :: after ∧
          isSideways js item = true ∧ last = first + before.length := by
      rcases lastWhere_spec (isSideways js) (deltas.drop first) first first
        with isStart | ⟨before, item, after, split, holds, isIndex⟩
      · refine ⟨[], deltas[first], deltas.drop (first + 1), dropped, firstHolds, ?_⟩
        rw [← isLast, isStart, List.length_nil, add_zero]
      · exact ⟨before, item, after, split, holds, isLast ▸ isIndex⟩
    obtain ⟨before, item, after, split, holds, isIndex⟩ := isSplit
    have middleAfter : before ++ item :: after = (before ++ [item]) ++ after := by simp
    refine ⟨deltas.take first, before ++ [item], after, ?_⟩
    have takeLength : (deltas.take first).length = first := by
      simp
      omega
    constructor
    · rw [← middleAfter, ← split, List.take_append_drop]
    · rw [← isLift]
      exact takeLength
    · rw [dropped] at split
      cases before with
      | nil =>
        injection split with same _
        exact ⟨item, [], rfl, holds⟩
      | cons head more =>
        injection split with same _
        exact ⟨head, more ++ [item], rfl, same ▸ firstHolds⟩
    · rw [← isLift]
      simp
      omega
    · exact ⟨item, before, rfl, holds⟩
    · rw [← isLift, ← middleAfter, ← split]
      exact isLast
    · have isTake : deltas.take last = deltas.take first ++ before := by
        rw [isIndex, List.take_add, split, List.take_left]
      rw [← append_assoc, List.dropLast_concat, ← isTake]
      simpa using gripper
    · rw [← isLift]
      exact not_le.1 notUp

theorem isSideways_moves (sideways : isSideways js d = true) :
    ∃ axis, d.translation = some axis := by
  cases moves : d.translation with
  | none => simp [isSideways, horizontalM, moves] at sideways
  | some axis => exact ⟨axis, rfl⟩

theorem Around.quiet {deltas front middle after : List (Delta K)}
    {lift : Lift K} (around : Around js deltas lift front middle after)
    (ends : EndsAtHome deltas) : ∀ d ∈ front ++ middle, d.isQuiet := by
  obtain ⟨final, rest, isMiddle, sideways⟩ := around.final
  obtain ⟨axis, moves⟩ := isSideways_moves sideways
  have noGripper := around.noGripper
  rw [isMiddle, ← append_assoc, List.dropLast_concat] at noGripper
  intro d member
  rw [isMiddle, ← append_assoc] at member
  rcases List.mem_append.1 member with isEarlier | isFinal
  · constructor
    · have notGripper := List.any_eq_false.1 noGripper d isEarlier
      simpa using notGripper
    · intro isHome
      obtain ⟨before, later, split⟩ := List.append_of_mem isEarlier
      have homeSplit : deltas = before ++ d :: (later ++ final :: after) := by
        rw [around.split, isMiddle, ← append_assoc, ← append_assoc,
          split]
        simp
      have notMoving := ends before d _ homeSplit isHome final (by simp)
      exact notMoving.1 (kind_of_translation moves).1
  · rw [List.mem_singleton.1 isFinal]
    exact quiet_of_translation moves

def Vertical.axis (direction : Vertical) : Vec3 K :=
  match direction with
  | .up => ![0, 0, 1]
  | .down => ![0, 0, -1]

theorem translationAxis_vertical (direction : Vertical) :
    translationAxis direction.word = .ok (direction.axis (K := K)) := by
  have cleanUp : clean "up" = "up" := by decide +kernel
  have cleanDown : clean "down" = "down" := by decide +kernel
  cases direction with
  | up =>
    simp only [translationAxis, Vertical.word, cleanUp]
    simp [TRANSLATION, lookup, Vertical.axis]
  | down =>
    simp only [translationAxis, Vertical.word, cleanDown]
    simp [TRANSLATION, lookup, Vertical.axis]

theorem insertedMove_spec {direction : Vertical} {mm : K} {label : String}
    (inserted : insertedMove js direction mm caps label = .ok d) :
    d.translation = some direction.axis ∧ d.shift = (mm / 1000) • direction.axis := by
  simp only [insertedMove, toDelta, toTranslation] at inserted
  split at inserted
  · cases inserted
  · rename_i moved isMoved
    simp only [axisOf, Option.getD_some, translationAxis_vertical] at isMoved
    rw [if_neg (by simp)] at isMoved
    split_ifs at isMoved
    · cases isMoved
    · rw [← Except.ok.inj inserted, ← Except.ok.inj isMoved]
      constructor
      · simp [Delta.translation, Action.bare]
      · simp [Delta.shift, Delta.translation, Action.bare]

theorem insertIdx_append (first second : List α) (item : α) :
    (first ++ second).insertIdx first.length item =
      first ++ item :: second := by
  induction first with
  | nil => simp
  | cons head rest ih => simp [ih]

inductive LiftedBy (js : Js K) (caps : Caps K) (deltas : List (Delta K))
    (mm : K) : List (Delta K) → Prop
  | up {front rest : List (Delta K)} {up : Delta K}
      (split : deltas = front ++ rest)
      (isUp : insertedMove js .up mm caps LIFT_LABEL = .ok up)
      (noGripper : ∀ d ∈ deltas, d.kind ≠ .gripper) :
      LiftedBy js caps deltas mm (front ++ up :: rest)
  | back {front middle after : List (Delta K)} {up down : Delta K}
      (split : deltas = front ++ (middle ++ after))
      (isUp : insertedMove js .up mm caps LIFT_LABEL = .ok up)
      (isDown : insertedMove js .down mm caps DROP_LABEL = .ok down)
      (quiet : ∀ d ∈ front ++ middle, d.isQuiet) :
      LiftedBy js caps deltas mm (front ++ up :: (middle ++ down :: after))

theorem liftBeforeSideways_liftedBy {deltas lifted : List (Delta K)}
    {s : SubgoalState K} {f : MendFrame K} {o : MendOptions K}
    {what : Option String} (ends : EndsAtHome deltas)
    (mends : liftBeforeSideways js deltas s f caps o = .ok (lifted, what)) :
    (liftFor js deltas s f caps o = none ∧ lifted = deltas) ∨
      ∃ lift, liftFor js deltas s f caps o = some lift ∧
        LiftedBy js caps deltas lift.mm lifted := by
  simp only [liftBeforeSideways] at mends
  cases lifts : liftFor js deltas s f caps o with
  | none =>
    rw [lifts] at mends
    have same := congrArg Prod.fst (Except.ok.inj mends)
    exact .inl ⟨rfl, same.symm⟩
  | some lift =>
    refine .inr ⟨lift, rfl, ?_⟩
    obtain ⟨front, middle, after, around⟩ := liftFor_around lifts
    have inserts (up : Delta K) :
        deltas.insertIdx lift.first up = front ++ up :: (middle ++ after) := by
      rw [around.split, ← around.first, insertIdx_append]
    simp only [lifts] at mends
    cases isUp : insertedMove js .up lift.mm caps LIFT_LABEL with
    | error said =>
      rw [isUp] at mends
      cases mends
    | ok up =>
      have upMoves := (insertedMove_spec isUp).1
      have upQuiet := quiet_of_translation upMoves
      simp only [isUp, inserts] at mends
      by_cases grips : ((front ++ up :: (middle ++ after)).any fun d => d.kind = .gripper) = true
      · rw [if_pos grips] at mends
        cases dropped : dropBack js (front ++ up :: (middle ++ after)) lift caps with
        | error said =>
          rw [dropped] at mends
          cases mends
        | ok back =>
          rw [dropped] at mends
          have same : back = lifted := congrArg Prod.fst (Except.ok.inj mends)
          simp only [dropBack] at dropped
          cases isDown : insertedMove js .down lift.mm caps DROP_LABEL with
          | error said =>
            rw [isDown] at dropped
            cases dropped
          | ok down =>
            rw [isDown] at dropped
            have isBack := Except.ok.inj dropped
            have afterUp :
                (front ++ up :: (middle ++ after)).drop (lift.first + 1) = middle ++ after := by
              rw [← around.first]
              simp
            obtain ⟨head, rest, isMiddle, sideways⟩ := around.head
            have isIndex :
                lastWhere (isSideways js) (lift.first + 1) lift.last
                    (middle ++ after) = lift.last + 1 := by
              have shifted :=
                lastWhere_shift (isSideways js) (middle ++ after)
                  lift.first lift.first
              rw [around.index, isMiddle, cons_append, lastWhere,
                if_pos sideways] at shifted
              rw [isMiddle, cons_append, lastWhere,
                if_pos sideways]
              exact shifted
            rw [afterUp, isIndex] at isBack
            have position :
                lift.last + 1 + 1 = (front ++ up :: middle).length := by
              have isLast := around.last
              have isFirst := around.first
              simp
              omega
            have regrouped :
                front ++ up :: (middle ++ after) = (front ++ up :: middle) ++ after := by simp
            rw [regrouped, position, insertIdx_append] at isBack
            have isLifted : lifted = front ++ up :: (middle ++ down :: after) := by
              rw [← same, ← isBack]
              simp
            rw [isLifted]
            exact .back around.split isUp isDown (around.quiet ends)
      · rw [if_neg grips] at mends
        have isLifted : front ++ up :: (middle ++ after) = lifted :=
          congrArg Prod.fst (Except.ok.inj mends)
        rw [← isLifted]
        refine .up around.split isUp ?_
        intro d member isGripper
        rw [around.split] at member
        apply grips
        apply List.any_eq_true.2
        refine ⟨d, ?_, by simp [isGripper]⟩
        rcases List.mem_append.1 member with isFront | isRest
        · simp [isFront]
        · exact List.mem_append_right _ (List.mem_cons_of_mem _ isRest)

theorem shift_cancels (mm : K) :
    (mm / 1000) • (Vertical.up.axis : Vec3 K) + (mm / 1000) • Vertical.down.axis = 0 := by
  ext i
  fin_cases i <;> simp [Vertical.axis]

theorem rotations_of_translation {axis : Vec3 K} (moves : d.translation = some axis)
    (before rest : List (Delta K)) :
    rotations (before ++ d :: rest) = rotations (before ++ rest) := by
  simp [rotations, (kind_of_translation moves).1]

theorem grips_nil_iff (home p : Vec3 K) :
    grips home p deltas = [] ↔ ∀ d ∈ deltas, d.kind ≠ .gripper := by
  induction deltas generalizing p with
  | nil => simp [grips]
  | cons d rest ih =>
    rw [grips]
    by_cases isGripper : d.kind = .gripper
    · simp [isGripper]
    · rw [if_neg isGripper, ih]
      simp [isGripper]

/-- A lift leaves the jaws' actions where they were, and the end too where the
tool comes back down. -/
theorem LiftedBy.walk {lifted : List (Delta K)} {mm : K}
    (isLifted : LiftedBy js caps deltas mm lifted) (home p : Vec3 K) :
    grips home p lifted = grips home p deltas ∧
      (endsAt home p lifted = endsAt home p deltas ∨
        (∀ d ∈ deltas, d.kind ≠ .gripper) ∧
          endsAt home p lifted = endsAt home p deltas + (mm / 1000) • Vertical.up.axis) ∧
      rotations lifted = rotations deltas := by
  cases isLifted with
  | up split isUp noGripper =>
    rename_i front rest up
    obtain ⟨upMoves, upShift⟩ := insertedMove_spec isUp
    have upQuiet := quiet_of_translation upMoves
    refine ⟨?_, ?_, ?_⟩
    · have noneHere : ∀ d ∈ front ++ up :: rest, d.kind ≠ .gripper := by
        intro d member
        rcases List.mem_append.1 member with isFront | isRest
        · exact noGripper d (by simp [split, isFront])
        · rcases List.mem_cons.1 isRest with isUpMove | isLater
          · rw [isUpMove]
            exact upQuiet.1
          · exact noGripper d (by simp [split, isLater])
      rw [(grips_nil_iff home p).2 noneHere, (grips_nil_iff home p).2 noGripper]
    · have raised (rest : List (Delta K)) :
          ∀ p : Vec3 K, endsAt home (p + up.shift) rest = endsAt home p rest ∨
            endsAt home (p + up.shift) rest = endsAt home p rest + up.shift := by
        induction rest with
        | nil => simp [endsAt]
        | cons d rest ih =>
          intro p
          rw [endsAt_cons, endsAt_cons]
          by_cases isHome : d.kind = .home
          · simp [Delta.after, isHome]
          · rw [after_of_not_home isHome, after_of_not_home isHome, add_right_comm]
            exact ih (p + d.shift)
      rw [split, endsAt_append, endsAt_append, endsAt_cons, after_of_not_home upQuiet.2, ← upShift]
      rcases raised rest (endsAt home p front) with same | higher
      · exact .inl same
      · exact .inr ⟨split ▸ noGripper, higher⟩
    · rw [split]
      exact rotations_of_translation upMoves front rest
  | back split isUp isDown quiet =>
    rename_i front middle after up down
    obtain ⟨upMoves, upShift⟩ := insertedMove_spec isUp
    obtain ⟨downMoves, downShift⟩ := insertedMove_spec isDown
    have upQuiet := quiet_of_translation upMoves
    have downQuiet := quiet_of_translation downMoves
    have middleQuiet : ∀ d ∈ middle, d.isQuiet := by
      intro d member
      exact quiet d (by simp [member])
    have upward := walk_quiet home (endsAt home p front + up.shift) middleQuiet
    have level := walk_quiet home (endsAt home p front) middleQuiet
    have cancels : up.shift + down.shift = 0 := by
      rw [upShift, downShift]
      exact shift_cancels mm
    have isBack :
        endsAt home p front + up.shift + travelled middle + down.shift =
          endsAt home p front + travelled middle := by
      rw [add_right_comm _ (travelled middle), add_assoc _ up.shift, cancels, add_zero]
    refine ⟨?_, .inl ?_, ?_⟩
    · simp only [split, grips_append, grips, if_neg upQuiet.1,
        if_neg downQuiet.1, after_of_not_home upQuiet.2, upward, level,
        after_of_not_home downQuiet.2, isBack, List.nil_append]
    · simp only [split, endsAt_append, endsAt_cons, after_of_not_home upQuiet.2, upward, level,
        after_of_not_home downQuiet.2, isBack]
    · rw [split, rotations_of_translation upMoves, ← append_assoc,
        rotations_of_translation downMoves, append_assoc]

/-- Running the menders keeps the gripper actions, in their order and where
they happen, every rotation, and where the batch ends but for a lift. -/
structure KeepsMotion (js : Js K) (caps : Caps K) (home start : Vec3 K)
    (deltas result : List (Delta K)) (lift : Option (Lift K)) : Prop where
  grips : grips home start result = grips home start deltas
  ends :
    endsAt home start result = endsAt home start deltas ∨
      ∃ lifted, lift = some lifted ∧ (∀ d ∈ deltas, d.kind ≠ .gripper) ∧
        endsAt home start result = endsAt home start deltas + ![0, 0, lifted.mm / 1000]
  rotations : rotations result = rotations deltas

theorem mended_keeps_motion
    [IsStrictOrderedRing K] {result : List (Delta K)} (ends : EndsAtHome deltas)
    (proposed running : SubgoalState K) (f : MendFrame K) (o atProposal : MendOptions K)
    (mends : mended js caps deltas proposed running f o atProposal = .ok result) :
    KeepsMotion js caps home p deltas result
      (liftFor js (firstMoveIsATest deltas proposed caps atProposal).1 running f caps o) := by
  have tested := firstMoveIsATest_split deltas proposed caps atProposal
  simp only [mended] at mends
  generalize (firstMoveIsATest deltas proposed caps atProposal).1 = first at tested mends ⊢
  cases lifts : liftBeforeSideways js first running f caps o with
  | error said =>
    rw [lifts] at mends
    cases mends
  | ok lifted =>
    rw [lifts] at mends
    have isResult : (splitACarry lifted.1 running caps).1 = result := Except.ok.inj mends
    have carried := splitACarry_split lifted.1 running caps
    rw [isResult] at carried
    have firstWalk := tested.walk home p
    have lastWalk := carried.walk home p
    rcases @liftBeforeSideways_liftedBy K _ _ _ js caps first lifted.1
        running f o lifted.2 (tested.endsAtHome ends) lifts with
      ⟨_, same⟩ | ⟨lift, isLift, isLifted⟩
    · rw [same] at carried lastWalk
      refine ⟨lastWalk.1.trans firstWalk.1, .inl (lastWalk.2.trans firstWalk.2),
        carried.rotations.trans tested.rotations⟩
    · obtain ⟨liftedGrips, liftedEnds, liftedRotations⟩ :=
        isLifted.walk home p
      refine ⟨lastWalk.1.trans (liftedGrips.trans firstWalk.1), ?_,
        carried.rotations.trans
          (liftedRotations.trans tested.rotations)⟩
      rw [lastWalk.2, ← firstWalk.2]
      rcases liftedEnds with same | ⟨noGripper, higher⟩
      · exact .inl same
      · refine .inr ⟨lift, isLift, ?_, ?_⟩
        · apply (grips_nil_iff home p).1
          rw [← firstWalk.1]
          exact (grips_nil_iff home p).2 noGripper
        · rw [higher]
          congr 1
          ext i
          fin_cases i <;> simp [Vertical.axis]

end

/-- The menders keep the jaws' actions, where they happen, the rotations, and
but for a lift that no gripper action follows where the batch ends; nothing
moves after a home, as the limits of a command make sure. -/
theorem menders_keep_motion (texts : Texts ℝ) (caps : Caps ℝ) (home start : Vec3 ℝ)
    {deltas result : List (Delta ℝ)} (ends : EndsAtHome deltas)
    (proposed running : SubgoalState ℝ) (f : MendFrame ℝ) (o atProposal : MendOptions ℝ)
    (mends : mended (reals texts) caps deltas proposed running f o atProposal = .ok result) :
    KeepsMotion (reals texts) caps home start deltas result
      (liftFor (reals texts) (firstMoveIsATest deltas proposed caps atProposal).1 running f caps
        o) :=
  mended_keeps_motion ends proposed running f o atProposal mends

def carrying {K : Type} : SubgoalState K where
  namesSlider := false
  leans := false
  namesEdgePart := false
  objectWidthMm := none
  startPose := none
  located := none
  payload := ⟨true, false, false, none⟩

def noTable {K : Type} (pose : Pose K) : MendFrame K where
  pose := pose
  table_z_m := none

def whileRunning {K : Type} : MendOptions K where
  gripperOnly := false
  heightMm := none
  running := true

theorem mended_carry (caps : Caps ℝ) (pose : Pose ℝ) (deltas : List (Delta ℝ)) :
    mended (reals plain) caps deltas carrying carrying (noTable pose) whileRunning whileRunning =
      .ok (splitACarry deltas carrying caps).1 := by
  have notTested : firstMoveIsATest deltas carrying caps whileRunning = (deltas, false) := by
    simp [firstMoveIsATest, whileRunning]
  have notLifted :
      liftFor (reals plain) deltas carrying (noTable pose) caps whileRunning =
        none := by
    simp [liftFor, noTable]
  simp [mended, notTested, liftBeforeSideways, notLifted]

theorem endsAtHome_forward (m : ℝ) : EndsAtHome [forward m] := by
  rw [← movesAfterHome_eq_false]
  simp [movesAfterHome, forward]

/-- A carry of 300 mm and its legs. -/
theorem menders_keep_motion_carry :
    KeepsMotion (reals plain) shortArm 0 ![1, 0, 0] [forward (3 / 10)]
      (splitACarry [forward (3 / 10)] carrying shortArm).1
      (liftFor (reals plain) (firstMoveIsATest [forward (3 / 10)] carrying shortArm whileRunning).1
        carrying (noTable farOut) shortArm whileRunning) :=
  menders_keep_motion plain shortArm 0 ![1, 0, 0]
    (endsAtHome_forward (3 / 10)) carrying carrying (noTable farOut)
    whileRunning whileRunning
    (mended_carry shortArm farOut [forward (3 / 10)])

end PiEmbodied.Motormind.Command
