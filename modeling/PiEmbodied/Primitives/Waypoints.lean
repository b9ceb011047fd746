import PiEmbodied.Instances

/-!
# Waypoints

A route of a few positions, checked as a whole and then moved leg by leg until
one errs, is not reached or ends the episode.  What the robot does is a rig
over a world that its calls change.
-/

namespace PiEmbodied.Waypoints

def MAX_WAYPOINTS : ℕ := 5

/-- The arithmetic of the code's numbers, and the limit a constraint's text
documents. -/
structure Numbers (F : Type) where
  (zero nan : F)
  (add sub min : F → F → F)
  hypot : List F → F
  le : F → F → Bool
  isFinite : F → Bool
  documented : String → Option F
  /-- The text of a move over its limit. -/
  moves : F → F → String

/-- What a leg reports; an empty error is none to the code. -/
structure Leg (F : Type) where
  (reached ended : Bool)
  error : Option String
  measured : Option (List F × F)
  deriving DecidableEq

def Leg.errs {F : Type} (leg : Leg F) : Bool :=
  leg.error.any (· ≠ "")

/-- What differs per robot.  A check that refuses gives its text, a call that
throws its error. -/
structure WaypointRig (ω F : Type) where
  check : ω → Option String
  current : ω → Except String (List F) × ω
  (maxSegment maxPath : ω → F)
  constraints : ω → List String
  workspace : ω → List F → Option String
  tolerance : Option (ω → F)
  gripper : Bool
  segment : ω → List F → List F → ℤ → Except String (Leg F) × ω

inductive Refusal (F : Type) where
  | count (got : ℕ)
  | notFinite (waypoint : ℕ)
  | tooFar (segment : ℕ) (norm limit : F)
  | workspace (error : String)
  | tooLong (total limit : F)
  deriving DecidableEq

inductive Stop where
  | completed
  | error
  | notReached
  | episodeEnded
  deriving DecidableEq

inductive Reply (F : Type) where
  | noGripper
  | refused (refusal : Refusal F)
  | done (requested completed : ℕ) (reachedTarget : Bool) (stop : Stop)
      (length : F)
  deriving DecidableEq

/-- A leg of the loop: where it was to go, from where, the world it was sent
in if it was, and what it reports. -/
structure Tried (ω F : Type) where
  waypoint : ℕ
  (target start : List F)
  sentAt : Option ω
  leg : Leg F
  deriving DecidableEq

variable {ω F : Type} (nums : Numbers F) (rig : WaypointRig ω F)

/-! ## The route -/

/-- `w.map((v, k) => v - from[k])` -/
def delta (w start : List F) : List F :=
  w.mapIdx fun k v => nums.sub v (start[k]?.getD nums.nan)

def moveLimit (cap : F) (constraints : List String) : F :=
  (constraints.filterMap nums.documented).foldl nums.min cap

/-- The norm and the limit of a move that is refused. -/
def checkMove (move : List F) (cap : F) (constraints : List String) : Option (F × F) :=
  if nums.le (nums.hypot move) (moveLimit nums cap constraints) then none
  else some (nums.hypot move, moveLimit nums cap constraints)

def checkLegs (world : ω) : ℕ → List F → List (List F) → Except (Refusal F) (List F)
  | _, _, [] => .ok []
  | i, start, w :: rest =>
    if w.length ≠ 3 || !w.all nums.isFinite then .error (.notFinite i)
    else
      match checkMove nums (delta nums w start) (rig.maxSegment world)
          (rig.constraints world) with
      | some (norm, limit) => .error (.tooFar i norm limit)
      | none =>
        match rig.workspace world w with
        | some error => .error (.workspace error)
        | none => (checkLegs world (i + 1) w rest).map (nums.hypot (delta nums w start) :: ·)

def checkRoute (world : ω) (start : List F) (waypoints : List (List F)) :
    Except (Refusal F) (List F) :=
  if waypoints.length < 1 || MAX_WAYPOINTS < waypoints.length then
    .error (.count waypoints.length)
  else
    match checkLegs nums rig world 0 start waypoints with
    | .error refusal => .error refusal
    | .ok lengths =>
      let total := lengths.foldl nums.add nums.zero
      if nums.le total (rig.maxPath world) then .ok lengths
      else .error (.tooLong total (rig.maxPath world))

/-! ## The legs -/

def failed (error : String) : Leg F :=
  ⟨false, false, some error, none⟩

/-- The body of the loop's `try`. -/
def tryLeg (world : ω) (i : ℕ) (start w : List F) (gripper : ℤ) : Tried ω F × ω :=
  match rig.tolerance with
  | none =>
    match rig.segment world start w gripper with
    | (.error error, next) => (⟨i, w, start, some world, failed error⟩, next)
    | (.ok leg, next) => (⟨i, w, start, some world, leg⟩, next)
  | some tolerance =>
    match rig.current world with
    | (.error error, next) => (⟨i, w, start, none, failed error⟩, next)
    | (.ok measured, ready) =>
      match checkMove nums (delta nums w measured) (rig.maxSegment ready)
          (rig.constraints ready) with
      | some (norm, limit) => (⟨i, w, measured, none, failed (nums.moves norm limit)⟩, ready)
      | none =>
        match rig.segment ready measured w gripper with
        | (.error error, next) => (⟨i, w, measured, some ready, failed error⟩, next)
        | (.ok leg, moved) =>
          if leg.errs then (⟨i, w, measured, some ready, leg⟩, moved)
          else
            match rig.current moved with
            | (.error error, next) => (⟨i, w, measured, some ready, failed error⟩, next)
            | (.ok reached, next) =>
              let dist := nums.hypot (delta nums w reached)
              (⟨i, w, measured, some ready,
                { leg with
                  reached := nums.le dist (tolerance next)
                  measured := some (reached, dist) }⟩, next)

/-- Why the loop stops at a leg, if it does. -/
def stopOf (leg : Leg F) : Option Stop :=
  if leg.errs then some .error
  else if !leg.reached then some .notReached
  else if leg.ended then some .episodeEnded
  else none

/-- The legs tried, and why the loop stopped or what a check threw. -/
def walk (gripper : ℤ) : ℕ → List F → List (List F) → ω → List (Tried ω F) × Except String Stop
  | _, _, [], _ => ([], .ok .completed)
  | i, start, w :: rest, world =>
    match rig.check world with
    | some error => ([], .error error)
    | none =>
      let (tried, next) := tryLeg nums rig world i start w gripper
      match stopOf tried.leg with
      | some stop => ([tried], .ok stop)
      | none =>
        let (more, stop) := walk gripper (i + 1) w rest next
        (tried :: more, stop)

/-- `completed` counts the legs that report `reached`. -/
def completed (tried : List (Tried ω F)) : ℕ :=
  tried.countP (·.leg.reached)

/-- A call with the gripper's number, if it is finite, by its sign. -/
def followWaypoints (waypoints : List (List F)) (gripper : Option Bool)
    (world : ω) : List (Tried ω F) × Except String (Reply F) :=
  match rig.check world with
  | some error => ([], .error error)
  | none =>
    if rig.gripper && gripper.isNone then ([], .ok .noGripper)
    else
      match rig.current world with
      | (.error error, _) => ([], .error error)
      | (.ok start, ready) =>
        match checkRoute nums rig ready start waypoints with
        | .error refusal => ([], .ok (.refused refusal))
        | .ok lengths =>
          let sign : ℤ := if gripper = some true then 1 else -1
          let (tried, stop) := walk nums rig sign 0 start waypoints ready
          (tried, stop.map fun stop =>
            .done waypoints.length (completed tried) (completed tried == waypoints.length) stop
              (lengths.foldl nums.add nums.zero))

/-! ## Kept routes -/

/-- The legs of a route as it was given. -/
def legs : List F → List (List F) → List (List F × List F)
  | _, [] => []
  | start, w :: rest => (start, w) :: legs w rest

def Within (world : ω) (start w : List F) : Prop :=
  nums.le (nums.hypot (delta nums w start))
    (moveLimit nums (rig.maxSegment world) (rig.constraints world)) = true

/-- Every leg and waypoint of a route and its length are within limits. -/
structure Accepted (world : ω) (start : List F) (waypoints : List (List F)) : Prop where
  count : 1 ≤ waypoints.length ∧ waypoints.length ≤ MAX_WAYPOINTS
  near : ∀ leg ∈ legs start waypoints, Within nums rig world leg.1 leg.2
  inside : ∀ w ∈ waypoints, rig.workspace world w = none
  short : nums.le
    (((legs start waypoints).map fun leg =>
      nums.hypot (delta nums leg.2 leg.1)).foldl nums.add nums.zero)
    (rig.maxPath world) = true

/-- What holds of the legs of every call. -/
structure Routed (waypoints : List (List F)) (world : ω) (tried : List (Tried ω F)) : Prop where
  accepted : tried ≠ [] → ∃ start ready,
    rig.current world = (.ok start, ready) ∧ Accepted nums rig ready start waypoints ∧
      (rig.tolerance = none →
        tried.map (fun leg => (leg.start, leg.target)) <+: legs start waypoints)
  ordered : tried.map Tried.target <+: waypoints
  measured : rig.tolerance.isSome → ∀ leg ∈ tried, ∀ ready ∈ leg.sentAt,
    Within nums rig ready leg.start leg.target ∧
      ∃ before, rig.current before = (.ok leg.start, ready)
  stops : ∀ before leg later, tried = before ++ leg :: later → later ≠ [] →
    leg.leg.errs = false ∧ leg.leg.reached = true ∧ leg.leg.ended = false

/-- A reply that counts the waypoints reached without an error. -/
def Counted (waypoints : List (List F)) (tried : List (Tried ω F)) : Reply F → Prop
  | .done _ completed reachedTarget stop _ =>
    completed = tried.countP (fun leg => leg.leg.reached && !leg.leg.errs) ∧
      (reachedTarget = true → stop = .completed ∨
        stop = .episodeEnded ∧ tried.length = waypoints.length)
  | _ => True

/-- The legs of a call and what it replies. -/
def Kept (waypoints : List (List F)) (world : ω)
    (called : List (Tried ω F) × Except String (Reply F)) : Prop :=
  Routed nums rig waypoints world called.1 ∧
    ∀ reply, called.2 = .ok reply → Counted waypoints called.1 reply

/-- No leg reports that it got there and an error. -/
def Honest (tried : List (Tried ω F)) : Prop :=
  ∀ leg ∈ tried, leg.leg.errs = true → leg.leg.reached = false

variable {nums rig} {world : ω} {i : ℕ} {start : List F}
  {waypoints : List (List F)} {gripper : ℤ} {w : List F}

theorem checkMove_none {world : ω}
    (allowed : checkMove nums (delta nums w start) (rig.maxSegment world)
      (rig.constraints world) = none) : Within nums rig world start w := by
  rw [checkMove] at allowed
  split at allowed
  · assumption
  · cases allowed

variable {lengths : List F}

theorem checkLegs_ok (checked : checkLegs nums rig world i start waypoints = .ok lengths) :
    (∀ leg ∈ legs start waypoints, Within nums rig world leg.1 leg.2) ∧
      (∀ w ∈ waypoints, rig.workspace world w = none) ∧
        lengths = (legs start waypoints).map fun leg =>
          nums.hypot (delta nums leg.2 leg.1) := by
  induction waypoints generalizing i start lengths with
  | nil =>
    cases checked
    simp [legs]
  | cons w rest ih =>
    rw [checkLegs] at checked
    split at checked
    · cases checked
    split at checked
    · cases checked
    rename_i near
    split at checked
    · cases checked
    rename_i inside
    cases more : checkLegs nums rig world (i + 1) w rest with
    | error refusal =>
      rw [more] at checked
      cases checked
    | ok others =>
      rw [more] at checked
      cases checked
      obtain ⟨within, clear, rfl⟩ := ih more
      exact ⟨List.forall_mem_cons.mpr ⟨checkMove_none near, within⟩,
        List.forall_mem_cons.mpr ⟨inside, clear⟩, rfl⟩

theorem checkRoute_ok (checked : checkRoute nums rig world start waypoints = .ok lengths) :
    Accepted nums rig world start waypoints := by
  rw [checkRoute] at checked
  split at checked
  · cases checked
  rename_i count
  cases legsOk : checkLegs nums rig world 0 start waypoints with
  | error refusal =>
    rw [legsOk] at checked
    cases checked
  | ok found =>
    simp only [legsOk] at checked
    split at checked
    · rename_i short
      obtain ⟨near, inside, rfl⟩ := checkLegs_ok legsOk
      simp only [Bool.or_eq_true, decide_eq_true_eq, not_or, not_lt] at count
      exact ⟨count, near, inside, short⟩
    · cases checked

/-- Where a leg was to go, and from where if it was sent. -/
structure Tried.Sent (nums : Numbers F) (rig : WaypointRig ω F)
    (start w : List F) (tried : Tried ω F) : Prop where
  target : tried.target = w
  nominal : rig.tolerance = none → tried.start = start
  measured : rig.tolerance.isSome → ∀ ready ∈ tried.sentAt,
    Within nums rig ready tried.start w ∧ ∃ before, rig.current before = (.ok tried.start, ready)

theorem tryLeg_sent : (tryLeg nums rig world i start w gripper).1.Sent nums rig start w := by
  rw [tryLeg]
  split
  · rename_i off
    split <;> exact ⟨rfl, fun _ => rfl, by simp [off]⟩
  rename_i tolerance on
  have unsent (measured : List F) (leg : Leg F) :
      Tried.Sent nums rig start w ⟨i, w, measured, none, leg⟩ :=
    ⟨rfl, by simp [on], nofun⟩
  split
  · exact unsent _ _
  rename_i measured ready found
  split
  · exact unsent _ _
  rename_i near
  have sent (leg : Leg F) :
      Tried.Sent nums rig start w ⟨i, w, measured, some ready, leg⟩ := by
    refine ⟨rfl, by simp [on], ?_⟩
    rintro - _ ⟨⟩
    exact ⟨checkMove_none near, world, found⟩
  split
  · exact sent _
  split
  · exact sent _
  split <;> exact sent _

/-- How a walk over a route goes. -/
structure Went (nums : Numbers F) (rig : WaypointRig ω F) (start : List F)
    (waypoints : List (List F)) (went : List (Tried ω F) × Except String Stop) : Prop where
  ordered : went.1.map Tried.target <+: waypoints
  nominal : rig.tolerance = none →
    went.1.map (fun leg => (leg.start, leg.target)) <+: legs start waypoints
  measured : rig.tolerance.isSome → ∀ leg ∈ went.1, ∀ ready ∈ leg.sentAt,
    Within nums rig ready leg.start leg.target ∧
      ∃ before, rig.current before = (.ok leg.start, ready)
  stops : ∀ before leg later, went.1 = before ++ leg :: later → later ≠ [] → stopOf leg.leg = none
  last : ∀ leg ∈ went.1, ∀ stop ∈ stopOf leg.leg, went.2 = .ok stop
  ended : ∀ stop, went.2 = .ok stop → stop = .completed ∨ ∃ leg ∈ went.1, stopOf leg.leg = some stop

theorem Went.none {thrown : Except String Stop}
    (completed : ∀ stop, thrown = .ok stop → stop = .completed) :
    Went nums rig start waypoints ([], thrown) where
  ordered := List.nil_prefix
  nominal _ := List.nil_prefix
  measured := by simp
  stops := by simp
  last := by simp
  ended stop isStop := .inl (completed stop isStop)

section Legs

variable {w : List F} {tried : Tried ω F}
  (sent : tried.Sent nums rig start w)
include sent

theorem Tried.Sent.last {stop : Stop} (stops : stopOf tried.leg = some stop) :
    Went nums rig start (w :: waypoints) ([tried], .ok stop) where
  ordered := by simp [sent.target]
  nominal off := by simp [legs, sent.target, sent.nominal off]
  measured on leg member := by
    rw [List.mem_singleton.mp member, sent.target]
    exact sent.measured on
  stops before leg later split more := by
    rcases List.cons_eq_append_iff.mp split with ⟨-, same⟩ | ⟨_, -, same⟩
    · exact absurd (List.cons_eq_cons.mp same).2 more
    · simp at same
  last := by simp [stops]
  ended stop same := by
    cases same
    exact .inr ⟨tried, List.mem_cons_self, stops⟩

theorem Tried.Sent.next {went : List (Tried ω F) × Except String Stop}
    (goes : stopOf tried.leg = none) (rest : Went nums rig w waypoints went) :
    Went nums rig start (w :: waypoints) (tried :: went.1, went.2) where
  ordered := by simpa [sent.target] using rest.ordered
  nominal off := by simpa [legs, sent.target, sent.nominal off] using rest.nominal off
  measured on := by
    refine List.forall_mem_cons.mpr ⟨?_, rest.measured on⟩
    rw [sent.target]
    exact sent.measured on
  stops before leg later split more := by
    rcases List.cons_eq_append_iff.mp split with ⟨-, same⟩ | ⟨_, -, same⟩
    · rw [(List.cons_eq_cons.mp same).1]
      exact goes
    · exact rest.stops _ leg later same more
  last := List.forall_mem_cons.mpr ⟨by simp [goes], rest.last⟩
  ended stop same := by
    rcases rest.ended stop same with done | ⟨leg, member, stops⟩
    · exact .inl done
    · exact .inr ⟨leg, List.mem_cons_of_mem _ member, stops⟩

end Legs

theorem walk_went :
    Went nums rig start waypoints (walk nums rig gripper i start waypoints world) := by
  induction waypoints generalizing i start world with
  | nil => exact .none fun stop same => (Except.ok.inj same).symm
  | cons w rest ih =>
    rw [walk]
    split
    · exact .none nofun
    have sent : (tryLeg nums rig world i start w gripper).1.Sent nums rig
        start w := tryLeg_sent
    rcases step : tryLeg nums rig world i start w gripper with ⟨tried, next⟩
    rw [step] at sent
    dsimp only
    split
    · exact sent.last (by assumption)
    · exact sent.next (by assumption) ih

theorem stopOf_none {leg : Leg F} (goes : stopOf leg = none) :
    leg.errs = false ∧ leg.reached = true ∧ leg.ended = false := by
  unfold stopOf at goes
  split_ifs at goes
  simp_all

theorem Went.counted {tried : List (Tried ω F)} {stop : Stop}
    (went : Went nums rig start waypoints (tried, .ok stop))
    (honest : Honest tried) (requested : ℕ) (length : F) :
    Counted waypoints tried
      (.done requested (completed tried) (completed tried == waypoints.length) stop length) := by
  have clean {leg : Tried ω F} (member : leg ∈ tried)
      (reached : leg.leg.reached = true) : leg.leg.errs = false := by
    by_contra errs
    rw [honest leg member (by simpa using errs)] at reached
    cases reached
  refine ⟨List.countP_congr fun leg member => ?_, fun all => ?_⟩
  · simpa using clean member
  have every : completed tried = waypoints.length := by simpa using all
  have room : tried.length ≤ waypoints.length := by simpa using went.ordered.length_le
  have most : completed tried ≤ tried.length := List.countP_le_length
  rcases went.ended stop rfl with done | ⟨leg, member, stops⟩
  · exact .inl done
  have reached := List.countP_eq_length.mp (show completed tried = tried.length by omega) leg member
  rw [stopOf, clean member reached, reached] at stops
  refine .inr ⟨?_, by omega⟩
  simp only [Bool.false_eq_true, Bool.not_true, if_false] at stops
  split at stops
  · exact (Option.some.inj stops).symm
  · cases stops

variable (nums rig)

/-- A call moves nothing, or walks an accepted route and reports the walk. -/
theorem followWaypoints_went (waypoints : List (List F)) (gripper : Option Bool) (world : ω) :
    ((followWaypoints nums rig waypoints gripper world).1 = [] ∧
        ∀ reply, (followWaypoints nums rig waypoints gripper world).2 =
          .ok reply → Counted (ω := ω) waypoints [] reply) ∨
      ∃ start ready tried stop length, rig.current world = (.ok start, ready) ∧
        Accepted nums rig ready start waypoints ∧
        Went nums rig start waypoints (tried, stop) ∧
        followWaypoints nums rig waypoints gripper world =
          (tried, stop.map fun stop =>
            .done waypoints.length (completed tried)
              (completed tried == waypoints.length) stop length) := by
  rw [followWaypoints]
  split
  · exact .inl ⟨rfl, nofun⟩
  split
  · exact .inl ⟨rfl, by rintro _ ⟨⟩; trivial⟩
  split
  · exact .inl ⟨rfl, nofun⟩
  rename_i start ready found
  split
  · exact .inl ⟨rfl, by rintro _ ⟨⟩; trivial⟩
  · exact .inr ⟨start, ready, _, _, _, found, checkRoute_ok (by assumption), walk_went, rfl⟩

/-- Whole numbers, with the sum of the sizes as the length. -/
def wholes : Numbers ℤ where
  zero := 0
  nan := 0
  add := (· + ·)
  sub := (· - ·)
  min := min
  hypot v := (v.map fun x => (x.natAbs : ℤ)).sum
  le a b := a ≤ b
  isFinite _ := true
  documented _ := none
  moves _ _ := "too far"

/-- An arm whose legs get there and report a stall. -/
def stalling : WaypointRig Unit ℤ where
  check _ := none
  current world := (.ok [0, 0, 0], world)
  maxSegment _ := 2
  maxPath _ := 4
  constraints _ := []
  workspace _ _ := none
  tolerance := none
  gripper := false
  segment world _ _ _ := (.ok ⟨true, false, some "stalled", none⟩, world)

end PiEmbodied.Waypoints
