import PiEmbodied.Services.Ur5e

/-!
# The calls of a UR5e, one after the other

What a call leaves of the setpoint, and what motions it sends.
-/

namespace PiEmbodied.Services.Ur5e

open Programs Programs.Program
open Bool (noConfusion)
open List (append_assoc mem_append_left mem_cons_self suffix_append)

/-! ## What a call leaves -/

section Calls

variable {Rotation : Type} {limits : Limits} {rotations : Rotations Rotation}

/-- No axis of the target is further outside than the start's, up to the slack
of the check. -/
structure NoFurther (limits : Limits) (start target : Position) : Prop where
  x : (violation limits target).x ≤ (violation limits start).x + nano
  y : (violation limits target).y ≤ (violation limits start).y + nano
  z : (violation limits target).z ≤ (violation limits start).z + nano

theorem noFurther_of_not_furtherOut {start target : Position}
    (inside : furtherOut (violation limits target) (violation limits start) = false) :
    NoFurther limits start target := by
  simp only [furtherOut, Bool.or_eq_false_iff, decide_eq_false_iff_not, not_lt] at inside
  exact ⟨inside.1.1, inside.1.2, inside.2⟩

variable {start target : Pose Rotation} {what : String}

theorem checkTarget_noFurther (checked : checkTarget limits rotations start target what = none) :
    NoFurther limits start.position target.position := by
  apply noFurther_of_not_furtherOut
  by_contra further
  rw [Bool.not_eq_false] at further
  simp [checkTarget, further] at checked

def raisedBy (start : Pose Rotation) (lift : ℚ) : Pose Rotation :=
  { start with
    position := { start.position with z := start.position.z + lift } }

variable {lift : ℚ}

theorem lift_noFurther (up : 0 ≤ lift) (below : lift ≤ limits.workspaceMax.z - start.position.z) :
    NoFurther limits start.position (raisedBy start lift).position := by
  have slack : (0 : ℚ) ≤ nano := by norm_num [nano]
  refine ⟨le_add_of_nonneg_right slack, le_add_of_nonneg_right slack, ?_⟩
  refine le_trans ?_ (le_add_of_nonneg_right slack)
  have notOver : start.position.z + lift - limits.workspaceMax.z ≤ 0 := by linarith
  change
    max 0 (max limits.workspaceMin.z limits.zFloor - (start.position.z + lift)) +
      max 0 (start.position.z + lift - limits.workspaceMax.z) ≤ _
  rw [max_eq_left notOver, add_zero]
  refine le_trans (max_le_max_left 0 ?_) (le_add_of_nonneg_right (le_max_left _ _))
  linarith

/-- The end of a motion is inside the workspace, or not further outside than
what it was judged from. -/
def Bounded (limits : Limits) : Event Rotation → Prop
  | .sentL start target => NoFurther limits start.position target.position
  | .sentJ _ pose => isOutside limits pose.position = false
  | _ => True

variable {event : Event Rotation}

theorem bounded_of_not_motion (notMotion : event.isMotion = false) : Bounded limits event := by
  cases event with
  | sentL _ _ | sentJ _ _ => exact absurd notMotion noConfusion
  | measured _ | joints _ | unverified => trivial

/-- What the last motion of the events says of the setpoint. -/
inductive Verified (limits : Limits) (rotations : Rotations Rotation)
    (events : List (Event Rotation)) : Option (Pose Rotation) → Prop
  | cleared : Verified limits rotations events none
  | movedL {start target final : Pose Rotation}
      {later : List (Event Rotation)}
      (last : (.sentL start target :: later) <:+ events)
      (quiet : Quiet later) (seen : .measured final ∈ later)
      (inside : arrived limits rotations target final = true) :
      Verified limits rotations events (some target)
  | movedJ {q read : Joints} {goal pose : Pose Rotation}
      {later : List (Event Rotation)}
      (last : (.sentJ q goal :: later) <:+ events)
      (quiet : Quiet later) (seen : .measured pose ∈ later)
      (readSeen : .joints read ∈ later)
      (inside : jointsArrived limits q read = true) :
      Verified limits rotations events (some pose)
  /-- The driver raised; nothing is said of the setpoint. -/
  | unverified {start target : Pose Rotation} {later : List (Event Rotation)}
      {stored : Option (Pose Rotation)}
      (last : (.sentL start target :: later) <:+ events)
      (quiet : Quiet later) (raised : .unverified ∈ later) :
      Verified limits rotations events stored

variable {stored : Option (Pose Rotation)} {events : List (Event Rotation)}

theorem Verified.before (verified : Verified limits rotations events stored)
    (first : List (Event Rotation)) : Verified limits rotations (first ++ events) stored := by
  have longer := suffix_append first events
  cases verified with
  | cleared => exact .cleared
  | movedL last quiet seen inside => exact .movedL (last.trans longer) quiet seen inside
  | movedJ last quiet seen readSeen inside =>
    exact .movedJ (last.trans longer) quiet seen readSeen inside
  | unverified last quiet raised => exact .unverified (last.trans longer) quiet raised

variable {first more : List (Event Rotation)} {second : List (Event Rotation)}

theorem suffix_with (last : first <:+ second) : (first ++ more) <:+ (second ++ more) := by
  obtain ⟨before, isSecond⟩ := last
  exact ⟨before, by rw [← isSecond, append_assoc]⟩

theorem Verified.quietly {next : Option (Pose Rotation)}
    (verified : Verified limits rotations events stored) (quiet : Quiet more)
    (kept : next = stored ∨ next = none) : Verified limits rotations (events ++ more) next := by
  rcases kept with same | cleared
  · rw [same]
    cases verified with
    | cleared => exact .cleared
    | movedL last wasQuiet seen inside =>
      exact .movedL (suffix_with last) (quiet_append wasQuiet quiet)
        (mem_append_left _ seen) inside
    | movedJ last wasQuiet seen readSeen inside =>
      exact .movedJ (suffix_with last) (quiet_append wasQuiet quiet)
        (mem_append_left _ seen) (mem_append_left _ readSeen)
        inside
    | unverified last wasQuiet raised =>
      exact .unverified (suffix_with last) (quiet_append wasQuiet quiet)
        (mem_append_left _ raised)
  · rw [cleared]
    exact .cleared

variable {later : List (Event Rotation)}

theorem HeldL.verified (quiet : Quiet later) (held : HeldL limits rotations target later stored) :
    Verified limits rotations (first ++ .sentL start target :: later)
      stored := by
  rcases held with cleared | ⟨isTarget, final, seen, inside⟩
  · rw [cleared]
    exact .cleared
  · rw [isTarget]
    exact .movedL (suffix_append first _) quiet seen inside

variable {q : Joints}

theorem HeldJ.verified {goal : Pose Rotation} (quiet : Quiet later)
    (held : HeldJ limits q later stored) :
    Verified limits rotations (first ++ .sentJ q goal :: later) stored := by
  rcases held with cleared | ⟨pose, read, isPose, seen, readSeen, inside⟩
  · rw [cleared]
    exact .cleared
  · rw [isPose]
    exact .movedJ (suffix_append first _) quiet seen readSeen inside

/-- What a call does to the setpoint and sends; `own` is a setpoint that it may
start from without measuring. -/
structure Did (limits : Limits) (rotations : Rotations Rotation)
    (own : Option (Pose Rotation)) (s next : Controller Rotation)
    (more : List (Event Rotation)) : Prop where
  recent : next.recent = s.recent ++ more
  past : next.past = s.past
  bounded : ∀ event ∈ more, Bounded limits event
  judged : ∀ start target, .sentL start target ∈ more → .measured start ∈ more ∨ own = some start
  idle : Quiet more →
    (next.target = s.target ∨ next.target = none) ∨
      ∃ pose, next.target = some pose ∧ .measured pose ∈ more
  verified : ¬ Quiet more → Verified limits rotations more next.target

variable {s next : Controller Rotation}

theorem Idle.did {own : Option (Pose Rotation)} (idle : Idle s next more) :
    Did limits rotations own s next more where
  recent := idle.recent
  past := idle.past
  bounded := fun event member => bounded_of_not_motion (idle.quiet event member)
  judged := fun _ _ member => absurd (idle.quiet _ member) noConfusion
  idle := fun _ => idle.target
  verified := fun moved => absurd idle.quiet moved

variable {between : Controller Rotation}

theorem Moved.bounded {sent : Event Rotation}
    {kept : List (Event Rotation) → Option (Pose Rotation) → Prop}
    (moved : Moved sent kept between next later) (bounded : Bounded limits sent) :
    ∀ event ∈ sent :: later, Bounded limits event :=
  List.forall_mem_cons.mpr
    ⟨bounded, fun event after => bounded_of_not_motion (moved.quiet event after)⟩

theorem Moved.did {own : Option (Pose Rotation)} {sent : Event Rotation}
    {kept : List (Event Rotation) → Option (Pose Rotation) → Prop}
    (moved : Moved sent kept between next later) (idle : Idle s between first)
    (isMotion : sent.isMotion = true) (bounded : Bounded limits sent)
    (judged : ∀ start target, sent = .sentL start target →
      .measured start ∈ first ∨ own = some start)
    (verified : Verified limits rotations (first ++ sent :: later) next.target) :
    Did limits rotations own s next (first ++ sent :: later) where
  recent := by rw [moved.recent, idle.recent, append_assoc]
  past := moved.past.trans idle.past
  bounded := List.forall_mem_append.mpr
    ⟨fun event before => bounded_of_not_motion (idle.quiet event before),
      moved.bounded bounded⟩
  judged := by
    intro start target member
    rcases List.mem_append.mp member with before | rest
    · exact absurd (idle.quiet _ before) noConfusion
    · rcases List.mem_cons.mp rest with same | after
      · exact (judged start target same.symm).imp (mem_append_left _) id
      · exact absurd (moved.quiet _ after) noConfusion
  idle := fun quiet => absurd (quiet sent (List.mem_append_right _ mem_cons_self))
    (by rw [isMotion]; exact noConfusion)
  verified := fun _ => verified

theorem Did.looked {own : Option (Pose Rotation)}
    (did : Did limits rotations own s between first) (sent : ¬ Quiet first)
    (looked : Looked between next more) :
    Did limits rotations own s next (first ++ more) where
  recent := by rw [looked.recent, did.recent, append_assoc]
  past := looked.past.trans did.past
  bounded := List.forall_mem_append.mpr
    ⟨did.bounded, fun event after => bounded_of_not_motion (looked.quiet event after)⟩
  judged := by
    intro start target member
    rcases List.mem_append.mp member with before | after
    · exact (did.judged start target before).imp (mem_append_left _) id
    · exact absurd (looked.quiet _ after) noConfusion
  idle := fun quiet => absurd (fun event member => quiet event (mem_append_left _ member)) sent
  verified := fun _ => (did.verified sent).quietly looked.quiet looked.target

variable {pose : Pose Rotation}

theorem Did.movedJ {own : Option (Pose Rotation)}
    (did : Did limits rotations own s between first) (sent : ¬ Quiet first)
    (bounded : isOutside limits pose.position = false)
    (moved : Moved (.sentJ q pose) (HeldJ limits q) between next later) :
    Did limits rotations own s next (first ++ .sentJ q pose :: later) where
  recent := by rw [moved.recent, did.recent, append_assoc]
  past := moved.past.trans did.past
  bounded := List.forall_mem_append.mpr ⟨did.bounded, moved.bounded bounded⟩
  judged := by
    intro start target member
    rcases List.mem_append.mp member with before | rest
    · exact (did.judged start target before).imp (mem_append_left _) id
    · rcases List.mem_cons.mp rest with same | after
      · cases same
      · exact absurd (moved.quiet _ after) noConfusion
  idle := fun quiet => absurd (fun event member => quiet event (mem_append_left _ member)) sent
  verified := fun _ => moved.kept.verified moved.quiet

/-! ## The moves -/

theorem setpoint_meets {post : Pose Rotation → Controller Rotation → Prop}
    {raises : Fault → Controller Rotation → Prop}
    (holds : ∀ start next pose, Idle s next [.measured pose] →
      (s.target = some start ∨ start = pose) → post start next)
    (fails : ∀ fault, fault.isRefusal = false → raises fault s) :
    Meets (setpoint limits rotations) post raises s := by
  unfold setpoint
  refine meets_bind (measured_meets (fun pose => ?_) fails)
  refine meets_bind (meets_get ?_)
  have idle : Idle s { s.saw (.measured pose) with target := some pose } [.measured pose] :=
    ⟨rfl, rfl, quiet_cons rfl quiet_nil, .inr ⟨pose, rfl, mem_cons_self⟩⟩
  have anchored := holds pose _ pose idle (.inr rfl)
  rw [show (s.saw (.measured pose)).target = s.target from rfl]
  cases isTarget : s.target with
  | none => exact meets_bind (meets_modify (meets_pure anchored))
  | some target =>
    dsimp only
    split
    · exact meets_bind (meets_modify (meets_pure anchored))
    · apply meets_pure
      exact holds target _ pose (saw_looked s _ rfl).idle (.inl isTarget)

def Returned (limits : Limits) (rotations : Rotations Rotation)
    (own : Option (Pose Rotation)) (s next : Controller Rotation) : Prop :=
  ∃ more, Did limits rotations own s next more

/-- A move that raised: where it is refused, nothing was sent. -/
def Failed (limits : Limits) (rotations : Rotations Rotation)
    (s : Controller Rotation) (fault : Fault) (next : Controller Rotation) :
    Prop :=
  ∃ more, Did limits rotations none s next more ∧ (fault.isRefusal = true → Quiet more)

theorem failed_idle (idle : Idle s next more) (fault : Fault) :
    Failed limits rotations s fault next :=
  ⟨more, idle.did, fun _ => idle.quiet⟩

theorem refuse_meets (idle : Idle s next more) (why : Refusal) :
    Meets (refuse why : Action Rotation Result) (fun _ next => Returned limits rotations none s next)
      (Failed limits rotations s) next :=
  meets_raise (failed_idle idle _)

variable {judged : Pose Rotation}

/-- The end of a moveL that was judged from a pose measured before it, with
what its end leaves of the setpoint. -/
theorem sentL_did {own : Option (Pose Rotation)}
    (moved :
      Moved (.sentL judged target)
        (fun later stored => HeldL limits rotations target later stored ∨ .unverified ∈ later)
        between next later)
    (idle : Idle s between first)
    (bounded : NoFurther limits judged.position target.position)
    (seen : .measured judged ∈ first ∨ own = some judged) :
    Did limits rotations own s next (first ++ .sentL judged target :: later) := by
  apply moved.did idle rfl bounded
  · intro start other same
    cases same
    exact seen
  · rcases moved.kept with held | raised
    · exact held.verified moved.quiet
    · exact .unverified (suffix_append first _) moved.quiet raised

theorem HeldL.moved {judged : Pose Rotation}
    (moved : Moved (.sentL judged target) (HeldL limits rotations target) between next later) :
    Moved (.sentL judged target)
      (fun later stored => HeldL limits rotations target later stored ∨ .unverified ∈ later)
      between next later :=
  { moved with
    kept := .inl moved.kept }

variable (fuel : ℕ) (delta : Option Position) (maxRotate maxMove : Option ℚ)

theorem sendChecked_meets (target : Pose Rotation) (what : String) (idle : Idle s between first) :
    Meets (sendChecked limits rotations fuel target what)
      (fun _ next => Returned limits rotations none s next)
      (Failed limits rotations s) between := by
  unfold sendChecked
  refine meets_bind (measured_meets (fun now => ?_) fun fault _ => failed_idle idle fault)
  have looked := idle.looked (saw_looked between (.measured now) rfl)
  have seen : .measured now ∈ first ++ [.measured now] ∨
      (none : Option (Pose Rotation)) = some now :=
    .inl (List.mem_append_right _ mem_cons_self)
  cases isChecked : checkTarget limits rotations now target what with
  | some why => exact meets_raise (failed_idle looked _)
  | none =>
    have bounded := checkTarget_noFurther isChecked
    refine (runL_meets fuel now target limits.moveTimeout _).imp ?_ ?_
    · rintro _ next ⟨later, moved⟩
      exact ⟨_, sentL_did (HeldL.moved moved) looked bounded seen⟩
    · rintro fault next (still | ⟨notRefusal, later, moved⟩)
      · exact failed_idle (looked.looked still.looked) fault
      · refine ⟨_, sentL_did moved looked bounded seen, fun refusal => ?_⟩
        rw [notRefusal] at refusal
        exact absurd refusal noConfusion

theorem moveDelta_meets (s : Controller Rotation) :
    Meets (moveDelta limits rotations fuel delta maxMove)
      (fun _ next => Returned limits rotations none s next)
      (Failed limits rotations s) s := by
  unfold moveDelta
  cases delta with
  | none => exact refuse_meets (Still.refl s).idle _
  | some d =>
    dsimp only
    split
    · exact refuse_meets (Still.refl s).idle _
    · refine meets_bind (setpoint_meets
        (fun start next pose idle _ => sendChecked_meets fuel _ _ idle)
        fun fault _ => failed_idle (Still.refl s).idle fault)

theorem rotateDelta_meets (s : Controller Rotation) :
    Meets (rotateDelta limits rotations fuel delta maxRotate)
      (fun _ next => Returned limits rotations none s next)
      (Failed limits rotations s) s := by
  unfold rotateDelta
  cases delta with
  | none => exact refuse_meets (Still.refl s).idle _
  | some e =>
    dsimp only
    split
    · exact refuse_meets (Still.refl s).idle _
    · refine meets_bind (setpoint_meets
        (fun start next pose idle _ => sendChecked_meets fuel _ _ idle)
        fun fault _ => failed_idle (Still.refl s).idle fault)

theorem movePose_meets (xyz : Option Position) (orientation : Orientation Rotation)
    (maxMove maxRotate : Option ℚ) (s : Controller Rotation) :
    Meets (movePose limits rotations fuel xyz orientation maxMove maxRotate)
      (fun _ next => Returned limits rotations none s next)
      (Failed limits rotations s) s := by
  unfold movePose
  cases xyz with
  | none => exact meets_raise (failed_idle (Still.refl s).idle _)
  | some p =>
    refine meets_bind (setpoint_meets (fun start next pose idle _ => ?_)
      fun fault _ => failed_idle (Still.refl s).idle fault)
    cases orientation with
    | invalid => exact refuse_meets idle _
    | current =>
      dsimp only
      split
      · exact refuse_meets idle _
      · exact sendChecked_meets fuel _ _ idle
    | given rotation =>
      dsimp only
      split
      · exact refuse_meets idle _
      · split
        · exact refuse_meets idle _
        · exact sendChecked_meets fuel _ _ idle

/-! ## The joint moves -/

theorem Looked.trans (before : Looked s between first) (later : Looked between next second) :
    Looked s next (first ++ second) where
  recent := by rw [later.recent, before.recent, append_assoc]
  past := later.past.trans before.past
  quiet := quiet_append before.quiet later.quiet
  target := by
    rcases later.target with same | cleared
    · rw [same]
      exact before.target
    · exact .inr cleared

theorem forwardKinematics_meets {post : Pose Rotation → Controller Rotation → Prop}
    {raises : Fault → Controller Rotation → Prop} (holds : ∀ pose, post pose s)
    (fails : ∀ fault, raises fault s) : Meets forwardKinematics post raises s := by
  unfold forwardKinematics
  refine meets_bind (meets_driver (fun reading => ?_) fun error => fails _)
  cases reading with
  | none => exact meets_raise (fails _)
  | some pose => exact meets_pure (holds pose)

theorem checkJointTarget_meets {post : Pose Rotation → Controller Rotation → Prop}
    {raises : Fault → Controller Rotation → Prop}
    (holds : ∀ pose, isOutside limits pose.position = false → post pose s)
    (fails : ∀ fault, raises fault s) : Meets (checkJointTarget limits what) post raises s := by
  unfold checkJointTarget
  refine meets_bind (meets_attempt (meets_driver (fun within => ?_)
    fun error => meets_raise (fails _)))
  rcases within with _ | within
  · exact meets_raise (fails _)
  · cases within with
    | false => exact meets_raise (fails _)
    | true =>
      refine meets_bind (forwardKinematics_meets (fun pose => ?_) fails)
      split
      · exact meets_raise (fails _)
      · next inside =>
          rw [Bool.not_eq_true] at inside
          exact meets_pure (holds pose inside)

theorem samplePath_meets {startOut : ℚ} {post : Bool → Controller Rotation → Prop}
    {raises : Fault → Controller Rotation → Prop}
    (holds : ∀ blocked, post blocked s) (fails : ∀ fault, raises fault s)
    (left : ℕ) : Meets (samplePath limits startOut left) post raises s := by
  induction left with
  | zero => exact meets_pure (holds _)
  | succ left ih =>
    rw [samplePath]
    refine meets_bind (forwardKinematics_meets (fun pose => ?_) fails)
    split
    · exact meets_pure (holds _)
    · exact ih

theorem checkJointPath_meets {post : Bool → Controller Rotation → Prop}
    {raises : Fault → Controller Rotation → Prop}
    (holds : ∀ blocked, post blocked s) (fails : ∀ fault, raises fault s) :
    Meets (checkJointPath limits) post raises s :=
  meets_bind (forwardKinematics_meets (fun _ => samplePath_meets holds fails _) fails)

def Joined (limits : Limits) (s next : Controller Rotation) : Prop :=
  (∃ more, Looked s next more) ∨
    ∃ between first q pose later, Looked s between first ∧ isOutside limits pose.position = false ∧
      Moved (.sentJ q pose) (HeldJ limits q) between next later

theorem runJ_joined (target : Joints) (inside : isOutside limits pose.position = false)
    (looked : Looked s between first) :
    Meets (runJ limits fuel target pose) (fun _ next => Joined limits s next)
      (fun fault next => Joined limits s next ∧
        (fault.isRefusal = true → ∃ more, Looked s next more)) between := by
  refine (runJ_meets fuel target pose between).imp ?_ ?_
  · rintro _ next ⟨later, moved⟩
    exact .inr ⟨between, first, target, pose, later, looked, inside, moved⟩
  · rintro fault next ⟨notRefusal, still | ⟨later, moved⟩⟩
    · exact ⟨.inl ⟨_, looked.trans still.looked⟩, fun _ => ⟨_, looked.trans still.looked⟩⟩
    · refine ⟨.inr ⟨between, first, target, pose, later, looked, inside,
        moved⟩, fun refusal => ?_⟩
      rw [notRefusal] at refusal
      exact absurd refusal noConfusion

theorem moveJoints_meets (q : Option Joints) (checkPath : Bool) (s : Controller Rotation) :
    Meets (moveJoints limits fuel q checkPath) (fun _ next => Joined limits s next)
      (fun fault next => Joined limits s next ∧
        (fault.isRefusal = true → ∃ more, Looked s next more)) s := by
  have failed : ∀ (fault : Fault) (next : Controller Rotation)
      (more : List (Event Rotation)), Looked s next more →
      Joined limits s next ∧ (fault.isRefusal = true → ∃ more, Looked s next more) :=
    fun fault next more looked => ⟨.inl ⟨more, looked⟩, fun _ => ⟨_, looked⟩⟩
  unfold moveJoints
  cases q with
  | none => exact meets_raise (failed _ _ _ (Still.refl s).looked)
  | some target =>
    refine meets_bind ((requireMovable_meets "the joint move" s).imp ?_
      fun fault next still => failed fault next _ still.looked)
    intro _ between still
    refine meets_bind (checkJointTarget_meets (fun pose inside => ?_)
      fun fault => failed fault between _ still.looked)
    cases checkPath with
    | false => exact runJ_joined fuel target inside still.looked
    | true =>
      refine meets_bind (readJoints_meets (fun q => ?_)
        fun fault _ => failed fault between _ still.looked)
      have looked := still.looked.trans (saw_looked between (.joints q) rfl)
      refine meets_bind (checkJointPath_meets (fun blocked => ?_)
        fun fault => failed fault _ _ looked)
      cases blocked with
      | false => exact runJ_joined fuel target inside looked
      | true =>
        refine meets_bind (readJoints_meets (fun last => ?_) fun fault _ => failed fault _ _ looked)
        exact meets_pure (.inl ⟨_, looked.trans (saw_looked _ (.joints last) rfl)⟩)

theorem Joined.saw (joined : Joined limits s next) (notMotion : event.isMotion = false) :
    Joined limits s (next.saw event) := by
  rcases joined with ⟨more, looked⟩ |
    ⟨between, first, q, pose, later, looked, inside, moved⟩
  · exact .inl ⟨_, looked.trans (saw_looked next _ notMotion)⟩
  · exact .inr ⟨between, first, q, pose, _, looked, inside, moved.saw notMotion moved.kept.append⟩

theorem finishReset_meets (target : Joints) (gripped : Gripped) (lift : Option Result)
    (s : Controller Rotation) :
    Meets (finishReset limits fuel target gripped lift) (fun _ next => Joined limits s next)
      (fun fault next => Joined limits s next ∧
        (fault.isRefusal = true → ∃ more, Looked s next more)) s := by
  unfold finishReset
  refine meets_bind ((moveJoints_meets fuel (some target) true s).imp ?_ fun _ _ failed => failed)
  intro move next joined
  split
  · refine meets_bind (measured_meets (fun final => ?_)
      fun fault notRefusal => ⟨joined, fun refusal => ?_⟩)
    · exact meets_pure (joined.saw rfl)
    · rw [notRefusal] at refusal
      exact absurd refusal noConfusion
  · exact meets_pure joined

theorem Joined.idle_did {own : Option (Pose Rotation)} (joined : Joined limits between next)
    (idle : Idle s between first) : ∃ more, Did limits rotations own s next more := by
  rcases joined with ⟨more, looked⟩ |
    ⟨before, more, q, pose, later, looked, inside, moved⟩
  · exact ⟨_, (idle.looked looked).did⟩
  · refine ⟨_, moved.did (idle.looked looked) rfl inside ?_ (moved.kept.verified moved.quiet)⟩
    intro _ _ same
    cases same

theorem Joined.did {own : Option (Pose Rotation)} (joined : Joined limits between next)
    (did : Did limits rotations own s between first) (sent : ¬ Quiet first) :
    ∃ more, Did limits rotations own s next more := by
  rcases joined with ⟨more, looked⟩ |
    ⟨before, more, q, pose, later, looked, inside, moved⟩
  · exact ⟨_, did.looked sent looked⟩
  · have sentStill : ¬ Quiet (first ++ more) :=
      fun quiet => sent fun event member => quiet event (mem_append_left _ member)
    exact ⟨_, (did.looked sent looked).movedJ sentStill inside moved⟩

/-! ## The reset -/

def LiftOnly (limits : Limits) (rotations : Rotations Rotation)
    (events : List (Event Rotation)) (stored : Option (Pose Rotation)) : Prop :=
  ∃ first start lift later,
    events = first ++ .sentL start (raisedBy start lift) :: later ∧
      Quiet first ∧ Quiet later ∧ 0 < lift ∧ lift ≤ limits.resetLift ∧
      HeldL limits rotations (raisedBy start lift) later stored

/-- A reset that raised: where it is refused, at most its lift was sent. -/
def ResetFailed (limits : Limits) (rotations : Rotations Rotation)
    (s : Controller Rotation) (fault : Fault) (next : Controller Rotation) :
    Prop :=
  ∃ more, Did limits rotations s.target s next more ∧
    (fault.isRefusal = true → Quiet more ∨ LiftOnly limits rotations more next.target)

theorem resetFailed_idle (idle : Idle s next more) (fault : Fault) :
    ResetFailed limits rotations s fault next :=
  ⟨more, idle.did, fun _ => .inl idle.quiet⟩

theorem openGripper_meets {post : Gripped → Controller Rotation → Prop}
    {raises : Fault → Controller Rotation → Prop}
    (holds : ∀ gripped, post gripped s) (fails : ∀ fault, raises fault s) :
    Meets openGripper post raises s := by
  unfold openGripper
  refine meets_bind (meets_flag fun stop => ?_)
  refine meets_bind (meets_driver (fun gripper => ?_) fun error => fails _)
  cases gripper with
  | none => exact meets_pure (holds _)
  | some gripped =>
    dsimp only
    split
    · exact meets_raise (fails _)
    · exact meets_pure (holds gripped)

theorem finishReset_idle (target : Joints) (gripped : Gripped) (lift : Option Result)
    (idle : Idle s between first) :
    Meets (finishReset limits fuel target gripped lift)
      (fun _ next => Returned limits rotations s.target s next)
      (ResetFailed limits rotations s) between := by
  refine (finishReset_meets fuel target gripped lift between).imp
    (fun _ _ joined => joined.idle_did idle) ?_
  rintro fault next ⟨joined, refusal⟩
  by_cases refused : fault.isRefusal = true
  · obtain ⟨more, looked⟩ := refusal refused
    exact resetFailed_idle (idle.looked looked) fault
  · obtain ⟨more, did⟩ := joined.idle_did  idle
    exact ⟨more, did, fun isRefusal => absurd isRefusal refused⟩

theorem finishReset_lifted (target : Joints) (gripped : Gripped) (result : Option Result)
    {lifting : Controller Rotation} (idle : Idle s lifting first) (up : 0 < lift)
    (atMost : lift ≤ limits.resetLift)
    (moved :
      Moved (.sentL start (raisedBy start lift))
        (HeldL limits rotations (raisedBy start lift)) lifting between later)
    (did :
      Did limits rotations s.target s between
        (first ++ .sentL start (raisedBy start lift) :: later)) :
    Meets (finishReset limits fuel target gripped result)
      (fun _ next => Returned limits rotations s.target s next)
      (ResetFailed limits rotations s) between := by
  have sent : ¬ Quiet (first ++ .sentL start (raisedBy start lift) :: later) :=
    fun quiet => absurd (quiet _ (List.mem_append_right _ mem_cons_self)) noConfusion
  refine (finishReset_meets fuel target gripped result between).imp
    (fun _ _ joined => joined.did did sent) ?_
  rintro fault next ⟨joined, refusal⟩
  by_cases refused : fault.isRefusal = true
  · obtain ⟨more, looked⟩ := refusal refused
    refine ⟨_, did.looked sent looked, fun _ => .inr ?_⟩
    refine ⟨first, start, lift, later ++ more, ?_, idle.quiet,
      quiet_append moved.quiet looked.quiet, up, atMost, ?_⟩
    · rw [append_assoc]
      rfl
    · rcases looked.target with same | cleared
      · rw [same]
        exact moved.kept.append
      · exact .inl cleared
  · obtain ⟨more, done⟩ := joined.did did sent
    exact ⟨more, done, fun isRefusal => absurd isRefusal refused⟩

theorem Still.before_idle (still : Still s between) (idle : Idle between next more) :
    Idle s next more where
  recent := by rw [idle.recent, still.recent]
  past := idle.past.trans still.past
  quiet := idle.quiet
  target := by
    rcases idle.target with (same | cleared) | anchored
    · rw [same]
      exact .inl still.target
    · exact .inl (.inr cleared)
    · exact .inr anchored

theorem lifted_meets (target : Joints) (gripped : Gripped) (idle : Idle s between first)
    (up : 0 < lift) (atMost : lift ≤ limits.resetLift)
    (below : lift ≤ limits.workspaceMax.z - start.position.z)
    (seen : .measured start ∈ first ∨ s.target = some start) :
    Meets
      (runL limits rotations fuel start (raisedBy start lift) limits.moveTimeout >>= fun lifted =>
        if lifted.ok then finishReset limits fuel target gripped (some lifted)
        else
          pure
            { ok := false
              cancelled := lifted.cancelled
              lift := some lifted
              move := none
              notes :=
                if lifted.notes.isEmpty then [.liftNotArrived]
                else lifted.notes })
      (fun _ next => Returned limits rotations s.target s next)
      (ResetFailed limits rotations s) between := by
  have bounded := lift_noFurther (le_of_lt up) below
  refine meets_bind ((runL_meets fuel start _ _ between).imp ?_ ?_)
  · rintro lifted next ⟨later, moved⟩
    have did := sentL_did (HeldL.moved moved) idle bounded seen
    split
    · exact finishReset_lifted fuel target gripped _ idle up atMost moved did
    · exact meets_pure ⟨_, did⟩
  · rintro fault next (still | ⟨notRefusal, later, moved⟩)
    · exact resetFailed_idle (idle.looked still.looked) fault
    · refine ⟨_, sentL_did moved idle bounded seen, fun refusal => ?_⟩
      rw [notRefusal] at refusal
      exact absurd refusal noConfusion

theorem reset_meets (s : Controller Rotation) :
    Meets (reset limits rotations fuel) (fun _ next => Returned limits rotations s.target s next)
      (ResetFailed limits rotations s) s := by
  unfold reset
  cases limits.beginJoints with
  | none => exact meets_raise (resetFailed_idle (Still.refl s).idle _)
  | some target =>
    refine meets_bind ((requireMovable_meets "the reset" s).imp ?_
      fun fault next still => resetFailed_idle still.idle fault)
    intro _ moving still
    have failed : ∀ fault, ResetFailed limits rotations s fault moving :=
      resetFailed_idle still.idle
    refine meets_bind (checkJointTarget_meets (fun pose _ => ?_) failed)
    refine meets_bind (openGripper_meets (fun gripped => ?_) failed)
    split
    · exact meets_pure ⟨_, still.idle.did⟩
    refine meets_bind (setpoint_meets (fun start next pose idle began => ?_)
      fun fault _ => failed fault)
    have allIdle := still.before_idle idle
    have seen : .measured start ∈ [Event.measured pose] ∨ s.target = some start := by
      rcases began with own | same
      · rcases still.target with kept | cleared
        · exact .inr (kept.symm.trans own)
        · rw [cleared] at own
          cases own
      · rw [same]
        exact .inl mem_cons_self
    dsimp only
    split
    · next lifts =>
        have up := lt_trans (by norm_num : (0 : ℚ) < 1 / 10000) lifts
        have small := (lt_max_iff.mp up).resolve_left (lt_irrefl 0)
        rw [max_eq_right (le_of_lt small)] at up ⊢
        exact lifted_meets fuel target gripped allIdle small
          (min_le_left _ _) (min_le_right _ _) seen
    · exact finishReset_idle fuel target gripped none allIdle

/-! ## Runs of calls -/

inductive Call (Rotation : Type) where
  | moveDelta (delta : Option Position) (maxMove : Option ℚ)
  | rotateDelta (delta : Option Position) (maxRotate : Option ℚ)
  | movePose (xyz : Option Position) (orientation : Orientation Rotation)
      (maxMove maxRotate : Option ℚ)
  | moveJoints (q : Option Joints) (checkPath : Bool)
  | reset

def perform (limits : Limits) (rotations : Rotations Rotation) (fuel : ℕ) :
    Call Rotation → Action Rotation Unit
  | .moveDelta delta maxMove => do
      let _ ← moveDelta limits rotations fuel delta maxMove
      pure ()
  | .rotateDelta delta maxRotate => do
      let _ ← rotateDelta limits rotations fuel delta maxRotate
      pure ()
  | .movePose xyz orientation maxMove maxRotate => do
      let _ ← movePose limits rotations fuel xyz orientation maxMove maxRotate
      pure ()
  | .moveJoints q checkPath => do
      let _ ← moveJoints limits fuel q checkPath
      pure ()
  | .reset => do
      let _ ← reset limits rotations fuel
      pure ()

def Controller.idle (c : Controller Rotation) : Controller Rotation :=
  { c with past := c.past ++ c.recent, recent := [] }

def call (limits : Limits) (rotations : Rotations Rotation) (fuel : ℕ)
    (replies : ℕ → Reply Rotation) (call : Call Rotation) (c : Controller Rotation) :
    Programs.Outcome Fault Unit × ℕ × Controller Rotation :=
  perform limits rotations fuel call replies 0 c.idle

/-- The controllers that calls lead to, whatever the driver replies; a call
that waits for ever has no controller after it. -/
inductive Reached (limits : Limits) (rotations : Rotations Rotation) :
    Controller Rotation → Prop
  | initial : Reached limits rotations (.initial Rotation)
  | called {c : Controller Rotation} (before : Reached limits rotations c)
      (fuel : ℕ) (replies : ℕ → Reply Rotation) (made : Call Rotation)
      (ended : (call limits rotations fuel replies made c).1 ≠ .running) :
      Reached limits rotations (call limits rotations fuel replies made c).2.2

/-- The setpoint is what the last motion left, or was measured since. -/
def Settled (limits : Limits) (rotations : Rotations Rotation)
    (events : List (Event Rotation)) (stored : Option (Pose Rotation)) : Prop :=
  Verified limits rotations events stored ∨
    ∃ pose later, stored = some pose ∧ later <:+ events ∧ Quiet later ∧ .measured pose ∈ later

structure Leaves (limits : Limits) (rotations : Rotations Rotation)
    (before : Controller Rotation) (made : Call Rotation)
    (outcome : Programs.Outcome Fault Unit) (after : Controller Rotation) : Prop where
  settled : Settled limits rotations (after.past ++ after.recent) after.target
  /-- A call that sends no motion changes the setpoint to a measured pose. -/
  unsent : Quiet after.recent →
    (after.target = before.target ∨ after.target = none) ∨
      ∃ pose, after.target = some pose ∧ .measured pose ∈ after.recent
  sent : ¬ Quiet after.recent → Verified limits rotations after.recent after.target
  refused : ∀ why, outcome = .raised (.refused why) →
    Quiet after.recent ∨ made = .reset ∧ LiftOnly limits rotations after.recent after.target
  bounded : ∀ event ∈ after.recent, Bounded limits event
  judged : ∀ start target, .sentL start target ∈ after.recent →
    .measured start ∈ after.recent ∨ made = .reset ∧ before.target = some start

theorem Did.settled {own : Option (Pose Rotation)} (did : Did limits rotations own s next more)
    (before : Settled limits rotations s.past s.target) :
    Settled limits rotations (s.past ++ more) next.target := by
  by_cases quiet : Quiet more
  · rcases did.idle quiet with kept | ⟨pose, isPose, seen⟩
    · rcases before with verified | ⟨pose, later, isPose, last, wasQuiet, seen⟩
      · exact .inl (verified.quietly quiet kept)
      · rcases kept with same | cleared
        · exact .inr ⟨pose, later ++ more, same.trans isPose,
            suffix_with last, quiet_append wasQuiet quiet,
            mem_append_left _ seen⟩
        · rw [cleared]
          exact .inl .cleared
    · exact .inr ⟨pose, more, isPose, suffix_append _ _, quiet, seen⟩
  · exact .inl ((did.verified quiet).before s.past)

/-- The setpoint that a reset may start from without measuring. -/
def Call.own (made : Call Rotation) (c : Controller Rotation) : Option (Pose Rotation) :=
  match made with
  | .reset => c.target
  | _ => none

variable {c : Controller Rotation}

theorem Call.own_eq {made : Call Rotation} (isOwn : made.own c = some start) :
    made = .reset ∧ c.target = some start := by
  cases made with
  | reset => exact ⟨rfl, isOwn⟩
  | moveDelta _ _ | rotateDelta _ _ | movePose _ _ _ _ | moveJoints _ _ => cases isOwn

def Raised (limits : Limits) (rotations : Rotations Rotation) (made : Call Rotation)
    (s : Controller Rotation) (fault : Fault) (next : Controller Rotation) :
    Prop :=
  ∃ more, Did limits rotations (made.own s) s next more ∧
    (fault.isRefusal = true →
      Quiet more ∨ made = .reset ∧ LiftOnly limits rotations more next.target)

theorem perform_meets (fuel : ℕ) (made : Call Rotation) (s : Controller Rotation) :
    Meets (perform limits rotations fuel made)
      (fun _ next => Returned limits rotations (made.own s) s next)
      (Raised limits rotations made s) s := by
  have quietly : ∀ {fault : Fault} {next : Controller Rotation},
      made.own s = none → Failed limits rotations s fault next →
      Raised limits rotations made s fault next := by
    rintro fault next isNone ⟨more, did, quiet⟩
    refine ⟨more, ?_, fun refusal => .inl (quiet refusal)⟩
    rw [isNone]
    exact did
  unfold perform
  cases made with
  | moveDelta delta maxMove =>
    exact meets_bind ((moveDelta_meets fuel delta maxMove s).imp
      (fun _ _ done => meets_pure done) fun _ _ failed => quietly rfl failed)
  | rotateDelta delta maxRotate =>
    exact meets_bind ((rotateDelta_meets fuel delta maxRotate s).imp
      (fun _ _ done => meets_pure done) fun _ _ failed => quietly rfl failed)
  | movePose xyz orientation maxMove maxRotate =>
    exact meets_bind
      ((movePose_meets fuel xyz orientation maxMove maxRotate s).imp
        (fun _ _ done => meets_pure done)
        fun _ _ failed => quietly rfl failed)
  | moveJoints q checkPath =>
    have idle := (Still.refl s).idle
    refine meets_bind ((moveJoints_meets fuel q checkPath s).imp
      (fun _ _ joined => meets_pure (joined.idle_did idle)) ?_)
    rintro fault next ⟨joined, refusal⟩
    by_cases refused : fault.isRefusal = true
    · obtain ⟨more, looked⟩ := refusal refused
      exact quietly rfl (failed_idle looked.idle fault)
    · obtain ⟨more, did⟩ := joined.idle_did  idle
      exact ⟨more, did, fun isRefusal => absurd isRefusal refused⟩
  | reset =>
    refine meets_bind ((reset_meets fuel s).imp (fun _ _ done => meets_pure done) ?_)
    rintro fault next ⟨more, did, refusal⟩
    exact ⟨more, did, fun isRefusal => (refusal isRefusal).imp id fun lift => ⟨rfl, lift⟩⟩

theorem call_leaves (replies : ℕ → Reply Rotation) (made : Call Rotation)
    (before : Settled limits rotations (c.past ++ c.recent) c.target)
    (ended : (call limits rotations fuel replies made c).1 ≠ .running) :
    Leaves limits rotations c made (call limits rotations fuel replies made c).1
      (call limits rotations fuel replies made c).2.2 := by
  -- Every call does what it sends from its own beginning.
  have leaves : ∀ (outcome : Programs.Outcome Fault Unit) (next : Controller Rotation)
      (more : List (Event Rotation)),
      Did limits rotations (made.own c.idle) c.idle next more →
      (∀ why, outcome = .raised (.refused why) →
        Quiet more ∨ made = .reset ∧ LiftOnly limits rotations more next.target) →
      Leaves limits rotations c made outcome next := by
    intro outcome next more did refused
    have isRecent : next.recent = more := did.recent
    have isPast : next.past = c.past ++ c.recent := did.past
    subst isRecent
    refine ⟨?_, did.idle, did.verified, refused, did.bounded, ?_⟩
    · rw [isPast]
      exact did.settled before
    · intro start target member
      exact (did.judged start target member).imp id Call.own_eq
  have met := @perform_meets _ limits rotations fuel made c.idle replies 0
  unfold call at ended ⊢
  split at met
  · next returns =>
      obtain ⟨more, did⟩ := met
      rw [returns]
      exact leaves _ _ more did fun why isRefused => by cases isRefused
  · next raises =>
      obtain ⟨more, did, refusal⟩ := met
      rw [raises]
      refine leaves _ _ more did fun why isRefused => refusal ?_
      cases isRefused
      rfl
  · next runs => exact absurd (by rw [runs]) ended

theorem reached_settled (reached : Reached limits rotations c) :
    Settled limits rotations (c.past ++ c.recent) c.target := by
  induction reached with
  | initial => exact .inl .cleared
  | called before fuel replies made ended ih =>
    exact (call_leaves fuel replies made ih ended).settled

end Calls

def someLimits : Limits where
  zFloor := 1 / 100
  workspaceMin := ⟨-1 / 2, -1 / 2, 0⟩
  workspaceMax := ⟨1 / 2, 1 / 2, 1 / 2⟩
  maxMove := 1 / 10
  maxRotate := 1 / 2
  maxTilt := none
  startTimeout := 1
  moveTimeout := 30
  resetTimeout := 60
  moveTolerance := 1 / 200
  rotateTolerance := 1 / 50
  jointTolerance := 1 / 50
  resyncMetres := 1 / 50
  resyncRadians := 1 / 10
  resetLift := 1 / 10
  pathSamples := 20
  beginJoints := none
  floorBelowTop := by norm_num
  minBelowMax := by norm_num
  floorInside := by norm_num

def straight : Rotations Unit where
  gap := fun _ _ => 0
  turn := fun _ _ => ()
  tilt := fun _ => 0

def atEdge : Pose Unit :=
  ⟨⟨49 / 100, 0, 1 / 5⟩, ()⟩

def quietDriver : ℕ → Reply Unit := fun _ =>
  { tcpPose := .ok (some atEdge)
    stopRequested := false
    status := .ok ⟨false, false, some 1, some 7, some true⟩
    ensure := .running none
    asyncStatus := .ok (some 0, false)
    moveL := .ok true
    moveJ := .ok true
    stop := .ok ()
    clock := 0
    joints := .ok fun _ => 0
    withinLimits := .ok (some true)
    forwardKinematics := .ok (some atEdge)
    gripper := .ok none }

def overEdge : Call Unit :=
  .moveDelta (some ⟨1 / 20, 0, 0⟩) none

end PiEmbodied.Services.Ur5e
