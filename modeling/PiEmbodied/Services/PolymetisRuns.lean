import PiEmbodied.Services.Polymetis

/-!
# The setpoint does not press on

A call logs what it sends; its losses of the impedance are counted, and the
setpoint that it leaves is at the pose, or near it.
-/

namespace PiEmbodied.Services.Polymetis

open Programs Programs.Program
open Ur5e (Position Pose nano micro furtherOut)

variable {Rotation : Type}

/-! ## The log of a call -/

def Event.isLost : Event Rotation → Bool
  | lost _ => true
  | _ => false

def Event.isAgain : Event Rotation → Bool
  | sent .again _ _ => true
  | _ => false

section Log

variable (limits : Limits) (tools : Tools Rotation)

/-- No axis is further outside the workspace than another position's. -/
def NoFurther (start p : Position) : Prop :=
  furtherOut (violation limits p) (violation limits start) = false

/-- A setpoint that is sent is finite, and one of a ramp no further outside than
where the ramp started. -/
def Event.Good : Event Rotation → Prop
  | sent purpose position rotation =>
    (∃ p, position = some p ∧ ∀ start, purpose = .ramp start → NoFurther limits start p) ∧
    rotation.isSome = true
  | _ => True

/-- What follows the loss of a setpoint: it is sent again, where the impedance
could be started and is near. -/
inductive Recovers (p : Position) : List (Event Rotation) → Prop
  | again {here : Pose Rotation} {rotation : Option Rotation}
      {more : List (Event Rotation)} :
      Recovers p (.impedance :: .measured here :: .sent .again (some p) rotation :: more)
  | far {here : Pose Rotation} {more : List (Event Rotation)}
      (isFar : limits.divergenceResync < tools.norm (here.position.sub p)) :
      Recovers p (.impedance :: .measured here :: more)
  | notStarted {more : List (Event Rotation)} :
      Recovers p (.notStarted :: more)
  | unread {more : List (Event Rotation)} :
      Recovers p (.impedance :: .unread :: more)

def FirstLoss : List (Event Rotation) → Prop
  | [] => True
  | .lost p :: rest => Recovers limits tools p rest
  | _ :: rest => FirstLoss rest

/-- `before` is how many losses are counted that are not of this call. -/
structure Logged (before : ℕ) (c : Controller Rotation) : Prop where
  good : ∀ event ∈ c.recent, event.Good limits
  losses : c.callRestarts = before + c.recent.countP Event.isLost
  again : c.recent.countP Event.isAgain ≤ 1
  fresh : c.callRestarts = 0 → c.recent.countP Event.isAgain = 0
  first : before = 0 → FirstLoss limits tools c.recent

end Log

variable {limits : Limits} {tools : Tools Rotation} {p : Position} {events : List (Event Rotation)}

theorem Recovers.append (recovers : Recovers limits tools p events) (more : List (Event Rotation)) :
    Recovers limits tools p (events ++ more) := by
  cases recovers with
  | again => exact .again
  | far isFar => exact .far isFar
  | notStarted => exact .notStarted
  | unread => exact .unread

theorem firstLoss_of_none (noLoss : ∀ event ∈ events, event.isLost = false) :
    FirstLoss limits tools events := by
  induction events with
  | nil => trivial
  | cons event rest ih =>
    have later := ih fun other member => noLoss other (List.mem_cons_of_mem _ member)
    cases event with
    | lost p => exact absurd (noLoss _ List.mem_cons_self) Bool.noConfusion
    | measured pose | unread | sent purpose position rotation | impedance | notStarted =>
      exact later

variable {more : List (Event Rotation)}

theorem FirstLoss.append (first : FirstLoss limits tools events)
    (next : (∀ event ∈ events, event.isLost = false) → FirstLoss limits tools more) :
    FirstLoss limits tools (events ++ more) := by
  induction events with
  | nil => exact next fun _ member => by cases member
  | cons event rest ih =>
    have later : FirstLoss limits tools rest → event.isLost = false →
        FirstLoss limits tools (rest ++ more) := by
      intro firstRest notLost
      refine ih firstRest fun none => next ?_
      intro other member
      rcases List.mem_cons.mp member with same | isRest
      · rw [same]
        exact notLost
      · exact none other isRest
    cases event with
    | lost p => exact Recovers.append first more
    | measured pose | unread | sent purpose position rotation | impedance | notStarted =>
      exact later first rfl

/-! ## What a call adds -/

structure Plain (limits : Limits) (more : List (Event Rotation)) : Prop where
  good : ∀ event ∈ more, event.Good limits
  noLoss : ∀ event ∈ more, event.isLost = false
  notAgain : ∀ event ∈ more, event.isAgain = false

theorem countP_none {test : Event Rotation → Bool} (none : ∀ event ∈ more, test event = false) :
    more.countP test = 0 := by
  rw [List.countP_eq_zero]
  intro event member
  rw [none event member]
  exact Bool.noConfusion

variable {before : ℕ} {c next : Controller Rotation}

theorem Logged.plain (logged : Logged limits tools before c) (plain : Plain limits more)
    (recent : next.recent = c.recent ++ more) (restarts : next.callRestarts = c.callRestarts) :
    Logged limits tools before next where
  good := by
    intro event member
    rw [recent] at member
    rcases List.mem_append.mp member with old | new
    · exact logged.good event old
    · exact plain.good event new
  losses := by
    rw [restarts, recent, List.countP_append, countP_none plain.noLoss]
    exact logged.losses
  again := by
    rw [recent, List.countP_append, countP_none plain.notAgain]
    exact logged.again
  fresh := by
    rw [restarts, recent, List.countP_append, countP_none plain.notAgain]
    exact logged.fresh
  first := by
    intro isFirst
    rw [recent]
    exact (logged.first isFirst).append fun _ => firstLoss_of_none plain.noLoss

theorem plain_nil : Plain limits ([] : List (Event Rotation)) where
  good := fun _ member => absurd member List.not_mem_nil
  noLoss := fun _ member => absurd member List.not_mem_nil
  notAgain := fun _ member => absurd member List.not_mem_nil

variable {event : Event Rotation}

theorem Plain.cons (plain : Plain limits more) (good : event.Good limits)
    (notLost : event.isLost = false) (notAgain : event.isAgain = false) :
    Plain limits (event :: more) where
  good := List.forall_mem_cons.mpr ⟨good, plain.good⟩
  noLoss := List.forall_mem_cons.mpr ⟨notLost, plain.noLoss⟩
  notAgain := List.forall_mem_cons.mpr ⟨notAgain, plain.notAgain⟩

def Event.isMute : Event Rotation → Bool
  | measured _ | unread | impedance | notStarted => true
  | _ => false

theorem plain_of_mute (mute : ∀ event ∈ more, event.isMute = true) : Plain limits more := by
  induction more with
  | nil => exact plain_nil
  | cons event rest ih =>
    have later := ih fun other member => mute other (List.mem_cons_of_mem _ member)
    have isMute := mute event List.mem_cons_self
    cases event with
    | measured pose | unread | impedance | notStarted => exact later.cons trivial rfl rfl
    | lost p | sent purpose position rotation => cases isMute

def Told (limits : Limits) (c : Controller Rotation) : Fault → Prop
  | .lostAgain => 2 ≤ c.callRestarts
  | .restartedFar gap => limits.divergenceResync < gap
  | _ => True

def Fault.isPlain : Fault → Bool
  | lostAgain | restartedFar _ => false
  | _ => true

variable {fault : Fault}

theorem told_of_plain (plain : fault.isPlain = true) : Told limits c fault := by
  cases fault with
  | lostAgain | restartedFar gap => cases plain
  | refused why | robot error | invalidPose | invalidJoints | notFinite | noSetpoint => trivial

structure After (limits : Limits) (tools : Tools Rotation) (before : ℕ)
    (c next : Controller Rotation) : Prop where
  logged : Logged limits tools before next
  restarts : c.callRestarts ≤ next.callRestarts

theorem Told.after (told : Told limits c fault) (after : After limits tools before c next) :
    Told limits next fault := by
  cases fault with
  | lostAgain => exact le_trans told after.restarts
  | restartedFar gap => exact told
  | refused why | robot error | invalidPose | invalidJoints | notFinite | noSetpoint => trivial

theorem After.trans {between : Controller Rotation} (first : After limits tools before c between)
    (second : After limits tools before between next) : After limits tools before c next :=
  ⟨second.logged, first.restarts.trans second.restarts⟩

section Rules

variable (limits tools)

/-- A program keeps the log, where something is assumed of the state. -/
def KeepsIf (assume : Controller Rotation → Prop) {Value : Type}
    (program : Action Rotation Value) : Prop :=
  ∀ before c, Logged limits tools before c → assume c →
    Meets program (fun _ next => After limits tools before c next)
      (fun fault next => After limits tools before c next ∧ Told limits next fault) c

def Keeps {Value : Type} (program : Action Rotation Value) : Prop :=
  KeepsIf limits tools (fun _ => True) program

end Rules

variable {Value Next : Type}

theorem keeps_pure (value : Value) : Keeps limits tools (pure value : Action Rotation Value) :=
  fun _ _ logged _ => meets_pure ⟨logged, le_refl _⟩

theorem keeps_bind {first : Action Rotation Value} {next : Value → Action Rotation Next}
    (keeps : Keeps limits tools first) (rest : ∀ value, Keeps limits tools (next value)) :
    Keeps limits tools (first >>= next) := by
  intro before c logged _
  apply meets_bind
  refine (keeps before c logged trivial).imp ?_ fun _ _ failed => failed
  intro value between after
  refine (rest value before between after.logged trivial).imp ?_ ?_
  · intro _ last later
    exact after.trans later
  · intro fault last later
    exact ⟨after.trans later.1, later.2⟩

theorem keeps_raise (told : ∀ c : Controller Rotation, Told limits c fault) :
    Keeps limits tools (raise fault : Action Rotation Value) :=
  fun _ c logged _ => meets_raise ⟨⟨logged, le_refl _⟩, told c⟩

theorem keeps_refuse (why : Refusal) : Keeps limits tools (refuse why : Action Rotation Value) :=
  keeps_raise fun _ => trivial

theorem keeps_get : Keeps limits tools (get : Action Rotation (Controller Rotation)) :=
  fun _ _ logged _ => meets_get ⟨logged, le_refl _⟩

theorem keeps_modify {change : Controller Rotation → Controller Rotation}
    (recent : ∀ c, (change c).recent = c.recent)
    (restarts : ∀ c, (change c).callRestarts = c.callRestarts) :
    Keeps limits tools (modify change : Action Rotation Unit) := by
  intro before c logged _
  apply meets_modify
  refine ⟨logged.plain plain_nil ?_ (restarts c), le_of_eq (restarts c).symm⟩
  rw [recent, List.append_nil]

theorem keeps_ask {take : Reply Rotation → Except Fault Value}
    (told : ∀ reply fault, take reply = .error fault →
      ∀ c : Controller Rotation, Told limits c fault) : Keeps limits tools (ask take) := by
  intro before c logged _ replies now
  unfold ask
  cases taken : take (replies now) with
  | ok value => exact ⟨logged, le_refl _⟩
  | error fault => exact ⟨⟨logged, le_refl _⟩, told _ fault taken c⟩

variable {program : Action Rotation Value}

theorem keeps_attempt {handle : Fault → Action Rotation Value} (keeps : Keeps limits tools program)
    (handles : ∀ fault, KeepsIf limits tools (fun c => Told limits c fault) (handle fault)) :
    Keeps limits tools (attempt program handle) := by
  intro before c logged _
  apply meets_attempt
  refine (keeps before c logged trivial).imp (fun _ _ after => after) ?_
  intro fault between failed
  refine (handles fault before between failed.1.logged failed.2).imp ?_ ?_
  · intro _ last later
    exact failed.1.trans later
  · intro _ last later
    exact ⟨failed.1.trans later.1, later.2⟩

theorem Keeps.assuming (keeps : Keeps limits tools program) (assume : Controller Rotation → Prop) :
    KeepsIf limits tools assume program :=
  fun before c logged _ => keeps before c logged trivial

theorem keepsIf_raise {program : Action Rotation Unit} (keeps : Keeps limits tools program) :
    KeepsIf limits tools (fun c => Told limits c fault)
      (program >>= fun _ => (raise fault : Action Rotation Value)) := by
  intro before c logged told
  apply meets_bind
  refine (keeps before c logged trivial).imp ?_ fun _ _ failed => failed
  intro _ between after
  exact meets_raise ⟨after, told.after after⟩

/-! ## The impedance -/

structure Adds (c next : Controller Rotation) (more : List (Event Rotation)) :
    Prop where
  recent : next.recent = c.recent ++ more
  restarts : next.callRestarts = c.callRestarts

theorem Adds.after (adds : Adds c next more) (logged : Logged limits tools before c)
    (plain : Plain limits more) : After limits tools before c next :=
  ⟨logged.plain plain adds.recent adds.restarts, le_of_eq adds.restarts.symm⟩

theorem keeps_note (good : event.Good limits) (notLost : event.isLost = false)
    (notAgain : event.isAgain = false) : Keeps limits tools (note event) := by
  intro before c logged _
  apply meets_modify
  have adds : Adds c { c with recent := c.recent ++ [event] } [event] :=
    ⟨rfl, rfl⟩
  exact adds.after logged (plain_nil.cons good notLost notAgain)

variable {call : Reply Rotation → Except RobotError Value}

theorem robot_told {reply : Reply Rotation}
    (failed : (call reply).mapError Fault.robot = .error fault) :
    ∃ error, fault = .robot error := by
  cases isCall : call reply with
  | ok value =>
    rw [isCall] at failed
    cases failed
  | error error =>
    rw [isCall] at failed
    cases failed
    exact ⟨error, rfl⟩

theorem keeps_robot (call : Reply Rotation → Except RobotError Value) :
    Keeps limits tools (robot call) := by
  refine keeps_ask fun reply fault failed c => ?_
  obtain ⟨error, isRobot⟩ := robot_told failed
  rw [isRobot]
  trivial

theorem measured_meets {post : Pose Rotation → Controller Rotation → Prop}
    {raises : Fault → Controller Rotation → Prop}
    (holds : ∀ pose next, Adds c next [.measured pose] →
      next.target = c.target → post pose next)
    (fails : ∀ fault next, fault.isPlain = true → Adds c next [.unread] →
      next.target = c.target → raises fault next) : Meets measured post raises c := by
  unfold measured
  apply meets_bind
  apply meets_attempt
  intro replies now
  unfold ask
  have plain : ∀ fault, readPose (replies now) = .error fault → fault.isPlain = true := by
    intro fault failed
    unfold readPose at failed
    split at failed
    · cases failed
      rfl
    · cases failed
      rfl
    · cases failed
  cases isRead : readPose (replies now) with
  | ok pose => exact meets_bind (meets_modify (meets_pure (holds pose _ ⟨rfl, rfl⟩ rfl)))
  | error fault =>
    exact meets_bind (meets_modify (meets_raise
      (fails fault _ (plain fault isRead) ⟨rfl, rfl⟩ rfl)))

theorem keeps_measured : Keeps limits tools (measured : Action Rotation (Pose Rotation)) := by
  intro before c logged _
  refine measured_meets ?_ ?_
  · intro pose next adds _
    exact adds.after logged (plain_nil.cons trivial rfl rfl)
  · intro fault next isPlain adds _
    exact ⟨adds.after logged (plain_nil.cons trivial rfl rfl), told_of_plain isPlain⟩

theorem robot_meets {post : Value → Controller Rotation → Prop}
    {raises : Fault → Controller Rotation → Prop}
    (holds : ∀ value, post value c) (fails : ∀ error, raises (.robot error) c) :
    Meets (robot call) post raises c := by
  intro replies now
  unfold robot ask
  dsimp only
  cases call (replies now) with
  | ok value => exact holds value
  | error error => exact fails error

/-- The impedance starts at the pose, or does not start, or the pose cannot be
read. -/
theorem startImpedance_meets {post : Unit → Controller Rotation → Prop}
    {raises : Fault → Controller Rotation → Prop}
    (holds : ∀ here next, Adds c next [.impedance, .measured here] →
      next.target = some here → post () next)
    (fails : ∀ fault next more, fault.isPlain = true → Adds c next more →
      next.target = c.target → more = [.notStarted] ∨
        more = [.impedance, .unread] → raises fault next) : Meets startImpedance post raises c := by
  unfold startImpedance
  apply meets_bind
  apply meets_attempt
  have rest : Meets
      ((do
        attempt (robot Reply.startCartesian) fun fault => do
          note .notStarted
          raise fault
        note .impedance
        sync) : Action Rotation Unit)
      post raises c := by
    apply meets_bind
    apply meets_attempt
    apply robot_meets
    · intro _
      apply meets_bind
      apply meets_modify
      unfold sync
      apply meets_bind
      apply meets_modify
      apply meets_bind
      refine measured_meets ?_ ?_
      · intro here next adds _
        apply meets_modify
        exact holds here _ ⟨adds.recent.trans (by simp), adds.restarts⟩ rfl
      · intro fault next isPlain adds sameTarget
        exact fails fault next _ isPlain
          ⟨adds.recent.trans (by simp), adds.restarts⟩ sameTarget (.inr rfl)
    · intro error
      apply meets_bind
      apply meets_modify
      apply meets_raise
      exact fails _ _ _ rfl ⟨rfl, rfl⟩ rfl (.inl rfl)
  apply robot_meets
  · intro _
    exact rest
  · intro error
    exact meets_pure rest

/-! ## Losses -/

theorem keeps_startImpedance : Keeps limits tools (startImpedance : Action Rotation Unit) := by
  intro before c logged _
  refine startImpedance_meets ?_ ?_
  · intro here next adds _
    exact adds.after logged (plain_of_mute (by simp [Event.isMute]))
  · intro fault next more isPlain adds _ isMore
    refine ⟨adds.after logged ?_, told_of_plain isPlain⟩
    rcases isMore with notStarted | unread
    · rw [notStarted]
      exact plain_of_mute (by simp [Event.isMute])
    · rw [unread]
      exact plain_of_mute (by simp [Event.isMute])

section

variable (logged : Logged limits tools before c)
include logged

theorem Logged.lost (recent : next.recent = c.recent ++ .lost p :: more)
    (restarts : next.callRestarts = c.callRestarts + 1) (good : ∀ event ∈ more, event.Good limits)
    (noLoss : ∀ event ∈ more, event.isLost = false)
    (again : c.recent.countP Event.isAgain + more.countP Event.isAgain ≤ 1)
    (recovers : c.callRestarts = 0 → Recovers limits tools p more) :
    Logged limits tools before next where
  good := by
    intro event member
    rw [recent] at member
    rcases List.mem_append.mp member with old | new
    · exact logged.good event old
    · rcases List.mem_cons.mp new with same | later
      · rw [same]
        trivial
      · exact good event later
  losses := by
    rw [restarts, recent, List.countP_append, List.countP_cons_of_pos rfl,
      countP_none noLoss, logged.losses]
    omega
  again := by
    rw [recent, List.countP_append, List.countP_cons_of_neg Bool.noConfusion]
    exact again
  fresh := by
    rw [restarts]
    intro none
    exact absurd none (Nat.succ_ne_zero _)
  first := by
    intro isFirst
    rw [recent]
    refine (logged.first isFirst).append fun none => ?_
    refine recovers ?_
    rw [logged.losses, isFirst, countP_none none]

theorem After.lost (recent : next.recent = c.recent ++ .lost p :: more)
    (restarts : next.callRestarts = c.callRestarts + 1) (plain : Plain limits more)
    (recovers : c.callRestarts = 0 → Recovers limits tools p more) :
    After limits tools before c next := by
  refine ⟨logged.lost recent restarts plain.good plain.noLoss ?_ recovers, ?_⟩
  · rw [countP_none plain.notAgain]
    exact logged.again
  · rw [restarts]
    exact Nat.le_succ _

theorem restart_meets {pose : Pose Rotation} :
    Meets (restart limits tools pose) (fun _ next => After limits tools before c next)
      (fun fault next => After limits tools before c next ∧ Told limits next fault)
      { c with recent := c.recent ++ [.lost pose.position] } := by
  unfold restart
  apply meets_bind
  apply meets_modify
  apply meets_bind
  refine startImpedance_meets ?_ ?_
  · intro here next adds isHere
    have started : Plain limits [.impedance, .measured here] :=
      plain_of_mute (by simp [Event.isMute])
    have isRecent : next.recent = c.recent ++
        .lost pose.position :: [.impedance, .measured here] := by
      rw [adds.recent]
      simp
    have isRestarts : next.callRestarts = c.callRestarts + 1 := adds.restarts
    apply meets_bind
    apply meets_get
    split
    case isTrue again =>
      apply meets_raise
      refine ⟨After.lost logged isRecent isRestarts started ?_, again⟩
      intro none
      omega
    case isFalse onlyOnce =>
      unfold setpoint
      apply meets_bind
      apply meets_bind
      apply meets_get
      rw [isHere]
      apply meets_pure
      dsimp only
      split
      case isTrue isFar =>
        apply meets_raise
        exact ⟨After.lost logged isRecent isRestarts started fun _ => .far isFar, isFar⟩
      case isFalse near =>
        have isFirst : c.callRestarts = 0 := by omega
        have sent : ∀ last : Controller Rotation,
            last.recent = next.recent ++ [.sent .again (some pose.position) (some pose.rotation)] →
            last.callRestarts = next.callRestarts →
            After limits tools before c last := by
          intro last lastRecent lastRestarts
          have whole : last.recent = c.recent ++ .lost pose.position ::
              [.impedance, .measured here,
                .sent .again (some pose.position) (some pose.rotation)] := by
            rw [lastRecent, isRecent]
            simp
          refine ⟨logged.lost whole (lastRestarts.trans isRestarts) ?_ ?_ ?_ fun _ => .again, ?_⟩
          · simp [Event.Good]
          · simp [Event.isLost]
          · rw [logged.fresh isFirst]
            simp [Event.isAgain, List.countP_cons]
          · rw [lastRestarts, isRestarts]
            exact Nat.le_succ _
        apply meets_bind
        apply meets_modify
        apply meets_bind
        apply meets_modify
        apply robot_meets
        · intro _
          exact sent _ rfl rfl
        · intro error
          exact ⟨sent _ rfl rfl, trivial⟩
  · intro fault next more isPlain adds _ isMore
    have whole : next.recent = c.recent ++ .lost pose.position :: more := by
      rw [adds.recent]
      simp
    refine ⟨After.lost logged whole adds.restarts ?_ fun _ => ?_, told_of_plain isPlain⟩
    · rcases isMore with notStarted | unread
      · rw [notStarted]
        exact plain_of_mute (by simp [Event.isMute])
      · rw [unread]
        exact plain_of_mute (by simp [Event.isMute])
    · rcases isMore with notStarted | unread
      · rw [notStarted]
        exact .notStarted
      · rw [unread]
        exact .unread

end

theorem keeps_command {purpose : Purpose} {position : Option Position}
    {rotation : Option Rotation} (isNew : purpose ≠ .again)
    (inside : ∀ start p, purpose = .ramp start → position = some p → NoFurther limits start p) :
    Keeps limits tools (command limits tools purpose position rotation) := by
  intro before c logged _
  unfold command
  split
  case h_1 p q =>
    have isGood : Event.Good limits (.sent purpose (some p) (some q) : Event Rotation) :=
      ⟨⟨p, rfl, fun start isRamp => inside start p isRamp rfl⟩, rfl⟩
    have notAgain : (Event.sent purpose (some p) (some q)).isAgain = false := by
      cases purpose with
      | ramp start | hold => rfl
      | again => exact absurd rfl isNew
    apply meets_bind
    refine (keeps_note isGood rfl notAgain before c logged trivial).imp ?_ fun _ _ failed => failed
    intro _ between sent
    apply meets_attempt
    apply robot_meets
    · intro _
      exact sent
    · intro error
      dsimp only
      split
      · apply meets_bind
        apply meets_modify
        refine (restart_meets sent.logged).imp ?_ ?_
        · intro _ last later
          exact sent.trans later
        · intro fault last failed
          exact ⟨sent.trans failed.1, failed.2⟩
      · exact meets_raise ⟨sent, trivial⟩
  case h_2 => exact meets_raise ⟨⟨logged, le_refl _⟩, trivial⟩

theorem keeps_hold (pose : Pose Rotation) :
    Keeps limits tools (command limits tools .hold (some pose.position) (some pose.rotation)) :=
  keeps_command (fun same => by cases same) fun _ _ isRamp => by cases isRamp

theorem keeps_setStream (direction : Option Position) :
    Keeps limits tools (setStream direction : Action Rotation Unit) :=
  keeps_modify (fun _ => rfl) fun _ => rfl

theorem keeps_setTarget (target : Pose Rotation) :
    Keeps limits tools (setTarget target : Action Rotation Unit) :=
  keeps_modify (fun _ => rfl) fun _ => rfl

theorem keeps_stopFlag : Keeps limits tools (stopFlag : Action Rotation Bool) :=
  keeps_ask fun _ _ failed => by cases failed

theorem keeps_clock : Keeps limits tools (clock : Action Rotation ℚ) :=
  keeps_ask fun _ _ failed => by cases failed

theorem keeps_setpoint : Keeps limits tools (setpoint : Action Rotation (Pose Rotation)) := by
  unfold setpoint
  refine keeps_bind keeps_get fun c => ?_
  split
  · exact keeps_raise fun _ => trivial
  · exact keeps_pure _

theorem keeps_sync : Keeps limits tools (sync : Action Rotation Unit) :=
  keeps_bind (keeps_setStream _) fun _ => keeps_bind keeps_measured fun _ => keeps_setTarget _

theorem keeps_prepare : Keeps limits tools (prepare limits tools : Action Rotation Unit) := by
  unfold prepare
  refine keeps_bind keeps_get fun c => ?_
  split
  · exact keeps_sync
  · refine keeps_bind keeps_measured fun pose => ?_
    split
    · exact keeps_sync
    · exact keeps_pure _

theorem keeps_displaced : Keeps limits tools (displaced limits tools : Action Rotation Bool) :=
  keeps_bind keeps_measured fun _ => keeps_bind keeps_setpoint fun _ => keeps_pure _

theorem keeps_atPose : Keeps limits tools (atPose : Action Rotation (Pose Rotation)) :=
  keeps_bind keeps_measured fun _ => keeps_bind (keeps_setTarget _) fun _ => keeps_pure _

theorem keeps_reanchor : Keeps limits tools (reanchor limits tools : Action Rotation Unit) :=
  keeps_bind (keeps_setStream _) fun _ => keeps_bind keeps_atPose fun pose => keeps_hold pose

theorem keeps_orElse {handle : Action Rotation Value} (keeps : Keeps limits tools program)
    (handles : Keeps limits tools handle) : Keeps limits tools (attempt program fun _ => handle) :=
  keeps_attempt keeps fun _ => handles.assuming _

theorem keeps_recover : Keeps limits tools (recover limits tools : Action Rotation Unit) := by
  unfold recover
  refine keeps_bind (keeps_setStream _) fun _ => ?_
  refine keeps_orElse ?_ (keeps_orElse keeps_startImpedance (keeps_pure _))
  refine keeps_bind keeps_get fun c => ?_
  have rest : ∀ off : Bool, Keeps limits tools
      (if off then do
        let pose ← atPose
        note (.sent .hold (some pose.position) (some pose.rotation))
        robot Reply.update
      else pure () : Action Rotation Unit) := by
    intro off
    split
    · refine keeps_bind keeps_atPose fun pose => ?_
      refine keeps_bind (keeps_note ⟨⟨_, rfl, ?_⟩, rfl⟩ rfl rfl) fun _ => ?_
      · intro start isRamp
        cases isRamp
      · exact keeps_robot _
    · exact keeps_pure _
  cases c.target with
  | none => exact keeps_bind (keeps_pure _) rest
  | some target => exact keeps_bind keeps_displaced rest

/-! ## Streams and ramps -/

variable (stopped : Option Stopped) (delta : Position) (left fuel : ℕ) (goal : Joints)
  (decisiveMax : Option ℚ) (isOpen : Bool)

theorem keeps_settleLoop :
    Keeps limits tools (settleLoop limits tools left : Action Rotation Bool) := by
  induction left with
  | zero => exact keeps_pure _
  | succ left ih =>
    unfold settleLoop
    refine keeps_bind keeps_stopFlag fun stop => ?_
    split
    · exact keeps_pure _
    · refine keeps_bind keeps_setpoint fun target => ?_
      exact keeps_bind (keeps_hold target) fun _ => ih

theorem keeps_settle : Keeps limits tools (settle limits tools : Action Rotation Bool) :=
  keeps_settleLoop _

theorem keeps_streamLive : Keeps limits tools (streamLive : Action Rotation Bool) := by
  unfold streamLive
  refine keeps_bind keeps_get fun c => ?_
  split
  · exact keeps_pure _
  · exact keeps_bind keeps_clock fun _ => keeps_pure _

theorem keeps_endStream : Keeps limits tools (endStream limits tools : Action Rotation Bool) := by
  unfold endStream
  refine keeps_bind keeps_streamLive fun live => ?_
  refine keeps_bind (keeps_setStream _) fun _ => ?_
  split
  · exact keeps_settle
  · exact keeps_pure _

variable {start : Position} {target : Option Position} {strict : Bool}
  {what : String}

theorem keeps_checkTarget :
    Keeps limits tools (checkTarget limits start target strict what : Action Rotation Unit) := by
  unfold checkTarget
  split
  · exact keeps_refuse _
  · exact keeps_pure _

theorem keeps_checked {start : Position} {target : Option Position} {strict : Bool}
    {what : String} {rest : Action Rotation Value}
    (keeps : (∀ p, target = some p → NoFurther limits start p) → Keeps limits tools rest) :
    Keeps limits tools (checkTarget limits start target strict what >>= fun _ => rest) := by
  unfold checkTarget
  cases isChecked : isRefused limits start target strict with
  | true =>
    intro before c logged _
    exact meets_bind (meets_raise ⟨⟨logged, le_refl _⟩, trivial⟩)
  | false =>
    refine keeps_bind (keeps_pure _) fun _ => keeps fun p isTarget => ?_
    rw [isTarget] at isChecked
    unfold isRefused at isChecked
    exact (Bool.or_eq_false_iff.mp isChecked).1

theorem keeps_rampLoop (start : Pose Rotation) (dpos drot : Position) (fractions : List ℚ)
    (done : ℕ) :
    Keeps limits tools (rampLoop limits tools start dpos drot done fractions :
      Action Rotation (ℕ × Option Stopped)) := by
  induction fractions generalizing done with
  | nil => exact keeps_pure _
  | cons f rest ih =>
    unfold rampLoop
    refine keeps_bind keeps_stopFlag fun stop => ?_
    split
    · exact keeps_pure _
    · refine keeps_checked fun inside => ?_
      refine keeps_bind ?_ fun _ => ?_
      · refine keeps_command (fun same => by cases same) ?_
        intro start p isRamp isPosition
        cases isRamp
        exact inside p isPosition
      · split
        · refine keeps_bind (keeps_setTarget _) fun _ => ?_
          refine keeps_bind keeps_measured fun pose => ?_
          dsimp only
          split
          · exact keeps_bind keeps_reanchor fun _ => keeps_pure _
          · exact ih _
        · exact keeps_raise fun _ => trivial

theorem keeps_ramp (start : Pose Rotation) (dpos drot : Position) (v₀ v₁ : ℚ) :
    Keeps limits tools (ramp limits tools start dpos drot v₀ v₁ :
      Action Rotation (ℕ × Option Stopped)) :=
  keeps_rampLoop _ _ _ _ _

/-! ## Moves and rotations -/

theorem keeps_moveResult (target : Position) (start : Pose Rotation) (steps : ℕ)
    (stopped : Option Stopped) :
    Keeps limits tools (moveResult limits tools delta target start steps
      stopped : Action Rotation Result) := by
  unfold moveResult
  refine keeps_bind keeps_measured fun final => ?_
  dsimp only
  split
  · exact keeps_bind keeps_reanchor fun _ => keeps_pure _
  · exact keeps_pure _

theorem keeps_settled :
    Keeps limits tools (settled limits tools stopped : Action Rotation (Option Stopped)) := by
  cases stopped with
  | some stopped => exact keeps_pure _
  | none => exact keeps_bind keeps_settle fun _ => keeps_pure _

theorem keeps_endMove (v₁ : ℚ) (stopped : Option Stopped) :
    Keeps limits tools (endMove limits tools delta v₁ stopped :
      Action Rotation (Option Stopped)) := by
  unfold endMove
  split
  · refine keeps_bind keeps_clock fun time => ?_
    refine keeps_bind (keeps_modify (fun _ => rfl) fun _ => rfl) fun _ => ?_
    exact keeps_pure _
  · exact keeps_settled _

theorem keeps_moveOn (target : Position) (origin start : Pose Rotation)
    (chained blend continuous : Bool) :
    Keeps limits tools (moveOn limits tools delta target origin start chained
      blend continuous : Action Rotation Result) := by
  unfold moveOn
  refine keeps_bind (keeps_setStream _) fun _ => ?_
  refine keeps_bind keeps_setpoint fun now => ?_
  dsimp only
  refine keeps_bind (keeps_ramp _ _ _ _ _) fun ramped => ?_
  refine keeps_bind (keeps_endMove _ _ _) fun stopped => ?_
  refine keeps_bind (keeps_moveResult _ _ _ _ _) fun result => ?_
  refine keeps_bind keeps_get fun c => ?_
  split
  · exact keeps_pure _
  · exact keeps_pure _

theorem keeps_move (continuous : Bool) :
    Keeps limits tools (move limits tools delta continuous : Action Rotation Result) := by
  unfold move
  refine keeps_bind keeps_streamLive fun live => ?_
  refine keeps_bind keeps_get fun before => ?_
  refine keeps_bind keeps_prepare fun _ => ?_
  refine keeps_bind keeps_measured fun start => ?_
  refine keeps_bind keeps_setpoint fun origin => ?_
  refine keeps_bind keeps_checkTarget fun _ => ?_
  refine keeps_bind keeps_get fun c => ?_
  dsimp only
  split
  · exact keeps_moveOn _ _ _ _ _ _ _
  · refine keeps_bind keeps_endStream fun rests => ?_
    split
    · exact keeps_moveOn _ _ _ _ _ _ _
    · exact keeps_moveResult _ _ _ _ _

theorem keeps_checkRotation (start : Pose Rotation) (drot : Position) (n left : ℕ) :
    Keeps limits tools (checkRotation limits tools start drot n left : Action Rotation Unit) := by
  induction left with
  | zero => exact keeps_pure _
  | succ left ih =>
    unfold checkRotation
    dsimp only
    split
    · exact keeps_refuse _
    · exact keeps_bind keeps_checkTarget fun _ => ih

theorem keeps_rotate (drot : Position) :
    Keeps limits tools (rotate limits tools drot : Action Rotation Result) := by
  unfold rotate
  refine keeps_bind keeps_prepare fun _ => ?_
  refine keeps_bind keeps_measured fun _ => ?_
  refine keeps_bind keeps_setpoint fun origin => ?_
  refine keeps_bind (keeps_checkRotation _ _ _ _) fun _ => ?_
  refine keeps_bind keeps_endStream fun rests => ?_
  refine keeps_bind ?_ fun ramped => ?_
  · unfold turnRamp
    split
    · exact keeps_ramp _ _ _ _ _
    · exact keeps_pure _
  · refine keeps_bind (keeps_settled _) fun stopped => ?_
    exact keeps_bind keeps_measured fun _ => keeps_pure _

/-! ## The gripper -/

theorem keeps_width : Keeps limits tools (width : Action Rotation ℚ) :=
  keeps_robot _

theorem keeps_awaitLoop (began first : ℚ) (fuel : ℕ) (awaited : Awaited) :
    Keeps limits tools (awaitLoop limits decisiveMax began first fuel awaited :
      Action Rotation (ℚ × Bool)) := by
  induction fuel generalizing awaited with
  | zero => exact fun _ _ _ _ => meets_outOfFuel
  | succ fuel ih =>
    unfold awaitLoop
    refine keeps_bind keeps_clock fun time => ?_
    split
    · exact keeps_pure _
    · refine keeps_bind keeps_stopFlag fun stop => ?_
      split
      · exact keeps_pure _
      · refine keeps_bind keeps_clock fun now => ?_
        refine keeps_bind keeps_width fun current => ?_
        dsimp only
        split
        · exact keeps_pure _
        · exact ih _

theorem keeps_awaitGripper :
    Keeps limits tools (awaitGripper limits fuel decisiveMax : Action Rotation (ℚ × Bool)) :=
  keeps_bind keeps_clock fun _ => keeps_bind keeps_width fun _ => keeps_awaitLoop _ _ _ _ _

theorem keeps_jammed (before after : ℚ) :
    Keeps limits tools (jammed limits isOpen before after : Action Rotation Bool) := by
  unfold jammed gripperState
  split
  · exact keeps_pure _
  · refine keeps_bind ?_ fun _ => keeps_pure _
    exact keeps_bind (keeps_robot _) fun _ => keeps_pure _

theorem keeps_controlGripper :
    Keeps limits tools (controlGripper isOpen : Action Rotation Unit) :=
  keeps_bind (keeps_robot _) fun _ => keeps_modify (fun _ => rfl) fun _ => rfl

theorem keeps_finishGrip (isJammed cancelled : Bool) (current : ℚ) :
    Keeps limits tools
      (finishGrip limits fuel isOpen isJammed cancelled current : Action Rotation Gripped) := by
  unfold finishGrip
  dsimp only
  split
  · refine keeps_bind (keeps_controlGripper _) fun _ => ?_
    exact keeps_bind (keeps_awaitGripper _ _) fun _ => keeps_pure _
  · exact keeps_pure _

theorem keeps_actuate :
    Keeps limits tools (actuate limits fuel isOpen : Action Rotation Gripped) := by
  unfold actuate
  refine keeps_bind keeps_width fun before => ?_
  refine keeps_bind (keeps_controlGripper _) fun _ => ?_
  refine keeps_bind (keeps_awaitGripper _ _) fun awaited => ?_
  dsimp only
  split
  · exact keeps_finishGrip _ _ _ _ _
  · exact keeps_bind (keeps_jammed _ _ _) fun _ => keeps_finishGrip _ _ _ _ _

theorem keeps_setGripper :
    Keeps limits tools (setGripper limits tools fuel isOpen : Action Rotation Gripped) := by
  unfold setGripper
  refine keeps_bind keeps_endStream fun rests => ?_
  split
  · exact keeps_actuate _ _
  · exact keeps_bind keeps_width fun _ => keeps_pure _

/-! ## Reset -/

theorem keeps_streamJoints :
    Keeps limits tools (streamJoints left : Action Rotation Bool) := by
  induction left with
  | zero => exact keeps_pure _
  | succ left ih =>
    unfold streamJoints
    refine keeps_bind keeps_stopFlag fun stop => ?_
    split
    · exact keeps_bind keeps_startImpedance fun _ => keeps_pure _
    · exact keeps_bind (keeps_robot _) fun _ => ih

theorem keeps_holdJoints :
    Keeps limits tools (holdJoints left : Action Rotation Unit) := by
  induction left with
  | zero => exact keeps_pure _
  | succ left ih => exact keeps_bind (keeps_robot _) fun _ => ih

theorem keeps_goJoints (duration : ℚ) :
    Keeps limits tools (goJoints limits duration : Action Rotation Bool) := by
  unfold goJoints
  split
  · exact keeps_bind (keeps_robot _) fun _ => keeps_pure _
  · refine keeps_bind (keeps_robot _) fun _ => ?_
    refine keeps_bind (keeps_streamJoints _) fun ended => ?_
    split
    · exact keeps_bind (keeps_holdJoints _) fun _ => keeps_pure _
    · exact keeps_pure _

theorem keeps_resetLift :
    Keeps limits tools (resetLift limits tools : Action Rotation (Option Stopped)) := by
  unfold resetLift
  refine keeps_bind keeps_setpoint fun target => ?_
  dsimp only
  split
  · exact keeps_bind (keeps_ramp _ _ _ _ _) fun _ => keeps_pure _
  · exact keeps_pure _

theorem keeps_resetJoints :
    Keeps limits tools (resetJoints limits goal : Action Rotation Result) := by
  unfold resetJoints
  refine keeps_bind (keeps_robot _) fun reading => ?_
  split
  · exact keeps_raise fun _ => trivial
  · dsimp only
    refine keeps_bind ?_ fun ended => ?_
    · exact keeps_attempt (keeps_goJoints _) fun _ => keepsIf_raise keeps_startImpedance
    · split
      · refine keeps_bind keeps_startImpedance fun _ => ?_
        refine keeps_bind (keeps_robot _) fun joints => ?_
        exact keeps_bind keeps_setpoint fun _ => keeps_pure _
      · exact keeps_pure _

theorem keeps_resetBody :
    Keeps limits tools (resetBody limits tools fuel goal : Action Rotation Result) := by
  unfold resetBody
  refine keeps_bind (keeps_setGripper _ _) fun grip => ?_
  split
  · exact keeps_pure _
  · refine keeps_bind keeps_prepare fun _ => ?_
    refine keeps_bind keeps_resetLift fun stopped => ?_
    split
    · exact keeps_pure _
    · exact keeps_resetJoints _

variable {body : Action Rotation Result}

theorem keeps_guarded (keeps : Keeps limits tools body) :
    Keeps limits tools (guarded limits tools body) := by
  unfold guarded
  refine keeps_bind ?_ fun result => ?_
  · exact keeps_attempt keeps fun _ => keepsIf_raise keeps_recover
  · refine keeps_bind keeps_displaced fun off => ?_
    split
    · refine keeps_bind keeps_reanchor fun _ => ?_
      exact keeps_bind keeps_get fun _ => keeps_pure _
    · exact keeps_bind keeps_get fun _ => keeps_pure _

/-! ## At rest -/

def Event.isRamp : Event Rotation → Bool
  | sent (.ramp _) _ _ => true
  | _ => false

def Event.isSent : Event Rotation → Bool
  | sent _ _ _ => true
  | _ => false

def Event.pose : Event Rotation → Option (Pose Rotation)
  | measured pose => some pose
  | _ => none

def after (barrier : Event Rotation → Bool) (events : List (Event Rotation)) :
    List (Event Rotation) :=
  events.reverse.takeWhile fun event => !barrier event

def lastMeasured (events : List (Event Rotation)) : Option (Pose Rotation) :=
  events.reverse.findSome? Event.pose

section Rests

variable (limits : Limits) (tools : Tools Rotation)

/-- The setpoint is near the pose that was measured last, or it is a pose that
was measured after the last ramp, or the impedance has started and nothing was
sent since. -/
def Rests (c : Controller Rotation) : Prop :=
  (∀ target, c.target = some target → ∃ pose,
    lastMeasured c.recent = some pose ∧ isDisplaced limits tools target pose = false) ∨
  (∃ pose, c.target = some pose ∧ .measured pose ∈ after Event.isRamp c.recent) ∨
  .impedance ∈ after Event.isSent c.recent

def Unreachable (c : Controller Rotation) : Prop :=
  c.recent.getLast? = some .notStarted ∨ c.recent.getLast? = some .unread

end Rests

theorem mem_after {barrier : Event Rotation → Bool}
    (passes : ∀ other ∈ event :: more, barrier other = false) :
    event ∈ after barrier (events ++ event :: more) := by
  unfold after
  have whole : (events ++ event :: more).reverse = (event :: more).reverse ++ events.reverse := by
    simp
  rw [whole, List.takeWhile_append_of_pos]
  · exact List.mem_append_left _ (by simp)
  · intro other member
    rw [passes other (List.mem_reverse.mp member)]
    rfl

@[simp]
theorem lastMeasured_append (events : List (Event Rotation)) (event : Event Rotation) :
    lastMeasured (events ++ [event]) = event.pose.or (lastMeasured events) := by
  unfold lastMeasured
  rw [List.reverse_append, List.reverse_singleton, List.singleton_append, List.findSome?_cons]
  cases event.pose with
  | none | some pose => rfl

theorem rests_of_impedance (recent : c.recent = events ++ .impedance :: more)
    (notSent : ∀ event ∈ more, event.isSent = false) : Rests limits tools c := by
  refine .inr (.inr ?_)
  rw [recent]
  exact mem_after (List.forall_mem_cons.mpr ⟨rfl, notSent⟩)

theorem rests_of_held {pose : Pose Rotation} (isTarget : c.target = some pose)
    (recent : c.recent = events ++ .measured pose :: more)
    (noRamp : ∀ event ∈ more, event.isRamp = false) : Rests limits tools c := by
  refine .inr (.inl ⟨pose, isTarget, ?_⟩)
  rw [recent]
  exact mem_after (List.forall_mem_cons.mpr ⟨rfl, noRamp⟩)

theorem rests_of_near {target pose : Pose Rotation} (isTarget : c.target = some target)
    (recent : c.recent = events ++ [.measured pose])
    (near : isDisplaced limits tools target pose = false) : Rests limits tools c := by
  refine .inl fun other isOther => ⟨pose, ?_, ?_⟩
  · rw [recent, lastMeasured_append]
    rfl
  · rw [isTarget] at isOther
    cases isOther
    exact near

theorem rests_of_none (noTarget : c.target = none) : Rests limits tools c := by
  refine .inl fun target isTarget => ?_
  rw [noTarget] at isTarget
  cases isTarget

theorem displaced_meets {post : Bool → Controller Rotation → Prop}
    {raises : Fault → Controller Rotation → Prop}
    (holds : ∀ target pose next, Adds c next [.measured pose] →
      next.target = some target → c.target = some target →
      post (isDisplaced limits tools target pose) next)
    (fails : ∀ fault next, Adds c next [.unread] ∨
      next.target = none → raises fault next) : Meets (displaced limits tools) post raises c := by
  unfold displaced setpoint
  apply meets_bind
  refine measured_meets ?_ ?_
  · intro pose next adds sameTarget
    apply meets_bind
    apply meets_bind
    apply meets_get
    cases isTarget : next.target with
    | none => exact meets_raise (fails _ _ (.inr isTarget))
    | some target =>
      apply meets_pure
      apply meets_pure
      exact holds target pose next adds isTarget (sameTarget.symm.trans isTarget)
  · intro fault next _ adds _
    exact fails fault next (.inl adds)

theorem atPose_meets {post : Pose Rotation → Controller Rotation → Prop}
    {raises : Fault → Controller Rotation → Prop}
    (holds : ∀ pose next, Adds c next [.measured pose] →
      next.target = some pose → post pose next)
    (fails : ∀ fault next, Adds c next [.unread] →
      next.target = c.target → raises fault next) : Meets atPose post raises c := by
  unfold atPose
  apply meets_bind
  refine measured_meets ?_ ?_
  · intro pose next adds _
    apply meets_bind
    apply meets_modify
    apply meets_pure
    exact holds pose _ ⟨adds.recent, adds.restarts⟩ rfl
  · intro fault next _ adds sameTarget
    exact fails fault next adds sameTarget

theorem startImpedance_rests (c : Controller Rotation) :
    Meets (attempt startImpedance fun _ => pure ())
      (fun _ next => Rests limits tools next ∨ Unreachable next)
      (fun _ _ => False) c := by
  apply meets_attempt
  refine startImpedance_meets ?_ ?_
  · intro here next adds _
    refine .inl (rests_of_impedance adds.recent ?_)
    simp [Event.isSent]
  · intro fault next more _ adds _ isMore
    apply meets_pure
    rcases isMore with notStarted | unread
    · refine .inr (.inl ?_)
      rw [adds.recent, notStarted]
      simp
    · rw [unread] at adds
      refine .inl (rests_of_impedance adds.recent ?_)
      simp [Event.isSent]

theorem recover_rests (c : Controller Rotation) :
    Meets (recover limits tools) (fun _ next => Rests limits tools next ∨ Unreachable next)
      (fun _ _ => False) c := by
  unfold recover
  apply meets_bind
  apply meets_modify
  apply meets_attempt
  apply meets_bind
  apply meets_get
  have held : ∀ between : Controller Rotation,
      Meets
        (do
          let pose ← atPose
          note (.sent .hold (some pose.position) (some pose.rotation))
          robot Reply.update)
        (fun _ next => Rests limits tools next ∨ Unreachable next)
        (fun _ next =>
          Meets (attempt startImpedance fun _ => pure ())
            (fun _ next => Rests limits tools next ∨ Unreachable next)
            (fun _ _ => False) next)
        between := by
    intro between
    apply meets_bind
    refine atPose_meets ?_ ?_
    · intro pose next adds isTarget
      apply meets_bind
      apply meets_modify
      apply robot_meets
      · intro _
        have isRecent : next.recent ++ [.sent .hold (some pose.position) (some pose.rotation)] =
            between.recent ++ .measured pose ::
              [.sent .hold (some pose.position) (some pose.rotation)] := by
          rw [adds.recent]
          simp
        exact .inl (rests_of_held isTarget isRecent (by simp [Event.isRamp]))
      · intro error
        exact startImpedance_rests _
    · intro fault next _ _
      exact startImpedance_rests next
  cases isTarget : c.target with
  | none =>
    dsimp only
    apply meets_bind
    apply meets_pure
    exact held _
  | some target =>
    dsimp only
    apply meets_bind
    refine displaced_meets ?_ ?_
    · intro other pose next adds isOther _
      split
      · exact held next
      case isFalse near =>
        exact meets_pure (.inl (rests_of_near isOther adds.recent (Bool.not_eq_true _ ▸ near)))
    · intro fault next _
      exact startImpedance_rests next

theorem restart_rests {pose : Pose Rotation} (isTarget : c.target = some pose)
    (recent : c.recent = events ++ .measured pose :: more)
    (noRamp : ∀ event ∈ more, event.isRamp = false) :
    Meets (restart limits tools pose) (fun _ next => Rests limits tools next)
      (fun _ next => Rests limits tools next) c := by
  have held : ∀ (next : Controller Rotation) (later : List (Event Rotation)),
      next.target = some pose → next.recent = c.recent ++ later →
      (∀ event ∈ later, event.isRamp = false) →
      Rests limits tools next := by
    intro next later nextTarget nextRecent laterNoRamp
    have whole : next.recent = events ++ .measured pose :: (more ++ later) := by
      rw [nextRecent, recent]
      simp
    exact rests_of_held nextTarget whole (List.forall_mem_append.mpr ⟨noRamp, laterNoRamp⟩)
  unfold restart
  apply meets_bind
  apply meets_modify
  apply meets_bind
  refine startImpedance_meets ?_ ?_
  · intro here next adds isHere
    have isRecent : next.recent = (c.recent ++ [.impedance]) ++ .measured here :: [] := by
      rw [adds.recent]
      simp
    have atHere : Rests limits tools next :=
      rests_of_held isHere isRecent fun _ member => by cases member
    apply meets_bind
    apply meets_get
    split
    · exact meets_raise atHere
    · unfold setpoint
      apply meets_bind
      apply meets_bind
      apply meets_get
      rw [isHere]
      apply meets_pure
      dsimp only
      split
      · exact meets_raise atHere
      · have sent : Rests limits tools
            { next with
              target := some pose
              recent := next.recent ++
                [.sent .again (some pose.position) (some pose.rotation)] } := by
          refine held _ ([.impedance, .measured here] ++
            [.sent .again (some pose.position) (some pose.rotation)]) rfl ?_ ?_
          · rw [adds.recent]
            simp
          · simp [Event.isRamp]
        apply meets_bind
        apply meets_modify
        apply meets_bind
        apply meets_modify
        exact robot_meets (fun _ => sent) fun _ => sent
  · intro fault next later _ adds sameTarget isMore
    refine held next later (sameTarget.trans isTarget) adds.recent ?_
    rcases isMore with notStarted | unread
    · rw [notStarted]
      simp [Event.isRamp]
    · rw [unread]
      simp [Event.isRamp]

theorem command_rests {pose : Pose Rotation} (isTarget : c.target = some pose)
    (recent : c.recent = events ++ [.measured pose]) :
    Meets (command limits tools .hold (some pose.position) (some pose.rotation))
      (fun _ next => Rests limits tools next)
      (fun _ next => Rests limits tools next) c := by
  unfold command
  apply meets_bind
  apply meets_modify
  have isRecent : c.recent ++ [.sent .hold (some pose.position) (some pose.rotation)] =
      events ++ .measured pose :: [.sent .hold (some pose.position) (some pose.rotation)] := by
    rw [recent]
    simp
  have held : Rests limits tools
      { c with
        recent := c.recent ++
          [.sent .hold (some pose.position) (some pose.rotation)] } :=
    rests_of_held isTarget isRecent (by simp [Event.isRamp])
  apply meets_attempt
  apply robot_meets
  · intro _
    exact held
  · intro error
    dsimp only
    split
    · apply meets_bind
      apply meets_modify
      have whole : (c.recent ++
          [.sent .hold (some pose.position) (some pose.rotation)]) ++ [.lost pose.position] =
          events ++ .measured pose ::
            [.sent .hold (some pose.position) (some pose.rotation), .lost pose.position] := by
        rw [isRecent]
        simp
      refine restart_rests ?_ whole ?_
      · exact isTarget
      · simp [Event.isRamp]
    · exact meets_raise held

theorem guarded_rests (body : Action Rotation Result) (c : Controller Rotation) :
    Meets (guarded limits tools body) (fun _ next => Rests limits tools next ∨ Unreachable next)
      (fun _ next => Rests limits tools next ∨ Unreachable next) c := by
  unfold guarded
  apply meets_bind
  apply meets_attempt
  refine (meets_trivial body c).imp ?_ ?_
  · intro result ended _
    apply meets_bind
    refine displaced_meets ?_ ?_
    · intro target pose next adds isTarget _
      split
      case isTrue off =>
        unfold reanchor
        apply meets_bind
        apply meets_bind
        apply meets_modify
        apply meets_bind
        refine atPose_meets ?_ ?_
        · intro here last isHere isHereTarget
          refine (command_rests isHereTarget isHere.recent).imp ?_ ?_
          · intro _ final rests
            exact meets_bind (meets_get (meets_pure (.inl rests)))
          · intro _ final rests
            exact .inl rests
        · intro fault last unread _
          refine .inr (.inr ?_)
          rw [unread.recent]
          simp
      case isFalse near =>
        exact meets_bind (meets_get (meets_pure (.inl
          (rests_of_near isTarget adds.recent (Bool.not_eq_true _ ▸ near)))))
    · intro fault next isFault
      rcases isFault with unread | noTarget
      · refine .inr (.inr ?_)
        rw [unread.recent]
        simp
      · exact .inl (rests_of_none noTarget)
  · intro fault ended _
    apply meets_bind
    refine (recover_rests ended).imp ?_ fun _ _ never => never.elim
    intro _ next rests
    exact meets_raise rests

/-! ## Runs -/

def Call.isMotion : Call → Bool
  | .setGripper _ => false
  | _ => true

/-- What one call sends, loses and leaves; `target` is the setpoint that it
started with. -/
structure Done (limits : Limits) (tools : Tools Rotation) (call : Call)
    (target : Option (Pose Rotation)) (next : Controller Rotation) :
    Prop where
  finite : ∀ purpose position rotation,
    .sent purpose position rotation ∈ next.recent → position.isSome = true ∧ rotation.isSome = true
  inside : ∀ start p rotation,
    .sent (.ramp start) (some p) rotation ∈ next.recent → NoFurther limits start p
  again : next.recent.countP Event.isAgain ≤ 1
  first : call.isMotion = true → FirstLoss limits tools next.recent
  rests : call.isMotion = true →
    (next.recent = [] ∧ next.target = target) ∨ Rests limits tools next ∨ Unreachable next

def Tells (limits : Limits) (next : Controller Rotation) : Fault → Prop
  | .lostAgain => 2 ≤ next.recent.countP Event.isLost
  | .restartedFar gap => limits.divergenceResync < gap
  | _ => True

variable {call : Call}

theorem Logged.done {target : Option (Pose Rotation)} (logged : Logged limits tools before next)
    (first : call.isMotion = true → FirstLoss limits tools next.recent)
    (rests : call.isMotion = true →
      (next.recent = [] ∧ next.target = target) ∨ Rests limits tools next ∨ Unreachable next) :
    Done limits tools call target next where
  finite := by
    intro purpose position rotation member
    obtain ⟨⟨p, isPosition, _⟩, isRotation⟩ := logged.good _ member
    exact ⟨by rw [isPosition]; rfl, isRotation⟩
  inside := by
    intro start p rotation member
    obtain ⟨⟨q, isPosition, inside⟩, _⟩ := logged.good _ member
    cases isPosition
    exact inside start rfl
  again := logged.again
  first := first
  rests := rests

theorem logged_of_new (isNew : c.recent = []) : Logged limits tools c.callRestarts c where
  good := by
    rw [isNew]
    exact fun _ member => absurd member List.not_mem_nil
  losses := by rw [isNew]; rfl
  again := by rw [isNew]; exact Nat.zero_le _
  fresh := fun _ => by rw [isNew]; rfl
  first := fun _ => by rw [isNew]; trivial

theorem done_of_nothing (isNew : c.recent = []) : Done limits tools call c.target c := by
  refine (logged_of_new isNew).done ?_ fun _ => .inl ⟨isNew, rfl⟩
  intro _
  rw [isNew]
  trivial

theorem motion_done (keeps : Keeps limits tools body) (isNew : c.recent = []) :
    Meets (motion limits tools body) (fun _ next => Done limits tools call c.target next)
      (fun fault next =>
        Done limits tools call c.target next ∧ Tells limits next fault) c := by
  unfold motion
  apply meets_bind
  apply meets_modify
  have begins : ∀ other : Controller Rotation, other.recent = [] →
      other.callRestarts = 0 → Logged limits tools 0 other := by
    intro other otherNew noLoss
    rw [← noLoss]
    exact logged_of_new otherNew
  have logged := begins { c with callRestarts := 0 } isNew rfl
  refine ((keeps_guarded keeps 0 _ logged trivial).and (guarded_rests body _)).imp ?_ ?_
  · intro _ next ends
    exact ends.1.logged.done (fun _ => ends.1.logged.first rfl) fun _ => .inr ends.2
  · intro fault next ends
    obtain ⟨⟨after, told⟩, rests⟩ := ends
    refine ⟨after.logged.done (fun _ => after.logged.first rfl) fun _ => .inr rests, ?_⟩
    cases fault with
    | lostAgain =>
      have counted := after.logged.losses
      rw [Nat.zero_add] at counted
      exact le_of_le_of_eq told counted
    | restartedFar gap => exact told
    | refused why | robot error | invalidPose | invalidJoints | notFinite | noSetpoint => trivial

theorem done_forget {target : Option (Pose Rotation)}
    (done : Meets program (fun _ next => Done limits tools call target next)
      (fun fault next =>
        Done limits tools call target next ∧ (call.isMotion = true → Tells limits next fault)) c) :
    Meets (program >>= fun _ => (pure () : Action Rotation Unit))
      (fun _ next => Done limits tools call target next)
      (fun fault next =>
        Done limits tools call target next ∧
          (call.isMotion = true → Tells limits next fault)) c := by
  apply meets_bind
  refine done.imp ?_ fun _ _ failed => failed
  intro _ next ends
  exact meets_pure ends

theorem perform_done (limits : Limits) (tools : Tools Rotation) (fuel : ℕ) (call : Call)
    (c : Controller Rotation) :
    Meets (perform limits tools fuel call) (fun _ next => Done limits tools call c.target next)
      (fun fault next =>
        Done limits tools call c.target next ∧
          (call.isMotion = true → Tells limits next fault)) c := by
  unfold perform
  apply meets_bind
  apply meets_modify
  have isNew : ({ c with recent := [] } : Controller Rotation).recent = [] := rfl
  have refused : ∀ (call : Call) (why : Refusal),
      Meets (refuse why : Action Rotation Result)
        (fun _ next => Done limits tools call c.target next)
        (fun fault next =>
          Done limits tools call c.target next ∧ (call.isMotion = true → Tells limits next fault))
        { c with recent := [] } := by
    intro call why
    exact meets_raise ⟨done_of_nothing isNew, fun _ => trivial⟩
  have moved : ∀ (call : Call) (body : Action Rotation Result), Keeps limits tools body →
      Meets (motion limits tools body) (fun _ next => Done limits tools call c.target next)
        (fun fault next =>
          Done limits tools call c.target next ∧ (call.isMotion = true → Tells limits next fault))
        { c with recent := [] } := by
    intro call body keeps
    refine (motion_done keeps isNew).imp (fun _ _ done => done) ?_
    intro fault next failed
    exact ⟨failed.1, fun _ => failed.2⟩
  cases call with
  | moveDelta delta continuous =>
    refine done_forget ?_
    unfold moveDelta
    split
    · exact refused _ _
    · split
      · exact refused _ _
      · exact moved _ _ (keeps_move _ _)
  | rotateDelta rpy =>
    refine done_forget ?_
    unfold rotateDelta
    split
    · exact refused _ _
    · dsimp only
      split
      · exact refused _ _
      · exact moved _ _ (keeps_rotate _)
  | setGripper isOpen =>
    refine done_forget ?_
    have logged : Logged limits tools c.callRestarts { c with recent := [] } := logged_of_new isNew
    refine (keeps_setGripper fuel isOpen _ _ logged trivial).imp ?_ ?_
    · intro _ next after
      exact after.logged.done (fun isMotion => by cases isMotion) fun isMotion => by cases isMotion
    · intro fault next failed
      refine ⟨failed.1.logged.done (fun isMotion => ?_) (fun isMotion => ?_), fun isMotion => ?_⟩
      · cases isMotion
      · cases isMotion
      · cases isMotion
  | reset =>
    refine done_forget ?_
    unfold reset
    split
    · exact refused _ _
    · exact moved _ _ (keeps_resetBody _ _)

def Controller.run (limits : Limits) (tools : Tools Rotation) (c : Controller Rotation) :
    List (Call × ℕ × (ℕ → Reply Rotation)) → Controller Rotation
  | [] => c
  | (call, fuel, replies) :: rest =>
    Controller.run limits tools (perform limits tools fuel call replies 0 c).2.2 rest

def someLimits : Limits where
  zFloor := -1
  workspaceMin := ⟨-1, -1, -1⟩
  workspaceMax := ⟨1, 1, 1⟩
  maxMove := 8 / 100
  maxRotate := 2 / 10
  servoStep := 25 / 10000
  servoStepRad := 125 / 10000
  tick := 5 / 100
  settleSteps := 1
  moveTolerance := 1 / 1000
  rotateTolerance := 5 / 100
  descentStallRatio := 7 / 10
  divergenceResync := 1 / 100
  maxTrackingError := 15 / 1000
  maxTilt := 5 / 10
  gripperCloseThreshold := 7 / 100
  graspOpenWidth := 6 / 100
  emptyWidth := none
  gripperSettle := 25 / 10
  gripperMinSettle := 5 / 10
  gripperStableEps := 2 / 1000
  gripperMotionEps := 5 / 1000
  gripperSustain := 3 / 10
  beginJoints := none
  beginTime := 4
  resetMethod := .jointStream
  resetLift := 5 / 100
  smooth := false
  smoothSubsteps := 20
  smoothDt := 5 / 100
  smoothBlend := false
  smoothCruise := 1
  smoothChainWindow := 1

def someTools : Tools Unit where
  norm := fun p => |p.x|
  advance := fun p d f => some ⟨p.x + d.x * f, p.y + d.y * f, p.z + d.z * f⟩
  turn := fun q _ _ => some q
  angle := fun _ _ => 0
  rotvec := id
  tilt := fun _ => 0
  flange := fun p _ => p

/-- A robot that stands there and does what it is told, or raises. -/
def standing (x : ℚ) (raises : Bool) : Reply Unit :=
  let error : RobotError := ⟨false, "timed out"⟩
  let done : Except RobotError Unit := if raises then .error error else .ok ()
  { eePose := if raises then .error error else .ok (some ⟨⟨x, 0, 0⟩, ()⟩)
    update := done
    terminate := done
    startCartesian := done
    stopRequested := false
    clock := 0
    gripperPosition := .ok 0
    gripperState := .ok ⟨0, none, none⟩
    controlGripper := done
    jointPositions := .error error
    moveToJointPositions := done
    startJoint := done
    updateJoint := done }

end PiEmbodied.Services.Polymetis
