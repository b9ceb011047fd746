import PiEmbodied.Motormind.Segments

/-!
# Acting

One action of the robot: its segments are sent one at a time.  Before each one
the mode looks for a cancel, the mission's deadline, an earlier segment that
was not done and the end of the episode; what it does not send it reports as
skipped or refused.
-/

namespace PiEmbodied.Motormind.Command

open List (length_append length_singleton mem_singleton)

section Definitions

variable {K : Type} [Field K] [LinearOrder K] [FloorRing K]

/-! ## What the robot answers -/

/-- Why a call to the robot raised: it is gone, or it answered an error. -/
inductive Thrown where
  | unavailable (why : String)
  | error (said : String)
deriving DecidableEq

def Thrown.message : Thrown → String
  | .unavailable why => why
  | .error said => said

structure Camera where
  name : String
  (marked768 marked512 raw512 : Option String)
deriving DecidableEq

structure Observation (K : Type) where
  caps : Caps K
  pose : Option (Pose K)
  episode_over : Bool
  mosaic : Option String
  cameras : List Camera

structure GraspReply (K : Type) where
  holding : Option Bool
  reason : String
  closed_fraction : Option K

structure Raw (K : Type) where
  (outcome abort_reason : Option String)
  (moved_m along_axis_m lateral_m turned_rad : Option K)
  pose_after : Option (Pose K)
  (ticks servo_ticks hold_ticks elapsed_s frame_clock_s opening_mm asked_mm : Option K)
  grasp : Option (GraspReply K)
  episode_over : Bool
  message : Option String
  observation : Option (Observation K)

structure Measured (K : Type) where
  kind : DeltaKind
  label : String
  outcome : SegmentOutcome
  abort_reason : Option AbortReason
  (moved_m along_axis_m lateral_m turned_rad : K)
  pose_after : Option (Pose K)
  axis : Option (Vec3 K)
  ticks : K
  (servo_ticks hold_ticks : Option K)
  elapsed_s : K
  (frame_clock_s opening_m asked_m : Option K)
  grasp : Option (GraspReply K)
  episode_over : Bool
  message : String
  (reason cancel_reason error : Option String)
  timed_out : Bool

def OUTCOMES : List SegmentOutcome :=
  [.done, .contact, .limited, .refused, .skipped, .failed]

def AbortReason.text : AbortReason → String
  | .blocked => "blocked"
  | .skidded => "skidded"

def abortReason (text : String) : Option AbortReason :=
  [AbortReason.blocked, .skidded].find? fun reason => AbortReason.text reason = text

/-- A segment's reply as `Measured`; `stringify` is `JSON.stringify`. -/
def measured (stringify : String → String) (raw : Raw K) (seg : Segment K) : Measured K :=
  let outcome := raw.outcome.getD "failed"
  let known := OUTCOMES.find? fun known => known.text = outcome
  { kind := seg.kind
    label := seg.label
    outcome := known.getD .failed
    abort_reason := abortReason (raw.abort_reason.getD "")
    moved_m := raw.moved_m.getD 0
    along_axis_m := raw.along_axis_m.getD 0
    lateral_m := raw.lateral_m.getD 0
    turned_rad := raw.turned_rad.getD 0
    pose_after := raw.pose_after
    axis :=
      if seg.kind = .translate ∧ seg.push ≠ some true then seg.axis else none
    ticks := raw.ticks.getD 0
    servo_ticks := raw.servo_ticks
    hold_ticks := raw.hold_ticks
    elapsed_s := raw.elapsed_s.getD 0
    frame_clock_s := raw.frame_clock_s
    opening_m := raw.opening_mm.map (· / 1000)
    asked_m := raw.asked_mm.map (· / 1000)
    grasp := raw.grasp
    episode_over := raw.episode_over
    message := raw.message.getD ""
    reason := none
    cancel_reason := none
    error :=
      if known.isSome then none
      else some ("the server reported outcome " ++ stringify outcome)
    timed_out := false }

structure Cancel where
  reason : String
  at_ : ℕ
  seen : Option ℕ
deriving DecidableEq

/-- An observation and how many segments had been sent when it was made. -/
structure Shot (K : Type) where
  seen : Observation K
  after : ℕ

structure Session (K : Type) where
  last : Option (Shot K)
  pose : Option (Pose K)
  episodeOver : Bool
  cancel : Option Cancel
  deadline : Option ℕ
  /-- Every segment that was ever sent. -/
  sends : ℕ

/-- Keeps an observation: the latest one, the pose, whether the episode is
over. -/
def Session.absorb (s : Session K) (o : Observation K) : Session K :=
  { s with
    last := some { seen := o, after := s.sends }
    pose := o.pose <|> s.pose
    episodeOver := o.episode_over }

/-- `cancel ??= { reason, at }`, for each request in turn. -/
def Session.hear (s : Session K) (requests : List (String × ℕ)) : Session K :=
  { s with
    cancel :=
      s.cancel <|>
        requests.head?.map fun request => { reason := request.1, at_ := request.2, seen := none } }

def Session.late (s : Session K) (now : ℕ) : Bool :=
  s.deadline.any (· < now)

def Session.notice (s : Session K) (now : ℕ) : Session K :=
  { s with
    cancel := s.cancel.map fun cancel => { cancel with seen := cancel.seen <|> some now } }

def DEADLINE_PASSED : String := "the mission deadline passed"

def Session.interrupted (s : Session K) (now : ℕ) : Option String :=
  match s.cancel with
  | some cancel => some cancel.reason
  | none => if s.late now then some DEADLINE_PASSED else none

/-! ## The segments of one action -/

/-- What happens at one segment: the cancels asked for since the last one, the
clock before it is sent, and what its call answers. -/
structure Reading (K : Type) where
  cancels : List (String × ℕ)
  now : ℕ
  reply : Except Thrown (Raw K)

structure Failed where
  error : String
  timed_out : Bool
deriving DecidableEq

structure Sending (K : Type) where
  /-- How many results there were. -/
  index : ℕ
  segment : Segment K
  /-- The observation after it carries the images. -/
  full : Bool
  now : ℕ
  standing : Session K

structure Acting (K : Type) where
  session : Session K
  results : List (Measured K)
  stopped : Option String
  failed : Option Failed
  after : Option (Observation K)
  cancelledAt : Option ℕ
  /-- The robot is gone: the call throws. -/
  gone : Option String
  sent : List (Sending K)

/-- `/timed out/i.test(error)` -/
def timedOut (error : String) : Bool :=
  (error.toList.map Char.toLower).tails.any ("timed out".toList.isPrefixOf ·)

def notRun (s : Session K) (seg : Segment K) (outcome : SegmentOutcome) : Measured K where
  kind := seg.kind
  label := seg.label
  outcome := outcome
  abort_reason := none
  moved_m := 0
  along_axis_m := 0
  lateral_m := 0
  turned_rad := 0
  pose_after := none
  axis := none
  ticks := 0
  servo_ticks := none
  hold_ticks := none
  elapsed_s := 0
  frame_clock_s := none
  opening_m := none
  asked_m := none
  grasp := none
  episode_over := s.episodeOver
  message := ""
  reason := none
  cancel_reason := none
  error := none
  timed_out := false

def Acting.report (a : Acting K) (m : Measured K) : Acting K :=
  { a with results := a.results ++ [m] }

/-- The segment's call raised: where the tool ended up is not known. -/
def Acting.fails (a : Acting K) (seg : Segment K) (error : String) : Acting K :=
  let m : Measured K :=
    { notRun a.session seg .failed with
      error := some error
      timed_out := timedOut error }
  { a.report m with
    session := { a.session with pose := none }
    failed := some { error := error, timed_out := m.timed_out }
    stopped := some (seg.label ++ " failed") }

def endedText (m : Measured K) : String :=
  m.label ++ " ended " ++ m.outcome.text ++
    (match m.abort_reason with
      | some reason => " (" ++ AbortReason.text reason ++ ")"
      | none => "")

def Session.answered (s : Session K) (seg : Segment K) (m : Measured K)
    (observation after : Option (Observation K)) : Session K :=
  let posed := { s with pose := m.pose_after <|> s.pose }
  let seen :=
    match observation with
    | some o => posed.absorb o
    | none => posed
  let told := { seen with episodeOver := seen.episodeOver || m.episode_over }
  if seg.kind = .home ∧ m.outcome = .done then
    { told with
      episodeOver := (after.map Observation.episode_over).getD false
      pose := if after.isSome then told.pose else none }
  else told

def Acting.answers (stringify : String → String) (a : Acting K)
    (seg : Segment K) (raw : Raw K) : Acting K :=
  let m := measured stringify raw seg
  let after := raw.observation <|> a.after
  { a.report m with
    session := a.session.answered seg m raw.observation after
    after := after
    stopped := if m.outcome = .done then a.stopped else some (endedText m) }

def Acting.send (stringify : String → String) (a : Acting K)
    (seg : Segment K) (full : Bool) (r : Reading K) : Acting K :=
  let out : Acting K :=
    { a with
      session := { a.session with sends := a.session.sends + 1 }
      sent :=
        a.sent ++
          [{ index := a.results.length, segment := seg, full := full,
             now := r.now, standing := a.session }] }
  match r.reply with
  | .error (.unavailable why) => { out with gone := some why }
  | .error (.error said) => out.fails seg said
  | .ok raw => out.answers stringify seg raw

def Acting.skip (a : Acting K) (seg : Segment K) (why : String) : Acting K :=
  a.report { notRun a.session seg .skipped with reason := some why }

def Acting.cancels (a : Acting K) (seg : Segment K) (now : ℕ) (reason : String) : Acting K :=
  let m : Measured K :=
    { notRun a.session seg .skipped with cancel_reason := some reason }
  { a.report m with
    session := a.session.notice now
    cancelledAt := a.cancelledAt <|> some a.results.length }

def Acting.refuse (a : Acting K) (seg : Segment K) : Acting K :=
  a.report
    { notRun a.session seg .refused with
      reason := some "the episode is over"
      episode_over := true }

def Acting.hears (a : Acting K) (r : Reading K) : Acting K :=
  { a with session := a.session.hear r.cancels }

def Acting.attend (stringify : String → String) (a : Acting K)
    (seg : Segment K) (full : Bool) (r : Reading K) : Acting K :=
  match a.session.interrupted r.now with
  | some reason => a.cancels seg r.now reason
  | none =>
    match a.stopped with
    | some why => a.skip seg why
    | none =>
      if a.session.episodeOver then a.refuse seg
      else a.send stringify seg full r

def Acting.step (stringify : String → String) (a : Acting K)
    (seg : Segment K) (full : Bool) (r : Reading K) : Acting K :=
  if a.gone.isSome then a else (a.hears r).attend stringify seg full r

/-- The segments from the `k`th on. -/
def Acting.steps (stringify : String → String) (readings : ℕ → Reading K) :
    ℕ → Acting K → List (Segment K) → Acting K
  | _, a, [] => a
  | k, a, seg :: rest =>
    Acting.steps stringify readings (k + 1) (a.step stringify seg rest.isEmpty (readings k)) rest

def Session.begin (s : Session K) : Acting K where
  session := s
  results := []
  stopped := none
  failed := none
  after := none
  cancelledAt := none
  gone := none
  sent := []

/-! ## The tool -/

structure Visit (K : Type) [Field K] [LinearOrder K] where
  /-- `parseAction` of the parameters. -/
  parsed : Except String { a : Action K // a.Parsed }
  label : String
  open_to_mm : Option K
  /-- The observations for the capabilities, for the pose and at the end. -/
  (capsReply poseReply finalReply : Except Thrown (Observation K))
  readings : ℕ → Reading K

structure Plan (K : Type) where
  session : Session K
  delta : Delta K
  start : Pose K
  caps : Caps K
  segments : List (Segment K)

def ACT_REFUSES : String := "mm_act refused, nothing moved: "

/-- The session that has an observation, making one if there is none. -/
def Session.looked (s : Session K) (reply : Except Thrown (Observation K)) :
    Session K × Except Thrown (Observation K) :=
  match s.last with
  | some shot => (s, .ok shot.seen)
  | none =>
    match reply with
    | .error thrown => (s, .error thrown)
    | .ok o => (s.absorb o, .ok o)

def Visit.delta (js : Js K) (visit : Visit K) (a : Action K) (caps : Caps K) :
    Except String (Delta K) :=
  match toDelta js a caps with
  | .error said => .error said
  | .ok d =>
    let label := String.ofList (Operator.trim visit.label.toList)
    .ok
      { d with
        label := if label = "" then d.label else label
        open_to_mm :=
          if d.kind = .gripper ∧ d.gripper_state = some .open then
            visit.open_to_mm <|> d.open_to_mm
          else d.open_to_mm }

def Session.standing (s : Session K) (reply : Except Thrown (Observation K)) :
    Session K × Except Thrown (Option (Pose K)) :=
  match s.pose with
  | some pose => (s, .ok (some pose))
  | none =>
    match reply with
    | .error thrown => (s, .error thrown)
    | .ok o => (s.absorb o, .ok o.pose)

def Session.cut (js : Js K) (s : Session K) (d : Delta K) (pose : Option (Pose K))
    (caps : Caps K) : Except Thrown (Plan K) :=
  match pose with
  | none =>
    .error
      (.error "mm_act: the robot reports no tool pose; nothing moved")
  | some start =>
    let caps := (s.last.map fun shot => shot.seen.caps).getD caps
    match segmentsFor js d start caps with
    | .error said => .error (.error said)
    | .ok segments =>
      .ok
        { session := s
          delta := d
          start := start
          caps := caps
          segments := segments }

def Session.plan (js : Js K) (s : Session K) (visit : Visit K) :
    Session K × Except Thrown (Plan K) :=
  match visit.parsed with
  | .error said => (s, .error (.error (ACT_REFUSES ++ said)))
  | .ok action =>
    match s.looked visit.capsReply with
    | (s, .error thrown) => (s, .error thrown)
    | (s, .ok o) =>
      match visit.delta js action.val o.caps with
      | .error said => (s, .error (.error (ACT_REFUSES ++ said)))
      | .ok d =>
        match s.standing visit.poseReply with
        | (s, .error thrown) => (s, .error thrown)
        | (s, .ok pose) => (s, s.cut js d pose o.caps)

def Plan.run (stringify : String → String) (plan : Plan K) (readings : ℕ → Reading K) : Acting K :=
  Acting.steps stringify readings 0 plan.session.begin plan.segments

structure Cancelled where
  reason : String
  at_segment : ℕ
  latency_ms : Option ℤ
deriving DecidableEq

structure ActResult (K : Type) where
  action : String
  kind : DeltaKind
  note : String
  segments : List (Measured K)
  cancelled : Option Cancelled
  after : Option (Observation K)
  episode_over : Bool
  failed : Option Failed

def Acting.ran (a : Acting K) : Bool :=
  a.results.any fun m => m.outcome != .skipped && m.outcome != .refused

/-- The result of an action whose segments were gone through. -/
def Acting.result (a : Acting K) (plan : Plan K) : ActResult K where
  action := plan.delta.label
  kind := plan.delta.kind
  note := plan.delta.note
  segments := a.results
  cancelled :=
    a.cancelledAt.map fun at_ =>
      { reason :=
          (a.session.cancel.map Cancel.reason).getD DEADLINE_PASSED
        at_segment := at_
        latency_ms :=
          a.session.cancel.bind fun cancel => cancel.seen.map fun seen => (seen : ℤ) - cancel.at_ }
  after := a.after
  episode_over := a.session.episodeOver
  failed := a.failed

/-- The state after the action with its images, unless a segment failed. -/
def Acting.finish (a : Acting K) (plan : Plan K) (finalReply : Except Thrown (Observation K)) :
    Session K × Except Thrown (ActResult K) :=
  match a.gone with
  | some why => (a.session, .error (.unavailable why))
  | none =>
    if (a.after.bind Observation.mosaic).isNone && a.failed.isNone && a.ran
    then
      match finalReply with
      | .error thrown => (a.session, .error thrown)
      | .ok o =>
        let looked := { a with
          session := a.session.absorb o
          after := some o }
        (looked.session, .ok (looked.result plan))
    else (a.session, .ok (a.result plan))

def actTool (js : Js K) (stringify : String → String) (s : Session K)
    (visit : Visit K) : Session K × Except Thrown (ActResult K) :=
  match s.plan js visit with
  | (s, .error thrown) => (s, .error thrown)
  | (_, .ok plan) => (plan.run stringify visit.readings).finish plan visit.finalReply

def Measured.Names (m : Measured K) (seg : Segment K) : Prop :=
  m.kind = seg.kind ∧ m.label = seg.label

def Measured.Answers (stringify : String → String) (m : Measured K)
    (seg : Segment K) : Except Thrown (Raw K) → Prop
  | .ok raw => m = measured stringify raw seg
  | .error (.error said) => m.Names seg ∧ m.outcome = .failed ∧ m.error = some said
  | .error (.unavailable _) => False

structure Session.Clear (s : Session K) (now : ℕ) : Prop where
  cancel : s.cancel = none
  deadline : ∀ deadline, s.deadline = some deadline → now ≤ deadline
  episode : s.episodeOver = false

inductive Stepped (stringify : String → String) (a : Acting K)
    (seg : Segment K) (full : Bool) (r : Reading K) (a' : Acting K) : Prop where
  | gone (isGone : a.gone.isSome) (same : a' = a)
  | kept (m : Measured K) (present : a.gone = none) (names : m.Names seg)
      (unsent : m.outcome = .skipped ∨ m.outcome = .refused)
      (results : a'.results = a.results ++ [m]) (sent : a'.sent = a.sent)
      (stays : a'.gone = none) (stopped : a'.stopped = a.stopped)
      (cancel : a'.session.cancel = none → a.session.cancel = none ∧ r.cancels = [])
  | lost (present : a.gone = none) (going : a.stopped = none)
      (quiet : r.cancels = []) (clear : a.session.Clear r.now)
      (results : a'.results = a.results)
      (sent : a'.sent = a.sent ++ [⟨a.results.length, seg, full, r.now, a.session⟩])
      (leaves : a'.gone.isSome)
  | answered (m : Measured K) (present : a.gone = none)
      (going : a.stopped = none)
      (quiet : r.cancels = []) (clear : a.session.Clear r.now)
      (answers : m.Answers stringify seg r.reply)
      (results : a'.results = a.results ++ [m])
      (sent : a'.sent = a.sent ++ [⟨a.results.length, seg, full, r.now, a.session⟩])
      (stays : a'.gone = none)
      (stops : a'.stopped = none → m.outcome = .done)
      (cancel : a'.session.cancel = a.session.cancel)

structure Obeyed (stringify : String → String) (readings : ℕ → Reading K)
    (s : Session K) (segments : List (Segment K)) (a : Acting K) : Prop where
  /-- Every segment has a result, unless the robot is gone. -/
  complete : a.gone = none → a.results.length = segments.length
  named : ∀ (i : ℕ) (m : Measured K), a.results[i]? = some m →
    ∃ seg, segments[i]? = some seg ∧ m.Names seg
  ordered : (a.sent.map Sending.index).Pairwise (· < ·)
  /-- Nothing stood against a segment that was sent. -/
  allowed : ∀ sending ∈ a.sent,
    segments[sending.index]? = some sending.segment ∧ sending.now = (readings sending.index).now ∧
      sending.standing.Clear sending.now ∧ s.cancel = none ∧
      ∀ j ≤ sending.index, (readings j).cancels = []
  /-- One that was sent has its reply as its result, but for the one that
  found the robot gone. -/
  answered : ∀ sending ∈ a.sent,
    (a.gone.isSome ∧ sending.index = a.results.length) ∨
      ∃ m, a.results[sending.index]? = some m ∧
        m.Answers stringify sending.segment (readings sending.index).reply
  /-- All but the last one that was sent were done. -/
  done : ∀ first ∈ a.sent, ∀ later ∈ a.sent, first.index < later.index →
    ∃ m, a.results[first.index]? = some m ∧ m.outcome = .done
  unsent : ∀ (i : ℕ) (m : Measured K), a.results[i]? = some m →
    (∀ sending ∈ a.sent, sending.index ≠ i) → m.outcome = .skipped ∨ m.outcome = .refused

structure Running (stringify : String → String) (readings : ℕ → Reading K)
    (s : Session K) (segments : List (Segment K)) (a : Acting K) : Prop
    extends Obeyed stringify readings s segments a where
  inside : ∀ sending ∈ a.sent, a.gone = none → sending.index < a.results.length
  going : a.gone = none → a.stopped = none → ∀ sending ∈ a.sent,
    ∃ m, a.results[sending.index]? = some m ∧ m.outcome = .done
  quiet : a.gone = none → a.session.cancel = none →
    s.cancel = none ∧ ∀ j < segments.length, (readings j).cancels = []

end Definitions

section

variable {K : Type} {s : Session K}

theorem hear_cancel_none {requests : List (String × ℕ)} (none : (s.hear requests).cancel = none) :
    s.cancel = .none ∧ requests = [] := by
  cases isCancel : s.cancel with
  | none => cases requests <;> simp_all [Session.hear]
  | some cancel => simp [Session.hear, isCancel] at none

theorem hear_nil (s : Session K) : s.hear [] = s := by
  simp [Session.hear]

variable {now : ℕ}

theorem notice_cancel_none : (s.notice now).cancel = none ↔ s.cancel = none := by
  simp [Session.notice]

theorem interrupted_none (free : s.interrupted now = none) :
    s.cancel = none ∧ ∀ deadline, s.deadline = some deadline → now ≤ deadline := by
  cases isCancel : s.cancel with
  | some cancel => simp [Session.interrupted, isCancel] at free
  | none =>
    refine ⟨rfl, fun deadline isDeadline => ?_⟩
    simpa [Session.interrupted, isCancel, Session.late, isDeadline] using free

theorem answered_cancel (s : Session K) (seg : Segment K) (m : Measured K)
    (observation after : Option (Observation K)) :
    (s.answered seg m observation after).cancel = s.cancel := by
  unfold Session.answered
  cases observation <;> simp only <;> split_ifs <;> rfl

variable {a : Acting K}

theorem hears_quiet {r : Reading K} (free : (a.hears r).session.cancel = none) :
    r.cancels = [] ∧ a.hears r = a := by
  have quiet := (hear_cancel_none free).2
  refine ⟨quiet, ?_⟩
  rw [Acting.hears, quiet, hear_nil]

theorem finish_segments {plan : Plan K} {finalReply : Except Thrown (Observation K)}
    {result : ActResult K} (ended : (a.finish plan finalReply).2 = .ok result) :
    a.gone = none ∧ result.segments = a.results := by
  unfold Acting.finish at ended
  cases present : a.gone with
  | some why => simp [present] at ended
  | none =>
    refine ⟨rfl, ?_⟩
    simp only [present] at ended
    split_ifs at ended with look
    · cases isReply : finalReply with
      | error thrown => simp [isReply] at ended
      | ok o =>
        rw [isReply] at ended
        rw [← Except.ok.inj ended]
        rfl
    · rw [← Except.ok.inj ended]
      rfl

end

section

variable {K : Type} [Field K] {a : Acting K} {r : Reading K}

section

variable (stringify : String → String)
include stringify

theorem send_stepped (seg : Segment K) (full : Bool) (present : a.gone = none)
    (going : a.stopped = none) (quiet : r.cancels = []) (clear : a.session.Clear r.now) :
    Stepped stringify a seg full r (a.send stringify seg full r) := by
  unfold Acting.send
  cases isReply : r.reply with
  | error thrown =>
    cases thrown with
    | unavailable why => exact Stepped.lost present going quiet clear rfl rfl rfl
    | error said =>
      refine
        Stepped.answered _ present going quiet clear ?_ rfl rfl present (fun none => ?_) rfl
      · rw [isReply]
        exact ⟨⟨rfl, rfl⟩, rfl, rfl⟩
      · cases none
  | ok raw =>
    refine
      Stepped.answered (measured stringify raw seg) present going quiet clear
        ?_ rfl rfl present (fun none => ?_) ?_
    · rw [isReply]
      rfl
    · by_contra notDone
      simp [Acting.answers, notDone] at none
    · exact answered_cancel _ _ _ _ _

theorem attend_stepped (seg : Segment K) (full : Bool) (present : a.gone = none)
    (quiet : r.cancels = []) (free : a.session.interrupted r.now = none) :
    Stepped stringify a seg full r (a.attend stringify seg full r) := by
  obtain ⟨uncancelled, inTime⟩ := interrupted_none free
  unfold Acting.attend
  rw [free]
  cases going : a.stopped with
  | some why =>
    exact
      Stepped.kept _ present ⟨rfl, rfl⟩ (.inl rfl) rfl rfl present rfl fun none => ⟨none, quiet⟩
  | none =>
    cases isOver : a.session.episodeOver with
    | true =>
      exact
        Stepped.kept _ present ⟨rfl, rfl⟩ (.inr rfl) rfl rfl present rfl fun none => ⟨none, quiet⟩
    | false =>
      exact
        send_stepped stringify seg full present going quiet ⟨uncancelled, inTime, isOver⟩

theorem stepped (a : Acting K) (seg : Segment K) (full : Bool) (r : Reading K) :
    Stepped stringify a seg full r (a.step stringify seg full r) := by
  unfold Acting.step
  split_ifs with isGone
  · exact Stepped.gone isGone rfl
  · have present : a.gone = none := by simpa using isGone
    cases free : (a.hears r).session.interrupted r.now with
    | some reason =>
      unfold Acting.attend
      rw [free]
      exact
        Stepped.kept _ present ⟨rfl, rfl⟩ (.inl rfl) rfl rfl present rfl
          fun none => hear_cancel_none (notice_cancel_none.1 none)
    | none =>
      obtain ⟨quiet, same⟩ := hears_quiet (interrupted_none free).1
      rw [same] at free ⊢
      exact attend_stepped stringify seg full present quiet free

end

/-! ## A whole action -/

variable {α : Type} {i : ℕ} {items : List α} {item : α}

theorem getElem?_snoc (found : items[i]? = some item) (extra : α) :
    (items ++ [extra])[i]? = some item := by
  obtain ⟨inside, -⟩ := List.getElem?_eq_some_iff.1 found
  rw [List.getElem?_append_left inside, found]

theorem getElem?_snoc_cases {extra : α} (found : (items ++ [extra])[i]? = some item) :
    items[i]? = some item ∨ i = items.length ∧ item = extra := by
  rcases Nat.lt_trichotomy i items.length with inside | same | past
  · rw [List.getElem?_append_left inside] at found
    exact .inl found
  · subst same
    rw [List.getElem?_concat_length] at found
    exact .inr ⟨rfl, (Option.some.inj found).symm⟩
  · rw [List.getElem?_eq_none (by simp; omega)] at found
    cases found

section

variable {stringify : String → String} {readings : ℕ → Reading K}
  {s : Session K} {segments : List (Segment K)} {a a' : Acting K}

theorem running_begin (s : Session K) : Running stringify readings s [] s.begin where
  complete := fun _ => rfl
  named := by
    intro i m found
    simp [Session.begin] at found
  ordered := List.Pairwise.nil
  allowed := by simp [Session.begin]
  answered := by simp [Session.begin]
  done := by simp [Session.begin]
  unsent := by simp [Session.begin]
  inside := by simp [Session.begin]
  going := by simp [Session.begin]
  quiet := fun _ none => ⟨none, by simp⟩

section

variable (running : Running stringify readings s segments a)
include running

theorem allowed_snoc (seg : Segment K) :
    ∀ sending ∈ a.sent,
      (segments ++ [seg])[sending.index]? = some sending.segment ∧
        sending.now = (readings sending.index).now ∧
        sending.standing.Clear sending.now ∧ s.cancel = none ∧
        ∀ j ≤ sending.index, (readings j).cancels = [] := by
  intro sending isSent
  obtain ⟨isSegment, rest⟩ := running.allowed sending isSent
  exact ⟨getElem?_snoc isSegment seg, rest⟩

theorem named_snoc (seg : Segment K) :
    ∀ (i : ℕ) (m : Measured K), a.results[i]? = some m →
      ∃ named, (segments ++ [seg])[i]? = some named ∧ m.Names named := by
  intro i m found
  obtain ⟨named, isNamed, names⟩ := running.named i m found
  exact ⟨named, getElem?_snoc isNamed seg, names⟩

theorem running_gone (seg : Segment K) (isGone : a.gone.isSome) :
    Running stringify readings s (segments ++ [seg]) a := by
  have absent (present : a.gone = none) : False := by simp [present] at isGone
  exact
    { running with
      complete := fun present => (absent present).elim
      named := named_snoc running seg
      allowed := allowed_snoc running seg
      going := fun present => (absent present).elim
      quiet := fun present => (absent present).elim }

end

variable {m : Measured K} {seg : Segment K}

theorem names_of_answers {reply : Except Thrown (Raw K)} (answers : m.Answers stringify seg reply) :
    m.Names seg := by
  cases reply with
  | ok raw =>
    rw [answers]
    exact ⟨rfl, rfl⟩
  | error thrown =>
    cases thrown with
    | unavailable why => exact answers.elim
    | error said => exact answers.1

theorem answered_present (running : Running stringify readings s segments a)
    (present : a.gone = none) :
    ∀ sending ∈ a.sent, ∃ m, a.results[sending.index]? = some m ∧
      m.Answers stringify sending.segment (readings sending.index).reply := by
  intro sending isSent
  rcases running.answered sending isSent with ⟨isGone, -⟩ | answered
  · simp [present] at isGone
  · exact answered

theorem getElem?_snoc_of_exists {α : Type} {items : List α} {i : ℕ} {test : α → Prop} (extra : α)
    (found : ∃ item, items[i]? = some item ∧ test item) :
    ∃ item, (items ++ [extra])[i]? = some item ∧ test item := by
  obtain ⟨item, isItem, holds⟩ := found
  exact ⟨item, getElem?_snoc isItem extra, holds⟩

theorem named_result (running : Running stringify readings s segments a)
    (present : a.gone = none) (names : m.Names seg) :
    ∀ (i : ℕ) (found : Measured K), (a.results ++ [m])[i]? = some found →
      ∃ named, (segments ++ [seg])[i]? = some named ∧ found.Names named := by
  intro i found isFound
  rcases getElem?_snoc_cases isFound with earlier | ⟨atEnd, isLast⟩
  · exact named_snoc running seg i found earlier
  · rw [atEnd, isLast, running.complete present, List.getElem?_concat_length]
    exact ⟨seg, rfl, names⟩

theorem running_kept (running : Running stringify readings s segments a)
    (present : a.gone = none) (names : m.Names seg)
    (unsent : m.outcome = .skipped ∨ m.outcome = .refused)
    (results : a'.results = a.results ++ [m]) (sent : a'.sent = a.sent)
    (stopped : a'.stopped = a.stopped)
    (cancel : a'.session.cancel = none →
      a.session.cancel = none ∧ (readings segments.length).cancels = []) :
    Running stringify readings s (segments ++ [seg]) a' where
  complete := by
    intro _
    simp [results, running.complete present]
  named := by
    rw [results]
    exact named_result running present names
  ordered := by
    rw [sent]
    exact running.ordered
  allowed := by
    rw [sent]
    exact allowed_snoc running seg
  answered := by
    rw [sent, results]
    intro sending isSent
    exact
      .inr
        (getElem?_snoc_of_exists m (answered_present running present sending isSent))
  done := by
    rw [sent, results]
    intro first isFirst later isLater before
    exact
      getElem?_snoc_of_exists m (running.done first isFirst later isLater before)
  unsent := by
    rw [sent, results]
    intro i found isFound notSent
    rcases getElem?_snoc_cases isFound with earlier | ⟨-, isLast⟩
    · exact running.unsent i found earlier notSent
    · rw [isLast]
      exact unsent
  inside := by
    rw [sent, results]
    intro sending isSent _
    have before := running.inside sending isSent present
    simp only [length_append, length_singleton]
    omega
  going := by
    rw [sent, results, stopped]
    intro _ going sending isSent
    exact
      getElem?_snoc_of_exists m (running.going present going sending isSent)
  quiet := by
    intro _ free
    obtain ⟨wasFree, quiet⟩ := cancel free
    obtain ⟨free, quietBefore⟩ := running.quiet present wasFree
    refine ⟨free, fun j inside => ?_⟩
    rw [length_append, length_singleton] at inside
    rcases Nat.lt_succ_iff_lt_or_eq.1 inside with earlier | same
    · exact quietBefore j earlier
    · rw [same]
      exact quiet

variable {r : Reading K}

theorem sent_snoc (running : Running stringify readings s segments a) (full : Bool)
    (isReading : r = readings segments.length) (present : a.gone = none)
    (going : a.stopped = none) (quiet : r.cancels = []) (clear : a.session.Clear r.now)
    (sent : a'.sent = a.sent ++ [⟨a.results.length, seg, full, r.now, a.session⟩])
    (results : ∀ (i : ℕ) (m : Measured K), a.results[i]? = some m → a'.results[i]? = some m) :
    (a'.sent.map Sending.index).Pairwise (· < ·) ∧
      (∀ sending ∈ a'.sent,
        (segments ++ [seg])[sending.index]? = some sending.segment ∧
          sending.now = (readings sending.index).now ∧
          sending.standing.Clear sending.now ∧ s.cancel = none ∧
          ∀ j ≤ sending.index, (readings j).cancels = []) ∧
      ∀ first ∈ a'.sent, ∀ later ∈ a'.sent, first.index < later.index →
        ∃ m, a'.results[first.index]? = some m ∧ m.outcome = .done := by
  have atEnd := running.complete present
  refine ⟨?_, ?_, ?_⟩
  · rw [sent, List.map_append, List.pairwise_append]
    refine ⟨running.ordered, List.pairwise_singleton _ _, ?_⟩
    intro index isIndex last isLast
    obtain ⟨sending, isSent, rfl⟩ := List.mem_map.1 isIndex
    rw [List.map_singleton, mem_singleton] at isLast
    rw [isLast]
    exact running.inside sending isSent present
  · rw [sent]
    intro sending isSending
    rcases List.mem_append.1 isSending with earlier | isNew
    · exact allowed_snoc running seg sending earlier
    · obtain ⟨free, quietBefore⟩ := running.quiet present clear.cancel
      rw [mem_singleton] at isNew
      rw [isNew]
      refine ⟨?_, ?_, clear, free, ?_⟩
      · simp only [atEnd]
        exact List.getElem?_concat_length
      · simp only [atEnd, isReading]
      · intro j inside
        simp only [atEnd] at inside
        rcases Nat.lt_or_eq_of_le inside with before | same
        · exact quietBefore j before
        · rw [same, ← isReading]
          exact quiet
  · rw [sent]
    intro first isFirst later isLater before
    rcases List.mem_append.1 isFirst with earlier | isNew
    · obtain ⟨m, isResult, done⟩ := running.going present going first earlier
      exact ⟨m, results _ _ isResult, done⟩
    · rw [mem_singleton] at isNew
      rw [isNew] at before
      rcases List.mem_append.1 isLater with laterEarlier | laterNew
      · have inside := running.inside later laterEarlier present
        simp only at before
        omega
      · rw [mem_singleton] at laterNew
        rw [laterNew] at before
        simp at before

variable {full : Bool}

section

variable (running : Running stringify readings s segments a)
include running

theorem running_lost (isReading : r = readings segments.length) (present : a.gone = none)
    (going : a.stopped = none) (quiet : r.cancels = []) (clear : a.session.Clear r.now)
    (results : a'.results = a.results)
    (sent : a'.sent = a.sent ++ [⟨a.results.length, seg, full, r.now, a.session⟩])
    (leaves : a'.gone.isSome) : Running stringify readings s (segments ++ [seg]) a' := by
  obtain ⟨ordered, allowed, done⟩ :=
    sent_snoc running full isReading present going quiet clear sent
      (fun i m found => results ▸ found)
  have absent (stays : a'.gone = none) : False := by simp [stays] at leaves
  refine
    { complete := fun stays => (absent stays).elim
      named := ?_
      ordered := ordered
      allowed := allowed
      answered := ?_
      done := done
      unsent := ?_
      inside := fun _ _ stays => (absent stays).elim
      going := fun stays => (absent stays).elim
      quiet := fun stays => (absent stays).elim }
  · rw [results]
    exact named_snoc running seg
  · rw [sent, results]
    intro sending isSending
    rcases List.mem_append.1 isSending with earlier | isNew
    · exact .inr (answered_present running present sending earlier)
    · rw [mem_singleton] at isNew
      rw [isNew]
      exact .inl ⟨leaves, rfl⟩
  · rw [sent, results]
    intro i m found notSent
    exact
      running.unsent i m found fun sending isSent => notSent sending (List.mem_append_left _ isSent)

theorem running_answered (isReading : r = readings segments.length) (present : a.gone = none)
    (going : a.stopped = none) (quiet : r.cancels = []) (clear : a.session.Clear r.now)
    (answers : m.Answers stringify seg r.reply) (results : a'.results = a.results ++ [m])
    (sent : a'.sent = a.sent ++ [⟨a.results.length, seg, full, r.now, a.session⟩])
    (stops : a'.stopped = none → m.outcome = .done) :
    Running stringify readings s (segments ++ [seg]) a' := by
  obtain ⟨ordered, allowed, done⟩ :=
    sent_snoc running full isReading present going quiet clear sent
      (fun i found isFound => results ▸ getElem?_snoc isFound m)
  have atEnd := running.complete present
  refine
    { complete := ?_
      named := ?_
      ordered := ordered
      allowed := allowed
      answered := ?_
      done := done
      unsent := ?_
      inside := ?_
      going := ?_
      quiet := ?_ }
  · intro _
    simp [results, atEnd]
  · rw [results]
    exact named_result running present (names_of_answers answers)
  · rw [sent, results]
    intro sending isSending
    rcases List.mem_append.1 isSending with earlier | isNew
    · exact
        .inr
          (getElem?_snoc_of_exists m (answered_present running present sending earlier))
    · rw [mem_singleton] at isNew
      rw [isNew]
      refine .inr ⟨m, List.getElem?_concat_length, ?_⟩
      simp only [atEnd, ← isReading]
      exact answers
  · rw [sent, results]
    intro i found isFound notSent
    rcases getElem?_snoc_cases isFound with earlier | ⟨last, -⟩
    · exact
        running.unsent i found earlier fun sending isSent =>
          notSent sending (List.mem_append_left _ isSent)
    · exact (notSent _ (List.mem_append_right _ (List.mem_singleton_self _)) last.symm).elim
  · rw [sent, results]
    intro sending isSending _
    simp only [length_append, length_singleton]
    rcases List.mem_append.1 isSending with earlier | isNew
    · have before := running.inside sending earlier present
      omega
    · rw [mem_singleton] at isNew
      simp [isNew]
  · rw [sent, results]
    intro _ notStopped sending isSending
    rcases List.mem_append.1 isSending with earlier | isNew
    · exact getElem?_snoc_of_exists m (running.going present going sending earlier)
    · rw [mem_singleton] at isNew
      rw [isNew]
      exact ⟨m, List.getElem?_concat_length, stops notStopped⟩
  · intro _ _
    obtain ⟨free, quietBefore⟩ := running.quiet present clear.cancel
    refine ⟨free, fun j inside => ?_⟩
    rw [length_append, length_singleton] at inside
    rcases Nat.lt_succ_iff_lt_or_eq.1 inside with earlier | same
    · exact quietBefore j earlier
    · rw [same, ← isReading]
      exact quiet

theorem running_step (seg : Segment K) (full : Bool) :
    Running stringify readings s (segments ++ [seg])
      (a.step stringify seg full (readings segments.length)) := by
  cases stepped stringify a seg full (readings segments.length) with
  | gone isGone same =>
    rw [same]
    exact running_gone running seg isGone
  | kept m present names unsent results sent stays stopped cancel =>
    exact
      running_kept running present names unsent results sent stopped cancel
  | lost present going quiet clear results sent leaves =>
    exact
      running_lost running rfl present going quiet clear results sent leaves
  | answered m present going quiet clear answers results sent stays stops
      cancel =>
      exact
        running_answered running rfl present going quiet clear answers results sent stops

end

theorem running_steps (rest : List (Segment K))
    (running : Running stringify readings s segments a) :
    Running stringify readings s (segments ++ rest)
      (Acting.steps stringify readings segments.length a rest) := by
  induction rest generalizing segments a with
  | nil =>
    rw [List.append_nil]
    exact running
  | cons seg rest ih =>
    have next := running_step running seg rest.isEmpty
    have later := ih next
    rwa [length_append, length_singleton, List.append_assoc] at later

theorem run_obeyed (stringify : String → String) (plan : Plan K) (readings : ℕ → Reading K) :
    Obeyed stringify readings plan.session plan.segments (plan.run stringify readings) :=
  (running_steps plan.segments (running_begin plan.session)).toObeyed

end

end

section

variable {K : Type} [Field K] [LinearOrder K]

/-! ## What is planned -/

structure Caps.Limited (caps : Caps K) : Prop where
  translation : 0 < caps.max_translation_m
  rotation : 0 < caps.max_rotation_rad

theorem Caps.Limited.limit {caps : Caps K} (limited : caps.Limited)
    (d : Delta K) : 0 < d.limit caps := by
  unfold Delta.limit
  split_ifs
  · exact limited.rotation
  · exact limited.translation

variable [FloorRing K] {js : Js K}

theorem plan_of_known {s : Session K} {visit : Visit K} {shot : Shot K}
    {pose : Pose K} {action : { a : Action K // a.Parsed }} {d : Delta K}
    {segments : List (Segment K)} (isLast : s.last = some shot) (isPose : s.pose = some pose)
    (isAction : visit.parsed = .ok action)
    (isDelta : visit.delta js action.val shot.seen.caps = .ok d)
    (isCut : segmentsFor js d pose shot.seen.caps = .ok segments) :
    (s.plan js visit).2 = .ok ⟨s, d, pose, shot.seen.caps, segments⟩ := by
  simp [Session.plan, Session.looked, Session.standing, Session.cut, isAction,
    isLast, isDelta, isPose, isCut]

end

section

variable {K : Type} [Field K] [LinearOrder K] [IsStrictOrderedRing K]
  [FloorRing K] {js : Js K} {visit : Visit K}

theorem visit_delta_sound (isRoot : Rays.IsSquareRoot js.sqrt) (piPos : 0 < js.pi) {a : Action K}
    {caps : Caps K} {d : Delta K} (parsed : a.Parsed) (isDelta : visit.delta js a caps = .ok d) :
    d.Sound := by
  unfold Visit.delta at isDelta
  cases converted : toDelta js a caps with
  | error said => simp [converted] at isDelta
  | ok plainDelta =>
    rw [converted] at isDelta
    have sound := toDelta_sound isRoot piPos parsed converted
    rw [← Except.ok.inj isDelta]
    exact fun moves => sound moves

variable {s : Session K}

theorem plan_cut (isRoot : Rays.IsSquareRoot js.sqrt) (piPos : 0 < js.pi) {plan : Plan K}
    (planned : (s.plan js visit).2 = .ok plan) :
    plan.delta.Sound ∧ segmentsFor js plan.delta plan.start plan.caps = .ok plan.segments := by
  unfold Session.plan at planned
  cases isAction : visit.parsed with
  | error said => simp [isAction] at planned
  | ok action =>
    rcases isLook : s.looked visit.capsReply with ⟨looked, thrown | o⟩
    · simp [isAction, isLook] at planned
    cases isDelta : visit.delta js action.val o.caps with
    | error said => simp [isAction, isLook, isDelta] at planned
    | ok d =>
      have sound := visit_delta_sound isRoot piPos action.property isDelta
      rcases isPose : looked.standing visit.poseReply with
        ⟨standing, thrown | pose⟩
      · simp [isAction, isLook, isDelta, isPose] at planned
      simp only [isAction, isLook, isDelta, isPose] at planned
      cases pose with
      | none => simp [Session.cut] at planned
      | some start =>
        simp only [Session.cut] at planned
        generalize (standing.last.map fun shot => shot.seen.caps).getD o.caps = caps at planned
        cases isCut : segmentsFor js d start caps with
        | error said => simp [isCut] at planned
        | ok segments =>
          rw [isCut] at planned
          rw [← Except.ok.inj planned]
          exact ⟨sound, isCut⟩

theorem plan_segmented (isRoot : Rays.IsSquareRoot js.sqrt) (piPos : 0 < js.pi)
    (circular : Circular js) {plan : Plan K}
    (planned : (s.plan js visit).2 = .ok plan) (limited : plan.caps.Limited) :
    Segmented js plan.delta plan.start plan.caps plan.segments := by
  obtain ⟨sound, isCut⟩ := plan_cut isRoot piPos planned
  obtain ⟨segments, alsoCut, segmented⟩ :=
    segmentsFor_segmented isRoot circular sound plan.start (limited.limit plan.delta)
  have same := Except.ok.inj (isCut.symm.trans alsoCut)
  rw [same]
  exact segmented

end

theorem reals_circular (texts : Texts ℝ) : Circular (reals texts) where
  cos_zero := Real.cos_zero
  sin_zero := Real.sin_zero
  cos_add := Real.cos_add
  sin_add := Real.sin_add

/-- The action of moving forward by `mm`. -/
def forwardAction (mm : ℝ) : Action ℝ where
  index := 0
  type := .move
  direction := none
  axis := some ![1, 0, 0]
  distance_mm := some mm
  angle_deg := none
  state := none
  width_mm := none
  seconds := none
  speed_mm_s := none
  rot_speed_deg_s := none
  stop_on_contact := none
  note := ""

theorem forwardAction_parsed {mm : ℝ} (positive : 0 < mm) : (forwardAction mm).Parsed where
  distance := fun _ => ⟨mm, rfl, positive⟩
  angle := fun isRotation => by cases isRotation

def finished {K : Type} : Reading K where
  cancels := []
  now := 0
  reply :=
    .ok
      { outcome := some "done"
        abort_reason := none
        moved_m := none
        along_axis_m := none
        lateral_m := none
        turned_rad := none
        pose_after := none
        ticks := none
        servo_ticks := none
        hold_ticks := none
        elapsed_s := none
        frame_clock_s := none
        opening_mm := none
        asked_mm := none
        grasp := none
        episode_over := false
        message := none
        observation := none }

noncomputable def moveVisit : Visit ℝ where
  parsed := .ok ⟨forwardAction 40, forwardAction_parsed (by norm_num)⟩
  label := ""
  open_to_mm := none
  capsReply := .error (.error "not asked")
  poseReply := .error (.error "not asked")
  finalReply := .error (.error "not asked")
  readings := fun _ => finished

noncomputable def restingSession : Session ℝ where
  last :=
    some
      { seen :=
          { caps := shortArm
            pose := some farOut
            episode_over := false
            mosaic := none
            cameras := [] }
        after := 0 }
  pose := some farOut
  episodeOver := false
  cancel := none
  deadline := none
  sends := 0

theorem forwardAction_delta :
    ∃ d, moveVisit.delta (reals plain) (forwardAction 40) shortArm = .ok d := by
  have isUnit : dot (![1, 0, 0] : Vec3 ℝ) ![1, 0, 0] = 1 := by simp [dot]
  have axis := unit_of_unit (reals_isRoot plain) isUnit
  have slow : ¬ moveSpeed (forwardAction 40) shortArm ≤ 0 := by
    norm_num [moveSpeed, forwardAction, orElse, shortArm]
  have free : ¬ (forwardAction 40).stop_on_contact = some true := by simp [forwardAction]
  have isAxis : axisOf (reals plain) (forwardAction 40) translationAxis = .ok ![1, 0, 0] := by
    simp only [axisOf, forwardAction, axis]
  have isMove : (forwardAction 40).type = .move := rfl
  simp [Visit.delta, toDelta, toTranslation, isMove, free, slow, isAxis]

noncomputable def past : ℝ := 1 / 20 * (1 + 1 / 10 ^ 10)

theorem pieces_past : pieces past (1 / 20) = 1 := by
  have small : |past| / (1 / 20) - 1 / 10 ^ 9 ≤ 1 := by
    rw [abs_of_pos (by norm_num [past])]
    norm_num [past]
  have ceil : ⌈|past| / (1 / 20) - 1 / 10 ^ 9⌉ ≤ 1 := by
    rw [Int.ceil_le]
    exact_mod_cast small
  unfold pieces
  omega

end PiEmbodied.Motormind.Command
