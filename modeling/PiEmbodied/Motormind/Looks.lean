import PiEmbodied.Motormind.Acting

/-!
# Cached looks

A look is answered from the provider's cache when the last tool result left it
fresh.  The cache goes by the robot's latest observation, which is not always
the result's own.
-/

namespace PiEmbodied.Motormind.Command

section Definitions

variable {K : Type}

/-! ## The cache -/

def hasImages (o : Observation K) : Bool :=
  o.cameras.any fun camera =>
    camera.marked768.isSome || camera.marked512.isSome || camera.raw512.isSome

/-- The frame of an observation; there is none without a tool pose. -/
def frameOf (shot : Shot K) : Option (Shot K) :=
  if shot.seen.pose.isSome then some shot else none

structure FrameCache (K : Type) where
  latest : Option (Shot K)
  stale : Bool

def FrameCache.receive (cache : FrameCache K) (s : Session K) (ok : Bool) :
    FrameCache K :=
  match s.last.bind frameOf with
  | some frame => { latest := some frame, stale := !hasImages frame.seen || !ok }
  | none => { cache with stale := true }

/-- The frame a look is answered with when nothing needs to be rendered. -/
def FrameCache.cached (cache : FrameCache K) : Option (Shot K) :=
  if cache.stale then none
  else cache.latest.filter fun frame => hasImages frame.seen

/-! ## The tool calls of a mission -/

structure Host (K : Type) where
  session : Session K
  cache : FrameCache K
  /-- The robot failed: every tool refuses. -/
  broken : Option String

/-- The robot as the mission finds it, with the observation of its start. -/
def Host.start (opening : Option (Observation K)) : Host K where
  session :=
    { last := opening.map fun o => { seen := o, after := 0 }
      pose := opening.bind Observation.pose
      episodeOver := opening.any Observation.episode_over
      cancel := none
      deadline := none
      sends := 0 }
  cache := { latest := none, stale := true }
  broken := none

def Host.receive (h : Host K) (s : Session K) (ok : Bool) : Host K :=
  { h with session := s, cache := h.cache.receive s ok }

/-- A call that raised; a robot that is gone fails for good. -/
def Host.raised (h : Host K) (s : Session K) (thrown : Thrown) : Host K :=
  match thrown with
  | .unavailable why => { h.receive s false with broken := some why }
  | .error _ => h.receive s false

/-- Between calls: cancels, the deadline and the mission's clearing of a
cancel. -/
inductive Word where
  | cancel (reason : String) (at_ : ℕ)
  | clearCancel
  | setDeadline (at_ : Option ℕ)
deriving DecidableEq

def Session.told (s : Session K) : Word → Session K
  | .cancel reason at_ => s.hear [(reason, at_)]
  | .clearCancel => { s with cancel := none }
  | .setDeadline at_ => { s with deadline := at_ }

/-- What `mm_observe` meets: a hook refuses it, or the robot answers. -/
inductive Sight (K : Type) where
  | refused
  | reply (reply : Except Thrown (Observation K))

def Host.observe (h : Host K) (sight : Sight K) : Host K :=
  if h.broken.isSome then h.receive h.session false
  else
    match sight with
    | .refused => h.receive h.session false
    | .reply (.error thrown) => h.raised h.session thrown
    | .reply (.ok o) => h.receive (h.session.absorb o) true

/-- A look, which makes one `mm_observe` when the cache does not answer it. -/
def Host.look (h : Host K) (sight : Sight K) : Host K :=
  if h.cache.cached.isSome then h else h.observe sight

variable [Field K] [LinearOrder K] [FloorRing K]

inductive Event (K : Type) [Field K] [LinearOrder K] where
  | observe (sight : Sight K)
  | act (visit : Visit K)
  /-- A hook refuses an `mm_act`. -/
  | refused
  | look (sight : Sight K)
  | word (word : Word)

def Host.act (js : Js K) (stringify : String → String) (h : Host K) (visit : Visit K) : Host K :=
  if h.broken.isSome then h.receive h.session false
  else
    match actTool js stringify h.session visit with
    | (s, .error thrown) => h.raised s thrown
    | (s, .ok _) => h.receive s true

def Host.next (js : Js K) (stringify : String → String) (h : Host K) : Event K → Host K
  | .observe sight => h.observe sight
  | .act visit => h.act js stringify visit
  | .refused => h.receive h.session false
  | .look sight => h.look sight
  | .word word => { h with session := h.session.told word }

def Host.run (js : Js K) (stringify : String → String) (h : Host K)
    (events : List (Event K)) : Host K :=
  events.foldl (Host.next js stringify) h

/-- Every look the cache answers was made after the last segment that was
sent. -/
def Host.Fresh (h : Host K) : Prop :=
  ∀ frame, h.cache.cached = some frame → frame.after = h.session.sends

def Session.Blind (s : Session K) : Prop :=
  ∀ shot frame, s.last = some shot → frameOf shot = some frame → hasImages frame.seen = false

/-- A segment's call brings an observation, or finds the robot gone. -/
def Reading.Brings (r : Reading K) : Prop :=
  match r.reply with
  | .ok raw => raw.observation.isSome
  | .error (.unavailable _) => True
  | .error (.error _) => False

/-- No segment's call comes back without an observation while the robot's
observation shows images. -/
def Host.Seen (js : Js K) (stringify : String → String) (h : Host K) : Event K → Prop
  | .act visit =>
    ∀ plan, (h.session.plan js visit).2 = .ok plan →
      ∀ sending ∈ (plan.run stringify visit.readings).sent,
        (visit.readings sending.index).Brings ∨ sending.standing.Blind
  | _ => True

def Host.SeenAlong (js : Js K) (stringify : String → String) : Host K → List (Event K) → Prop
  | _, [] => True
  | h, event :: rest =>
    h.Seen js stringify event ∧ Host.SeenAlong js stringify (h.next js stringify event) rest

end Definitions

section

variable {K : Type}

/-! ## What the robot's observation shows -/

/-- The robot's observation, when it shows images, was made after the last
segment that was sent. -/
def Session.Sighted (s : Session K) : Prop :=
  ∀ shot frame, s.last = some shot → frameOf shot = some frame →
    hasImages frame.seen = true → frame.after = s.sends

variable {shot frame : Shot K}

theorem frameOf_some (isFrame : frameOf shot = some frame) : frame = shot := by
  unfold frameOf at isFrame
  split_ifs at isFrame
  exact (Option.some.inj isFrame).symm

variable {s s' : Session K} {s : Session K}

theorem sighted_of_last {s' : Session K} (sighted : s.Sighted) (last : s'.last = s.last)
    (sends : s'.sends = s.sends) : s'.Sighted := by
  intro shot frame isLast isFrame shows
  rw [last] at isLast
  rw [sends]
  exact sighted shot frame isLast isFrame shows

theorem sighted_of_shot (last : s.last = some shot) (after : shot.after = s.sends) : s.Sighted := by
  intro found frame isLast isFrame _
  have same : found = shot := Option.some.inj (isLast.symm.trans last)
  rw [frameOf_some isFrame, same, after]

theorem sighted_of_blind (blind : s.Blind) (last : s'.last = s.last) : s'.Sighted := by
  intro shot frame isLast isFrame shows
  rw [last] at isLast
  rw [blind shot frame isLast isFrame] at shows
  cases shows

theorem absorb_sighted (s : Session K) (o : Observation K) : (s.absorb o).Sighted :=
  sighted_of_shot rfl rfl

theorem told_sighted (sighted : s.Sighted) (word : Word) : (s.told word).Sighted := by
  cases word <;> exact sighted_of_last sighted rfl rfl

variable {reply : Except Thrown (Observation K)}

theorem looked_sighted (sighted : s.Sighted) {result : Except Thrown (Observation K)}
    (looked : s.looked reply = (s', result)) : s'.Sighted := by
  unfold Session.looked at looked
  cases isLast : s.last with
  | some shot =>
    simp only [isLast, Prod.mk.injEq] at looked
    rw [← looked.1]
    exact sighted
  | none =>
    cases reply with
    | error thrown =>
      simp only [isLast, Prod.mk.injEq] at looked
      rw [← looked.1]
      exact sighted
    | ok o =>
      simp only [isLast, Prod.mk.injEq] at looked
      rw [← looked.1]
      exact absorb_sighted s o

theorem standing_sighted (sighted : s.Sighted) {result : Except Thrown (Option (Pose K))}
    (stood : s.standing reply = (s', result)) : s'.Sighted := by
  unfold Session.standing at stood
  cases isPose : s.pose with
  | some pose =>
    simp only [isPose, Prod.mk.injEq] at stood
    rw [← stood.1]
    exact sighted
  | none =>
    cases reply with
    | error thrown =>
      simp only [isPose, Prod.mk.injEq] at stood
      rw [← stood.1]
      exact sighted
    | ok o =>
      simp only [isPose, Prod.mk.injEq] at stood
      rw [← stood.1]
      exact absorb_sighted s o

theorem answered_sends (s : Session K) (seg : Segment K) (m : Measured K)
    (observation after : Option (Observation K)) :
    (s.answered seg m observation after).sends = s.sends := by
  unfold Session.answered
  cases observation <;> simp only <;> split_ifs <;> rfl

theorem answered_last_none (s : Session K) (seg : Segment K) (m : Measured K)
    (after : Option (Observation K)) : (s.answered seg m none after).last = s.last := by
  unfold Session.answered
  simp only
  split_ifs <;> rfl

theorem answered_last_some (s : Session K) (seg : Segment K) (m : Measured K)
    (o : Observation K) (after : Option (Observation K)) :
    (s.answered seg m (some o) after).last = some { seen := o, after := s.sends } := by
  unfold Session.answered
  simp only
  split_ifs <;> rfl

theorem finish_sighted {a : Acting K} {plan : Plan K} {finalReply : Except Thrown (Observation K)}
    (sighted : a.gone = none → a.session.Sighted)
    (present : ∀ why, (a.finish plan finalReply).2 ≠ .error (.unavailable why)) :
    (a.finish plan finalReply).1.Sighted := by
  unfold Acting.finish at present ⊢
  cases isGone : a.gone with
  | some why =>
    rw [isGone] at present
    exact (present why rfl).elim
  | none =>
    simp only
    split_ifs with look
    · cases finalReply with
      | error thrown => exact sighted isGone
      | ok o => exact absorb_sighted a.session o
    · exact sighted isGone

/-! ## Replies -/

theorem receive_cached {cache : FrameCache K} {ok : Bool}
    (cached : (cache.receive s ok).cached = some frame) :
    ok = true ∧ ∃ shot, s.last = some shot ∧ frameOf shot = some frame ∧
      hasImages frame.seen = true := by
  unfold FrameCache.receive FrameCache.cached at cached
  cases isFrame : s.last.bind frameOf with
  | none => simp [isFrame] at cached
  | some found =>
    obtain ⟨shot, isLast, framed⟩ := Option.bind_eq_some_iff.1 isFrame
    simp only [isFrame] at cached
    split_ifs at cached with stale
    obtain ⟨same, shows⟩ := Option.filter_eq_some_iff.1 cached
    have isFound : found = frame := Option.some.inj same
    rw [isFound] at framed
    have isOk : ok = true := by
      simp only [Bool.or_eq_true, not_or] at stale
      simpa using stale.2
    exact ⟨isOk, shot, isLast, framed, shows⟩

theorem receive_false (cache : FrameCache K) (s : Session K) :
    (cache.receive s false).cached = none := by
  by_contra some
  obtain ⟨frame, cached⟩ := Option.ne_none_iff_exists'.1 some
  obtain ⟨isOk, -⟩ := receive_cached cached
  cases isOk

structure Host.Kept (h : Host K) : Prop where
  sighted : h.broken = none → h.session.Sighted
  fresh : h.Fresh
  /-- A robot that failed answers nothing any more. -/
  spent : h.broken.isSome → h.cache.cached = none

theorem kept_start (opening : Option (Observation K)) : (Host.start opening).Kept where
  sighted := by
    intro _ shot frame isLast isFrame _
    obtain ⟨o, -, isShot⟩ := Option.map_eq_some_iff.1 isLast
    rw [frameOf_some isFrame, ← isShot]
    rfl
  fresh := by
    intro frame cached
    cases cached
  spent := fun _ => rfl

variable {h : Host K}

theorem kept_refused (kept : h.Kept) : (h.receive h.session false).Kept where
  sighted := kept.sighted
  fresh := by
    intro frame cached
    rw [Host.receive, receive_false] at cached
    cases cached
  spent := fun _ => receive_false _ _

theorem kept_raised {h : Host K} {thrown : Thrown}
    (sighted : (∀ why, thrown ≠ .unavailable why) → s.Sighted) : (h.raised s thrown).Kept := by
  have nothing : (h.cache.receive s false).cached = none := receive_false _ _
  have fresh : (h.raised s thrown).Fresh := by
    intro frame cached
    cases thrown <;> rw [Host.raised, Host.receive] at cached <;>
      simp [nothing] at cached
  cases thrown with
  | unavailable why =>
    exact
      { sighted := fun works => by cases works
        fresh := fresh
        spent := fun _ => nothing }
  | error said =>
    exact
      { sighted := fun _ => sighted fun why same => by cases same
        fresh := fresh
        spent := fun _ => nothing }

theorem kept_received (sighted : s.Sighted) (works : h.broken = none) :
    (h.receive s true).Kept where
  sighted := fun _ => sighted
  fresh := by
    intro frame cached
    obtain ⟨-, shot, isLast, isFrame, shows⟩ := receive_cached cached
    exact sighted shot frame isLast isFrame shows
  spent := by
    intro broken
    simp [Host.receive, works] at broken

theorem kept_observe (kept : h.Kept) (sight : Sight K) : (h.observe sight).Kept := by
  unfold Host.observe
  split_ifs with isBroken
  · exact kept_refused kept
  · have works : h.broken = none := by simpa using isBroken
    cases sight with
    | refused => exact kept_refused kept
    | reply reply =>
      cases reply with
      | error thrown => exact kept_raised fun _ => kept.sighted works
      | ok o => exact kept_received (absorb_sighted h.session o) works

theorem kept_look (kept : h.Kept) (sight : Sight K) : (h.look sight).Kept := by
  unfold Host.look
  split_ifs
  · exact kept
  · exact kept_observe kept sight

theorem told_sends (s : Session K) (word : Word) : (s.told word).sends = s.sends := by
  cases word <;> rfl

theorem kept_word (kept : h.Kept) (word : Word) :
    ({ h with session := h.session.told word } : Host K).Kept where
  sighted := fun works => told_sighted (kept.sighted works) word
  fresh := by
    intro frame cached
    simp only [told_sends]
    exact kept.fresh frame cached
  spent := kept.spent

end

section

variable {K : Type} [Field K] {stringify : String → String}

/-! ## One segment -/

variable {a : Acting K} {seg : Segment K} {full : Bool} {r : Reading K}

theorem send_sighted (seen : r.Brings ∨ a.session.Blind)
    (stays : (a.send stringify seg full r).gone = none) :
    (a.send stringify seg full r).session.Sighted := by
  unfold Acting.send at stays ⊢
  cases isReply : r.reply with
  | error thrown =>
    cases thrown with
    | unavailable why => simp [isReply] at stays
    | error said =>
      rcases seen with brings | blind
      · simp [Reading.Brings, isReply] at brings
      · exact sighted_of_blind blind rfl
  | ok raw =>
    cases isObservation : raw.observation with
    | some o =>
      apply sighted_of_shot
      · simp only [Acting.answers, isObservation]
        exact answered_last_some _ _ _ _ _
      · simp only [Acting.answers]
        rw [answered_sends]
    | none =>
      rcases seen with brings | blind
      · simp [Reading.Brings, isReply, isObservation] at brings
      · apply sighted_of_blind blind
        simp only [Acting.answers, isObservation]
        exact answered_last_none _ _ _ _

theorem step_seen (stringify : String → String) (a : Acting K) (seg : Segment K) (full : Bool)
    (r : Reading K) :
    ((a.step stringify seg full r).sent = a.sent ∧
        (a.step stringify seg full r).session.last = a.session.last ∧
        (a.step stringify seg full r).session.sends = a.session.sends) ∨
      (a.step stringify seg full r).sent =
          a.sent ++ [⟨a.results.length, seg, full, r.now, a.session⟩] ∧
        ((r.Brings ∨ a.session.Blind) →
          (a.step stringify seg full r).gone = none →
            (a.step stringify seg full r).session.Sighted) := by
  unfold Acting.step
  split_ifs with isGone
  · exact .inl ⟨rfl, rfl, rfl⟩
  · cases free : (a.hears r).session.interrupted r.now with
    | some reason =>
      simp only [Acting.attend, free]
      exact .inl ⟨rfl, rfl, rfl⟩
    | none =>
      obtain ⟨-, same⟩ := hears_quiet (interrupted_none free).1
      rw [same] at free ⊢
      simp only [Acting.attend, free]
      cases going : a.stopped with
      | some why => exact .inl ⟨rfl, rfl, rfl⟩
      | none =>
        simp only
        split_ifs with exceeds
        · exact .inl ⟨rfl, rfl, rfl⟩
        · refine .inr ⟨?_, fun seen stays => send_sighted seen stays⟩
          unfold Acting.send
          cases r.reply with
          | error thrown => cases thrown <;> rfl
          | ok raw => rfl

theorem sent_steps (stringify : String → String) (readings : ℕ → Reading K) (rest : List (Segment K))
    (k : ℕ) (a : Acting K) :
    ∀ sending ∈ a.sent, sending ∈ (Acting.steps stringify readings k a rest).sent := by
  induction rest generalizing k a with
  | nil => exact fun _ isSent => isSent
  | cons seg rest ih =>
    intro sending isSent
    apply ih
    rcases step_seen stringify a seg rest.isEmpty (readings k)
      with ⟨same, -⟩ | ⟨more, -⟩
    · rw [same]
      exact isSent
    · rw [more]
      exact List.mem_append_left _ isSent

theorem present_of_step (stays : (a.step stringify seg full r).gone = none) : a.gone = none := by
  by_contra isGone
  have some : a.gone.isSome := Option.isSome_iff_ne_none.2 isGone
  rw [Acting.step, if_pos some] at stays
  exact isGone stays

/-- The segments of an action keep the robot's observation in step with what
was sent. -/
theorem steps_sighted {readings : ℕ → Reading K} {s : Session K} (rest : List (Segment K))
    {segments : List (Segment K)} (running : Running stringify readings s segments a)
    (sighted : a.gone = none → a.session.Sighted)
    (seen : ∀ sending ∈ (Acting.steps stringify readings segments.length a rest).sent,
      (readings sending.index).Brings ∨ sending.standing.Blind)
    (stays : (Acting.steps stringify readings segments.length a rest).gone = none) :
    (Acting.steps stringify readings segments.length a rest).session.Sighted := by
  induction rest generalizing segments a with
  | nil => exact sighted stays
  | cons seg rest ih =>
    have next := running_step running seg rest.isEmpty
    have length : (segments ++ [seg]).length = segments.length + 1 := by simp
    have nextSighted
        (present : (a.step stringify seg rest.isEmpty (readings segments.length)).gone = none) :
        (a.step stringify seg rest.isEmpty (readings segments.length)).session.Sighted := by
      have wasPresent := present_of_step present
      rcases step_seen stringify a seg rest.isEmpty
          (readings segments.length) with ⟨-, last, sends⟩ | ⟨more, shows⟩
      · exact sighted_of_last (sighted wasPresent) last sends
      · refine shows ?_ present
        have isIndex := running.complete wasPresent
        have newest :=
          seen _
            (sent_steps stringify readings rest (segments.length + 1) _ _
              (more ▸ List.mem_append_right _ (List.mem_singleton_self _)))
        simp only [isIndex] at newest
        exact newest
    have later := ih next nextSighted
    rw [length] at later
    exact later seen stays

end

section

variable {K : Type} [Field K] [LinearOrder K] [FloorRing K]
  {js : Js K} {stringify : String → String} {s : Session K}

theorem cut_session {d : Delta K} {pose : Option (Pose K)} {caps : Caps K} {plan : Plan K}
    (isCut : s.cut js d pose caps = .ok plan) : plan.session = s := by
  unfold Session.cut at isCut
  cases pose with
  | none => cases isCut
  | some start =>
    simp only at isCut
    generalize (s.last.map fun shot => shot.seen.caps).getD caps = caps at isCut
    cases cut : segmentsFor js d start caps with
    | error said => simp [cut] at isCut
    | ok segments =>
      rw [cut] at isCut
      rw [← Except.ok.inj isCut]

theorem plan_sighted (js : Js K) (sighted : s.Sighted) (visit : Visit K) :
    (s.plan js visit).1.Sighted ∧
      ∀ plan, (s.plan js visit).2 = .ok plan → plan.session = (s.plan js visit).1 := by
  unfold Session.plan
  cases visit.parsed with
  | error said => exact ⟨sighted, fun plan planned => by cases planned⟩
  | ok action =>
    rcases isLook : s.looked visit.capsReply with ⟨looked, thrown | o⟩
    · exact ⟨looked_sighted sighted isLook, fun plan planned => by cases planned⟩
    have lookedSighted := looked_sighted sighted isLook
    simp only
    cases visit.delta js action.val o.caps with
    | error said => exact ⟨lookedSighted, fun plan planned => by cases planned⟩
    | ok d =>
      rcases isPose : looked.standing visit.poseReply with
        ⟨standing, thrown | pose⟩
      · exact ⟨standing_sighted lookedSighted isPose, fun plan planned => by cases planned⟩
      · exact ⟨standing_sighted lookedSighted isPose, fun plan planned => cut_session planned⟩

variable {visit : Visit K}

theorem actTool_sighted (sighted : s.Sighted) {visit : Visit K}
    (seen : ∀ plan, (s.plan js visit).2 = .ok plan →
      ∀ sending ∈ (plan.run stringify visit.readings).sent,
        (visit.readings sending.index).Brings ∨ sending.standing.Blind)
    (present : ∀ why, (actTool js stringify s visit).2 ≠ .error (.unavailable why)) :
    (actTool js stringify s visit).1.Sighted := by
  obtain ⟨planSighted, session⟩ := plan_sighted js sighted visit
  unfold actTool at present ⊢
  rcases isPlan : s.plan js visit with ⟨after, thrown | plan⟩
  · rwa [isPlan] at planSighted
  · rw [isPlan] at planSighted session present seen
    have isSession : plan.session = after := session plan rfl
    refine finish_sighted (fun stays => ?_) present
    refine
      steps_sighted plan.segments (running_begin plan.session) (fun _ => ?_) (seen plan rfl) stays
    rwa [← isSession] at planSighted

variable {h : Host K}

theorem kept_act {h : Host K} (kept : h.Kept) (seen : h.Seen js stringify (.act visit)) :
    (h.act js stringify visit).Kept := by
  unfold Host.act
  split_ifs with isBroken
  · exact kept_refused kept
  · have works : h.broken = none := by simpa using isBroken
    have sighted := actTool_sighted (kept.sighted works) seen
    rcases isResult : actTool js stringify h.session visit with
      ⟨s, thrown | result⟩
    · rw [isResult] at sighted
      exact kept_raised fun here => sighted fun why same => here why (Except.error.inj same)
    · rw [isResult] at sighted
      exact kept_received (sighted fun why same => by cases same) works

theorem kept_next (kept : h.Kept) {event : Event K} (seen : h.Seen js stringify event) :
    (h.next js stringify event).Kept := by
  cases event with
  | observe sight => exact kept_observe kept sight
  | act visit => exact kept_act kept seen
  | refused => exact kept_refused kept
  | look sight => exact kept_look kept sight
  | word word => exact kept_word kept word

theorem kept_run (kept : h.Kept) {events : List (Event K)}
    (seen : h.SeenAlong js stringify events) : (h.run js stringify events).Kept := by
  induction events generalizing h with
  | nil => exact kept
  | cons event rest ih => exact ih (kept_next kept seen.1) seen.2

/-- In a mission where no segment's call comes back without an observation
while the robot's observation shows images, every look the cache answers shows
the scene after the last segment that was sent. -/
theorem cached_looks_fresh (js : Js K) (stringify : String → String)
    (opening : Option (Observation K)) (events : List (Event K))
    (seen : (Host.start opening).SeenAlong js stringify events) :
    ((Host.start opening).run js stringify events).Fresh :=
  (kept_run (kept_start opening) seen).fresh

end

/-! ## A close that times out -/

def closeAction : Action ℝ where
  index := 0
  type := .gripper
  direction := none
  axis := none
  distance_mm := none
  angle_deg := none
  state := some .close
  width_mm := none
  seconds := none
  speed_mm_s := none
  rot_speed_deg_s := none
  stop_on_contact := none
  note := ""

theorem closeAction_parsed : closeAction.Parsed where
  distance := fun isMove => by cases isMove
  angle := fun isRotation => by cases isRotation

noncomputable def pictured : Observation ℝ where
  caps := shortArm
  pose := some farOut
  episode_over := false
  mosaic := some "mosaic"
  cameras :=
    [{ name := "scene", marked768 := some "jpeg", marked512 := none,
       raw512 := none }]

noncomputable def closeVisit (reply : Except Thrown (Raw ℝ)) : Visit ℝ where
  parsed := .ok ⟨closeAction, closeAction_parsed⟩
  label := ""
  open_to_mm := none
  capsReply := .ok pictured
  poseReply := .ok pictured
  finalReply := .ok pictured
  readings := fun _ => { cancels := [], now := 0, reply := reply }

/-- The gripper closed, and the scene was rendered after it. -/
noncomputable def closed : Except Thrown (Raw ℝ) :=
  .ok
    { outcome := some "done"
      abort_reason := none
      moved_m := none
      along_axis_m := none
      lateral_m := none
      turned_rad := none
      pose_after := some farOut
      ticks := some 32
      servo_ticks := none
      hold_ticks := none
      elapsed_s := none
      frame_clock_s := none
      opening_mm := none
      asked_mm := none
      grasp := none
      episode_over := false
      message := none
      observation := some pictured }

/-- A close that answers is followed by a cached look at its own picture. -/
theorem cached_looks_fresh_closed :
    ((Host.start none).run (reals plain) id
        [.observe (.reply (.ok pictured)), .act (closeVisit closed), .look .refused]).Fresh ∧
      (((Host.start none).run (reals plain) id
        [.observe (.reply (.ok pictured)), .act (closeVisit closed),
          .look .refused]).cache.cached.map Shot.after) = some 1 :=
  ⟨cached_looks_fresh (reals plain) id none
      [.observe (.reply (.ok pictured)), .act (closeVisit closed), .look .refused]
      ⟨trivial, fun _ _ _ _ => .inl rfl, trivial, trivial⟩,
    rfl⟩

def timeout : Except Thrown (Raw ℝ) :=
  .error (.error "env.mm_run_step: timed out after 120000 ms")

/-- The gripper's segment times out after a look: the next look is answered
with the picture from before. -/
theorem cached_look_stale :
    ¬ ∀ (opening : Option (Observation ℝ)) (events : List (Event ℝ)),
      ((Host.start opening).run (reals plain) id events).Fresh := by
  intro promised
  have fresh :=
    promised none [.observe (.reply (.ok pictured)), .act (closeVisit timeout)]
      { seen := pictured, after := 0 } rfl
  cases fresh

end PiEmbodied.Motormind.Command
