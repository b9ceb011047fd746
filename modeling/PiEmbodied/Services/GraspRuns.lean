import PiEmbodied.Services.GraspIds

/-!
# Grasp and place ids follow the scene

Every item of the planner's book was cut from the snapshot of its camera, and a
snapshot shows the scene of the last frame captured of it.
-/

namespace PiEmbodied.Services.GraspIds

open Programs Programs.Program Detections Scenes

variable {S D : Type}

/-! ## What is current -/

/-- An item of the present observation; one of the planner's own book is cut
from the snapshot of its camera. -/
structure Planner.Current (p : Planner S D) (item : Item Cut) (isShared : Bool) : Prop where
  observation : item.observation = p.epoch.observation
  cut : isShared = false → ∃ camera, item.detection.camera = some camera ∧
    p.snapshots camera = some item.detection.cut

structure Planner.Sound (p : Planner S D) : Prop where
  own : p.own.observation = some p.epoch.observation
  shared : p.shared.observation = some p.epoch.observation
  ownItems : ∀ item ∈ p.own.items, p.Current item false
  sharedItems : ∀ item ∈ p.shared.items, p.Current item true
  captured : ∀ camera fresh snap, p.captured.lookup camera = some fresh →
    p.snapshots camera = some snap → SameScene snap fresh

structure Steady (p next : Planner S D) : Prop where
  sound : next.Sound
  uses : next.uses = p.uses
  held : next.held = p.held

/-- No id was used and no frame captured, in one observation. -/
structure Still (p next : Planner S D) : Prop where
  steady : Steady p next
  snapshots : next.snapshots = p.snapshots
  captured : next.captured = p.captured
  observation : next.epoch.observation = p.epoch.observation

variable {p : Planner S D}

theorem Steady.refl (sound : p.Sound) : Steady p p :=
  ⟨sound, rfl, rfl⟩

variable {next : Planner S D}

theorem Steady.trans {between : Planner S D} (first : Steady p between)
    (second : Steady between next) : Steady p next :=
  ⟨second.sound, second.uses.trans first.uses, second.held.trans first.held⟩

theorem Still.refl (sound : p.Sound) : Still p p :=
  ⟨Steady.refl sound, rfl, rfl, rfl⟩

theorem Still.trans {between : Planner S D} (first : Still p between)
    (second : Still between next) : Still p next :=
  ⟨first.steady.trans second.steady, second.snapshots.trans first.snapshots,
    second.captured.trans first.captured,
    second.observation.trans first.observation⟩

theorem Planner.Current.kept {item : Item Cut} {isShared : Bool} (current : p.Current item isShared)
    (observation : next.epoch.observation = p.epoch.observation)
    (snapshots : next.snapshots = p.snapshots) :
    next.Current item isShared where
  observation := current.observation.trans observation.symm
  cut := by
    rw [snapshots]
    exact current.cut

theorem Planner.Current.still
    {item : Item Cut} {isShared : Bool} (current : p.Current item isShared) (still : Still p next) :
    next.Current item isShared :=
  current.kept still.observation still.snapshots

theorem bind_next {M : Type} {book : Book M} {observation : ℕ}
    (isBound : book.observation = some observation) :
    (book.bind (observation + 1)).observation = some (observation + 1) ∧
      (book.bind (observation + 1)).items = [] := by
  have isPast : book.observation ≠ some (observation + 1) := by
    rw [isBound]
    exact fun same => absurd (Option.some.inj same) (Nat.ne_of_lt (Nat.lt_succ_self observation))
  unfold Book.bind
  rw [if_neg isPast]
  exact ⟨rfl, rfl⟩

theorem sound_tick (config : Config) {p : Planner S D}
    (own : p.own.observation = some p.epoch.observation)
    (shared : p.shared.observation = some p.epoch.observation)
    (readable : Bool) : (p.tick config readable).Sound where
  own := (bind_next own).1
  shared := (bind_next shared).1
  ownItems := by
    intro item member
    rw [show (p.tick config readable).own.items = [] from
      (bind_next own).2] at member
    cases member
  sharedItems := by
    intro item member
    rw [show (p.tick config readable).shared.items = [] from
      (bind_next shared).2] at member
    cases member
  captured := by
    intro camera fresh snap _ isSnapshot
    cases isSnapshot

theorem Planner.Sound.kept
    (sound : p.Sound) (own : next.own = p.own) (shared : next.shared = p.shared)
    (observation : next.epoch.observation = p.epoch.observation)
    (snapshots : next.snapshots = p.snapshots)
    (captured : next.captured = p.captured) : next.Sound where
  own := by rw [own, observation]; exact sound.own
  shared := by rw [shared, observation]; exact sound.shared
  ownItems := by
    intro item member
    rw [own] at member
    exact (sound.ownItems item member).kept observation snapshots
  sharedItems := by
    intro item member
    rw [shared] at member
    exact (sound.sharedItems item member).kept observation snapshots
  captured := by
    rw [captured, snapshots]
    exact sound.captured

theorem sound_initial (robot : S) (digest : Option (S → D)) :
    (Planner.initial robot digest).Sound where
  own := rfl
  shared := rfl
  ownItems := fun _ member => by cases member
  sharedItems := fun _ member => by cases member
  captured := fun _ _ _ _ isSnapshot => by cases isSnapshot

/-! ## Snapshots -/

section Rules

variable {Value : Type} {raises : Refusal → Planner S D → Prop}
  {p : Planner S D}

theorem reply_ensures {take : Reply → Value} {post : Value → Planner S D → Prop}
    (holds : ∀ value, post value p) : Ensures (reply take) post raises p := by
  intro replies now
  exact holds (take (replies now))

theorem refuse_ensures {why : Refusal} {post : Value → Planner S D → Prop} (fails : raises why p) :
    Ensures (refuse why : Action S D Value) post raises p :=
  ensures_raise fails

variable {config : Config}

theorem tick_ensures {post : Unit → Planner S D → Prop}
    (own : p.own.observation = some p.epoch.observation)
    (shared : p.shared.observation = some p.epoch.observation)
    (holds : ∀ next, Steady p next → next.own.items = [] →
      next.captured = p.captured → (∀ camera, next.snapshots camera = none) →
      post () next) : Ensures (tick config) post raises p := by
  unfold tick
  apply ensures_bind
  apply reply_ensures
  intro readable
  apply ensures_modify
  exact holds _ ⟨sound_tick config own shared readable, rfl, rfl⟩
    (bind_next own).2 rfl (fun _ => rfl)

theorem refresh_ensures [DecidableEq D] {post : Bool → Planner S D → Prop} (sound : p.Sound)
    (holds : ∀ moved next, Steady p next → post moved next) :
    Ensures (refresh config) post raises p := by
  unfold refresh
  apply ensures_bind
  apply reply_ensures
  intro readable
  apply ensures_bind
  apply ensures_get
  split
  · apply ensures_bind
    apply tick_ensures sound.own sound.shared
    intro next steady _ _ _
    exact ensures_pure (holds true next steady)
  · exact ensures_pure (holds false p (Steady.refl sound))

theorem freshCall_ensures {post : Unit → Planner S D → Prop} (sound : p.Sound)
    (holds : ∀ next, Steady p next → next.own = p.own → post () next) :
    Ensures freshCall post raises p := by
  unfold freshCall
  apply ensures_modify
  refine holds _ ⟨?_, rfl, rfl⟩ rfl
  exact
    { own := sound.own
      shared := sound.shared
      ownItems := fun item member => (sound.ownItems item member).kept rfl rfl
      sharedItems := fun item member => (sound.sharedItems item member).kept rfl rfl
      captured := fun _ _ _ isCaptured => by cases isCaptured }

def Planner.HasCaptured (p : Planner S D) (camera : String) (frame : Frame) :
    Prop :=
  p.snapshots camera = some frame ∧ ∃ fresh, p.captured.lookup camera = some fresh

variable {camera : String}

theorem Planner.Sound.capture (sound : p.Sound) {frame : Frame}
    (shows : ∀ snap, p.snapshots camera = some snap → SameScene snap frame) :
    Planner.Sound { p with captured := (camera, frame) :: p.captured } where
  own := sound.own
  shared := sound.shared
  ownItems := fun item member => (sound.ownItems item member).kept rfl rfl
  sharedItems := fun item member => (sound.sharedItems item member).kept rfl rfl
  captured := by
    intro other fresh snap isCaptured isSnapshot
    by_cases same : other = camera
    · rw [same, List.lookup_cons_self] at isCaptured
      cases isCaptured
      rw [same] at isSnapshot
      exact shows snap isSnapshot
    · have isOther : (other == camera) = false := beq_false_of_ne same
      rw [List.lookup_cons, isOther] at isCaptured
      exact sound.captured other fresh snap isCaptured isSnapshot

theorem Planner.Sound.snap (sound : p.Sound) {frame : Frame} (isNew : p.snapshots camera = none)
    (isCaptured : p.captured.lookup camera = some frame) :
    Planner.Sound
      { p with
        snapshots := Function.update p.snapshots camera (some frame) } where
  own := sound.own
  shared := sound.shared
  ownItems := by
    intro item member
    obtain ⟨isPresent, isCut⟩ := sound.ownItems item member
    refine ⟨isPresent, fun isOwn => ?_⟩
    obtain ⟨other, isOther, isSnapshot⟩ := isCut isOwn
    refine ⟨other, isOther, ?_⟩
    have different : other ≠ camera := by
      intro same
      rw [same, isNew] at isSnapshot
      cases isSnapshot
    exact (Function.update_of_ne different _ _).trans isSnapshot
  sharedItems := by
    intro item member
    exact ⟨(sound.sharedItems item member).observation, fun isOwn => Bool.noConfusion isOwn⟩
  captured := by
    intro other fresh snap wasCaptured isSnapshot
    by_cases same : other = camera
    · rw [same] at wasCaptured isSnapshot
      rw [isCaptured] at wasCaptured
      cases wasCaptured
      have isFrame : Function.update p.snapshots camera (some frame) camera =
        some snap := isSnapshot
      rw [Function.update_self] at isFrame
      cases isFrame
      exact SameScene.refl _
    · have isOther : Function.update p.snapshots camera (some frame) other =
        some snap := isSnapshot
      rw [Function.update_of_ne same] at isOther
      exact sound.captured other fresh snap wasCaptured isOther

theorem snapshot_ensures {camera : Option String} {post : String × Frame → Planner S D → Prop}
    (sound : p.Sound)
    (holds : ∀ frame next, Steady p next →
      next.HasCaptured (camera.getD (config.cameras.headD "")) frame →
      next.own = p.own ∨ next.own.items = [] →
      post (camera.getD (config.cameras.headD ""), frame) next)
    (fails : ∀ why next, Steady p next → raises why next) :
    Ensures (snapshot config camera) post raises p := by
  unfold snapshot
  dsimp only
  generalize camera.getD (config.cameras.headD "") = camera at holds ⊢
  split
  · exact refuse_ensures (fails _ _ (Steady.refl sound))
  · apply ensures_bind
    apply ensures_get
    split
    case h_1 snap fresh isSnapshot isCaptured =>
      exact ensures_pure (holds snap p (Steady.refl sound)
        ⟨isSnapshot, fresh, isCaptured⟩ (Or.inl rfl))
    case h_2 known _ isKnown =>
      apply ensures_bind
      apply ensures_ask
      · intro frame
        apply ensures_bind
        apply ensures_modify
        cases isSnapshot : p.snapshots camera with
        | some snap =>
          dsimp only
          split
          case isTrue changed =>
            apply ensures_bind
            apply tick_ensures
              (p := { p with captured := (camera, frame) :: p.captured })
              sound.own sound.shared
            intro next steady noItems isCaptured noSnapshots
            apply ensures_bind
            apply ensures_modify
            apply ensures_pure
            have captured : next.captured.lookup camera = some frame := by
              rw [isCaptured]
              exact List.lookup_cons_self
            exact holds frame _
              ⟨steady.sound.snap (noSnapshots camera) captured, steady.uses, steady.held⟩
              ⟨Function.update_self .., frame, captured⟩ (Or.inr noItems)
          case isFalse unchanged =>
            apply ensures_pure
            have shows : ∀ other, p.snapshots camera = some other →
                SameScene other frame := by
              intro other isOther
              rw [isSnapshot] at isOther
              cases isOther
              exact Bool.eq_false_iff.mpr unchanged
            exact holds snap _ ⟨sound.capture shows, rfl, rfl⟩
              ⟨isSnapshot, frame, List.lookup_cons_self⟩ (Or.inl rfl)
        | none =>
          dsimp only
          apply ensures_bind
          apply ensures_modify
          apply ensures_pure
          have isSound : Planner.Sound { p with captured := (camera, frame) :: p.captured } :=
            sound.capture fun _ isOther => by
              rw [isSnapshot] at isOther
              cases isOther
          exact holds frame _ ⟨isSound.snap isSnapshot List.lookup_cons_self, rfl, rfl⟩
            ⟨Function.update_self .., frame, List.lookup_cons_self⟩
            (Or.inl rfl)
      · intro error
        exact fails _ _ (Steady.refl sound)

theorem snapshot_again {frame : Frame} {post : String × Frame → Planner S D → Prop}
    (captured : p.HasCaptured camera frame) (holds : post (camera, frame) p)
    (fails : ∀ why, raises why p) : Ensures (snapshot config (some camera)) post raises p := by
  unfold snapshot
  dsimp only [Option.getD_some]
  split
  · exact refuse_ensures (fails _)
  · apply ensures_bind
    apply ensures_get
    obtain ⟨isSnapshot, fresh, isCaptured⟩ := captured
    rw [isSnapshot, isCaptured]
    exact ensures_pure holds

variable {detection : Cut}

theorem addOwn_ensures {label : Label} {post : Item Cut → Planner S D → Prop} (sound : p.Sound)
    (isCut : ∃ camera, detection.camera = some camera ∧ p.snapshots camera = some detection.cut)
    (holds : ∀ item next, Still p next → next.Current item false →
      item ∈ next.own.items → item.detection = detection → post item next) :
    Ensures (addOwn label detection) post raises p := by
  unfold addOwn
  apply ensures_bind
  apply reply_ensures
  intro readable
  apply ensures_bind
  apply ensures_get
  rw [sound.own]
  apply ensures_bind
  apply ensures_modify
  apply ensures_pure
  have current : ∀ item : Item Cut,
      item.observation = p.epoch.observation → item.detection = detection →
        p.Current item false := by
    intro item isPresent isDetection
    exact ⟨isPresent, fun _ => by rw [isDetection]; exact isCut⟩
  refine holds _ _ ⟨⟨?_, rfl, rfl⟩, rfl, rfl, rfl⟩
    ((current _ rfl rfl).kept rfl rfl) (Book.mem_put_self _ _) rfl
  exact
    { own := sound.own
      shared := sound.shared
      ownItems := by
        intro item member
        rcases Book.mem_put member with isNew | isOld
        · rw [isNew]
          exact (current _ rfl rfl).kept rfl rfl
        · exact (sound.ownItems item isOld).kept rfl rfl
      sharedItems := fun item member => (sound.sharedItems item member).kept rfl rfl
      captured := sound.captured }

variable {id : Id}

theorem maskItem_ensures {post : Item Cut × Bool → Planner S D → Prop} (sound : p.Sound)
    (holds : ∀ item isShared, p.Current item isShared → item.id = id → post (item, isShared) p)
    (fails : ∀ why, raises why p) : Ensures (maskItem config id) post raises p := by
  unfold maskItem
  apply ensures_bind
  apply ensures_get
  dsimp only
  generalize (config.perception.isSome && (p.own.history id).isNone) = isShared
  split
  · exact refuse_ensures (fails _)
  case h_2 item isItem =>
    obtain ⟨member, isId⟩ := Book.mem_of_get isItem
    apply ensures_pure
    refine holds item isShared ?_ isId
    cases isShared with
    | false => exact sound.ownItems item member
    | true => exact sound.sharedItems item member

theorem graspItem_ensures {post : Item Cut → Planner S D → Prop}
    (holds : ∀ item, p.own.get id = .ok item → post item p) (fails : ∀ why, raises why p) :
    Ensures (graspItem id) post raises p := by
  unfold graspItem
  apply ensures_bind
  apply ensures_get
  split
  · exact refuse_ensures (fails _)
  case h_2 item isItem =>
    split
    · exact refuse_ensures (fails _)
    · exact ensures_pure (holds item isItem)

/-! ## Uses -/

/-- How an id of the planner, of the perception, and of a held grasp may be
used. -/
def Use.Follows (held : List Held) : Use → Prop
  | .own item camera frame fresh =>
    item.detection.camera = some camera ∧ frame = item.detection.cut ∧
      ∃ seen, fresh = some seen ∧ SameScene frame seen
  | .shared item camera _ _ observation =>
    item.observation = observation ∧ item.detection.isFrom camera = true
  | .held claim => claim ∈ held

structure Kept (held : List Held) (next : Planner S D) : Prop where
  sound : next.Sound
  uses : ∀ use ∈ next.uses, use.Follows held

variable {held : List Held} {next : Planner S D}

theorem Kept.steady (kept : Kept held p) (steady : Steady p next) : Kept held next where
  sound := steady.sound
  uses := by
    rw [steady.uses]
    exact kept.uses

theorem Kept.use {use : Use} (kept : Kept held p) (follows : use.Follows held) :
    Kept held { p with uses := p.uses ++ [use] } where
  sound := kept.sound.kept rfl rfl rfl rfl rfl
  uses := by
    intro other member
    rcases List.mem_append.mp member with before | isNew
    · exact kept.uses other before
    · rw [List.mem_singleton.mp isNew]
      exact follows

structure Used (p next : Planner S D) (held : List Held) (id : Id) : Prop where
  kept : Kept held next
  longer : ∀ use ∈ p.uses, use ∈ next.uses
  isUsed : ∃ use ∈ next.uses, use.id = id
  isSame : next = { p with uses := next.uses }

theorem useItem_ensures {item : Item Cut} {isShared : Bool} {frame : Frame}
    {post : Unit → Planner S D → Prop} (kept : Kept held p)
    (current : p.Current item isShared) (captured : p.HasCaptured camera frame)
    (isFrom : item.detection.isFrom camera = true)
    (holds : ∀ next, Used p next held item.id → post () next) :
    Ensures (useItem item isShared camera frame) post raises p := by
  unfold useItem noteUse
  apply ensures_bind
  apply ensures_get
  dsimp only
  have used : ∀ use : Use, use.Follows held → use.id = item.id →
      Used p { p with uses := p.uses ++ [use] } held item.id := by
    intro use follows isId
    exact ⟨kept.use follows, fun _ member => List.mem_append_left _ member,
      ⟨use, List.mem_append_right _ List.mem_cons_self, isId⟩, rfl⟩
  obtain ⟨isSnapshot, fresh, isCaptured⟩ := captured
  cases isShared with
  | true =>
    rw [if_pos rfl]
    apply ensures_modify
    exact holds _ (used _ ⟨current.observation, isFrom⟩ rfl)
  | false =>
    rw [if_neg Bool.noConfusion]
    apply ensures_modify
    obtain ⟨other, isOther, isCut⟩ := current.cut rfl
    have same : other = camera := by simpa [Cut.isFrom, isOther] using isFrom
    rw [same] at isOther isCut
    have isFrame : frame = item.detection.cut := Option.some.inj (isSnapshot.symm.trans isCut)
    exact holds _ (used _
      ⟨isOther, isFrame, fresh, isCaptured,
        kept.sound.captured camera fresh frame isCaptured isSnapshot⟩ rfl)

structure Done (held : List Held) (ids : List Id) (next : Planner S D) :
    Prop where
  kept : Kept held next
  used : ∀ id ∈ ids, ∃ use ∈ next.uses, use.id = id

theorem Done.steady {ids : List Id} (done : Done held ids p) (steady : Steady p next) :
    Done held ids next where
  kept := done.kept.steady steady
  used := by
    rw [steady.uses]
    exact done.used

theorem Kept.done (kept : Kept held p) : Done held [] p where
  kept := kept
  used := fun _ member => by cases member

theorem Used.done {ids : List Id} (used : Used p next held id) (done : Done held ids p) :
    Done held (id :: ids) next where
  kept := used.kept
  used := by
    intro other member
    rcases List.mem_cons.mp member with same | before
    · rw [same]
      exact used.isUsed
    · obtain ⟨use, isUse, isOther⟩ := done.used other before
      exact ⟨use, used.longer use isUse, isOther⟩

theorem Done.of_mem {ids fewer : List Id} (done : Done held ids p)
    (among : ∀ id ∈ fewer, id ∈ ids) : Done held fewer p where
  kept := done.kept
  used := fun id member => done.used id (among id member)

theorem Used.hasCaptured {frame : Frame} (used : Used p next held id)
    (captured : p.HasCaptured camera frame) : next.HasCaptured camera frame := by
  rw [used.isSame]
  exact captured

theorem Used.current {item : Item Cut} {isShared : Bool} (used : Used p next held id)
    (current : p.Current item isShared) : next.Current item isShared := by
  rw [used.isSame]
  exact current.kept rfl rfl

theorem Planner.HasCaptured.still {frame : Frame} (captured : p.HasCaptured camera frame)
    (still : Still p next) : next.HasCaptured camera frame := by
  unfold Planner.HasCaptured
  rw [still.snapshots, still.captured]
  exact captured

/-! ## Masks and grasps -/

section

variable (sound : p.Sound)
include sound

theorem addCandidates_ensures {label : Label} {post : Unit → Planner S D → Prop}
    (isCut : ∃ camera, detection.camera = some camera ∧ p.snapshots camera = some detection.cut)
    (count : ℕ) (holds : ∀ next, Still p next → post () next) :
    Ensures (addCandidates label detection count) post raises p := by
  induction count generalizing p with
  | zero => exact ensures_pure (holds p (Still.refl sound))
  | succ left ih =>
    unfold addCandidates
    apply ensures_bind
    apply addOwn_ensures sound isCut
    intro item next still _ _ _
    refine ih still.steady.sound ?_ ?_
    · rw [still.snapshots]
      exact isCut
    · intro last after
      exact holds last (still.trans after)

theorem segmentOwn_again {frame : Frame} {post : Item Cut → Planner S D → Prop}
    (captured : p.HasCaptured camera frame)
    (holds : ∀ item next, Still p next → next.Current item false →
      item.detection.camera = some camera → post item next) (fails : ∀ why, raises why p) :
    Ensures (segmentOwn config (some camera)) post raises p := by
  unfold segmentOwn
  split
  · exact refuse_ensures (fails _)
  · apply ensures_bind
    refine snapshot_again captured ?_ fails
    apply ensures_bind
    apply reply_ensures
    intro found
    split
    · apply addOwn_ensures sound ⟨camera, rfl, captured.1⟩
      intro item next still current _ isDetection
      exact holds item next still current (by rw [isDetection])
    · exact refuse_ensures (fails _)

theorem segmentMask_ensures {camera : Option String} {post : Item Cut → Planner S D → Prop}
    (holds : ∀ item next, Steady p next → post item next)
    (fails : ∀ why next, Steady p next → raises why next) :
    Ensures (segmentMask config camera) post raises p := by
  unfold segmentMask segmentOwn
  apply ensures_bind
  apply freshCall_ensures sound
  intro fresh steady _
  split
  · exact refuse_ensures (fails _ _ steady)
  · apply ensures_bind
    apply snapshot_ensures steady.sound
    · intro frame next after captured _
      have all := steady.trans after
      apply ensures_bind
      apply reply_ensures
      intro found
      split
      · apply addOwn_ensures all.sound ⟨_, rfl, captured.1⟩
        intro item last still _ _ _
        exact holds item last (all.trans still.steady)
      · exact refuse_ensures (fails _ _ all)
    · intro why next after
      exact fails why next (steady.trans after)

theorem maskFor_ensures {frame : Frame} {object : Bool} {maskId : Option Id}
    {post : Item Cut × Bool → Planner S D → Prop} (captured : p.HasCaptured camera frame)
    (holds : ∀ item isShared next, Still p next →
      next.Current item isShared → item.detection.isFrom camera = true →
      (∀ id ∈ maskId.toList, item.id = id) → post (item, isShared) next)
    (fails : ∀ why, raises why p) :
    Ensures (maskFor config camera object maskId) post raises p := by
  unfold maskFor
  cases maskId with
  | none =>
    dsimp only
    split
    · apply ensures_bind
      refine segmentOwn_again sound captured ?_ fails
      intro item next still current isFrom
      refine ensures_pure (holds item false next still current ?_ ?_)
      · rw [Cut.isFrom, isFrom]
        simp
      · intro id member
        cases member
    · exact refuse_ensures (fails _)
  | some id =>
    dsimp only
    split
    · exact refuse_ensures (fails _)
    · apply ensures_bind
      refine maskItem_ensures sound ?_ fails
      intro item isShared current isId
      dsimp only
      split
      · exact refuse_ensures (fails _)
      case isFalse isFrom =>
        apply ensures_bind
        apply reply_ensures
        intro fits
        split
        · refine ensures_pure (holds item isShared p (Still.refl sound) current ?_ ?_)
          · by_cases noCamera : item.detection.camera = none
            · rw [Cut.isFrom, noCamera]
              rfl
            · have isCamera : item.detection.camera = some camera := by
                by_contra other
                exact isFrom ⟨noCamera, other⟩
              rw [Cut.isFrom, isCamera]
              simp
          · intro other member
            rw [List.mem_singleton.mp member]
            exact isId
        · exact refuse_ensures (fails _)

end

variable {arm : Option String}

theorem planGrasp_ensures {object : Bool} {maskId : Option Id} {camera : Option String}
    (kept : Kept held p) :
    Ensures (planGrasp config object maskId camera arm) (fun _ next => Done held maskId.toList next)
      (fun _ next => Kept held next) p := by
  unfold planGrasp
  split
  · exact refuse_ensures kept
  · split
    · exact refuse_ensures kept
    · apply ensures_bind
      apply freshCall_ensures kept.sound
      intro fresh steady _
      apply ensures_bind
      apply snapshot_ensures steady.sound
      · intro frame next after captured _
        have keptNext := (kept.steady steady).steady after
        dsimp only
        apply ensures_bind
        refine maskFor_ensures keptNext.sound captured ?_ ?_
        · intro mask isShared masked still current isFrom isId
          have keptMasked := keptNext.steady still.steady
          apply ensures_bind
          apply reply_ensures
          intro fits
          dsimp only
          split
          · exact refuse_ensures keptMasked
          · apply ensures_bind
            refine useItem_ensures keptMasked current (captured.still still) isFrom ?_
            intro used isUsed
            apply ensures_bind
            apply ensures_ask
            · intro count
              refine addCandidates_ensures isUsed.kept.sound
                ⟨_, rfl, (isUsed.hasCaptured (captured.still still)).1⟩
                count ?_
              intro last settled
              have done := (isUsed.done keptMasked.done).steady settled.steady
              refine ⟨done.kept, ?_⟩
              intro id member
              rw [← isId id member]
              exact done.used mask.id List.mem_cons_self
            · intro error
              exact isUsed.kept
        · intro why
          exact keptNext
      · intro why next after
        exact (kept.steady steady).steady after

/-! ## Claims -/

/-- A grasp before a capture is the one after it, where its id is still good. -/
theorem graspItem_again {planned : Item Cut} {post : Item Cut → Planner S D → Prop}
    (isPlanned : p.own.get id = .ok planned) (isOwn : next.own = p.own ∨ next.own.items = [])
    (holds : planned ∈ next.own.items → post planned next) (fails : ∀ why, raises why next) :
    Ensures (graspItem id) post raises next := by
  refine graspItem_ensures ?_ fails
  intro item isItem
  have member := (Book.mem_of_get isItem).1
  rcases isOwn with same | noItems
  · rw [same, isPlanned] at isItem
    cases isItem
    exact holds member
  · rw [noItems] at member
    cases member

theorem claimWaypoints_ensures {standoff lift : ℚ} (kept : Kept held p) :
    Ensures (claimWaypoints config id standoff lift)
      (fun _ next => Done held [id] next) (fun _ next => Kept held next) p := by
  unfold claimWaypoints
  apply ensures_bind
  apply freshCall_ensures kept.sound
  intro fresh steady isOwn
  have keptFresh := kept.steady steady
  apply ensures_bind
  refine graspItem_ensures ?_ fun _ => keptFresh
  intro planned isPlanned
  obtain ⟨isMember, isId⟩ := Book.mem_of_get isPlanned
  obtain ⟨camera, isCamera, isCut⟩ := (keptFresh.sound.ownItems planned isMember).cut rfl
  rw [isCamera]
  apply ensures_bind
  apply snapshot_ensures keptFresh.sound
  · intro frame next after captured stays
    have keptNext := keptFresh.steady after
    dsimp only [Option.getD_some] at captured ⊢
    apply ensures_bind
    refine graspItem_again isPlanned stays ?_ fun _ => keptNext
    intro isThere
    have current := keptNext.sound.ownItems planned isThere
    have isFrom : planned.detection.isFrom camera = true := by simp [Cut.isFrom, isCamera]
    have uses : ∀ {post : Unit → Planner S D → Prop}, (∀ last, Done held [id] last → post () last) →
        Ensures (useItem planned false camera frame) post (fun _ last => Kept held last) next := by
      intro post holds
      refine useItem_ensures keptNext current captured isFrom ?_
      intro last used
      rw [isId] at used
      exact holds last (used.done keptNext.done)
    split
    · exact refuse_ensures keptNext
    · split
      · exact refuse_ensures keptNext
      · split
        · apply ensures_bind
          apply uses
          intro last done
          apply ensures_modify
          exact
            { kept := ⟨done.kept.sound.kept rfl rfl rfl rfl rfl,
                done.kept.uses⟩
              used := done.used }
        · apply ensures_bind
          apply reply_ensures
          intro holding
          split
          · exact refuse_ensures keptNext
          · apply uses
            intro last done
            exact done
  · intro why next after
    exact keptFresh.steady after

theorem releaseHeld_ensures {opened : Bool} (kept : Kept held p) :
    Ensures (releaseHeld config arm opened) (fun _ next => Done held [] next)
      (fun _ next => Kept held next) p := by
  unfold releaseHeld
  apply ensures_bind
  apply reply_ensures
  intro holding
  split
  · apply ensures_modify
    exact Kept.done ⟨kept.sound.kept rfl rfl rfl rfl rfl, kept.uses⟩
  · exact ensures_pure kept.done

theorem nextGrasp_ensures (kept : Kept held p) :
    Ensures (nextGrasp id) (fun _ next => Done held [] next) (fun _ next => Kept held next) p := by
  unfold nextGrasp
  apply ensures_bind
  refine graspItem_ensures ?_ fun _ => kept
  intro item _
  apply ensures_modify
  refine Kept.done ⟨?_, kept.uses⟩
  exact
    { own := kept.sound.own
      shared := kept.sound.shared
      ownItems := by
        intro item member
        obtain ⟨before, isBefore, same⟩ := List.mem_map.mp member
        have current := kept.sound.ownItems before isBefore
        split_ifs at same
        · rw [← same]
          exact ⟨current.observation, current.cut⟩
        · rw [← same]
          exact current.kept rfl rfl
      sharedItems := fun item member => (kept.sound.sharedItems item member).kept rfl rfl
      captured := kept.sound.captured }

/-! ## Placements -/

theorem place_ensures {ids : List Id} {frame : Frame} {object : Item Cut} (done : Done held ids p)
    (captured : p.HasCaptured camera frame) :
    Ensures (place camera frame object arm) (fun _ next => Done held ids next)
      (fun _ next => Kept held next) p := by
  unfold place
  apply ensures_bind
  apply ensures_ask
  · intro count
    refine addCandidates_ensures done.kept.sound ⟨camera, rfl, captured.1⟩ count ?_
    intro next still
    exact done.steady still.steady
  · intro error
    exact done.kept

theorem segmentHeld_ensures {frame : Frame} {post : Id → Planner S D → Prop} (sound : p.Sound)
    (captured : p.HasCaptured camera frame) (holds : ∀ id next, Still p next → post id next)
    (fails : ∀ why, raises why p) : Ensures (segmentHeld config camera frame) post raises p := by
  unfold segmentHeld
  split
  · exact refuse_ensures (fails _)
  · apply ensures_bind
    apply reply_ensures
    intro found
    split
    · apply ensures_bind
      apply addOwn_ensures sound ⟨camera, rfl, captured.1⟩
      intro item next still _ _ _
      exact ensures_pure (holds item.id next still)
    · exact refuse_ensures (fails _)

variable {objectId : Option Id}

theorem heldObject_ensures {claim : Held} {frame : Frame} {post : Id → Planner S D → Prop}
    (sound : p.Sound) (captured : p.HasCaptured camera frame)
    (holds : ∀ id next, Still p next → (∀ given ∈ objectId.toList, id = given) → post id next)
    (fails : ∀ why, raises why p) :
    Ensures (heldObject config claim objectId camera frame) post raises p := by
  unfold heldObject
  cases objectId with
  | some id =>
    refine ensures_pure (holds id p (Still.refl sound) ?_)
    intro given member
    exact (List.mem_singleton.mp member).symm
  | none =>
    dsimp only
    split
    · refine segmentHeld_ensures sound captured ?_ fails
      intro id next still
      exact holds id next still fun _ member => by cases member
    · exact refuse_ensures (fails _)

theorem planPlaceHeld_ensures {config : Config} {held : List Held} {claim : Held} {regionId : Id}
    {objectId : Option Id} (kept : Kept held p) (isHeld : claim ∈ held) :
    Ensures (planPlaceHeld config claim regionId objectId)
      (fun _ next => Done held (claim.graspId :: regionId :: objectId.toList) next)
      (fun _ next => Kept held next) p := by
  unfold planPlaceHeld
  apply ensures_bind
  apply reply_ensures
  intro holding
  split
  · apply ensures_bind
    apply ensures_modify
    apply refuse_ensures
    exact ⟨kept.sound.kept rfl rfl rfl rfl rfl, kept.uses⟩
  · apply ensures_bind
    apply reply_ensures
    intro eefPose
    split
    · exact refuse_ensures kept
    · apply ensures_bind
      refine maskItem_ensures kept.sound ?_ fun _ => kept
      intro seen _ _ _
      dsimp only
      apply ensures_bind
      apply snapshot_ensures kept.sound
      · intro frame next after captured _
        dsimp only [Option.getD_some] at captured ⊢
        generalize seen.detection.camera.getD claim.camera = camera at captured ⊢
        have keptNext := kept.steady after
        apply ensures_bind
        refine maskItem_ensures keptNext.sound ?_ fun _ => keptNext
        intro region regionShared isRegion isRegionId
        apply ensures_bind
        refine heldObject_ensures keptNext.sound captured ?_ fun _ => keptNext
        intro chosen last still isChosen
        have keptLast := keptNext.steady still.steady
        have capturedLast := captured.still still
        apply ensures_bind
        refine maskItem_ensures keptLast.sound ?_ fun _ => keptLast
        intro object objectShared isObject isObjectId
        dsimp only
        split
        · exact refuse_ensures keptLast
        case isFalse oneSnapshot =>
          rw [not_or, not_or, Bool.not_eq_false, Bool.not_eq_false] at oneSnapshot
          obtain ⟨_, objectFrom, regionFrom⟩ := oneSnapshot
          apply ensures_bind
          unfold noteUse
          apply ensures_modify
          have claimed : Used last { last with uses := last.uses ++ [.held claim] } held
              claim.graspId :=
            ⟨keptLast.use isHeld, fun _ member => List.mem_append_left _ member,
              ⟨.held claim, List.mem_append_right _ List.mem_cons_self, rfl⟩,
              rfl⟩
          apply ensures_bind
          refine useItem_ensures claimed.kept (claimed.current isObject)
            (claimed.hasCaptured capturedLast) objectFrom ?_
          intro second objectUsed
          apply ensures_bind
          refine useItem_ensures objectUsed.kept
            (objectUsed.current (claimed.current (isRegion.still still)))
            (objectUsed.hasCaptured (claimed.hasCaptured capturedLast))
            regionFrom ?_
          intro third regionUsed
          have done := regionUsed.done (objectUsed.done (claimed.done keptLast.done))
          rw [isRegionId, isObjectId] at done
          refine place_ensures (done.of_mem ?_) (regionUsed.hasCaptured
            (objectUsed.hasCaptured (claimed.hasCaptured capturedLast)))
          intro id member
          rcases List.mem_cons.mp member with isClaim | others
          · rw [isClaim]
            simp
          · rcases List.mem_cons.mp others with isRegionId | given
            · rw [isRegionId]
              simp
            · rw [← isChosen id given]
              simp
      · intro why next after
        exact kept.steady after

variable {graspId : Id}

theorem livePlace_ensures {regionId : Id} (kept : Kept held p) :
    Ensures (livePlace config regionId graspId objectId)
      (fun _ next => Done held (graspId :: regionId :: objectId.toList) next)
      (fun _ next => Kept held next) p := by
  unfold livePlace
  apply ensures_bind
  refine graspItem_ensures ?_ fun _ => kept
  intro planned isPlanned
  obtain ⟨isMember, isId⟩ := Book.mem_of_get isPlanned
  obtain ⟨camera, isCamera, isCut⟩ := (kept.sound.ownItems planned isMember).cut rfl
  rw [isCamera]
  apply ensures_bind
  apply snapshot_ensures kept.sound
  · intro frame next after captured stays
    have keptNext := kept.steady after
    dsimp only [Option.getD_some] at captured
    apply ensures_bind
    refine graspItem_again isPlanned stays ?_ fun _ => keptNext
    intro isThere
    have isGrasp := keptNext.sound.ownItems planned isThere
    rw [isCamera]
    dsimp only [Option.getD_some]
    split
    · exact refuse_ensures keptNext
    · apply ensures_bind
      refine maskItem_ensures keptNext.sound ?_ fun _ => keptNext
      intro object objectShared isObject isObjectId
      apply ensures_bind
      refine maskItem_ensures keptNext.sound ?_ fun _ => keptNext
      intro region regionShared isRegion isRegionId
      dsimp only
      split
      · exact refuse_ensures keptNext
      case isFalse oneSnapshot =>
        rw [not_or, not_or, not_or, Bool.not_eq_false, Bool.not_eq_false] at oneSnapshot
        obtain ⟨_, _, objectFrom, regionFrom⟩ := oneSnapshot
        have graspFrom : planned.detection.isFrom camera = true := by simp [Cut.isFrom, isCamera]
        split
        · exact refuse_ensures keptNext
        · apply ensures_bind
          refine snapshot_again captured ?_ fun _ => keptNext
          apply ensures_bind
          refine useItem_ensures keptNext isGrasp captured graspFrom ?_
          intro first graspUsed
          apply ensures_bind
          refine useItem_ensures graspUsed.kept (graspUsed.current isObject)
            (graspUsed.hasCaptured captured) objectFrom ?_
          intro second objectUsed
          apply ensures_bind
          refine useItem_ensures objectUsed.kept (objectUsed.current (graspUsed.current isRegion))
            (objectUsed.hasCaptured (graspUsed.hasCaptured captured))
            regionFrom ?_
          intro third regionUsed
          have done := regionUsed.done (objectUsed.done (graspUsed.done keptNext.done))
          rw [isRegionId, isObjectId, isId] at done
          refine place_ensures (done.of_mem ?_) (regionUsed.hasCaptured
            (objectUsed.hasCaptured (graspUsed.hasCaptured captured)))
          intro id member
          rcases List.mem_cons.mp member with isGrasp | others
          · rw [isGrasp]
            simp
          · rcases List.mem_cons.mp others with isRegionId | given
            · rw [isRegionId]
              simp
            · cases objectId with
              | none => cases given
              | some other =>
                rw [List.mem_singleton.mp given]
                simp
  · intro why next after
    exact kept.steady after

variable {regionId : Option Id}

theorem among {chosen : Id} (isChosen : ∀ given ∈ regionId.toList, chosen = given)
    (member : id ∈ graspId :: (regionId.toList ++ objectId.toList)) :
    id ∈ graspId :: chosen :: objectId.toList := by
  rcases List.mem_cons.mp member with isGrasp | others
  · rw [isGrasp]
    exact List.mem_cons_self
  · rcases List.mem_append.mp others with isRegion | isObject
    · rw [← isChosen id isRegion]
      exact List.mem_cons_of_mem _ List.mem_cons_self
    · exact List.mem_cons_of_mem _ (List.mem_cons_of_mem _ isObject)

theorem placeRegion_ensures
    {region : Bool} {camera : Option String} {post : Id → Planner S D → Prop} (sound : p.Sound)
    (holds : ∀ id next, Steady p next → (∀ given ∈ regionId.toList, id = given) → post id next)
    (fails : ∀ why next, Steady p next → raises why next) :
    Ensures (placeRegion config regionId region camera) post raises p := by
  unfold placeRegion
  cases regionId with
  | some id =>
    refine ensures_pure (holds id p (Steady.refl sound) ?_)
    intro given member
    exact (List.mem_singleton.mp member).symm
  | none =>
    dsimp only
    split
    · apply ensures_bind
      apply segmentMask_ensures sound
      · intro item next steady
        exact ensures_pure (holds item.id next steady fun _ member => by cases member)
      · exact fails
    · exact refuse_ensures (fails _ _ (Steady.refl sound))

theorem planPlace_ensures {region : Bool} {camera : Option String} (kept : Kept held p)
    (claimed : ∀ claim ∈ p.held, claim.graspId = graspId → claim ∈ held) :
    Ensures (planPlace config regionId region camera graspId objectId)
      (fun _ next => Done held (graspId :: (regionId.toList ++ objectId.toList)) next)
      (fun _ next => Kept held next) p := by
  unfold planPlace
  apply ensures_bind
  apply placeRegion_ensures kept.sound
  · intro chosen next steady isChosen
    have keptNext := kept.steady steady
    split
    · exact refuse_ensures keptNext
    · apply ensures_bind
      apply freshCall_ensures keptNext.sound
      intro fresh after isOwn
      have keptFresh := keptNext.steady after
      apply ensures_bind
      apply ensures_get
      split
      case h_1 _ _ claim isClaim _ =>
        have member := List.mem_of_find?_eq_some isClaim
        rw [after.held, steady.held] at member
        have isId : claim.graspId = graspId := by simpa using List.find?_some isClaim
        refine (planPlaceHeld_ensures keptFresh (claimed claim member isId)).imp
          ?_ (fun _ _ failed => failed)
        intro _ last done
        refine done.of_mem fun id member => ?_
        rw [isId]
        exact among isChosen member
      case h_2 =>
        refine (livePlace_ensures keptFresh).imp ?_ (fun _ _ failed => failed)
        intro _ last done
        exact done.of_mem fun id member => among isChosen member
  · intro why next steady
    exact kept.steady steady

/-! ## The perception -/

theorem addMasks_ensures {post : Unit → Planner S D → Prop} (sound : p.Sound) (count : ℕ)
    (holds : ∀ next, Steady p next → post () next) :
    Ensures (addMasks detection count) post raises p := by
  induction count generalizing p with
  | zero => exact ensures_pure (holds p (Steady.refl sound))
  | succ left ih =>
    unfold addMasks addShared
    apply ensures_bind
    apply ensures_bind
    apply reply_ensures
    intro readable
    apply ensures_bind
    apply ensures_get
    rw [sound.shared]
    apply ensures_bind
    apply ensures_modify
    apply ensures_pure
    apply ih
    · exact
        { own := sound.own
          shared := sound.shared
          ownItems := fun item member => (sound.ownItems item member).kept rfl rfl
          sharedItems := by
            intro item member
            rcases Book.mem_put member with isNew | isOld
            · rw [isNew]
              exact ⟨rfl, fun isOwn => Bool.noConfusion isOwn⟩
            · exact (sound.sharedItems item isOld).kept rfl rfl
          captured := sound.captured }
    · intro next after
      exact holds next ⟨after.sound, after.uses, after.held⟩

theorem Steady.frames (steady : Steady p next) (frames : List (String × Frame)) :
    Steady p { next with frames } :=
  ⟨steady.sound.kept rfl rfl rfl rfl rfl, steady.uses, steady.held⟩

theorem renew_ensures {observed : List (String × Frame)} {moved : Bool}
    {post : Unit → Planner S D → Prop} (sound : p.Sound)
    (holds : ∀ next, Steady p next → post () next) :
    Ensures (renew config observed moved) post raises p := by
  unfold renew
  apply ensures_bind
  apply ensures_get
  dsimp only
  split
  · apply ensures_modify
    exact holds _ ((Steady.refl sound).frames _)
  · split
    · apply ensures_bind
      apply tick_ensures sound.own sound.shared
      intro next after _ _ _
      apply ensures_modify
      exact holds _ (after.frames _)
    · apply ensures_modify
      exact holds _ ((Steady.refl sound).frames _)

theorem observe_ensures [DecidableEq D] {observed : List (String × Frame)}
    {post : Unit → Planner S D → Prop} (sound : p.Sound)
    (holds : ∀ next, Steady p next → post () next) :
    Ensures (observe config observed) post raises p := by
  unfold observe
  apply ensures_bind
  apply ensures_get
  split
  · apply ensures_bind
    apply refresh_ensures sound
    intro moved next steady
    apply renew_ensures steady.sound
    intro last after
    exact holds last (steady.trans after)
  · exact renew_ensures sound holds

theorem look_ensures [DecidableEq D] {config : Config} {camera : String}
    {post : Unit → Planner S D → Prop} (sound : p.Sound)
    (holds : ∀ next, Steady p next → post () next) (fails : ∀ why, raises why p) :
    Ensures (look config camera) post raises p := by
  unfold look
  split
  · apply ensures_bind
    apply ensures_get
    split
    · exact ensures_pure (holds p (Steady.refl sound))
    · apply ensures_bind
      apply ensures_ask
      · intro frame
        apply ensures_modify
        exact holds _ ((Steady.refl sound).frames _)
      · intro error
        exact fails _
  · apply ensures_bind
    apply reply_ensures
    intro observed
    exact observe_ensures sound holds

theorem segment_ensures [DecidableEq D] {prompted : Bool} (kept : Kept held p) :
    Ensures (segment config camera prompted) (fun _ next => Done held [] next)
      (fun _ next => Kept held next) p := by
  unfold segment perceived
  apply ensures_bind
  split
  · exact refuse_ensures kept
  · split
    · exact refuse_ensures kept
    · apply ensures_bind
      refine look_ensures kept.sound ?_ fun _ => kept
      intro next steady
      have keptNext := kept.steady steady
      apply ensures_bind
      apply ensures_get
      split
      · exact refuse_ensures keptNext
      · apply ensures_pure
        apply ensures_bind
        apply reply_ensures
        intro count
        apply addMasks_ensures keptNext.sound
        intro last after
        exact (keptNext.steady after).done

theorem mark_ensures {operation : Book Cut → Except String (Book Cut × Item Cut)}
    (kept : Kept held p)
    (keeps : ∀ book item, operation p.shared = .ok (book, item) →
      book.observation = p.shared.observation ∧ book.items = p.shared.items) :
    Ensures (mark operation) (fun _ next => Done held [] next)
      (fun _ next => Kept held next) p := by
  unfold mark
  apply ensures_modify
  split
  · exact kept.done
  case h_2 book item isMarked =>
    obtain ⟨isBound, sameItems⟩ := keeps book item isMarked
    refine Kept.done ⟨?_, kept.uses⟩
    exact
      { own := kept.sound.own
        shared := isBound.trans kept.sound.shared
        ownItems := fun other member => (kept.sound.ownItems other member).kept rfl rfl
        sharedItems := by
          intro other member
          rw [sameItems] at member
          exact (kept.sound.sharedItems other member).kept rfl rfl
        captured := kept.sound.captured }

/-! ## Runs -/

def Call.ids : Call S → List Id
  | .planGrasp _ maskId _ _ => maskId.toList
  | .claimWaypoints id _ _ => [id]
  | .planPlace regionId _ _ graspId objectId => graspId :: (regionId.toList ++ objectId.toList)
  | _ => []

theorem perform_ensures [DecidableEq D] (call : Call S) (kept : Kept held p)
    (claimed : ∀ claim ∈ p.held, claim.graspId ∈ call.ids → claim ∈ held) :
    Ensures (perform config call) (fun _ next => Done held call.ids next)
      (fun _ next => Kept held next) p := by
  cases call with
  | observe =>
    unfold perform
    dsimp only
    split
    · exact ensures_pure kept.done
    · apply ensures_bind
      apply reply_ensures
      intro observed
      apply observe_ensures kept.sound
      intro next steady
      exact (kept.steady steady).done
  | segment camera prompted => exact segment_ensures kept
  | selectDetection id =>
    unfold perform
    refine mark_ensures kept fun book item isMarked => ?_
    exact Book.select_keeps isMarked
  | rejectDetection id =>
    unfold perform
    refine mark_ensures kept fun book item isMarked => ?_
    exact Book.reject_keeps isMarked
  | segmentMask camera =>
    unfold perform
    apply ensures_bind
    apply segmentMask_ensures kept.sound
    · intro item next steady
      exact ensures_pure (kept.steady steady).done
    · intro why next steady
      exact kept.steady steady
  | planGrasp object maskId camera arm => exact planGrasp_ensures kept
  | nextGrasp id => exact nextGrasp_ensures kept
  | claimWaypoints id standoff lift => exact claimWaypoints_ensures kept
  | planPlace regionId region camera graspId objectId =>
    refine planPlace_ensures kept fun claim member isId => ?_
    exact claimed claim member (by rw [isId]; exact List.mem_cons_self)
  | releaseHeld arm opened => exact releaseHeld_ensures kept
  | motion moved =>
    unfold perform
    apply ensures_bind
    apply ensures_modify
    have keptMoved : Kept held { p with robot := moved } :=
      ⟨kept.sound.kept rfl rfl rfl rfl rfl, kept.uses⟩
    apply ensures_bind
    apply refresh_ensures keptMoved.sound
    intro changed next steady
    exact ensures_pure (keptMoved.steady steady).done
  | reset moved =>
    unfold perform
    apply ensures_bind
    apply ensures_modify
    have keptMoved : Kept held { p with robot := moved } :=
      ⟨kept.sound.kept rfl rfl rfl rfl rfl, kept.uses⟩
    apply ensures_bind
    apply tick_ensures (p := { p with robot := moved }) keptMoved.sound.own keptMoved.sound.shared
    intro next steady _ _ _
    apply ensures_modify
    have keptNext := keptMoved.steady steady
    exact Kept.done ⟨keptNext.sound.kept rfl rfl rfl rfl rfl, keptNext.uses⟩

end Rules

/-- The calls, one after the other, with the replies of the world; each starts
with no uses. -/
def Planner.after [DecidableEq D] (config : Config) (p : Planner S D) :
    List (Call S × (ℕ → Reply)) → Planner S D
  | [] => p
  | (call, replies) :: rest =>
    Planner.after config (perform config call replies 0 { p with uses := [] }).2.2 rest

/-- A call keeps what the ids depend on, and its uses follow: where it returns,
it has used every id that it was given. -/
theorem call_follows [DecidableEq D] (config : Config) (sound : p.Sound) (call : Call S)
    (replies : ℕ → Reply) :
    let result := perform config call replies 0 { p with uses := [] }
    Kept (p.held.filter fun claim => claim.graspId ∈ call.ids) result.2.2 ∧
    (result.1 = .returned () → ∀ id ∈ call.ids, ∃ use ∈ result.2.2.uses, use.id = id) := by
  have kept : Kept (p.held.filter fun claim => claim.graspId ∈ call.ids) { p with uses := [] } :=
    ⟨sound.kept rfl rfl rfl rfl rfl, fun _ member => by cases member⟩
  have ensures : Ensures (perform config call) _ _ { p with uses := [] } :=
    perform_ensures call kept fun claim member isGiven =>
      List.mem_filter.mpr ⟨member, decide_eq_true isGiven⟩
  have holds := ensures replies 0
  dsimp only
  split at holds
  case h_1 value later next isResult =>
    rw [isResult]
    exact ⟨holds.kept, fun _ => holds.used⟩
  case h_2 error later next isResult =>
    rw [isResult]
    exact ⟨holds, fun returned => by cases returned⟩
  case h_3 => exact holds.elim

theorem sound_after [DecidableEq D] (config : Config) (sound : p.Sound)
    (calls : List (Call S × (ℕ → Reply))) : (p.after config calls).Sound := by
  induction calls generalizing p with
  | nil => exact sound
  | cons first rest ih => exact ih (call_follows config sound first.1 first.2).1.sound

def Use.frame : Use → Option Frame
  | .own _ _ frame _ | .shared _ _ frame _ _ => some frame
  | .held _ => none

def Planner.cuts (p : Planner S D) : List (Id × Frame) :=
  (p.own.items ++ p.shared.items).map fun item => (item.id, item.detection.cut)

/-- The frames that a call computes with show what its ids were cut from. -/
def ScenesKept (cuts : List (Id × Frame)) (uses : List Use) : Prop :=
  ∀ use ∈ uses, ∀ cut ∈ cuts, use.id = cut.1 →
    ∀ frame ∈ uses.filterMap Use.frame, SameScene cut.2 frame

instance (cuts : List (Id × Frame)) (uses : List Use) :
    Decidable (ScenesKept cuts uses) :=
  inferInstanceAs (Decidable (∀ use ∈ uses, ∀ cut ∈ cuts, use.id = cut.1 →
    ∀ frame ∈ uses.filterMap Use.frame,
      sceneChanged (frameSignature cut.2) (frameSignature frame) = false))

def grey (level : ℚ) : Frame where
  height := 1
  width := 1
  rgb := fun _ _ => (level, level, level)
  depth := none

/-- A camera, a segmenter and both backends; a perception renders its
frames. -/
def bench (perception : Option (List String)) : Config where
  cameras := [""]
  perception := perception
  rendered := true
  segments := true
  grasps := true
  places := true
  checksHolding := false

/-- The camera sees a grey, in which every model finds one thing. -/
def seeing (level : ℚ) : ℕ → Reply := fun _ =>
  { capture := .ok (grey level)
    observation := []
    readable := true
    found := true
    count := 1
    fits := true
    candidates := .ok 1
    holding := none
    eefPose := true }

def bare : Planner Unit Unit :=
  Planner.initial () none

/-- A grasp is planned, and claimed; the robot moves, and a region is cut where
the scene is another. -/
def grasped : List (Call Unit × (ℕ → Reply)) :=
  [(.planGrasp true none none none, seeing 0), (.claimWaypoints ['g', '2'] 0 0, seeing 0),
    (.motion (), seeing 0),
    (.segmentMask none, seeing 100)]

def perceivedOnce : List (Call Unit × (ℕ → Reply)) :=
  [(.segment "" true, seeing 0)]

end PiEmbodied.Services.GraspIds
