import PiEmbodied.Programs
import PiEmbodied.Services.Detections
import PiEmbodied.Services.Scenes

/-!
# Grasp and place ids

A grasp planner cuts masks, grasps and placements from snapshots of its
cameras.  It may also take the masks of a perception, whose book is on the same
clock.
-/

namespace PiEmbodied.Services.GraspIds

open Programs Programs.Program Detections Scenes

/-! ## The state -/

inductive Kind where
  | mask
  | grasp
  | placement
deriving DecidableEq

/-- What a book keeps of a detection; `cut` is the frame it was cut from. -/
structure Cut where
  kind : Kind
  camera : Option String
  cut : Frame
  maskId : Option Id
  (rejected prompted : Bool)
  arm : Option String

structure Held where
  graspId : Id
  camera : String
  prompted : Bool
  arm : Option String

/-- A use of an id for a motion: the camera and the frame it is computed with,
and the frame that the call captured of the camera. -/
inductive Use where
  | own (item : Item Cut) (camera : String) (frame : Frame)
      (fresh : Option Frame)
  /-- A mask of the perception. -/
  | shared (item : Item Cut) (camera : String) (frame : Frame)
      (fresh : Option Frame) (observation : ℕ)
  /-- The id of the grasp that the gripper holds. -/
  | held (claim : Held)

def Use.id : Use → Id
  | .own item _ _ _ | .shared item _ _ _ _ => item.id
  | .held claim => claim.graspId

structure Config where
  cameras : List String
  /-- The perception's cameras, where there is one. -/
  perception : Option (List String)
  /-- The perception renders its frames itself, once for each observation. -/
  (rendered segments grasps places checksHolding : Bool)

structure Planner (S D : Type) where
  robot : S
  epoch : Epoch S D
  /-- The planner's own book. -/
  own : Book Cut
  /-- The perception's book. -/
  shared : Book Cut
  /-- The perception's frames. -/
  frames : List (String × Frame)
  snapshots : String → Option Frame
  /-- The cameras captured in this call, with the frame. -/
  captured : List (String × Frame)
  held : List Held
  uses : List Use

structure Reply where
  capture : Except String Frame
  /-- An observation: the frames of its cameras. -/
  observation : List (String × Frame)
  readable : Bool
  /-- The mask of SAM3 fits the frame, where it found one. -/
  found : Bool
  /-- The masks of the perception's SAM3 that fit. -/
  count : ℕ
  /-- A mask has the shape of the view, and pixels enough. -/
  fits : Bool
  /-- The candidates of a backend that are kept. -/
  candidates : Except String ℕ
  holding : Option Bool
  eefPose : Bool

inductive Refusal where
  | unknownCamera
  | noCapture (error : String)
  | stale (error : String)
  | notBound
  | noSegmenter
  | notFound
  | exactlyOne
  | otherCamera
  | doesNotFit
  | noBackend
  | backend (error : String)
  | notAGrasp
  | rejected
  | offset
  | holdsNothing
  | noPlaces
  | noRegion
  | notOneSnapshot
  | otherMask
  | noEefPose
  | noPrompt
  | noFrame
deriving DecidableEq

abbrev Action (S D Value : Type) :=
  Program Reply Refusal (Planner S D) Value

section Calls

variable {S D : Type} [DecidableEq D] (config : Config)

def refuse {Value : Type} (why : Refusal) : Action S D Value :=
  raise why

def reply {Value : Type} (take : Reply → Value) : Action S D Value :=
  ask fun reply => .ok (take reply)

/-- A new observation: the books drop their ids, the planner its snapshots, and
a perception that renders its frames. -/
def Planner.tick (p : Planner S D) (readable : Bool) : Planner S D :=
  let observation := p.epoch.observation + 1
  { p with
    epoch :=
      { p.epoch with
        observation
        baseline := p.epoch.readDigest p.robot readable }
    own := p.own.bind observation
    shared := p.shared.bind observation
    frames := if config.rendered then [] else p.frames
    snapshots := fun _ => none }

def tick : Action S D Unit := do
  let readable ← reply Reply.readable
  modify fun p => p.tick config readable

/-- `refresh`: a tick where the robot state changed. -/
def refresh : Action S D Bool := do
  let now ← reply Reply.readable
  let p ← get
  if p.epoch.changed p.robot now then do
    tick config
    pure true
  else pure false

def freshCall : Action S D Unit :=
  modify fun p => { p with captured := [] }

/-- `_snapshot`: the camera, and its frame of the current observation. -/
def snapshot (camera : Option String) : Action S D (String × Frame) := do
  let camera := camera.getD (config.cameras.headD "")
  if camera ∉ config.cameras then refuse .unknownCamera
  else do
    let p ← get
    match p.snapshots camera, p.captured.lookup camera with
    | some snap, some _ => pure (camera, snap)
    | known, _ => do
        let frame ← ask fun reply => reply.capture.mapError .noCapture
        modify fun p => { p with captured := (camera, frame) :: p.captured }
        match known with
        | some snap =>
          if sceneChanged (frameSignature snap) (frameSignature frame) then do
            tick config
            modify fun p =>
              { p with
                snapshots := Function.update p.snapshots camera (some frame) }
            pure (camera, frame)
          else pure (camera, snap)
        | none => do
            modify fun p =>
              { p with
                snapshots := Function.update p.snapshots camera (some frame) }
            pure (camera, frame)

/-- `add` of the planner's book. -/
def addOwn (label : Label) (detection : Cut) : Action S D (Item Cut) := do
  let readable ← reply Reply.readable
  let p ← get
  match p.own.observation with
  | none => refuse .notBound
  | some observation => do
      let (epoch, id) := p.epoch.nextId label p.robot readable
      let item : Item Cut := ⟨detection, id, observation⟩
      modify fun p =>
        { p with
          epoch
          own :=
            { p.own with
              items := Book.put p.own.items item
              history := Function.update p.own.history id (some observation) } }
      pure item

/-- `add` of the perception's book. -/
def addShared (detection : Cut) : Action S D Id := do
  let readable ← reply Reply.readable
  let p ← get
  match p.shared.observation with
  | none => refuse .notBound
  | some observation => do
      let (epoch, id) := p.epoch.nextId .mask p.robot readable
      modify fun p =>
        { p with
          epoch
          shared :=
            { p.shared with
              items := Book.put p.shared.items ⟨detection, id, observation⟩
              history := Function.update p.shared.history id (some observation) } }
      pure id

/-- `_mask_item`: a current mask, and whether the perception cut it. -/
def maskItem (id : Id) : Action S D (Item Cut × Bool) := do
  let p ← get
  let isShared := config.perception.isSome && (p.own.history id).isNone
  match (if isShared then p.shared else p.own).get id with
  | .error error => refuse (.stale error)
  | .ok item => pure (item, isShared)

def graspItem (id : Id) : Action S D (Item Cut) := do
  let p ← get
  match p.own.get id with
  | .error error => refuse (.stale error)
  | .ok item =>
    if item.detection.kind = .mask then refuse .notAGrasp else pure item

def noteUse (use : Use) : Action S D Unit :=
  modify fun p => { p with uses := p.uses ++ [use] }

def useItem (item : Item Cut) (isShared : Bool) (camera : String)
    (frame : Frame) : Action S D Unit := do
  let p ← get
  let fresh := p.captured.lookup camera
  if isShared then
    noteUse (.shared item camera frame fresh p.epoch.observation)
  else noteUse (.own item camera frame fresh)

def graspLabel : Label := ⟨['g'], List.forall_mem_singleton.mpr rfl⟩

def placeLabel : Label := ⟨['p'], List.forall_mem_singleton.mpr rfl⟩

/-- `_segment`: the best mask of a text prompt. -/
def segmentOwn (camera : Option String) : Action S D (Item Cut) :=
  if config.segments = false then refuse .noSegmenter
  else do
    let (camera, frame) ← snapshot config camera
    let found ← reply Reply.found
    if found then
      addOwn .mask
        { kind := .mask
          camera := some camera
          cut := frame
          maskId := none
          rejected := false
          prompted := true
          arm := none }
    else refuse .notFound

def segmentMask (camera : Option String) : Action S D (Item Cut) := do
  freshCall
  segmentOwn config camera

/-- `_mask_for`: a mask of the snapshot, by id or segmented now. -/
def maskFor (camera : String) (object : Bool) (maskId : Option Id) : Action S D (Item Cut × Bool) :=
  match maskId with
  | none =>
    if object then do
      let item ← segmentOwn config (some camera)
      pure (item, false)
    else refuse .exactlyOne
  | some id =>
    if object then refuse .exactlyOne
    else do
      let (item, isShared) ← maskItem config id
      if item.detection.camera ≠ none ∧
          item.detection.camera ≠ some camera then
        refuse .otherCamera
      else do
        let fits ← reply Reply.fits
        if fits then pure (item, isShared) else refuse .doesNotFit

/-! ## Grasps -/

def addCandidates (label : Label) (detection : Cut) : ℕ → Action S D Unit
  | 0 => pure ()
  | left + 1 => do
      let _ ← addOwn label detection
      addCandidates label detection left

def planGrasp (object : Bool) (maskId : Option Id) (camera : Option String)
    (arm : Option String) : Action S D Unit :=
  if object = false ∧ maskId = none then refuse .exactlyOne
  else if config.grasps = false then refuse .noBackend
  else do
    freshCall
    let (camera, frame) ← snapshot config camera
    let (mask, isShared) ← maskFor config camera object maskId
    let fits ← reply Reply.fits
    if fits = false then refuse .doesNotFit
    else do
      useItem mask isShared camera frame
      let count ← ask fun reply => reply.candidates.mapError .backend
      addCandidates graspLabel
        { kind := .grasp
          camera := some camera
          cut := frame
          maskId := some mask.id
          rejected := false
          prompted := mask.detection.prompted
          arm := arm }
        count

/-- `next_grasp`: the id is rejected, and may not be claimed any more. -/
def nextGrasp (id : Id) : Action S D Unit := do
  let _ ← graspItem (S := S) (D := D) id
  modify fun p =>
    { p with
      own :=
        { p.own with
          items := p.own.items.map fun item =>
            if item.id = id then
              { item with
                detection := { item.detection with rejected := true } }
            else item
          rejected :=
            if id ∈ p.own.rejected then p.own.rejected
            else p.own.rejected ++ [id]
          selected :=
            if p.own.selected = some id then none else p.own.selected } }

/-- `MAX_WAYPOINT_OFFSET_M` -/
def maxWaypointOffset : ℚ := 3 / 10

def claimWaypoints (id : Id) (standoff lift : ℚ) : Action S D Unit := do
  freshCall
  let planned ← graspItem id
  let (camera, frame) ← snapshot config planned.detection.camera
  let item ← graspItem id
  if item.detection.rejected then refuse .rejected
  else if standoff < 0 ∨ maxWaypointOffset < standoff ∨ lift < 0 ∨
      maxWaypointOffset < lift then
    refuse .offset
  else if item.detection.kind = .grasp then do
    useItem item false camera frame
    modify fun p =>
      { p with
        held :=
          p.held.filter (fun other => other.arm ≠ item.detection.arm) ++
            [{ graspId := item.id
               camera := camera
               prompted := item.detection.prompted
               arm := item.detection.arm }] }
  else do
    let holding ← reply Reply.holding
    if config.checksHolding ∧ holding = some false then refuse .holdsNothing
    else useItem item false camera frame

def releaseHeld (arm : Option String) (opened : Bool) : Action S D Unit := do
  let holding ← reply Reply.holding
  if opened ∨ config.checksHolding ∧ holding = some false then
    modify fun p => { p with held := p.held.filter fun held => held.arm ≠ arm }
  else pure ()

/-! ## Placements -/

def Cut.isFrom (detection : Cut) (camera : String) : Bool :=
  detection.camera = none || detection.camera = some camera

/-- `_place`: the placements, cut from the snapshot. -/
def place (camera : String) (frame : Frame) (object : Item Cut)
    (arm : Option String) : Action S D Unit := do
  let count ← ask fun reply => reply.candidates.mapError .backend
  addCandidates placeLabel
    { kind := .placement
      camera := some camera
      cut := frame
      maskId := some object.id
      rejected := false
      prompted := object.detection.prompted
      arm := arm }
    count

/-- `_segment_held`: the held object's mask. -/
def segmentHeld (camera : String) (frame : Frame) : Action S D Id :=
  if config.segments = false then refuse .noSegmenter
  else do
    let found ← reply Reply.found
    if found then do
      let item ← addOwn .mask
        { kind := .mask
          camera := some camera
          cut := frame
          maskId := none
          rejected := false
          prompted := true
          arm := none }
      pure item.id
    else refuse .notFound

/-- The object in the gripper: the mask that is given, or the prompt of its
grasp segmented again. -/
def heldObject (held : Held) (objectId : Option Id) (camera : String)
    (frame : Frame) : Action S D Id :=
  match objectId with
  | some id => pure id
  | none =>
    if held.prompted then segmentHeld config camera frame
    else refuse .noPrompt

/-- `_plan_place_held`: the gripper holds the object of a claimed grasp. -/
def planPlaceHeld (held : Held) (regionId : Id) (objectId : Option Id) :
    Action S D Unit := do
  let holding ← reply Reply.holding
  if config.checksHolding ∧ holding = some false then do
    modify fun p => { p with held := p.held.filter fun other => other.arm ≠ held.arm }
    refuse .holdsNothing
  else do
    let eefPose ← reply Reply.eefPose
    if eefPose = false then refuse .noEefPose
    else do
      let (seen, _) ← maskItem config regionId
      let (camera, frame) ← snapshot config (some (seen.detection.camera.getD held.camera))
      let (region, regionShared) ← maskItem config regionId
      let objectId ← heldObject config held objectId camera frame
      let (object, objectShared) ← maskItem config objectId
      if object.observation ≠ region.observation ∨
          object.detection.isFrom camera = false ∨
          region.detection.isFrom camera = false then
        refuse .notOneSnapshot
      else do
        noteUse (.held held)
        useItem object objectShared camera frame
        useItem region regionShared camera frame
        place camera frame object held.arm

/-- The region: the mask that is given, or a text prompt segmented now. -/
def placeRegion (regionId : Option Id) (region : Bool) (camera : Option String) : Action S D Id :=
  match regionId with
  | some id => pure id
  | none =>
    if region then do
      let item ← segmentMask config camera
      pure item.id
    else refuse .noRegion

/-- The rest of `plan_place`, for a grasp that was not executed. -/
def livePlace (regionId graspId : Id) (objectId : Option Id) :
    Action S D Unit := do
  let planned ← graspItem graspId
  let _ ← snapshot config planned.detection.camera
  let grasp ← graspItem graspId
  if grasp.detection.kind ≠ .grasp then refuse .notAGrasp
  else do
    let objectId := objectId.getD (grasp.detection.maskId.getD [])
    let (object, objectShared) ← maskItem config objectId
    let (region, regionShared) ← maskItem config regionId
    let graspCamera := grasp.detection.camera.getD ""
    if object.observation ≠ grasp.observation ∨
        region.observation ≠ grasp.observation ∨
        object.detection.isFrom graspCamera = false ∨
        region.detection.isFrom graspCamera = false then
      refuse .notOneSnapshot
    else if grasp.detection.maskId ≠ some objectId then refuse .otherMask
    else do
      let (camera, frame) ← snapshot config grasp.detection.camera
      useItem grasp false camera frame
      useItem object objectShared camera frame
      useItem region regionShared camera frame
      place camera frame object grasp.detection.arm

/-- `plan_place`; `region` is a text prompt, where no mask is given. -/
def planPlace (regionId : Option Id) (region : Bool) (camera : Option String)
    (graspId : Id) (objectId : Option Id) : Action S D Unit := do
  let regionId ← placeRegion config regionId region camera
  if config.places = false then refuse .noPlaces
  else do
    freshCall
    let p ← get
    match p.held.find? fun held => held.graspId = graspId,
        decide (graspId ∈ p.own.ids) with
    | some held, false => planPlaceHeld config held regionId objectId
    | _, _ => livePlace config regionId graspId objectId

/-! ## The perception -/

/-- The frames stay where the robot did not move and no camera shows another
scene. -/
def renew (observed : List (String × Frame)) (moved : Bool) :
    Action S D Unit := do
  let p ← get
  let changed := p.frames.any fun known =>
    match observed.lookup known.1 with
    | none => true
    | some frame => sceneChanged (frameSignature known.2) (frameSignature frame)
  if moved = false ∧ changed = false then
    modify fun p =>
      { p with
        frames := p.frames ++ observed.filter fun seen => (p.frames.lookup seen.1).isNone }
  else do
    if moved = false then tick config
    modify fun p => { p with frames := observed }

/-- `observe`: a new observation. -/
def observe (observed : List (String × Frame)) : Action S D Unit := do
  let p ← get
  if p.epoch.digest.isSome then do
    let moved ← refresh config
    renew config observed moved
  else renew config observed false

def look (camera : String) : Action S D Unit :=
  if config.rendered then do
    let p ← get
    match p.frames.lookup camera with
    | some _ => pure ()
    | none => do
        let frame ← ask fun reply => reply.capture.mapError .noCapture
        modify fun p => { p with frames := (camera, frame) :: p.frames }
  else do
    let observed ← reply Reply.observation
    observe config observed

/-- `frame`: the perception's frame of a camera. -/
def perceived (camera : String) : Action S D Frame :=
  match config.perception with
  | none => refuse .unknownCamera
  | some cameras =>
    if camera ∉ cameras then refuse .unknownCamera
    else do
      look config camera
      let p ← get
      match p.frames.lookup camera with
      | none => refuse .noFrame
      | some frame => pure frame

def addMasks (detection : Cut) : ℕ → Action S D Unit
  | 0 => pure ()
  | left + 1 => do
      let _ ← addShared detection
      addMasks detection left

/-- `segment` of the perception. -/
def segment (camera : String) (prompted : Bool) : Action S D Unit := do
  let frame ← perceived config camera
  let count ← reply Reply.count
  addMasks
    { kind := .mask
      camera := some camera
      cut := frame
      maskId := none
      rejected := false
      prompted := prompted
      arm := none }
    count

/-- `select_detection` and `reject_detection`. -/
def mark (operation : Book Cut → Except String (Book Cut × Item Cut)) :
    Action S D Unit :=
  modify fun p =>
    match operation p.shared with
    | .error _ => p
    | .ok (book, _) => { p with shared := book }

inductive Call (S : Type) where
  | observe
  | segment (camera : String) (prompted : Bool)
  | selectDetection (id : Id)
  | rejectDetection (id : Id)
  | segmentMask (camera : Option String)
  | planGrasp (object : Bool) (maskId : Option Id) (camera arm : Option String)
  | nextGrasp (id : Id)
  | claimWaypoints (id : Id) (standoff lift : ℚ)
  | planPlace (regionId : Option Id) (region : Bool) (camera : Option String)
      (graspId : Id) (objectId : Option Id)
  | releaseHeld (arm : Option String) (opened : Bool)
  | motion (moved : S)
  | reset (moved : S)

def perform : Call S → Action S D Unit
  | .observe =>
    if config.rendered then pure ()
    else do
      let observed ← reply Reply.observation
      observe config observed
  | .segment camera prompted => segment config camera prompted
  | .selectDetection id => mark fun book => book.select id
  | .rejectDetection id => mark fun book => book.reject id
  | .segmentMask camera => do
      let _ ← segmentMask config camera
      pure ()
  | .planGrasp object maskId camera arm => planGrasp config object maskId camera arm
  | .nextGrasp id => nextGrasp id
  | .claimWaypoints id standoff lift => claimWaypoints config id standoff lift
  | .planPlace regionId region camera graspId objectId =>
    planPlace config regionId region camera graspId objectId
  | .releaseHeld arm opened => releaseHeld config arm opened
  | .motion moved => do
      modify fun p => { p with robot := moved }
      let _ ← refresh config
      pure ()
  | .reset moved => do
      modify fun p => { p with robot := moved }
      tick config
      modify fun p => { p with held := [] }

end Calls

def Planner.initial {S D : Type} (robot : S) (digest : Option (S → D)) : Planner S D where
  robot := robot
  epoch := { observation := 0, counter := 0, digest, baseline := none }
  own := Book.new.bind 0
  shared := Book.new.bind 0
  frames := []
  snapshots := fun _ => none
  captured := []
  held := []
  uses := []

end PiEmbodied.Services.GraspIds
