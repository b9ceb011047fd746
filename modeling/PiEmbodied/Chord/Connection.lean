import PiEmbodied.Chord.Remote

/-!
# The sending end of a connection

A hold implies the state of its variant: a unit, then the members' operations
and resets.  While what the peer has not acknowledged exceeds the window, state
waits in slots: a member's stream has one, to which operations are appended and
which a snapshot, reset or error replaces; a hold's unit has one, built when it
is sent.  Waiting operations are capped: beyond, a stream is replaced by a
reset built when its slot is flushed.
-/

namespace PiEmbodied.Chord

open Delta
open Entries (delete restrict)

/-! ## Frames -/

/-- A state frame as it is sent.  `upTo` is not on the wire: it records the
provider's value right after the batches of the frame. -/
inductive StateOut where
  | snap (value : JsonValue)
  | reset (value : JsonValue)
  | ops (wire : List JsonValue) (upTo : JsonValue)
  | error (error : ChordError)

def StateOut.received : StateOut → StateIn
  | .snap value => .snap value
  | .reset value => .reset value
  | .ops wire _ => .ops wire
  | .error e => .error e

inductive Frame where
  | shape (id : ℕ) (shape : Shape) (state : List Name)
  | state (hold : ℕ) (m : Name) (frame : StateOut)
  | gone (id : ℕ) (error : ChordError)
  /-- Results, reload control and pings. -/
  | other (label : String)

/-! ## What is served and what waits -/

structure Feed where
  encoder : Encoder

structure Ref where
  shape : Option Shape
  /-- The values of the members that are readable state. -/
  values : List (Name × JsonValue)
  /-- The error of a value the consumer was not promised. -/
  validateSnapshot : Name → JsonValue → Option ChordError

structure Served where
  contract : Contract
  ref : Ref
  (wantsState again unitSent : Bool)
  feeds : List (Name × Feed)

def Served.members (served : Served) (shape : Shape) : List Name :=
  if served.wantsState then served.contract.stateMembers shape else []

def Served.setValue (served : Served) (name : Name) (value : JsonValue) :
    Served :=
  let values := Entries.set served.ref.values name value
  { served with ref := { served.ref with values := values } }

def Served.setFeed (served : Served) (name : Name) (feed : Feed) : Served :=
  { served with feeds := Entries.set served.feeds name feed }

/-- A member's frame for a snapshot or reset: the value, or the error of one
the consumer was not promised. -/
def Served.snapshot (served : Served) (name : Name)
    (as : JsonValue → StateOut) (value : JsonValue) : StateOut :=
  match served.ref.validateSnapshot name value with
  | some e => .error e
  | none => as value

/-- Subscribes a member for the consumer: its snapshot, and a feed.  `none` if
the member is not readable state. -/
def Served.attach (served : Served) (name : Name)
    (as : JsonValue → StateOut) : Option (Served × StateOut) :=
  match Entries.get served.ref.values name with
  | none => none
  | some value => some (served.setFeed name ⟨encoder⟩, served.snapshot name as value)

def Served.attachAll (served : Served) : List Name → Served × List (Name × StateOut)
  | [] => (served, [])
  | name :: rest =>
    match served.attach name .snap with
    | none => served.attachAll rest
    | some (served, frame) =>
      let later := served.attachAll rest
      (later.1, (name, frame) :: later.2)

inductive MemberEvent where
  | ops (ops : List (Op Unit))
  | reset (value : JsonValue)

def MemberEvent.valueAfter (before : JsonValue) : MemberEvent → Option JsonValue
  | .reset value => some value
  | .ops batch =>
    if ∀ op ∈ batch, op.Valid then (applyOps before batch).toOption
    else none

inductive SlotKey where
  | state (hold : ℕ) (m : Name)
  | unit (hold : ℕ)
deriving DecidableEq

def SlotKey.hold : SlotKey → ℕ
  | .state hold _ | .unit hold => hold

structure StateSlot where
  base : Option StateOut
  ops : List JsonValue
  /-- The provider's value right after the waiting batches. -/
  upTo : JsonValue
  size : ℕ
  lazy : Bool

inductive Slot where
  | state (slot : StateSlot)
  | unit

def emptySlot : StateSlot where
  base := none
  ops := []
  upTo := .null
  size := 0
  lazy := false

def lazySlot : StateSlot where
  base := none
  ops := []
  upTo := .null
  size := 0
  lazy := true

structure Config where
  (window pendingCap : ℤ)
  /-- What the link reports for a frame. -/
  size : Frame → ℕ
  /-- `JSON.stringify(ops).length` -/
  opsSize : List JsonValue → ℕ

structure Provider where
  peerAcks : Option Bool
  (sent acked : ℕ)
  unacked : List ℕ
  unackedBytes : ℤ
  slots : List (SlotKey × Slot)
  pendingBytes : ℤ
  served : List (ℕ × Served)
  /-- The frames sent and not yet received. -/
  wire : List Frame
  violated : Bool

def newProvider : Provider where
  peerAcks := none
  sent := 0
  acked := 0
  unacked := []
  unackedBytes := 0
  slots := []
  pendingBytes := 0
  served := []
  wire := []
  violated := false

namespace Provider

section Sending

variable (config : Config)

def full (p : Provider) : Bool :=
  p.peerAcks = some true && decide (config.window ≤ p.unackedBytes)

def send (p : Provider) (frame : Frame) : Provider :=
  let p := { p with wire := p.wire ++ [frame] }
  if p.peerAcks = some false then p
  else
    { p with
      sent := p.sent + 1
      unacked := p.unacked ++ [config.size frame]
      unackedBytes := p.unackedBytes + config.size frame }

def sendAll (p : Provider) (frames : List Frame) : Provider :=
  frames.foldl (send config) p

/-! ## Slots -/

def setSlot (p : Provider) (key : SlotKey) (slot : Slot) : Provider :=
  { p with slots := Entries.set p.slots key slot }

/-- Drops what waits for a stream: a lazy reset replaces it. -/
def drop (p : Provider) (key : SlotKey) : Provider :=
  match Entries.get p.slots key with
  | some (.state slot) =>
    { p.setSlot key (.state lazySlot) with
      pendingBytes := p.pendingBytes - slot.size }
  | _ => p

def holdsOps (p : Provider) (key : SlotKey) : Bool :=
  match Entries.get p.slots key with
  | some (.state slot) => 0 < slot.size
  | _ => false

/-- Replaces the oldest waiting streams until `size` more bytes fit. -/
def makeRoomAmong (size : ℕ) (current : SlotKey) : List SlotKey → Provider → Provider
  | [], p => p
  | key :: rest, p =>
    if p.pendingBytes + size ≤ config.pendingCap then p
    else if key ≠ current ∧ p.holdsOps key then
      makeRoomAmong size current rest (p.drop key)
    else makeRoomAmong size current rest p

def makeRoom (p : Provider) (size : ℕ) (current : SlotKey) : Provider :=
  let p := makeRoomAmong config size current (Entries.keys p.slots) p
  if config.pendingCap < p.pendingBytes + size then p.drop current else p

def queueOps (p : Provider) (key : SlotKey) (slot : StateSlot)
    (wire : List JsonValue) (upTo : JsonValue) : Provider :=
  let p := p.setSlot key (.state slot)
  -- a reset built at flush already covers these operations
  if slot.lazy then p
  else
    let size := config.opsSize wire
    let p :=
      if config.pendingCap < p.pendingBytes + size then
        p.makeRoom config size key
      else p
    match Entries.get p.slots key with
    | some (.state slot) =>
      if slot.lazy then p
      else
        { p.setSlot key
            (.state
              { slot with
                ops := slot.ops ++ wire
                upTo := upTo
                size := slot.size + size }) with
          pendingBytes := p.pendingBytes + size }
    | _ => p

def wait (p : Provider) (key : SlotKey) (slot : StateSlot) (frame : StateOut) : Provider :=
  match frame with
  | .ops wire upTo => p.queueOps config key slot wire upTo
  | frame =>
    { p.setSlot key (.state { emptySlot with base := some frame }) with
      pendingBytes := p.pendingBytes - slot.size }

def sendState (p : Provider) (hold : ℕ) (m : Name) (frame : StateOut) :
    Provider :=
  let key := SlotKey.state hold m
  match Entries.get p.slots key with
  | none =>
    if p.full config then p.wait config key emptySlot frame
    else p.send config (.state hold m frame)
  | some .unit => p
  | some (.state slot) => p.wait config key slot frame

def dropState (p : Provider) (hold : ℕ) (m : Name) : Provider :=
  match Entries.get p.slots (.state hold m) with
  | some (.state slot) =>
    { p with
      slots := delete p.slots (.state hold m)
      pendingBytes := p.pendingBytes - slot.size }
  | _ => p

def holdBytes (slots : List (SlotKey × Slot)) (hold : ℕ) : ℕ :=
  (slots.map fun entry =>
    match entry.2 with
    | .state slot => if entry.1.hold = hold then slot.size else 0
    | .unit => 0).sum

def dropHoldState (p : Provider) (hold : ℕ) : Provider :=
  { p with
    slots := restrict p.slots fun key => key.hold ≠ hold
    pendingBytes := p.pendingBytes - holdBytes p.slots hold }

def setServed (p : Provider) (hold : ℕ) (served : Served) : Provider :=
  { p with served := Entries.set p.served hold served }

/-- Builds and sends a unit from the current shape and values. -/
def sendUnit (p : Provider) (hold : ℕ) : Provider :=
  let p := { p with slots := delete p.slots (.unit hold) }
  match Entries.get p.served hold with
  | none => p
  | some served =>
    match served.ref.shape with
    | none => p
    | some shape =>
      let served := { served with unitSent := true }
      let listed := (served.members shape).filter fun name => !Entries.has served.feeds name
      let attached := served.attachAll listed
      let p := p.setServed hold attached.1
      let p := p.send config (.shape hold shape (attached.2.map Prod.fst))
      p.sendAll config (attached.2.map fun snap => .state hold snap.1 snap.2)

/-- Sends a member again, now, as a reset from its current value. -/
def resend (p : Provider) (hold : ℕ) (m : Name) : Provider :=
  match Entries.get p.served hold with
  | none => p
  | some served =>
    if Entries.has served.feeds m then
      let served :=
        { served with feeds := delete served.feeds m }
      match served.attach m .reset with
      | none => p.setServed hold served
      | some (served, frame) => (p.setServed hold served).send config (.state hold m frame)
    else p

def slotFrames (slot : StateSlot) : List StateOut :=
  slot.base.toList ++
    if slot.ops = [] then [] else [.ops slot.ops slot.upTo]

def flushSlot (p : Provider) (key : SlotKey) (slot : Slot) : Provider :=
  let p := { p with slots := delete p.slots key }
  match key, slot with
  | .unit hold, _ => p.sendUnit config hold
  | .state hold m, .state slot =>
    let p := { p with pendingBytes := p.pendingBytes - slot.size }
    if slot.lazy then p.resend config hold m
    else p.sendAll config ((slotFrames slot).map (.state hold m))
  | .state _ _, .unit => p

/-- Sends waiting slots in creation order while the window allows. -/
def flushSome : ℕ → Provider → Provider
  | 0, p => p
  | n + 1, p =>
    if p.full config then p
    else
      match p.slots with
      | [] => p
      | (key, slot) :: _ => flushSome n (p.flushSlot config key slot)

def flush (p : Provider) : Provider :=
  flushSome config p.slots.length p

/-- Queues a hold's lazy unit; a waiting one already covers it. -/
def queueUnit (p : Provider) (hold : ℕ) : Provider :=
  let p :=
    if Entries.has p.slots (.unit hold) then p else p.setSlot (.unit hold) .unit
  p.flush config

def resetLater (p : Provider) (hold : ℕ) (m : Name) : Provider :=
  let key := SlotKey.state hold m
  match Entries.get p.slots key with
  | some .unit => p
  | some (.state slot) =>
    flush config
      { p.setSlot key (.state lazySlot) with
        pendingBytes := p.pendingBytes - slot.size }
  | none => (p.setSlot key (.state lazySlot)).flush config

def dropMembers (hold : ℕ) : List Name → Provider → Provider
  | [], p => p
  | name :: rest, p => dropMembers hold rest (p.dropState hold name)

def unit (p : Provider) (hold : ℕ) : Provider :=
  match Entries.get p.served hold with
  | none => p
  | some served =>
    match served.ref.shape with
    | none => p
    | some shape =>
      let members := served.members shape
      let left := (Entries.keys served.feeds).filter fun name => name ∉ members
      let feeds := restrict served.feeds fun name => name ∈ members
      let p := p.setServed hold { served with feeds := feeds }
      let p := dropMembers hold left p
      if feeds.isEmpty && !(served.again && !served.unitSent) then
        p.sendUnit config hold
      else p.queueUnit config hold

def dropServed (p : Provider) (id : ℕ) : Provider :=
  if Entries.has p.served id then
    { p with served := delete p.served id }.dropHoldState id
  else p

def violation (p : Provider) : Provider :=
  { p with violated := true }

def onHello (p : Provider) (acks : Bool) : Provider :=
  if p.peerAcks.isSome then p
  else if acks then { p with peerAcks := some true }
  else { p with peerAcks := some false, unacked := [], unackedBytes := 0 }

def onAck (p : Provider) (n : ℕ) : Provider :=
  if p.peerAcks ≠ some true ∨ n < p.acked ∨ p.sent < n then p.violation
  else
    let count := n - p.acked
    flush config
      { p with
        unacked := p.unacked.drop count
        unackedBytes := p.unackedBytes - (p.unacked.take count).sum
        acked := n }

def onHold (p : Provider) (id : ℕ) (contract : Contract)
    (acquired : Except ChordError Ref) (wantsState again : Bool) : Provider :=
  if Entries.has p.served id then p.violation
  else
    match acquired with
    | .error e => p.send config (.gone id e)
    | .ok ref =>
      let served : Served := ⟨contract, ref, wantsState, again, false, []⟩
      (p.setServed id served).unit config id

def onWantState (p : Provider) (hold : ℕ) (wanted : Bool) : Provider :=
  match Entries.get p.served hold with
  | none => p
  | some served =>
    if served.wantsState = wanted then p
    else if wanted then
      (p.setServed hold { served with wantsState := true }).unit config hold
    else
      (p.setServed hold { served with wantsState := false, feeds := [] }).dropHoldState hold

def onResync (p : Provider) (hold : ℕ) (m : Name) : Provider :=
  match Entries.get p.served hold with
  | none => p
  | some served =>
    if Entries.has served.feeds m then p.resetLater config hold m else p

/-- A batch of a member, or a reset; a member's batches are valid operations
that apply to its value. -/
def memberEvent (p : Provider) (hold : ℕ) (name : Name) (event : MemberEvent) : Provider :=
  match Entries.get p.served hold with
  | none => p
  | some served =>
    match Entries.get served.ref.values name with
    | none => p
    | some before =>
      match event.valueAfter before with
      | none => p
      | some value =>
        let served := served.setValue name value
        match Entries.get served.feeds name with
        | none => p.setServed hold served
        | some feed =>
          match event with
          | .ops ops =>
            let encoded := codec.encodeBatch feed.encoder ops
            (p.setServed hold (served.setFeed name ⟨encoded.1⟩)).sendState
              config hold name (.ops encoded.2 value)
          | .reset value =>
            (p.setServed hold (served.setFeed name ⟨encoder⟩)).sendState
              config hold name (served.snapshot name .reset value)

/-- The value of a member nobody listens to changes, or is no longer state. -/
def setIdle (p : Provider) (hold : ℕ) (name : Name) (value : Option JsonValue) : Provider :=
  match Entries.get p.served hold with
  | none => p
  | some served =>
    if Entries.has served.feeds name then p
    else
      match value with
      | some value => p.setServed hold (served.setValue name value)
      | none =>
        let values := delete served.ref.values name
        p.setServed hold { served with ref := { served.ref with values := values } }

def reshape (p : Provider) (hold : ℕ) (shape : Shape)
    (validateSnapshot : Name → JsonValue → Option ChordError) : Provider :=
  match Entries.get p.served hold with
  | none => p
  | some served =>
    let ref :=
      { served.ref with
        shape := some shape, validateSnapshot := validateSnapshot }
    (p.setServed hold { served with ref := ref }).unit config hold

def refGone (p : Provider) (hold : ℕ) (error : ChordError) : Provider :=
  if Entries.has p.served hold then
    (p.dropServed hold).send config (.gone hold error)
  else p

end Sending

end Provider

end PiEmbodied.Chord
