import PiEmbodied.Chord.Connection
import PiEmbodied.Totals

/-!
# Flow control

What one end of a link counts: the frames it sent and the peer acknowledged,
and the bytes of operations that wait.  A waiting stream whose operations are
dropped recovers by a reset built at flush, or, on a relay, by one asked of the
provider.  What the callbacks of a flush do is left open: they may send and
queue anything.
-/

namespace PiEmbodied.Chord.Flow

open Entries (nodup_keys_set total_delete total_set weightOf)

section Definitions

variable {F O : Type}

/-! ## What waits -/

/-- How a waiting stream recovers when its operations are dropped. -/
inductive Overflow where
  | resend | resync
deriving DecidableEq

structure Waiting (F O : Type) where
  base : Option F
  ops : List O
  size : ℕ
  lazy : Bool
  overflow : Overflow

inductive Slot (F O : Type) where
  | unit
  | state (slot : Waiting F O)

def Slot.bytes : Slot F O → ℕ
  | .unit => 0
  | .state slot => slot.size

/-- A state frame on its way: operations, or what replaces them. -/
inductive StateFrame (F O : Type) where
  | ops (ops : List O)
  | other (frame : F)

structure Limits (F O : Type) where
  /-- No bound is `Infinity`. -/
  (window pendingCap : Option ℕ)
  /-- What the link reports for a frame. -/
  size : F → ℕ
  /-- `JSON.stringify(ops).length` -/
  opsSize : List O → ℕ
  /-- `{ t: "state", hold, m, as: "ops", ops }` -/
  opsFrame : ℕ → Name → List O → F

def Limits.frame (limits : Limits F O) (hold : ℕ) (m : Name) : StateFrame F O → F
  | .ops ops => limits.opsFrame hold m ops
  | .other frame => frame

structure Sender (F O : Type) where
  peerAcks : Option Bool
  (sent acked : ℕ)
  unacked : List ℕ
  unackedBytes : ℤ
  pending : List (SlotKey × Slot F O)
  pendingBytes : ℤ
  /-- The streams a relay asked for again downstream. -/
  resyncs : List (ℕ × Name)
  /-- The frames the peer has not received. -/
  wire : List F
  violated : Bool

def newSender : Sender F O where
  peerAcks := none
  sent := 0
  acked := 0
  unacked := []
  unackedBytes := 0
  pending := []
  pendingBytes := 0
  resyncs := []
  wire := []
  violated := false

namespace Sender

variable (limits : Limits F O)

def full (s : Sender F O) : Bool :=
  s.peerAcks = some true && limits.window.any fun window => (window : ℤ) ≤ s.unackedBytes

def send (s : Sender F O) (frame : F) : Sender F O :=
  let s := { s with wire := s.wire ++ [frame] }
  if s.peerAcks = some false then s
  else
    { s with
      sent := s.sent + 1
      unacked := s.unacked ++ [limits.size frame]
      unackedBytes := s.unackedBytes + limits.size frame }

/-! ## Slots -/

def setSlot (s : Sender F O) (key : SlotKey) (slot : Waiting F O) :
    Sender F O :=
  { s with pending := Entries.set s.pending key (.state slot) }

def emptied (slot : Waiting F O) (lazy : Bool) : Waiting F O :=
  { slot with base := none, ops := [], size := 0, lazy := lazy }

def uncount (s : Sender F O) (slot : Slot F O) : Sender F O :=
  { s with pendingBytes := s.pendingBytes - slot.bytes }

def remove (s : Sender F O) (key : SlotKey) : Sender F O :=
  { s with pending := Entries.delete s.pending key }

/-- Drops what waits for a stream: a lazy reset replaces it, or the relay asks
downstream for one. -/
def drop (s : Sender F O) (key : SlotKey) : Sender F O :=
  match key, Entries.get s.pending key with
  | .state hold m, some (.state slot) =>
    let uncounted := s.uncount (.state slot)
    match slot.overflow with
    | .resend => uncounted.setSlot key (emptied slot true)
    | .resync =>
      { uncounted.remove key with
        resyncs := s.resyncs ++ [(hold, m)] }
  | _, _ => s

def «over» (s : Sender F O) (size : ℕ) : Bool :=
  limits.pendingCap.any fun cap => (cap : ℤ) < s.pendingBytes + size

def holdsOps (s : Sender F O) (key : SlotKey) : Bool :=
  match Entries.get s.pending key with
  | some (.state slot) => 0 < slot.size
  | _ => false

/-- Replaces the oldest waiting streams until `size` more bytes fit. -/
def makeRoomAmong (size : ℕ) (current : SlotKey) : List SlotKey → Sender F O → Sender F O
  | [], s => s
  | key :: rest, s =>
    if s.over limits size then
      makeRoomAmong size current rest (if key ≠ current ∧ s.holdsOps key then s.drop key else s)
    else s

def makeRoom (s : Sender F O) (size : ℕ) (current : SlotKey) : Sender F O :=
  let s := makeRoomAmong limits size current (Entries.keys s.pending) s
  if s.over limits size then s.drop current else s

def append (s : Sender F O) (key : SlotKey) (ops : List O) : Sender F O :=
  match Entries.get s.pending key with
  | some (.state slot) =>
    if slot.lazy then s
    else
      let size := limits.opsSize ops
      { s.setSlot key
          { slot with ops := slot.ops ++ ops, size := slot.size + size } with
        pendingBytes := s.pendingBytes + size }
  | _ => s

def wait (s : Sender F O) (key : SlotKey) (slot : Waiting F O)
    (frame : StateFrame F O) : Sender F O :=
  match frame with
  | .other frame =>
    (s.uncount (.state slot)).setSlot key { emptied slot false with base := some frame }
  | .ops ops =>
    -- a reset built at flush already covers these operations
    if slot.lazy then s
    else
      let size := limits.opsSize ops
      let roomy :=
        if s.over limits size then s.makeRoom limits size key else s
      roomy.append limits key ops

def fresh (overflow : Overflow) : Waiting F O where
  base := none
  ops := []
  size := 0
  lazy := false
  overflow := overflow

def sendState (s : Sender F O) (hold : ℕ) (m : Name)
    (frame : StateFrame F O) (overflow : Overflow) : Sender F O :=
  let key := SlotKey.state hold m
  match Entries.get s.pending key with
  | none =>
    if s.full limits then
      (s.setSlot key (fresh overflow)).wait limits key (fresh overflow) frame
    else s.send limits (limits.frame hold m frame)
  | some .unit => s
  | some (.state slot) => s.wait limits key slot frame

/-- `resetLater`, before it flushes. -/
def markLazy (s : Sender F O) (hold : ℕ) (m : Name) : Sender F O :=
  let key := SlotKey.state hold m
  match Entries.get s.pending key with
  | some .unit => s
  | none => s.setSlot key (emptied (fresh .resend) true)
  | some (.state slot) => (s.uncount (.state slot)).setSlot key (emptied slot true)

/-- `queueUnit`, before it flushes. -/
def addUnit (s : Sender F O) (hold : ℕ) : Sender F O :=
  if Entries.has s.pending (.unit hold) then s
  else { s with pending := Entries.set s.pending (.unit hold) .unit }

def dropState (s : Sender F O) (hold : ℕ) (m : Name) : Sender F O :=
  match Entries.get s.pending (.state hold m) with
  | some (.state slot) => (s.uncount (.state slot)).remove (.state hold m)
  | _ => s

/-- `sendUnit` forgets the unit that waits; a key of a unit has no state. -/
def dropUnit (s : Sender F O) (hold : ℕ) : Sender F O :=
  match Entries.get s.pending (.unit hold) with
  | some .unit => s.remove (.unit hold)
  | _ => s

def dropHoldState (s : Sender F O) (hold : ℕ) : Sender F O :=
  let gone := s.pending.filter fun entry => entry.1.hold = hold
  { s with
    pending := s.pending.filter fun entry => !decide (entry.1.hold = hold)
    pendingBytes := s.pendingBytes - Entries.total Slot.bytes gone }

def closed (s : Sender F O) : Sender F O :=
  { s with pending := [], pendingBytes := 0, wire := [] }

def take (s : Sender F O) (key : SlotKey) (slot : Slot F O) : Sender F O :=
  (s.remove key).uncount slot

/-- Sends what a slot held; a unit and a lazy reset are built by a callback. -/
def flushSlot (callback : SlotKey → Sender F O → Sender F O)
    (s : Sender F O) (key : SlotKey) (slot : Slot F O) : Sender F O :=
  let taken := s.take key slot
  match key, slot with
  | _, .unit => callback key taken
  | .unit _, .state _ => taken
  | .state hold m, .state slot =>
    if slot.lazy then
      match slot.overflow with
      | .resend => callback key taken
      | .resync => taken
    else
      let based :=
        match slot.base with
        | some frame => taken.send limits frame
        | none => taken
      if slot.ops.isEmpty then based
      else based.send limits (limits.opsFrame hold m slot.ops)

/-- Sends waiting slots in creation order while the window allows, for at most
`n` slots. -/
def flush (callback : SlotKey → Sender F O → Sender F O) : ℕ → Sender F O → Sender F O
  | 0, s => s
  | n + 1, s =>
    if s.full limits then s
    else
      match s.pending with
      | [] => s
      | (key, slot) :: _ => flush callback n (flushSlot limits callback s key slot)

def onHello (s : Sender F O) (acks : Bool) : Sender F O :=
  if s.peerAcks.isSome then s
  else if acks then { s with peerAcks := some true }
  else { s with peerAcks := some false, unacked := [], unackedBytes := 0 }

/-- The peer may only acknowledge frames that were sent, and more each
time. -/
def refuses (s : Sender F O) (n : ℕ) : Bool :=
  decide (s.peerAcks ≠ some true ∨ n < s.acked ∨ s.sent < n)

def acknowledge (s : Sender F O) (n : ℕ) : Sender F O :=
  let count := n - s.acked
  { s with
    unacked := s.unacked.drop count
    unackedBytes := s.unackedBytes - (s.unacked.take count).sum
    acked := n }

def onAck (callback : SlotKey → Sender F O → Sender F O) (slots : ℕ)
    (s : Sender F O) (n : ℕ) : Sender F O :=
  if s.refuses n then { s with violated := true }
  else (s.acknowledge n).flush limits callback slots

end Sender

/-- What the sender's own code can lead to.  A flush takes slots out and then
does anything at all, as its callbacks may. -/
inductive Runs (limits : Limits F O) : Sender F O → Sender F O → Prop
  | refl (s : Sender F O) : Runs limits s s
  | trans {s t u : Sender F O} : Runs limits s t → Runs limits t u →
      Runs limits s u
  | send (s : Sender F O) (frame : F) : Runs limits s (s.send limits frame)
  | sendState (s : Sender F O) (hold : ℕ) (m : Name)
      (frame : StateFrame F O) (overflow : Overflow) :
      Runs limits s (s.sendState limits hold m frame overflow)
  | markLazy (s : Sender F O) (hold : ℕ) (m : Name) :
      Runs limits s (s.markLazy hold m)
  | addUnit (s : Sender F O) (hold : ℕ) : Runs limits s (s.addUnit hold)
  | forgetUnit (s : Sender F O) (hold : ℕ) :
      Runs limits s (s.dropUnit hold)
  | dropState (s : Sender F O) (hold : ℕ) (m : Name) :
      Runs limits s (s.dropState hold m)
  | dropHoldState (s : Sender F O) (hold : ℕ) :
      Runs limits s (s.dropHoldState hold)
  | take (s : Sender F O) (key : SlotKey) (slot : Slot F O)
      (rest : List (SlotKey × Slot F O))
      (first : s.pending = (key, slot) :: rest) :
      Runs limits s (s.take key slot)
  | closed (s : Sender F O) : Runs limits s s.closed

structure Accounted (limits : Limits F O) (s : Sender F O) : Prop where
  keys : (Entries.keys s.pending).Nodup
  pending : s.pendingBytes = Entries.total Slot.bytes s.pending
  capped : ∀ cap, limits.pendingCap = some cap → s.pendingBytes ≤ cap
  unacked : s.unackedBytes = s.unacked.sum
  /-- A peer that does not acknowledge is not counted any more. -/
  counted : s.peerAcks ≠ some false → s.acked + s.unacked.length = s.sent

/-! ## Both ends -/

inductive Back where
  | hello (acks : Bool)
  | ack (n : ℕ)
deriving DecidableEq

def Back.number : Back → Option ℕ
  | .hello _ => none
  | .ack n => some n

structure Line (F O : Type) where
  sender : Sender F O
  /-- Whether the receiving end acknowledges. -/
  acks : Bool
  /-- The receiving end's count of frames. -/
  received : ℕ
  back : List Back

def startLine (acks : Bool) : Line F O where
  sender := newSender
  acks := acks
  received := 0
  back := [.hello acks]

def Line.numbers (line : Line F O) : List ℕ :=
  line.back.filterMap Back.number

def Calls (limits : Limits F O) (callback : SlotKey → Sender F O → Sender F O) : Prop :=
  ∀ key s, Runs limits s (callback key s)

inductive LineStep (limits : Limits F O) : Line F O → Line F O → Prop
  | acts (line : Line F O) (sender : Sender F O)
      (runs : Runs limits line.sender sender) :
      LineStep limits line { line with sender := sender }
  | delivers (line : Line F O) (frame : F) (rest : List F)
      (first : line.sender.wire = frame :: rest) :
      LineStep limits line
        { line with
          sender := { line.sender with wire := rest }
          received := line.received + 1 }
  /-- The timer of `scheduleAck`. -/
  | acknowledges (line : Line F O) (supports : line.acks = true) :
      LineStep limits line { line with back := line.back ++ [.ack line.received] }
  | greeted (line : Line F O) (acks : Bool) (rest : List Back)
      (first : line.back = .hello acks :: rest) :
      LineStep limits line { line with sender := line.sender.onHello acks, back := rest }
  | acked (line : Line F O) (n : ℕ) (rest : List Back)
      (callback : SlotKey → Sender F O → Sender F O)
      (calls : Calls limits callback) (slots : ℕ)
      (first : line.back = .ack n :: rest) :
      LineStep limits line
        { line with
          sender := line.sender.onAck limits callback slots n, back := rest }

structure Flows (limits : Limits F O) (line : Line F O) : Prop where
  accounted : Accounted limits line.sender
  /-- No acknowledgement is of more than was sent. -/
  acknowledged : ∀ n ∈ line.numbers, n ≤ line.sender.sent
  respected : line.sender.violated = false

end Definitions

section

variable {F O : Type} {limits : Limits F O} {s : Sender F O}

theorem accounted_new : Accounted limits (newSender : Sender F O) where
  keys := List.nodup_nil
  pending := rfl
  capped := fun cap _ => Int.natCast_nonneg cap
  unacked := rfl
  counted := fun _ => rfl

theorem accounted_send (accounted : Accounted limits s) (frame : F) :
    Accounted limits (s.send limits frame) := by
  simp only [Sender.send]
  split_ifs with silent
  · exact { accounted with counted := fun acks => (acks silent).elim }
  · exact
      { accounted with
        unacked := by simp [accounted.unacked]
        counted := by
          intro acks
          have counted := accounted.counted acks
          simp only [List.length_append, List.length_singleton]
          omega }

theorem accounted_setSlot (accounted : Accounted limits s) (key : SlotKey)
    (slot : Waiting F O) (bytes : ℤ)
    (follows : bytes + weightOf Slot.bytes s.pending key = s.pendingBytes + slot.size)
    (capped : ∀ cap, limits.pendingCap = some cap → bytes ≤ cap) :
    Accounted limits { s.setSlot key slot with pendingBytes := bytes } where
  keys := nodup_keys_set accounted.keys key _
  pending := by
    have total := total_set Slot.bytes accounted.keys key (.state slot)
    have before := accounted.pending
    simp only [Slot.bytes] at total
    simp only [Sender.setSlot]
    omega
  capped := capped
  unacked := accounted.unacked
  counted := accounted.counted

theorem accounted_remove (accounted : Accounted limits s) (key : SlotKey) (bytes : ℤ)
    (follows : bytes + weightOf Slot.bytes s.pending key = s.pendingBytes) :
    Accounted limits { s.remove key with pendingBytes := bytes } where
  keys := Entries.nodup_keys_delete accounted.keys key
  pending := by
    have total := total_delete Slot.bytes accounted.keys key
    have before := accounted.pending
    simp only [Sender.remove]
    omega
  capped := by
    intro cap isCap
    have within := accounted.capped cap isCap
    simp only
    omega
  unacked := accounted.unacked
  counted := accounted.counted

/-! ## Room -/

variable {key : SlotKey} {slot : Slot F O}

theorem weightOf_eq {pending : List (SlotKey × Slot F O)}
    (found : Entries.get pending key = some slot) :
    weightOf Slot.bytes pending key = slot.bytes := by
  simp [weightOf, found]

theorem accounted_emptied (accounted : Accounted limits s) {slot : Waiting F O}
    (found : Entries.get s.pending key = some (.state slot))
    {emptied : Waiting F O} (empty : emptied.size = 0) :
    Accounted limits ((s.uncount (.state slot)).setSlot key emptied) := by
  have weight : weightOf Slot.bytes s.pending key = slot.size := weightOf_eq found
  apply accounted_setSlot accounted key emptied
  · simp only [weight, empty, Sender.uncount, Slot.bytes]
    omega
  · intro cap isCap
    have within := accounted.capped cap isCap
    simp only [Sender.uncount, Slot.bytes]
    omega

theorem accounted_taken (accounted : Accounted limits s)
    (found : Entries.get s.pending key = some slot) :
    Accounted limits ((s.uncount slot).remove key) := by
  apply accounted_remove accounted key
  rw [weightOf_eq found]
  simp only [Sender.uncount]
  omega

theorem accounted_drop (accounted : Accounted limits s) (key : SlotKey) :
    Accounted limits (s.drop key) := by
  cases key with
  | unit hold => exact accounted
  | state hold m =>
    cases found : Entries.get s.pending (.state hold m) with
    | none => simpa only [Sender.drop, found] using accounted
    | some slot =>
      cases slot with
      | unit => simpa only [Sender.drop, found] using accounted
      | state slot =>
        cases recovers : slot.overflow with
        | resend =>
          simp only [Sender.drop, found, recovers]
          exact accounted_emptied accounted found rfl
        | resync =>
          simp only [Sender.drop, found, recovers]
          exact { accounted_taken accounted found with }

theorem accounted_makeRoomAmong (size : ℕ) (current : SlotKey)
    (order : List SlotKey) (accounted : Accounted limits s) :
    Accounted limits (Sender.makeRoomAmong limits size current order s) := by
  induction order generalizing s with
  | nil => exact accounted
  | cons key rest ih =>
    simp only [Sender.makeRoomAmong]
    split_ifs
    · exact ih (accounted_drop accounted key)
    · exact ih accounted
    · exact accounted

theorem accounted_makeRoom (accounted : Accounted limits s) (size : ℕ) (current : SlotKey) :
    Accounted limits (s.makeRoom limits size current) := by
  have among := accounted_makeRoomAmong size current (Entries.keys s.pending) accounted
  simp only [Sender.makeRoom]
  split_ifs
  · exact accounted_drop among current
  · exact among

/-- What room was made for either fits, or its stream recovers by a reset. -/
def Roomy (limits : Limits F O) (s : Sender F O) (size : ℕ) (key : SlotKey) :
    Prop :=
  s.over limits size = false ∨
    ∀ slot, Entries.get s.pending key = some (.state slot) → slot.lazy = true

theorem drop_roomy (s : Sender F O) (size : ℕ) (hold : ℕ) (m : Name) :
    Roomy limits (s.drop (.state hold m)) size (.state hold m) := by
  refine .inr fun waiting isWaiting => ?_
  cases found : Entries.get s.pending (.state hold m) with
  | none => simp [Sender.drop, found] at isWaiting
  | some slot =>
    cases slot with
    | unit => simp [Sender.drop, found] at isWaiting
    | state slot =>
      cases recovers : slot.overflow with
      | resend =>
        simp only [Sender.drop, found, recovers, Sender.setSlot,
          Entries.get_set, if_true, Option.some.injEq,
          Slot.state.injEq] at isWaiting
        rw [← isWaiting]
        rfl
      | resync => simp [Sender.drop, found, recovers, Sender.remove] at isWaiting

theorem makeRoom_roomy (s : Sender F O) (size : ℕ) (hold : ℕ) (m : Name) :
    Roomy limits (s.makeRoom limits size (.state hold m)) size (.state hold m) := by
  simp only [Sender.makeRoom]
  split_ifs with exceeds
  · exact drop_roomy _ size hold m
  · exact .inl (by simpa using exceeds)

theorem accounted_append (accounted : Accounted limits s) {hold : ℕ} {m : Name} {ops : List O}
    (roomy : Roomy limits s (limits.opsSize ops) (.state hold m)) :
    Accounted limits (s.append limits (.state hold m) ops) := by
  unfold Sender.append
  cases found : Entries.get s.pending (.state hold m) with
  | none => exact accounted
  | some slot =>
    cases slot with
    | unit => exact accounted
    | state slot =>
      simp only
      split_ifs with lazily
      · exact accounted
      have fits : s.over limits (limits.opsSize ops) = false := by
        rcases roomy with fits | recovers
        · exact fits
        · exact (lazily (recovers slot found)).elim
      apply accounted_setSlot accounted (.state hold m)
      · rw [weightOf_eq found]
        simp only [Slot.bytes]
        omega
      · intro cap isCap
        simpa [Sender.over, isCap] using fits

/-! ## The operations -/

theorem accounted_wait (accounted : Accounted limits s) {hold : ℕ} {m : Name} {slot : Waiting F O}
    (found : Entries.get s.pending (.state hold m) = some (.state slot)) (frame : StateFrame F O) :
    Accounted limits (s.wait limits (.state hold m) slot frame) := by
  cases frame with
  | other frame => exact accounted_emptied accounted found rfl
  | ops ops =>
    simp only [Sender.wait]
    split_ifs with lazily exceeds
    · exact accounted
    · exact accounted_append (accounted_makeRoom accounted _ _) (makeRoom_roomy s _ hold m)
    · exact accounted_append accounted (.inl (by simpa using exceeds))

theorem accounted_fresh (accounted : Accounted limits s) (absent : Entries.get s.pending key = none)
    {slot : Waiting F O} (empty : slot.size = 0) : Accounted limits (s.setSlot key slot) := by
  apply accounted_setSlot accounted key slot
  · simp [weightOf, absent, empty]
  · exact accounted.capped

theorem accounted_sendState (accounted : Accounted limits s) (hold : ℕ)
    (m : Name) (frame : StateFrame F O) (overflow : Overflow) :
    Accounted limits (s.sendState limits hold m frame overflow) := by
  cases found : Entries.get s.pending (.state hold m) with
  | none =>
    simp only [Sender.sendState, found]
    split_ifs
    · refine accounted_wait (accounted_fresh accounted found rfl) ?_ frame
      simp [Sender.setSlot]
    · exact accounted_send accounted _
  | some slot =>
    cases slot with
    | unit => simpa only [Sender.sendState, found] using accounted
    | state slot =>
      simp only [Sender.sendState, found]
      exact accounted_wait accounted found frame

theorem accounted_markLazy (accounted : Accounted limits s) (hold : ℕ)
    (m : Name) : Accounted limits (s.markLazy hold m) := by
  cases found : Entries.get s.pending (.state hold m) with
  | none =>
    simp only [Sender.markLazy, found]
    exact accounted_fresh accounted found rfl
  | some slot =>
    cases slot with
    | unit => simpa only [Sender.markLazy, found] using accounted
    | state slot =>
      simp only [Sender.markLazy, found]
      exact accounted_emptied accounted found rfl

theorem accounted_addUnit (accounted : Accounted limits s) (hold : ℕ) :
    Accounted limits (s.addUnit hold) := by
  unfold Sender.addUnit
  split_ifs with present
  · exact accounted
  · have absent : Entries.get s.pending (.unit hold) = none := by
      simpa [Entries.has] using present
    have total := total_set Slot.bytes accounted.keys (.unit hold) .unit
    simp only [weightOf, absent, Option.map_none, Option.getD_none,
      Slot.bytes, add_zero] at total
    exact
      { accounted with
        keys := nodup_keys_set accounted.keys _ _
        pending := by
          simp only [total]
          exact accounted.pending }

theorem accounted_dropUnit (accounted : Accounted limits s) (hold : ℕ) :
    Accounted limits (s.dropUnit hold) := by
  unfold Sender.dropUnit
  cases found : Entries.get s.pending (.unit hold) with
  | none => exact accounted
  | some slot =>
    cases slot with
    | state slot => exact accounted
    | unit =>
      apply accounted_remove accounted (.unit hold)
      simp [weightOf_eq found, Slot.bytes]

theorem accounted_dropState (accounted : Accounted limits s) (hold : ℕ)
    (m : Name) : Accounted limits (s.dropState hold m) := by
  unfold Sender.dropState
  cases found : Entries.get s.pending (.state hold m) with
  | none => exact accounted
  | some slot =>
    cases slot with
    | unit => exact accounted
    | state slot => exact accounted_taken accounted found

theorem accounted_dropHoldState (accounted : Accounted limits s) (hold : ℕ) :
    Accounted limits (s.dropHoldState hold) := by
  have total :=
    Entries.total_filter_add Slot.bytes (fun entry => decide (entry.1.hold = hold)) s.pending
  have before := accounted.pending
  exact
    { accounted with
      keys := accounted.keys.sublist (List.Sublist.map Prod.fst List.filter_sublist)
      pending := by
        simp only [Sender.dropHoldState]
        omega
      capped := by
        intro cap isCap
        have within := accounted.capped cap isCap
        simp only [Sender.dropHoldState]
        omega }

theorem accounted_take (accounted : Accounted limits s) {rest : List (SlotKey × Slot F O)}
    (first : s.pending = (key, slot) :: rest) : Accounted limits (s.take key slot) := by
  have found : Entries.get s.pending key = some slot := by rw [first, Entries.get_cons, if_pos rfl]
  exact accounted_taken accounted found

theorem accounted_closed (accounted : Accounted limits s) : Accounted limits s.closed :=
  { accounted with
    keys := List.nodup_nil
    pending := rfl
    capped := fun cap _ => Int.natCast_nonneg cap }

variable {t : Sender F O}

theorem accounted_runs (runs : Runs limits s t) (accounted : Accounted limits s) :
    Accounted limits t := by
  induction runs with
  | refl => exact accounted
  | trans _ _ first second => exact second (first accounted)
  | send s frame => exact accounted_send accounted frame
  | sendState s hold m frame overflow => exact accounted_sendState accounted hold m frame overflow
  | markLazy s hold m => exact accounted_markLazy accounted hold m
  | addUnit s hold => exact accounted_addUnit accounted hold
  | forgetUnit s hold => exact accounted_dropUnit accounted hold
  | dropState s hold m => exact accounted_dropState accounted hold m
  | dropHoldState s hold => exact accounted_dropHoldState accounted hold
  | take s key slot rest first => exact accounted_take accounted first
  | closed s => exact accounted_closed accounted

variable {callback : SlotKey → Sender F O → Sender F O}

theorem flushSlot_runs (calls : Calls limits callback) {rest : List (SlotKey × Slot F O)}
    (first : s.pending = (key, slot) :: rest) :
    Runs limits s (Sender.flushSlot limits callback s key slot) := by
  have taken : Runs limits s (s.take key slot) := .take s key slot rest first
  cases slot with
  | unit => cases key <;> exact taken.trans (calls _ _)
  | state slot =>
    cases key with
    | unit hold => exact taken
    | state hold m =>
      simp only [Sender.flushSlot]
      split_ifs with lazily empty
      · cases slot.overflow with
        | resend => exact taken.trans (calls _ _)
        | resync => exact taken
      · cases slot.base with
        | none => exact taken
        | some frame => exact taken.trans (.send _ frame)
      · cases slot.base with
        | none => exact taken.trans (.send _ _)
        | some frame => exact (taken.trans (.send _ frame)).trans (.send _ _)

theorem flush_runs (calls : Calls limits callback) (n : ℕ) (s : Sender F O) :
    Runs limits s (s.flush limits callback n) := by
  induction n generalizing s with
  | zero => exact .refl s
  | succ n ih =>
    simp only [Sender.flush]
    split_ifs
    · exact .refl s
    · cases first : s.pending with
      | nil => exact .refl s
      | cons entry rest => exact (flushSlot_runs calls first).trans (ih _)

theorem accounted_onHello (accounted : Accounted limits s) (acks : Bool) :
    Accounted limits (s.onHello acks) := by
  unfold Sender.onHello
  split_ifs with known supports
  · exact accounted
  · have unknown : s.peerAcks ≠ some false := by
      intro silent
      simp [silent] at known
    exact { accounted with counted := fun _ => accounted.counted unknown }
  · exact
      { accounted with
        unacked := rfl
        counted := fun acks => (acks rfl).elim }

variable {n : ℕ}

theorem accepted_of_not_refuses (accepts : s.refuses n = false) :
    s.peerAcks = some true ∧ s.acked ≤ n ∧ n ≤ s.sent := by
  simp only [Sender.refuses, decide_eq_false_iff_not, not_or, not_not, not_lt] at accepts
  exact accepts

theorem accounted_acknowledge (accounted : Accounted limits s) (accepts : s.refuses n = false) :
    Accounted limits (s.acknowledge n) := by
  obtain ⟨acks, more, sent⟩ := accepted_of_not_refuses accepts
  have counted := accounted.counted (by simp [acks])
  have split := List.sum_take_add_sum_drop s.unacked (n - s.acked)
  exact
    { accounted with
      unacked := by
        have before := accounted.unacked
        simp only [Sender.acknowledge]
        omega
      counted := by
        intro _
        simp only [Sender.acknowledge, List.length_drop]
        omega }

/-! ## What a run leaves alone -/

/-- What the sender's own code does to what the peer sees: it only sends. -/
structure Carries (s t : Sender F O) : Prop where
  peerAcks : t.peerAcks = s.peerAcks
  violated : t.violated = s.violated
  acked : t.acked = s.acked
  sent : s.peerAcks ≠ some false → s.sent ≤ t.sent ∧ t.wire.length + s.sent ≤ s.wire.length + t.sent

theorem Carries.refl (s : Sender F O) : Carries s s where
  peerAcks := rfl
  violated := rfl
  acked := rfl
  sent := fun _ => ⟨le_rfl, le_rfl⟩

theorem Carries.trans {s u : Sender F O} (first : Carries s t) (second : Carries t u) :
    Carries s u where
  peerAcks := second.peerAcks.trans first.peerAcks
  violated := second.violated.trans first.violated
  acked := second.acked.trans first.acked
  sent := by
    intro acks
    obtain ⟨more, wire⟩ := first.sent acks
    obtain ⟨later, laterWire⟩ := second.sent (first.peerAcks ▸ acks)
    omega

theorem carries_send (s : Sender F O) (frame : F) : Carries s (s.send limits frame) := by
  simp only [Sender.send]
  split_ifs with silent
  · exact ⟨rfl, rfl, rfl, fun acks => (acks silent).elim⟩
  · refine ⟨rfl, rfl, rfl, fun _ => ⟨Nat.le_succ _, ?_⟩⟩
    simp only [List.length_append, List.length_singleton]
    omega

theorem carries_of_same {s : Sender F O} (peerAcks : t.peerAcks = s.peerAcks)
    (violated : t.violated = s.violated) (acked : t.acked = s.acked)
    (sent : t.sent = s.sent) (wire : t.wire = s.wire) : Carries s t where
  peerAcks := peerAcks
  violated := violated
  acked := acked
  sent := by
    intro _
    rw [sent, wire]
    exact ⟨le_rfl, le_rfl⟩

theorem carries_drop (s : Sender F O) (key : SlotKey) : Carries s (s.drop key) := by
  cases key with
  | unit hold => exact .refl s
  | state hold m =>
    cases found : Entries.get s.pending (.state hold m) with
    | none => simpa only [Sender.drop, found] using Carries.refl s
    | some slot =>
      cases slot with
      | unit => simpa only [Sender.drop, found] using Carries.refl s
      | state slot =>
        cases recovers : slot.overflow <;>
          simp only [Sender.drop, found, recovers] <;>
          exact carries_of_same rfl rfl rfl rfl rfl

theorem carries_makeRoomAmong (size : ℕ) (current : SlotKey)
    (order : List SlotKey) (s : Sender F O) :
    Carries s (Sender.makeRoomAmong limits size current order s) := by
  induction order generalizing s with
  | nil => exact .refl s
  | cons key rest ih =>
    simp only [Sender.makeRoomAmong]
    split_ifs
    · exact (carries_drop s key).trans (ih _)
    · exact ih s
    · exact .refl s

theorem carries_makeRoom (s : Sender F O) (size : ℕ) (current : SlotKey) :
    Carries s (s.makeRoom limits size current) := by
  have among : Carries s (Sender.makeRoomAmong limits size current (Entries.keys s.pending) s) :=
    carries_makeRoomAmong size current (Entries.keys s.pending) s
  simp only [Sender.makeRoom]
  split_ifs
  · exact among.trans (carries_drop _ current)
  · exact among

theorem carries_append (s : Sender F O) (key : SlotKey) (ops : List O) :
    Carries s (s.append limits key ops) := by
  unfold Sender.append
  split
  · split_ifs
    · exact .refl s
    · exact carries_of_same rfl rfl rfl rfl rfl
  · exact .refl s

theorem carries_wait (s : Sender F O) (key : SlotKey) (slot : Waiting F O)
    (frame : StateFrame F O) : Carries s (s.wait limits key slot frame) := by
  cases frame with
  | other frame => exact carries_of_same rfl rfl rfl rfl rfl
  | ops ops =>
    simp only [Sender.wait]
    split_ifs
    · exact .refl s
    · exact (carries_makeRoom s _ key).trans (carries_append _ key ops)
    · exact carries_append s key ops

theorem carries_sendState (s : Sender F O) (hold : ℕ) (m : Name)
    (frame : StateFrame F O) (overflow : Overflow) :
    Carries s (s.sendState limits hold m frame overflow) := by
  simp only [Sender.sendState]
  split
  · split_ifs
    · have placed : Carries s (s.setSlot (.state hold m) (Sender.fresh overflow)) :=
        carries_of_same rfl rfl rfl rfl rfl
      exact placed.trans (carries_wait _ _ _ frame)
    · exact carries_send s _
  · exact .refl s
  · exact carries_wait s _ _ frame

theorem carries_markLazy (s : Sender F O) (hold : ℕ) (m : Name) :
    Carries s (s.markLazy hold m) := by
  simp only [Sender.markLazy]
  split <;> exact carries_of_same rfl rfl rfl rfl rfl

theorem carries_addUnit (s : Sender F O) (hold : ℕ) : Carries s (s.addUnit hold) := by
  unfold Sender.addUnit
  split_ifs <;> exact carries_of_same rfl rfl rfl rfl rfl

theorem carries_dropUnit (s : Sender F O) (hold : ℕ) : Carries s (s.dropUnit hold) := by
  unfold Sender.dropUnit
  split <;> exact carries_of_same rfl rfl rfl rfl rfl

theorem carries_dropState (s : Sender F O) (hold : ℕ) (m : Name) :
    Carries s (s.dropState hold m) := by
  unfold Sender.dropState
  split <;> exact carries_of_same rfl rfl rfl rfl rfl

theorem carries_closed (s : Sender F O) : Carries s s.closed where
  peerAcks := rfl
  violated := rfl
  acked := rfl
  sent := by
    intro _
    simp [Sender.closed]

theorem carries_runs (runs : Runs limits s t) : Carries s t := by
  induction runs with
  | refl s => exact .refl s
  | trans _ _ first second => exact first.trans second
  | send s frame => exact carries_send s frame
  | sendState s hold m frame overflow => exact carries_sendState s hold m frame overflow
  | markLazy s hold m => exact carries_markLazy s hold m
  | addUnit s hold => exact carries_addUnit s hold
  | forgetUnit s hold => exact carries_dropUnit s hold
  | dropState s hold m => exact carries_dropState s hold m
  | dropHoldState s hold | take s key slot rest first => exact carries_of_same rfl rfl rfl rfl rfl
  | closed s => exact carries_closed s

/-! ## Both ends -/

structure Sound (limits : Limits F O) (line : Line F O) : Prop where
  accounted : Accounted limits line.sender
  respected : line.sender.violated = false
  /-- What was received and what is on the wire was sent. -/
  carried : line.sender.peerAcks ≠ some false →
    line.received + line.sender.wire.length ≤ line.sender.sent
  /-- Acknowledgements arrive in order, up to what was received. -/
  ordered : (line.sender.acked :: (line.numbers ++ [line.received])).Pairwise (· ≤ ·)
  /-- A hello comes before them; a peer without them sends none. -/
  greets :
    (line.sender.peerAcks = none ∧
        ∃ rest, line.back = .hello line.acks :: rest ∧ ∀ acks, Back.hello acks ∉ rest) ∨
      (line.sender.peerAcks = some line.acks ∧ ∀ acks, Back.hello acks ∉ line.back)
  silent : line.acks = false → line.numbers = []

theorem sound_start (acks : Bool) : Sound limits (startLine acks : Line F O) where
  accounted := accounted_new
  respected := rfl
  carried := fun _ => le_rfl
  ordered := by
    have none : (startLine acks : Line F O).numbers = [] := rfl
    rw [none]
    simp [startLine, newSender]
  greets := .inl ⟨rfl, [], rfl, fun _ => List.not_mem_nil⟩
  silent := fun _ => rfl

variable {line : Line F O}

theorem sound_acts (sound : Sound limits line) {sender : Sender F O}
    (runs : Runs limits line.sender sender) :
    Sound limits { line with sender := sender } where
  accounted := accounted_runs runs sound.accounted
  respected := (carries_runs runs).violated.trans sound.respected
  carried := by
    intro acks
    have carries := carries_runs runs
    rw [carries.peerAcks] at acks
    have before := sound.carried acks
    obtain ⟨more, wire⟩ := carries.sent acks
    simp only
    omega
  ordered := by
    have ordered := sound.ordered
    rwa [← (carries_runs runs).acked] at ordered
  greets := by
    have greets := sound.greets
    rwa [← (carries_runs runs).peerAcks] at greets
  silent := sound.silent

theorem sound_delivers (sound : Sound limits line) {frame : F} {rest : List F}
    (first : line.sender.wire = frame :: rest) :
    Sound limits
      { line with
        sender := { line.sender with wire := rest }
        received := line.received + 1 } where
  accounted := { sound.accounted with }
  respected := sound.respected
  carried := by
    intro acks
    have before := sound.carried acks
    rw [first, List.length_cons] at before
    simp only
    omega
  ordered := by
    have ordered := sound.ordered
    simp only [Line.numbers] at ordered ⊢
    rw [← List.cons_append, List.pairwise_append] at ordered ⊢
    refine ⟨ordered.1, List.pairwise_singleton _ _, ?_⟩
    intro n isNumber last isLast
    rw [List.mem_singleton.1 isLast]
    exact
      le_trans (ordered.2.2 n isNumber _ (List.mem_singleton_self _)) (Nat.le_succ _)
  greets := sound.greets
  silent := sound.silent

theorem numbers_snoc (line : Line F O) (n : ℕ) :
    ({ line with back := line.back ++ [.ack n] } : Line F O).numbers = line.numbers ++ [n] := by
  simp [Line.numbers, Back.number]

theorem sound_acknowledges (sound : Sound limits line) (supports : line.acks = true) :
    Sound limits { line with back := line.back ++ [.ack line.received] } where
  accounted := sound.accounted
  respected := sound.respected
  carried := sound.carried
  ordered := by
    have ordered := sound.ordered
    rw [numbers_snoc, ← List.cons_append, List.pairwise_append]
    rw [← List.cons_append] at ordered
    refine ⟨ordered, List.pairwise_singleton _ _, ?_⟩
    intro n isNumber last isLast
    rw [List.mem_singleton.1 isLast]
    rw [← List.cons_append] at isNumber
    rcases List.mem_append.1 isNumber with earlier | newest
    · exact (List.pairwise_append.1 ordered).2.2 n earlier _ (List.mem_singleton_self _)
    · exact (List.mem_singleton.1 newest).le
  greets := by
    rcases sound.greets with ⟨unknown, rest, first, later⟩ | ⟨known, none⟩
    · refine .inl ⟨unknown, rest ++ [.ack line.received], ?_, ?_⟩
      · simp only [first, List.cons_append]
      · intro acks
        simpa using later acks
    · refine .inr ⟨known, fun acks => ?_⟩
      simpa using none acks
  silent := by
    intro silent
    simp only at silent
    rw [supports] at silent
    cases silent

theorem sound_greeted (sound : Sound limits line) {acks : Bool}
    {rest : List Back} (first : line.back = .hello acks :: rest) :
    Sound limits { line with sender := line.sender.onHello acks, back := rest } := by
  rcases sound.greets with ⟨unknown, later, isBack, none⟩ | ⟨-, none⟩
  · obtain ⟨isHello, isRest⟩ := List.cons.inj (first.symm.trans isBack)
    have isAcks : acks = line.acks := Back.hello.inj isHello
    have numbers : line.numbers = rest.filterMap Back.number := by
      rw [Line.numbers, first]
      rfl
    have hello :
        (line.sender.onHello acks).peerAcks = some acks ∧
          (line.sender.onHello acks).acked = line.sender.acked ∧
          (line.sender.onHello acks).sent = line.sender.sent ∧
          (line.sender.onHello acks).wire = line.sender.wire ∧
          (line.sender.onHello acks).violated = line.sender.violated := by
      cases acks <;> simp [Sender.onHello, unknown]
    obtain ⟨knows, acked, sent, wire, violated⟩ := hello
    exact
      { accounted := accounted_onHello sound.accounted acks
        respected := violated.trans sound.respected
        carried := by
          intro _
          simp only [wire, sent]
          exact sound.carried (by simp [unknown])
        ordered := by
          have ordered := sound.ordered
          rw [numbers] at ordered
          simp only [acked]
          exact ordered
        greets := by
          refine .inr ⟨?_, ?_⟩
          · rw [knows, isAcks]
          · rw [isRest]
            exact none
        silent := by
          intro silent
          have empty := sound.silent silent
          rw [numbers] at empty
          exact empty }
  · rw [first] at none
    exact (none acks List.mem_cons_self).elim

theorem sound_acked (sound : Sound limits line) {rest : List Back}
    (calls : Calls limits callback) (slots : ℕ) (first : line.back = .ack n :: rest) :
    Sound limits
      { line with
        sender := line.sender.onAck limits callback slots n
        back := rest } := by
  have numbers : line.numbers = n :: rest.filterMap Back.number := by
    rw [Line.numbers, first]
    rfl
  have supports : line.acks = true := by
    by_contra unsupported
    have empty := sound.silent (by simpa using unsupported)
    rw [numbers] at empty
    cases empty
  have greeted : line.sender.peerAcks = some true ∧ ∀ acks, Back.hello acks ∉ rest := by
    rcases sound.greets with ⟨-, later, isBack, -⟩ | ⟨known, none⟩
    · rw [first] at isBack
      cases (List.cons.inj isBack).1
    · rw [supports] at known
      rw [first] at none
      exact
        ⟨known, fun acks isHello => none acks (List.mem_cons_of_mem _ isHello)⟩
  obtain ⟨knows, none⟩ := greeted
  have ordered := sound.ordered
  rw [numbers, List.cons_append] at ordered
  obtain ⟨fromAcked, ordered⟩ := List.pairwise_cons.1 ordered
  have fromN := (List.pairwise_cons.1 ordered).1
  have more : line.sender.acked ≤ n := fromAcked n List.mem_cons_self
  have carried := sound.carried (by simp [knows])
  have within : n ≤ line.sender.sent := by
    have received : n ≤ line.received :=
      fromN _ (List.mem_append_right _ (List.mem_singleton_self _))
    omega
  have accepts : line.sender.refuses n = false := by
    simp only [Sender.refuses, decide_eq_false_iff_not, not_or, not_not, not_lt]
    exact ⟨knows, more, within⟩
  have isAck :
      line.sender.onAck limits callback slots n =
        (line.sender.acknowledge n).flush limits callback slots := by
    rw [Sender.onAck, accepts]
    rfl
  have counted : Sound limits { line with sender := line.sender.acknowledge n, back := rest } :=
    { accounted := accounted_acknowledge sound.accounted accepts
      respected := sound.respected
      carried := sound.carried
      ordered := ordered
      greets := .inr ⟨by rw [supports]; exact knows, none⟩
      silent := by
        intro silent
        simp only at silent
        rw [supports] at silent
        cases silent }
  have flushed := sound_acts counted (flush_runs calls slots _)
  rw [isAck]
  exact flushed

theorem sound_step (sound : Sound limits line) {next : Line F O}
    (step : LineStep limits line next) : Sound limits next := by
  cases step with
  | acts sender runs => exact sound_acts sound runs
  | delivers frame rest first => exact sound_delivers sound first
  | acknowledges supports => exact sound_acknowledges sound supports
  | greeted acks rest first => exact sound_greeted sound first
  | acked n rest callback calls slots first => exact sound_acked sound calls slots first

theorem sound_run {acks : Bool}
    (run : Relation.ReflTransGen (LineStep limits) (startLine acks) line) : Sound limits line := by
  induction run with
  | refl => exact sound_start acks
  | tail _ step ih => exact sound_step ih step

theorem Sound.flows (sound : Sound limits line) : Flows limits line where
  accounted := sound.accounted
  acknowledged := by
    intro n isNumber
    have supports : line.acks = true := by
      by_contra unsupported
      have empty := sound.silent (by simpa using unsupported)
      rw [empty] at isNumber
      cases isNumber
    have counts : line.sender.peerAcks ≠ some false := by
      rcases sound.greets with ⟨unknown, -⟩ | ⟨known, -⟩
      · simp [unknown]
      · simp [known, supports]
    have carried := sound.carried counts
    have ordered := (List.pairwise_cons.1 sound.ordered).2
    have received := (List.pairwise_append.1 ordered).2.2 n isNumber _ (List.mem_singleton_self _)
    omega
  respected := sound.respected

/-- In every run of a link the sender's counters are right, and it is never
told of more frames than it sent. -/
theorem flow_accounted {acks : Bool}
    (run : Relation.ReflTransGen (LineStep limits) (startLine acks) line) : Flows limits line :=
  (sound_run run).flows

end

def narrow : Limits ℕ ℕ where
  window := some 5
  pendingCap := some 20
  size := id
  opsSize := List.sum
  opsFrame := fun _ _ ops => ops.sum

/-- Operations wait behind the hello until it is acknowledged. -/
theorem flow_accounted_narrow :
    ∃ line : Line ℕ ℕ, Flows narrow line ∧ line.sender.acked = 1 ∧
      line.sender.sent = 2 ∧ line.sender.unacked = [12] := by
  have hello : Relation.ReflTransGen (LineStep narrow) (startLine true) _ :=
    .tail .refl (.acts _ _ (.send _ 5))
  have greeted := hello.tail (.greeted _ true [] rfl)
  have waits := greeted.tail (.acts _ _ (.sendState _ 1 "m" (.ops [12]) .resend))
  have delivered := waits.tail (.delivers _ 5 [] rfl)
  have acknowledged := delivered.tail (.acknowledges _ rfl)
  have acked :=
    acknowledged.tail
      (.acked _ 1 [] (fun _ s => s) (fun _ s => .refl s) 5 rfl)
  exact ⟨_, flow_accounted acked, rfl, rfl, rfl⟩

/-- With a peer that does not acknowledge, what was sent before its hello is in
neither count. -/
theorem unacknowledged_uncounted :
    ¬ ∀ (acks : Bool) (line : Line ℕ ℕ),
      Relation.ReflTransGen (LineStep narrow) (startLine acks) line →
      line.sender.acked + line.sender.unacked.length = line.sender.sent := by
  intro promised
  have hello : Relation.ReflTransGen (LineStep narrow) (startLine false) _ :=
    .tail .refl (.acts _ _ (.send _ 5))
  have counted := promised false _ (hello.tail (.greeted _ false [] rfl))
  cases counted

end PiEmbodied.Chord.Flow
