import PiEmbodied.Chord.Streams

/-!
# The sending end keeps every stream sound

Whatever the peer sends, the object does and the window lets through, each
operation of the sending end takes sound streams to sound streams.
-/

namespace PiEmbodied.Chord

open Delta Coding
open List (append_nil map_nil mem_cons_of_mem mem_cons_self not_mem_nil)
open Entries (delete get_delete get_restrict get_set restrict)
open Option (bind_some isNone_iff_eq_none isSome_eq_false_iff)

namespace Provider

/-! ## The streams of a sending end -/

def onWire (wire : List Frame) (hold : ℕ) (m : Name) : List StateOut :=
  wire.filterMap fun frame =>
    match frame with
    | .state h name out => if h = hold ∧ name = m then some out else none
    | _ => none

def slotAt (p : Provider) (hold : ℕ) (m : Name) : Option Slot :=
  Entries.get p.slots (.state hold m)

def waiting : Option Slot → List StateOut
  | some (.state slot) => slotFrames slot
  | _ => []

def isLazy : Option Slot → Bool
  | some (.state slot) => slot.lazy
  | _ => false

def feedAt (p : Provider) (hold : ℕ) (m : Name) : Option Feed :=
  (Entries.get p.served hold).bind fun served => Entries.get served.feeds m

def valueAt (p : Provider) (hold : ℕ) (m : Name) : Option JsonValue :=
  (Entries.get p.served hold).bind fun served => Entries.get served.ref.values m

def streamAt (served : Option Served) (m : Name) : Option StreamEnd :=
  served.bind fun served =>
    (Entries.get served.feeds m).bind fun feed =>
      (Entries.get served.ref.values m).map fun value => (value, feed.encoder)

def framesAt (p : Provider) (hold : ℕ) (m : Name) : List StateOut :=
  onWire p.wire hold m ++ waiting (p.slotAt hold m)

def endAt (p : Provider) (hold : ℕ) (m : Name) : Option StreamEnd :=
  if isLazy (p.slotAt hold m) then none
  else streamAt (Entries.get p.served hold) m

/-- Every stream is sound for what is held, and only streams with a feed
wait. -/
structure Steady (held : ℕ → Name → Option MemberState) (p : Provider) :
    Prop where
  sound : ∀ hold m, Sound (held hold m) (p.framesAt hold m) (p.endAt hold m)
  fed : ∀ hold m slot, p.slotAt hold m = some slot → slot ≠ .unit ∧ (p.feedAt hold m).isSome = true
  lazily : ∀ hold m, isLazy (p.slotAt hold m) = true → waiting (p.slotAt hold m) = []

variable {held : ℕ → Name → Option MemberState}

/-! ## Sending -/

@[simp]
theorem onWire_append (first second : List Frame) (hold : ℕ) (m : Name) :
    onWire (first ++ second) hold m = onWire first hold m ++ onWire second hold m :=
  List.filterMap_append

@[simp]
theorem onWire_nil (hold : ℕ) (m : Name) : onWire [] hold m = [] :=
  rfl

theorem onWire_state (hold h : ℕ) (m name : Name) (out : StateOut) :
    onWire [.state h name out] hold m =
      if h = hold ∧ name = m then [out] else [] := by
  by_cases here : h = hold ∧ name = m
  · simp [onWire, here]
  · simp [onWire, here]

theorem onWire_other {frame : Frame} {hold : ℕ} {m : Name}
    (other : ∀ out, frame ≠ .state hold m out) : onWire [frame] hold m = [] := by
  cases frame with
  | state h name out =>
    rw [onWire_state]
    apply if_neg
    rintro ⟨rfl, rfl⟩
    exact other out rfl
  | _ => rfl

section Operations

variable (config : Config)

@[simp]
theorem send_slots (p : Provider) (frame : Frame) : (p.send config frame).slots = p.slots := by
  unfold send
  dsimp only
  split <;> rfl

@[simp]
theorem send_served (p : Provider) (frame : Frame) : (p.send config frame).served = p.served := by
  unfold send
  dsimp only
  split <;> rfl

@[simp]
theorem send_wire (p : Provider) (frame : Frame) :
    (p.send config frame).wire = p.wire ++ [frame] := by
  unfold send
  dsimp only
  split <;> rfl

theorem sendAll_keeps (frames : List Frame) :
    ∀ p : Provider, (p.sendAll config frames).slots = p.slots ∧
      (p.sendAll config frames).served = p.served ∧
      (p.sendAll config frames).wire = p.wire ++ frames := by
  induction frames with
  | nil =>
    intro p
    exact ⟨rfl, rfl, (append_nil _).symm⟩
  | cons frame rest ih =>
    intro p
    obtain ⟨slots, served, wire⟩ := ih (p.send config frame)
    refine ⟨slots.trans (send_slots config p frame), served.trans (send_served config p frame), ?_⟩
    rwa [send_wire, List.append_assoc] at wire

variable {p next : Provider}

theorem steady_of_same (steady : Steady held p) (slots : next.slots = p.slots)
    (served : next.served = p.served)
    (wire : ∀ hold m, onWire next.wire hold m = onWire p.wire hold m) : Steady held next := by
  have sameSlot : ∀ hold m, next.slotAt hold m = p.slotAt hold m := by
    intro hold m
    unfold slotAt
    rw [slots]
  refine ⟨?_, ?_, ?_⟩
  · intro hold m
    have sound := steady.sound hold m
    unfold framesAt endAt at sound ⊢
    rw [sameSlot, wire, served]
    exact sound
  · intro hold m slot isSlot
    rw [sameSlot] at isSlot
    have fed := steady.fed hold m slot isSlot
    unfold feedAt at fed ⊢
    rw [served]
    exact fed
  · intro hold m
    rw [sameSlot]
    exact steady.lazily hold m

theorem steady_send (steady : Steady held p) {frame : Frame}
    (other : ∀ hold m out, frame ≠ .state hold m out) : Steady held (p.send config frame) := by
  apply steady_of_same steady
  · exact send_slots config p frame
  · exact send_served config p frame
  · intro hold m
    rw [send_wire, onWire_append, onWire_other (other hold m), append_nil]

/-- A slot stays, or what waits in it is dropped for a lazy reset. -/
def StaysOrDrops (old new : Option Slot) : Prop :=
  new = old ∨ ∃ slot, old = some (.state slot) ∧ new = some (.state lazySlot)

theorem staysOrDrops_trans {first second third : Option Slot}
    (here : StaysOrDrops first second) (later : StaysOrDrops second third) :
    StaysOrDrops first third := by
  rcases later with same | ⟨slot, wasSlot, dropped⟩
  · rw [same]
    exact here
  · rcases here with same | ⟨older, wasOlder, _⟩
    · rw [same] at wasSlot
      exact .inr ⟨slot, wasSlot, dropped⟩
    · exact .inr ⟨older, wasOlder, dropped⟩

structure Drops (p next : Provider) : Prop where
  slots : ∀ key, StaysOrDrops (Entries.get p.slots key) (Entries.get next.slots key)
  served : next.served = p.served
  wire : next.wire = p.wire

theorem drops_refl (p : Provider) : Drops p p :=
  ⟨fun _ => .inl rfl, rfl, rfl⟩

theorem drops_trans {middle : Provider} (here : Drops p middle) (later : Drops middle next) :
    Drops p next where
  slots := fun key => staysOrDrops_trans (here.slots key) (later.slots key)
  served := later.served.trans here.served
  wire := later.wire.trans here.wire

theorem drops_drop (p : Provider) (key : SlotKey) : Drops p (p.drop key) := by
  unfold drop
  split
  · rename_i slot isSlot
    refine ⟨?_, rfl, rfl⟩
    intro other
    change StaysOrDrops _ (Entries.get (Entries.set p.slots key _) other)
    rw [get_set]
    by_cases same : other = key
    · rw [if_pos same, same]
      exact .inr ⟨slot, isSlot, rfl⟩
    · rw [if_neg same]
      exact .inl rfl
  · exact drops_refl p

theorem drops_makeRoomAmong (size : ℕ) (current : SlotKey) (keys : List SlotKey) :
    ∀ p : Provider, Drops p (makeRoomAmong config size current keys p) := by
  induction keys with
  | nil =>
    intro p
    exact drops_refl p
  | cons key rest ih =>
    intro p
    unfold makeRoomAmong
    split
    · exact drops_refl p
    · split
      · exact drops_trans (drops_drop p key) (ih _)
      · exact ih p

theorem drops_makeRoom (p : Provider) (size : ℕ) (current : SlotKey) :
    Drops p (p.makeRoom config size current) := by
  have among := drops_makeRoomAmong config size current (Entries.keys p.slots) p
  unfold makeRoom
  dsimp only
  split
  · exact drops_trans among (drops_drop _ current)
  · exact among

/-! ## State frames -/

def slotOf : Option Slot → StateSlot
  | some (.state slot) => slot
  | _ => emptySlot

/-- How a state frame is taken: it is sent, a lazy reset covers it, it joins the
waiting operations, or it replaces them. -/
inductive Taken (frame : StateOut) (hold : ℕ) (m : Name) (p next : Provider) : Prop where
  | sent (noSlot : p.slotAt hold m = none)
      (still : next.slotAt hold m = none)
      (wire : next.wire = p.wire ++ [.state hold m frame])
  | covered (wire : next.wire = p.wire)
      (isLazy : isLazy (next.slotAt hold m) = true)
      (kept :
        next.slotAt hold m = p.slotAt hold m ∨
          next.slotAt hold m = some (.state lazySlot))
      (isOps : ∃ wire upTo, frame = .ops wire upTo)
  | joined (wire : next.wire = p.wire) (size : ℕ)
      (notLazy : (slotOf (p.slotAt hold m)).lazy = false)
      (ops : List JsonValue) (upTo : JsonValue) (isOps : frame = .ops ops upTo)
      (slot :
        next.slotAt hold m =
          some (.state
            { slotOf (p.slotAt hold m) with
              ops := (slotOf (p.slotAt hold m)).ops ++ ops
              upTo := upTo
              size := size }))
  | replaced (wire : next.wire = p.wire)
      (notOps : ∀ wire upTo, frame ≠ .ops wire upTo)
      (slot :
        next.slotAt hold m = some (.state { emptySlot with base := some frame }))

structure Takes (frame : StateOut) (hold : ℕ) (m : Name) (p next : Provider) : Prop where
  served : next.served = p.served
  others :
    ∀ key, key ≠ .state hold m → StaysOrDrops (Entries.get p.slots key) (Entries.get next.slots key)
  otherWire : ∀ h name, ¬(h = hold ∧ name = m) → onWire next.wire h name = onWire p.wire h name
  taken : Taken frame hold m p next

theorem get_setSlot_self (p : Provider) (key : SlotKey) (slot : Slot) :
    Entries.get (p.setSlot key slot).slots key = some slot :=
  (get_set p.slots key key slot).trans (if_pos rfl)

theorem get_setSlot_of_ne (p : Provider) {key other : SlotKey} (slot : Slot)
    (different : other ≠ key) :
    Entries.get (p.setSlot key slot).slots other = Entries.get p.slots other :=
  (get_set p.slots key other slot).trans (if_neg different)

theorem queueOps_takes (p : Provider) (hold : ℕ) (m : Name) (wire : List JsonValue)
    (upTo : JsonValue) (state : p.slotAt hold m ≠ some .unit) :
    Takes (.ops wire upTo) hold m p
      (p.queueOps config (.state hold m) (slotOf (p.slotAt hold m)) wire upTo) := by
  have known :
      p.slotAt hold m = some (.state (slotOf (p.slotAt hold m))) ∨
        slotOf (p.slotAt hold m) = emptySlot := by
    cases isSlot : p.slotAt hold m with
    | none => exact .inr rfl
    | some slot =>
      cases slot with
      | state slot => exact .inl rfl
      | unit => exact absurd isSlot state
  generalize isSlot : slotOf (p.slotAt hold m) = slot at known ⊢
  unfold queueOps
  dsimp only
  by_cases lazily : slot.lazy = true
  · rw [if_pos lazily]
    have isKnown : p.slotAt hold m = some (.state slot) := by
      rcases known with isKnown | empty
      · exact isKnown
      · rw [empty] at lazily
        cases lazily
    have same : (p.setSlot (.state hold m) (.state slot)).slotAt hold m = some (.state slot) :=
      get_setSlot_self p _ _
    refine ⟨rfl, ?_, fun _ _ _ => rfl, ?_⟩
    · intro key isOther
      exact .inl (get_setSlot_of_ne p _ isOther)
    · refine Taken.covered ?_ ?_ ?_ ?_
      · rfl
      · rw [same]
        exact lazily
      · left
        rw [same, isKnown]
      · exact ⟨wire, upTo, rfl⟩
  · rw [if_neg lazily]
    have made :
        Drops (p.setSlot (.state hold m) (.state slot))
          (if config.pendingCap <
              (p.setSlot (.state hold m) (.state slot)).pendingBytes + config.opsSize wire then
            (p.setSlot (.state hold m) (.state slot)).makeRoom config
              (config.opsSize wire) (.state hold m)
          else p.setSlot (.state hold m) (.state slot)) := by
      split
      · exact drops_makeRoom config _ _ _
      · exact drops_refl _
    generalize (if config.pendingCap <
        (p.setSlot (.state hold m) (.state slot)).pendingBytes + config.opsSize wire then
      (p.setSlot (.state hold m) (.state slot)).makeRoom config
        (config.opsSize wire) (.state hold m)
      else p.setSlot (.state hold m) (.state slot)) = room at made
    have others :
        ∀ key, key ≠ .state hold m →
          StaysOrDrops (Entries.get p.slots key) (Entries.get room.slots key) := by
      intro key isOther
      have step := made.slots key
      rwa [get_setSlot_of_ne p _ isOther] at step
    have sameWire : room.wire = p.wire := made.wire
    have here := made.slots (.state hold m)
    rw [get_setSlot_self] at here
    rcases here with same | ⟨_, _, dropped⟩
    · -- the slot was spared, and the operations join it
      rw [same]
      dsimp only
      rw [if_neg lazily]
      refine ⟨made.served, ?_, ?_, ?_⟩
      · intro key isOther
        have spared :=
          get_setSlot_of_ne room
            (.state
              { slot with
                ops := slot.ops ++ wire
                upTo := upTo
                size := slot.size + config.opsSize wire }) isOther
        have step := others key isOther
        rwa [← spared] at step
      · intro h name _
        exact congrArg (fun frames => onWire frames h name) sameWire
      · rw [← isSlot] at lazily ⊢
        refine Taken.joined ?_ ((slotOf (p.slotAt hold m)).size + config.opsSize wire)
          (Bool.eq_false_iff.mpr lazily) wire upTo rfl ?_
        · exact sameWire
        · exact get_setSlot_self room _ _
    · rw [dropped]
      dsimp only [lazySlot]
      rw [if_pos rfl]
      have isDropped : room.slotAt hold m = some (.state lazySlot) := dropped
      refine ⟨made.served, others, ?_, ?_⟩
      · intro h name _
        rw [sameWire]
      · refine Taken.covered ?_ ?_ ?_ ?_
        · exact sameWire
        · rw [isDropped]
          rfl
        · exact .inr isDropped
        · exact ⟨wire, upTo, rfl⟩

theorem sendState_takes (p : Provider) (hold : ℕ) (m : Name) (frame : StateOut)
    (state : p.slotAt hold m ≠ some .unit) :
    Takes frame hold m p (p.sendState config hold m frame) := by
  have waiting :
      Takes frame hold m p (p.wait config (.state hold m) (slotOf (p.slotAt hold m)) frame) := by
    by_cases isOps : ∃ wire upTo, frame = .ops wire upTo
    · obtain ⟨wire, upTo, rfl⟩ := isOps
      exact queueOps_takes config p hold m wire upTo state
    · push Not at isOps
      have replaced :
          p.wait config (.state hold m) (slotOf (p.slotAt hold m)) frame =
            { p.setSlot (.state hold m)
                (.state { emptySlot with base := some frame }) with
              pendingBytes :=
                p.pendingBytes - (slotOf (p.slotAt hold m)).size } := by
        cases frame with
        | ops wire upTo => exact absurd rfl (isOps wire upTo)
        | _ => rfl
      rw [replaced]
      refine ⟨rfl, ?_, fun _ _ _ => rfl, ?_⟩
      · intro key isOther
        exact .inl (get_setSlot_of_ne p _ isOther)
      · refine Taken.replaced ?_ isOps ?_
        · rfl
        · exact get_setSlot_self p _ _
  unfold sendState
  dsimp only
  cases isSlot : p.slotAt hold m with
  | none =>
    have noSlot : Entries.get p.slots (.state hold m) = none := isSlot
    rw [noSlot]
    dsimp only
    split
    · rwa [isSlot] at waiting
    · refine ⟨send_served config p _, ?_, ?_, ?_⟩
      · intro key _
        rw [send_slots]
        exact .inl rfl
      · intro h name isOther
        rw [send_wire, onWire_append, onWire_state, if_neg ?_, append_nil]
        rintro ⟨rfl, rfl⟩
        exact isOther ⟨rfl, rfl⟩
      · apply Taken.sent isSlot
        · unfold slotAt
          rw [send_slots]
          exact isSlot
        · exact send_wire config p _
  | some slot =>
    have someSlot : Entries.get p.slots (.state hold m) = some slot := isSlot
    rw [someSlot]
    cases slot with
    | state slot =>
      rwa [isSlot] at waiting
    | unit => exact absurd isSlot state

/-! ## Events of a member -/

/-- A sending end all of whose streams are steady but one, whose feed and value
were moved on and whose frame is not sent yet. -/
structure MovedOn (held : ℕ → Name → Option MemberState) (hold : ℕ)
    (m : Name) (old : Option StreamEnd) (p : Provider) : Prop where
  others :
    ∀ h name, ¬(h = hold ∧ name = m) → Sound (held h name) (p.framesAt h name) (p.endAt h name)
  here : Sound (held hold m) (p.framesAt hold m) (if isLazy (p.slotAt hold m) then none else old)
  fed : ∀ h name slot, p.slotAt h name = some slot → slot ≠ .unit ∧ (p.feedAt h name).isSome = true
  isFed : (p.feedAt hold m).isSome = true
  lazily : ∀ h name, isLazy (p.slotAt h name) = true → waiting (p.slotAt h name) = []

theorem waiting_slotOf (slot : Option Slot) (notUnit : slot ≠ some .unit) :
    waiting slot = slotFrames (slotOf slot) := by
  cases slot with
  | none => rfl
  | some slot =>
    cases slot with
    | state slot => rfl
    | unit => exact absurd rfl notUnit

theorem isLazy_slotOf (slot : Option Slot) : isLazy slot = (slotOf slot).lazy := by
  cases slot with
  | none => rfl
  | some slot => cases slot <;> rfl

variable {hold : ℕ} {m : Name}

theorem steady_takes {frame : StateOut} {old : Option StreamEnd}
    (moved : MovedOn held hold m old p) (takes : Takes frame hold m p next)
    (sent :
      ∀ frames, Sound (held hold m) frames old →
        Sound (held hold m) (frames ++ [frame]) (streamAt (Entries.get p.served hold) m))
    (joined :
      ∀ frames slot ops upTo size, frame = .ops ops upTo →
        Sound (held hold m) (frames ++ slotFrames slot) old →
        Sound (held hold m)
          (frames ++ slotFrames { slot with ops := slot.ops ++ ops, upTo := upTo, size := size })
          (streamAt (Entries.get p.served hold) m))
    (opens :
      (∀ wire upTo, frame ≠ .ops wire upTo) →
        ∀ frames streamEnd, Sound (held hold m) frames streamEnd →
          Sound (held hold m) (frames ++ [frame]) (streamAt (Entries.get p.served hold) m)) :
    Steady held next := by
  have sameFeed : ∀ h name, next.feedAt h name = p.feedAt h name := by
    intro h name
    unfold feedAt
    rw [takes.served]
  have otherSlot :
      ∀ h name, ¬(h = hold ∧ name = m) → StaysOrDrops (p.slotAt h name) (next.slotAt h name) := by
    intro h name isOther
    apply takes.others
    intro same
    cases same
    exact isOther ⟨rfl, rfl⟩
  have notUnit : p.slotAt hold m ≠ some .unit := by
    intro isUnit
    exact (moved.fed hold m .unit isUnit).1 rfl
  have here := moved.here
  unfold framesAt at here
  rw [waiting_slotOf _ notUnit, isLazy_slotOf] at here
  refine ⟨?_, ?_, ?_⟩
  · intro h name
    by_cases isHere : h = hold ∧ name = m
    · obtain ⟨rfl, rfl⟩ := isHere
      unfold framesAt endAt
      rw [takes.served]
      cases takes.taken with
      | sent noSlot still wire =>
        rw [noSlot] at here
        rw [still, wire, onWire_append, onWire_state, if_pos ⟨rfl, rfl⟩]
        have nothing : slotFrames (slotOf none) = [] := rfl
        rw [nothing, append_nil] at here
        simp only [waiting, isLazy, append_nil, Bool.false_eq_true, if_false]
        exact sent _ here
      | covered wire lazily kept isOps =>
        rw [wire, if_pos lazily]
        rcases kept with same | dropped
        · rw [same, waiting_slotOf _ notUnit]
          exact sound_unfollowed here
        · rw [dropped]
          have nothing : waiting (some (.state lazySlot)) = [] := rfl
          rw [nothing, append_nil]
          exact sound_dropped here
      | joined wire size notLazy ops upTo isOps slot =>
        rw [notLazy] at here
        rw [wire, slot]
        have stillNotLazy :
            isLazy (some (.state
              { slotOf (p.slotAt h name) with
                ops := (slotOf (p.slotAt h name)).ops ++ ops
                upTo := upTo
                size := size })) = false :=
          notLazy
        rw [stillNotLazy]
        exact joined _ _ ops upTo size isOps here
      | replaced wire notOps slot =>
        rw [wire, slot]
        exact opens notOps _ _ (sound_dropped here)
    · have sound := moved.others h name isHere
      unfold framesAt endAt at sound ⊢
      rw [takes.served, takes.otherWire h name isHere]
      rcases otherSlot h name isHere with same | ⟨slot, _, dropped⟩
      · rw [same]
        exact sound
      · rw [dropped]
        have nothing : waiting (some (.state lazySlot)) = [] := rfl
        have lazily : isLazy (some (.state lazySlot)) = true := rfl
        rw [nothing, append_nil, if_pos lazily]
        exact sound_dropped sound
  · intro h name slot isSlot
    rw [sameFeed]
    by_cases isHere : h = hold ∧ name = m
    · obtain ⟨rfl, rfl⟩ := isHere
      refine ⟨?_, moved.isFed⟩
      cases takes.taken with
      | sent noSlot still wire =>
        rw [still] at isSlot
        cases isSlot
      | covered wire lazily kept isOps =>
        rw [isSlot] at lazily
        rintro rfl
        cases lazily
      | joined wire size notLazy ops upTo isOps isJoined =>
        rw [isJoined] at isSlot
        cases isSlot
        exact Slot.noConfusion
      | replaced wire notOps isReplaced =>
        rw [isReplaced] at isSlot
        cases isSlot
        exact Slot.noConfusion
    · rcases otherSlot h name isHere with same | ⟨old, wasSlot, dropped⟩
      · rw [same] at isSlot
        exact moved.fed h name slot isSlot
      · rw [dropped] at isSlot
        cases isSlot
        exact ⟨Slot.noConfusion, (moved.fed h name _ wasSlot).2⟩
  · intro h name lazily
    by_cases isHere : h = hold ∧ name = m
    · obtain ⟨rfl, rfl⟩ := isHere
      cases takes.taken with
      | sent noSlot still wire =>
        rw [still] at lazily
        cases lazily
      | covered wire _ kept isOps =>
        rcases kept with same | dropped
        · rw [same] at lazily ⊢
          exact moved.lazily h name lazily
        · rw [dropped]
          rfl
      | joined wire size notLazy ops upTo isOps isJoined =>
        rw [isJoined] at lazily
        have isLazy : (slotOf (p.slotAt h name)).lazy = true := lazily
        rw [notLazy] at isLazy
        cases isLazy
      | replaced wire notOps isReplaced =>
        rw [isReplaced] at lazily
        cases lazily
    · rcases otherSlot h name isHere with same | ⟨old, _, dropped⟩
      · rw [same] at lazily ⊢
        exact moved.lazily h name lazily
      · rw [dropped]
        rfl

theorem get_setServed (p : Provider) (hold other : ℕ) (served : Served) :
    Entries.get (p.setServed hold served).served other =
      if other = hold then some served else Entries.get p.served other :=
  get_set p.served hold other served

theorem get_setServed_self (p : Provider) (hold : ℕ) (served : Served) :
    Entries.get (p.setServed hold served).served hold = some served :=
  (get_setServed p hold hold served).trans (if_pos rfl)

theorem get_setServed_of_ne
    (p : Provider) {other : ℕ} (served : Served) (different : other ≠ hold) :
    Entries.get (p.setServed hold served).served other = Entries.get p.served other :=
  (get_setServed p hold other served).trans (if_neg different)

variable {served : Served}

theorem steady_setServed (steady : Steady held p) {next : Served}
    (was : Entries.get p.served hold = some served)
    (streams : ∀ m, streamAt (some next) m = streamAt (some served) m)
    (feeds : ∀ m, (Entries.get next.feeds m).isSome = (Entries.get served.feeds m).isSome) :
    Steady held (p.setServed hold next) := by
  refine ⟨?_, ?_, steady.lazily⟩
  · intro h m
    have sound := steady.sound h m
    unfold framesAt endAt at sound ⊢
    by_cases here : h = hold
    · rw [here, get_setServed_self, streams]
      rwa [here, was] at sound
    · rw [get_setServed_of_ne p next here]
      exact sound
  · intro h m slot isSlot
    have fed := steady.fed h m slot isSlot
    refine ⟨fed.1, ?_⟩
    have isFed := fed.2
    unfold feedAt at isFed ⊢
    by_cases here : h = hold
    · rw [here, get_setServed_self]
      rw [here, was] at isFed
      rw [bind_some] at isFed ⊢
      rw [feeds]
      exact isFed
    · rw [get_setServed_of_ne p next here]
      exact isFed

theorem movedOn_setServed (steady : Steady held p) {next : Feed} {value : JsonValue}
    (was : Entries.get p.served hold = some served) :
    MovedOn held hold m (streamAt (some served) m)
      (p.setServed hold ((served.setValue m value).setFeed m next)) := by
  have others :
      ∀ name, name ≠ m →
        streamAt (some ((served.setValue m value).setFeed m next)) name =
          streamAt (some served) name := by
    intro name isOther
    simp only [streamAt, bind_some, Served.setFeed, Served.setValue,
      get_set, if_neg isOther]
  have fed :
      ∀ name, (Entries.get served.feeds name).isSome = true →
        (Entries.get ((served.setValue m value).setFeed m next).feeds name).isSome = true := by
    intro name isFed
    simp only [Served.setFeed, Served.setValue, get_set]
    split
    · rfl
    · exact isFed
  refine ⟨?_, ?_, ?_, ?_, steady.lazily⟩
  · intro h name isOther
    have sound := steady.sound h name
    unfold framesAt endAt at sound ⊢
    by_cases here : h = hold
    · have otherName : name ≠ m := by
        intro same
        exact isOther ⟨here, same⟩
      rw [here, get_setServed_self, others name otherName]
      rwa [here, was] at sound
    · rw [get_setServed_of_ne p _ here]
      exact sound
  · have sound := steady.sound hold m
    unfold endAt at sound
    rwa [was] at sound
  · intro h name slot isSlot
    have known := steady.fed h name slot isSlot
    refine ⟨known.1, ?_⟩
    have isFed := known.2
    unfold feedAt at isFed ⊢
    by_cases here : h = hold
    · rw [here, get_setServed_self]
      rw [here, was] at isFed
      exact fed name isFed
    · rw [get_setServed_of_ne p _ here]
      exact isFed
  · unfold feedAt
    rw [get_setServed_self]
    simp [Served.setFeed]

theorem steady_memberEvent (steady : Steady held p) (hold : ℕ) (name : Name) (event : MemberEvent) :
    Steady held (p.memberEvent config hold name event) := by
  unfold memberEvent
  cases was : Entries.get p.served hold with
  | none => exact steady
  | some served =>
    dsimp only
    cases isValue : Entries.get served.ref.values name with
    | none => exact steady
    | some before =>
      dsimp only
      cases after : event.valueAfter before with
      | none => exact steady
      | some value =>
        dsimp only
        have sameFeeds : (served.setValue name value).feeds = served.feeds := rfl
        cases isFeed : Entries.get served.feeds name with
        | none =>
          rw [sameFeeds, isFeed]
          refine steady_setServed steady was ?_ (fun _ => rfl)
          intro m
          unfold streamAt
          rw [bind_some, bind_some, sameFeeds]
          by_cases here : m = name
          · rw [here, isFeed]
            rfl
          · simp only [Served.setValue, get_set, if_neg here]
        | some feed =>
          rw [sameFeeds, isFeed]
          dsimp only
          have old : streamAt (some served) name = some (before, feed.encoder) := by
            simp only [streamAt, bind_some, isFeed, isValue, Option.map_some]
          have new :
              ∀ next : Feed,
                streamAt
                  (Entries.get
                    (p.setServed hold
                      ((served.setValue name value).setFeed name
                        next)).served hold) name =
                  some (value, next.encoder) := by
            intro next
            rw [get_setServed_self]
            simp [streamAt, Served.setFeed, Served.setValue]
          have slotIsState :
              ∀ next : Feed,
                (p.setServed hold
                  ((served.setValue name value).setFeed name
                    next)).slotAt hold name ≠ some .unit := by
            intro next isUnit
            exact (steady.fed hold name .unit isUnit).1 rfl
          cases event with
          | ops batch =>
            obtain ⟨valid, applied⟩ :
                (∀ op ∈ batch, op.Valid) ∧
                  applyOps before batch = .ok value := by
              simp only [MemberEvent.valueAfter] at after
              split at after
              · rename_i valid
                refine ⟨valid, ?_⟩
                cases result : applyOps before batch with
                | error e =>
                  rw [result] at after
                  cases after
                | ok given =>
                  rw [result] at after
                  cases after
                  rfl
              · cases after
            refine steady_takes (movedOn_setServed steady was)
              (sendState_takes config _ hold name _ (slotIsState _))
              ?_ ?_ ?_
            · intro frames sound
              rw [old] at sound
              rw [new]
              exact sound_batch valid applied sound
            · intro frames slot ops upTo size isOps sound
              cases isOps
              rw [old] at sound
              rw [new]
              exact sound_batch_queued valid applied sound
            · intro notOps
              exact absurd rfl (notOps _ _)
          | reset given =>
            cases after
            have opens :=
              snapshot_opens (served.setValue name value) name value
                (.inr rfl : StateOut.reset = .snap ∨ StateOut.reset = .reset)
            refine steady_takes (movedOn_setServed steady was)
              (sendState_takes config _ hold name _ (slotIsState _))
              ?_ ?_ ?_
            · intro frames sound
              rw [new]
              exact sound_open opens sound
            · intro frames slot ops upTo size isOps sound
              rw [isOps] at opens
              rcases opens with isSnap | isReset | ⟨e, isError⟩
              · cases isSnap
              · cases isReset
              · cases isError
            · intro _ frames streamEnd sound
              rw [new]
              exact sound_open opens sound

/-! ## How an operation moves a stream -/

/-- How an operation moves the stream of a member when it sends no event of it:
not at all, it ends, it is opened anew, its slot is flushed, or what waits in
the slot is given up for a lazy reset. -/
inductive Moves (p next : Provider) (hold : ℕ) (m : Name) : Prop where
  | stays (slot : next.slotAt hold m = p.slotAt hold m)
      (stream : streamAt (Entries.get next.served hold) m = streamAt (Entries.get p.served hold) m)
      (fed : (p.feedAt hold m).isSome = true → (next.feedAt hold m).isSome = true)
      (wire : onWire next.wire hold m = onWire p.wire hold m)
  | ends (slot : next.slotAt hold m = none)
      (stream : streamAt (Entries.get next.served hold) m = none)
      (wire : onWire next.wire hold m = onWire p.wire hold m)
  | opens (slot : next.slotAt hold m = none) (value : JsonValue)
      (opening : List StateOut) (some_ : opening ≠ [])
      (opens : ∀ frame ∈ opening, Opens value frame)
      (stream : streamAt (Entries.get next.served hold) m = some (value, encoder))
      (wire : onWire next.wire hold m = onWire p.wire hold m ++ opening)
  | flushed (slot : StateSlot) (was : p.slotAt hold m = some (.state slot))
      (notLazy : slot.lazy = false) (noSlot : next.slotAt hold m = none)
      (stream : streamAt (Entries.get next.served hold) m = streamAt (Entries.get p.served hold) m)
      (wire : onWire next.wire hold m = onWire p.wire hold m ++ slotFrames slot)
  | lazied (slot : next.slotAt hold m = some (.state lazySlot))
      (fed : (next.feedAt hold m).isSome = true)
      (wire : onWire next.wire hold m = onWire p.wire hold m)

theorem sound_of_moves (steady : Steady held p) (moves : Moves p next hold m) :
    Sound (held hold m) (next.framesAt hold m) (next.endAt hold m) := by
  have sound := steady.sound hold m
  have onlyWire : Sound (held hold m) (onWire p.wire hold m) none := sound_dropped sound
  unfold framesAt endAt at sound ⊢
  cases moves with
  | stays slot stream fed wire =>
    rw [slot, stream, wire]
    exact sound
  | ends slot stream wire =>
    rw [slot, stream, wire]
    simp only [waiting, isLazy, append_nil, Bool.false_eq_true, if_false]
    exact onlyWire
  | opens slot value opening some_ opens stream wire =>
    rw [slot, stream, wire]
    simp only [waiting, isLazy, append_nil, Bool.false_eq_true, if_false]
    have opened := sound_openAll opens onlyWire
    rwa [if_neg some_] at opened
  | flushed slot was notLazy noSlot stream wire =>
    rw [noSlot, stream, wire]
    rw [was] at sound
    simp only [waiting, isLazy, notLazy, append_nil, Bool.false_eq_true, if_false] at sound ⊢
    exact sound
  | lazied slot fed wire =>
    rw [slot, wire]
    simp only [waiting, isLazy, lazySlot, if_true]
    exact sound_append (fun _ _ _ _ _ _ isEnd => by cases isEnd)
      (show Sound (held hold m) (onWire p.wire hold m ++ []) none by
        rw [append_nil]
        exact onlyWire)

theorem steady_of_moves (steady : Steady held p) (moves : ∀ hold m, Moves p next hold m) :
    Steady held next := by
  refine ⟨fun hold m => sound_of_moves steady (moves hold m), ?_, ?_⟩
  · intro hold m slot isSlot
    cases moves hold m with
    | stays same stream fed wire =>
      rw [same] at isSlot
      have known := steady.fed hold m slot isSlot
      exact ⟨known.1, fed known.2⟩
    | ends noSlot stream wire | opens noSlot value opening some_ opens stream wire
    | flushed slot was notLazy noSlot stream wire =>
      rw [noSlot] at isSlot
      cases isSlot
    | lazied lazy_ fed wire =>
      rw [lazy_] at isSlot
      cases isSlot
      exact ⟨Slot.noConfusion, fed⟩
  · intro hold m lazily
    cases moves hold m with
    | stays same stream fed wire =>
      rw [same] at lazily ⊢
      exact steady.lazily hold m lazily
    | ends noSlot stream wire | opens noSlot value opening some_ opens stream wire
    | flushed slot was notLazy noSlot stream wire =>
      rw [noSlot]
      rfl
    | lazied lazy_ fed wire =>
      rw [lazy_]
      rfl

theorem moves_of_same (slot : next.slotAt hold m = p.slotAt hold m)
    (served : Entries.get next.served hold = Entries.get p.served hold)
    (wire : onWire next.wire hold m = onWire p.wire hold m) : Moves p next hold m := by
  refine Moves.stays slot ?_ ?_ wire
  · rw [served]
  · unfold feedAt
    rw [served]
    exact id

/-! ## Units and resets -/

theorem streamAt_none_of_feed (noFeed : Entries.get served.feeds m = none) :
    streamAt (some served) m = none := by
  unfold streamAt
  rw [bind_some, noFeed]
  rfl

/-- What sending a member again does: nothing where there is no feed, it ends
the feed of a member that is no longer readable, or opens a new one. -/
theorem resend_cases (p : Provider) (hold : ℕ) (m : Name) :
    (p.resend config hold m = p ∧ streamAt (Entries.get p.served hold) m = none) ∨
    ∃ served, Entries.get p.served hold = some served ∧
      (p.resend config hold m =
          p.setServed hold { served with feeds := delete served.feeds m } ∨
        ∃ value frame, Entries.get served.ref.values m = some value ∧ Opens value frame ∧
          p.resend config hold m =
            (p.setServed hold
              (Served.setFeed { served with feeds := delete served.feeds m } m
                ⟨encoder⟩)).send config (.state hold m frame)) := by
  unfold resend
  cases was : Entries.get p.served hold with
  | none => exact .inl ⟨rfl, rfl⟩
  | some served =>
    dsimp only
    by_cases isFed : Entries.has served.feeds m = true
    · right
      rw [if_pos isFed]
      refine ⟨served, rfl, ?_⟩
      unfold Served.attach
      dsimp only
      cases isValue : Entries.get served.ref.values m with
      | none => exact .inl rfl
      | some value =>
        right
        refine ⟨value, _, rfl, ?_, rfl⟩
        exact snapshot_opens _ m value (.inr rfl)
    · left
      rw [if_neg isFed]
      refine ⟨rfl, streamAt_none_of_feed ?_⟩
      unfold Entries.has at isFed
      rwa [Bool.not_eq_true, isSome_eq_false_iff, isNone_iff_eq_none] at isFed

theorem slotAt_delete (slots : List (SlotKey × Slot)) (key : SlotKey) (h : ℕ) (name : Name) :
    Entries.get (delete slots key) (.state h name) =
      if SlotKey.state h name = key then none
      else Entries.get slots (.state h name) :=
  get_delete slots key (.state h name)

theorem moves_resend {q : Provider} (served : q.served = p.served) (wire : q.wire = p.wire)
    (slots : q.slots = delete p.slots (.state hold m)) (h : ℕ) (name : Name) :
    Moves p (q.resend config hold m) h name := by
  have slotOther : ¬(h = hold ∧ name = m) → q.slotAt h name = p.slotAt h name := by
    intro isOther
    unfold slotAt
    rw [slots, slotAt_delete, if_neg]
    intro same
    cases same
    exact isOther ⟨rfl, rfl⟩
  have slotHere : h = hold ∧ name = m → q.slotAt h name = none := by
    rintro ⟨rfl, rfl⟩
    unfold slotAt
    rw [slots, slotAt_delete, if_pos rfl]
  have wireOther :
      ∀ frame, ¬(h = hold ∧ name = m) →
        onWire (q.wire ++ [.state hold m frame]) h name = onWire p.wire h name := by
    intro frame isOther
    rw [wire, onWire_append, onWire_state, if_neg, append_nil]
    rintro ⟨rfl, rfl⟩
    exact isOther ⟨rfl, rfl⟩
  rcases resend_cases config q hold m with
    ⟨same, noStream⟩ | ⟨state, was, same | ⟨value, frame, isValue, opens, same⟩⟩
  · rw [same]
    by_cases here : h = hold ∧ name = m
    · refine Moves.ends (slotHere here) ?_ (by rw [wire])
      rw [here.1, here.2]
      exact noStream
    · exact moves_of_same (slotOther here) (by rw [served]) (by rw [wire])
  · rw [same]
    have isServed :
        ∀ other, streamAt (Entries.get (q.setServed hold
          { state with feeds := delete state.feeds m }).served hold) other =
          if other = m then none else streamAt (some state) other := by
      intro other
      rw [get_setServed_self]
      simp only [streamAt, bind_some, get_delete]
      split <;> rfl
    by_cases here : h = hold ∧ name = m
    · refine Moves.ends (slotHere here) ?_ (by rw [← wire]; rfl)
      rw [here.1, here.2, isServed, if_pos rfl]
    · by_cases sameHold : h = hold
      · have otherName : name ≠ m := fun same => here ⟨sameHold, same⟩
        refine Moves.stays (slotOther here) ?_ ?_ (by rw [← wire]; rfl)
        · rw [sameHold, isServed, if_neg otherName, ← served, was]
        · unfold feedAt
          rw [sameHold, get_setServed_self, ← served, was]
          simp [otherName]
      · refine moves_of_same (slotOther here) ?_ (by rw [← wire]; rfl)
        rw [get_setServed_of_ne q _ sameHold, served]
  · rw [same]
    by_cases here : h = hold ∧ name = m
    · refine Moves.opens ?_ value [frame] (List.cons_ne_nil _ _) ?_ ?_ ?_
      · unfold slotAt
        rw [send_slots]
        exact slotHere here
      · intro other isOpening
        rw [List.mem_singleton.mp isOpening]
        exact opens
      · rw [here.1, here.2, send_served, get_setServed_self]
        simp [streamAt, Served.setFeed, isValue]
      · rw [send_wire, ← wire]
        change onWire (q.wire ++ _) h name = _
        rw [onWire_append, onWire_state, if_pos ⟨here.1.symm, here.2.symm⟩]
    · by_cases sameHold : h = hold
      · have otherName : name ≠ m := fun same => here ⟨sameHold, same⟩
        refine Moves.stays ?_ ?_ ?_ ?_
        · unfold slotAt
          rw [send_slots]
          exact slotOther here
        · rw [sameHold, send_served, get_setServed_self, ← served, was]
          simp [streamAt, Served.setFeed, otherName]
        · unfold feedAt
          rw [sameHold, send_served, get_setServed_self, ← served, was]
          simp [Served.setFeed, otherName]
        · rw [send_wire]
          exact wireOther frame here
      · refine moves_of_same ?_ ?_ ?_
        · unfold slotAt
          rw [send_slots]
          exact slotOther here
        · rw [send_served, get_setServed_of_ne q _ sameHold, served]
        · rw [send_wire]
          exact wireOther frame here

theorem attachAll_spec (names : List Name) :
    ∀ served : Served, (served.attachAll names).1.ref = served.ref ∧
      (∀ entry ∈ (served.attachAll names).2, entry.1 ∈ names) ∧
      ∀ m,
        ((∀ entry ∈ (served.attachAll names).2, entry.1 ≠ m) ∧
          Entries.get (served.attachAll names).1.feeds m = Entries.get served.feeds m) ∨
        ((∃ entry ∈ (served.attachAll names).2, entry.1 = m) ∧
          Entries.get (served.attachAll names).1.feeds m = some ⟨encoder⟩ ∧
          ∃ value, Entries.get served.ref.values m = some value ∧
            ∀ entry ∈ (served.attachAll names).2, entry.1 = m → Opens value entry.2) := by
  induction names with
  | nil =>
    intro served
    refine ⟨rfl, ?_, ?_⟩
    · intro entry member
      exact absurd member not_mem_nil
    · intro m
      left
      refine ⟨?_, rfl⟩
      intro entry member
      exact absurd member not_mem_nil
  | cons name rest ih =>
    intro served
    unfold Served.attachAll Served.attach
    cases isValue : Entries.get served.ref.values name with
    | none =>
      dsimp only
      obtain ⟨ref, listed, members⟩ := ih served
      refine ⟨ref, ?_, members⟩
      intro entry member
      exact mem_cons_of_mem name (listed entry member)
    | some value =>
      dsimp only
      obtain ⟨ref, listed, members⟩ := ih (served.setFeed name ⟨encoder⟩)
      have first :=
        snapshot_opens served name value
          (.inl rfl : StateOut.snap = .snap ∨ StateOut.snap = .reset)
      refine ⟨ref, ?_, ?_⟩
      · intro entry member
        rcases List.mem_cons.mp member with rfl | later
        · exact mem_cons_self
        · exact mem_cons_of_mem name (listed entry later)
      · intro m
        by_cases here : m = name
        · right
          subst here
          refine ⟨⟨_, mem_cons_self, rfl⟩, ?_, value, isValue, ?_⟩
          · rcases members m with ⟨_, same⟩ | ⟨_, isNew, _⟩
            · rw [same]
              simp [Served.setFeed]
            · exact isNew
          · intro entry member isHere
            rcases List.mem_cons.mp member with rfl | later
            · exact first
            · rcases members m with ⟨absent, _⟩ | ⟨_, _, other, isOther, opens⟩
              · exact absurd isHere (absent entry later)
              · have sameValue : other = value :=
                  Option.some.inj (isOther.symm.trans isValue)
                rw [← sameValue]
                exact opens entry later isHere
        · rcases members m with
            ⟨absent, same⟩ | ⟨⟨entry, later, isHere⟩, isNew, other, isOther, opens⟩
          · left
            refine ⟨?_, ?_⟩
            · intro entry member
              rcases List.mem_cons.mp member with rfl | later
              · exact Ne.symm here
              · exact absent entry later
            · rw [same]
              simp [Served.setFeed, here]
          · right
            refine ⟨⟨entry, mem_cons_of_mem _ later, isHere⟩, isNew, other, isOther, ?_⟩
            intro another member isM
            rcases List.mem_cons.mp member with rfl | later
            · exact absurd isM.symm here
            · exact opens another later isM

theorem onWire_snaps (hold h : ℕ) (m : Name) (snaps : List (Name × StateOut)) :
    onWire (snaps.map fun snap => .state hold snap.1 snap.2) h m =
      if h = hold then
        (snaps.filter fun snap => snap.1 = m).map Prod.snd
      else [] := by
  induction snaps with
  | nil => rw [map_nil, onWire_nil, List.filter_nil, map_nil, ite_self]
  | cons snap rest ih =>
    rw [List.map_cons, ← List.singleton_append, onWire_append, ih, onWire_state, List.filter_cons]
    by_cases sameHold : h = hold
    · rw [if_pos sameHold, if_pos sameHold]
      by_cases here : snap.1 = m
      · rw [if_pos ⟨sameHold.symm, here⟩, if_pos (decide_eq_true here)]
        rfl
      · have notHere : ¬decide (snap.1 = m) = true := by
          rw [decide_eq_true_iff]
          exact here
        rw [if_neg notHere, if_neg]
        · rfl
        · rintro ⟨_, isHere⟩
          exact here isHere
    · rw [if_neg sameHold, if_neg sameHold, if_neg]
      · rfl
      · rintro ⟨same, _⟩
        exact sameHold same.symm

theorem noSlot_of_noFeed (steady : Steady held p) (noFeed : p.feedAt hold m = none) :
    p.slotAt hold m = none := by
  cases isSlot : p.slotAt hold m with
  | none => rfl
  | some slot =>
    have fed := (steady.fed hold m slot isSlot).2
    rw [noFeed] at fed
    cases fed

theorem steady_sendUnit (steady : Steady held p) (hold : ℕ) :
    Steady held (p.sendUnit config hold) := by
  have slot :
      ∀ h m, Entries.get (delete p.slots (.unit hold)) (.state h m) =
        p.slotAt h m := by
    intro h m
    rw [slotAt_delete, if_neg SlotKey.noConfusion]
    rfl
  unfold sendUnit
  dsimp only
  cases was : Entries.get p.served hold with
  | none =>
    apply steady_of_moves steady
    intro h m
    exact moves_of_same (slot h m) rfl rfl
  | some served =>
    dsimp only
    cases isShape : served.ref.shape with
    | none =>
      apply steady_of_moves steady
      intro h m
      exact moves_of_same (slot h m) rfl rfl
    | some shape =>
      dsimp only
      generalize isListed :
        (Served.members { served with unitSent := true } shape).filter
          (fun name => !Entries.has served.feeds name) = listed
      obtain ⟨ref, inListed, members⟩ := attachAll_spec listed { served with unitSent := true }
      generalize
        Served.attachAll { served with unitSent := true } listed = attached at ref inListed members
      have sent :=
        sendAll_keeps config (attached.2.map fun snap => Frame.state hold snap.1 snap.2)
          ((setServed { p with slots := delete p.slots (.unit hold) } hold
            attached.1).send config
            (.shape hold shape (attached.2.map Prod.fst)))
      generalize sendAll config _ _ = next at sent
      obtain ⟨slots, isServed, wire⟩ := sent
      rw [send_slots] at slots
      rw [send_served] at isServed
      rw [send_wire] at wire
      have sameSlot : ∀ h m, slotAt next h m = p.slotAt h m := by
        intro h m
        unfold slotAt
        rw [slots]
        exact slot h m
      have sameWire : ∀ h m, onWire next.wire h m =
          onWire p.wire h m ++
            if h = hold then (attached.2.filter fun snap => snap.1 = m).map Prod.snd else [] := by
        intro h m
        rw [wire, onWire_append, onWire_append, onWire_snaps,
          onWire_other (fun out => Frame.noConfusion), append_nil]
        rfl
      have here : Entries.get next.served hold = some attached.1 := by
        rw [isServed]
        exact get_setServed_self _ hold attached.1
      apply steady_of_moves steady
      intro h m
      have frames := sameWire h m
      by_cases sameHold : h = hold
      · subst sameHold
        rw [if_pos rfl] at frames
        rcases members m with
          ⟨absent, same⟩ | ⟨⟨entry, isEntry, isM⟩, isNew, value, isValue, opens⟩
        · have none_ : (attached.2.filter fun snap => snap.1 = m) = [] := by
            apply List.filter_eq_nil_iff.mpr
            intro entry member
            rw [decide_eq_true_iff]
            exact absent entry member
          rw [none_, map_nil, append_nil] at frames
          refine Moves.stays (sameSlot h m) ?_ ?_ frames
          · rw [here, was]
            unfold streamAt
            rw [bind_some, bind_some, same, ref]
          · unfold feedAt
            rw [here, was, bind_some, bind_some, same]
            exact id
        · have isListedM : m ∈ listed := by
            rw [← isM]
            exact inListed entry isEntry
          rw [← isListed] at isListedM
          have noFeed := (List.mem_filter.mp isListedM).2
          have noSlot : p.slotAt h m = none := by
            apply noSlot_of_noFeed steady
            unfold feedAt
            rw [was, bind_some]
            simpa [Entries.has] using noFeed
          refine Moves.opens (by rw [sameSlot, noSlot]) value
            ((attached.2.filter fun snap => snap.1 = m).map Prod.snd)
            ?_ ?_ ?_ frames
          · intro nothing
            have isIn : entry ∈ attached.2.filter fun snap => snap.1 = m :=
              List.mem_filter.mpr ⟨isEntry, decide_eq_true isM⟩
            rw [List.map_eq_nil_iff.mp nothing] at isIn
            exact absurd isIn not_mem_nil
          · intro frame isFrame
            obtain ⟨snap, isSnap, rfl⟩ := List.mem_map.mp isFrame
            obtain ⟨isAttached, isHere⟩ := List.mem_filter.mp isSnap
            exact opens snap isAttached (of_decide_eq_true isHere)
          · rw [here]
            unfold streamAt
            have sameValue : Entries.get attached.1.ref.values m = some value := by
              rw [ref]
              exact isValue
            rw [bind_some, isNew, bind_some, sameValue]
            rfl
      · rw [if_neg sameHold, append_nil] at frames
        refine moves_of_same (sameSlot h m) ?_ frames
        rw [isServed]
        exact get_setServed_of_ne _ attached.1 sameHold

theorem steady_flushSlot (steady : Steady held p) {key : SlotKey} {slot : Slot}
    (isSlot : Entries.get p.slots key = some slot) : Steady held (p.flushSlot config key slot) := by
  cases key with
  | unit hold =>
    have removed : Steady held { p with slots := delete p.slots (.unit hold) } := by
      apply steady_of_moves steady
      intro h m
      refine moves_of_same ?_ rfl rfl
      unfold slotAt
      rw [slotAt_delete, if_neg SlotKey.noConfusion]
    exact steady_sendUnit config removed hold
  | state hold m =>
    have isState := (steady.fed hold m slot isSlot).1
    cases slot with
    | unit => exact absurd rfl isState
    | state slot =>
      unfold flushSlot
      dsimp only
      by_cases lazily : slot.lazy = true
      · rw [if_pos lazily]
        apply steady_of_moves steady
        intro h name
        apply moves_resend config
        · rfl
        · rfl
        · rfl
      · rw [if_neg lazily]
        obtain ⟨slots, served, wire⟩ :=
          sendAll_keeps config ((slotFrames slot).map (Frame.state hold m))
            { p with
              slots := delete p.slots (.state hold m)
              pendingBytes := p.pendingBytes - slot.size }
        generalize sendAll config
            { p with
              slots := delete p.slots (.state hold m)
              pendingBytes := p.pendingBytes - slot.size }
            ((slotFrames slot).map (Frame.state hold m)) =
          next at slots served wire ⊢
        have ofSnaps :
            (slotFrames slot).map (Frame.state hold m) =
              ((slotFrames slot).map fun frame => (m, frame)).map
                fun snap => Frame.state hold snap.1 snap.2 := by
          rw [List.map_map]
          rfl
        apply steady_of_moves steady
        intro h name
        have frames : onWire next.wire h name =
            onWire p.wire h name ++
              if h = hold then
                (((slotFrames slot).map fun frame => (m, frame)).filter
                  fun snap => snap.1 = name).map Prod.snd
              else [] := by
          rw [wire, onWire_append, ofSnaps, onWire_snaps]
        by_cases here : h = hold ∧ name = m
        · obtain ⟨rfl, rfl⟩ := here
          refine Moves.flushed slot isSlot (Bool.eq_false_iff.mpr lazily) ?_ (by rw [served]) ?_
          · unfold slotAt
            rw [slots, slotAt_delete, if_pos rfl]
          · rw [frames, if_pos rfl]
            congr 1
            simp [List.filter_map, Function.comp_def]
        · refine moves_of_same ?_ (by rw [served]) ?_
          · unfold slotAt
            rw [slots, slotAt_delete, if_neg]
            intro same
            cases same
            exact here ⟨rfl, rfl⟩
          · rw [frames]
            by_cases sameHold : h = hold
            · have otherName : ¬m = name :=
                fun same => here ⟨sameHold, same.symm⟩
              rw [if_pos sameHold]
              simp [List.filter_map, Function.comp_def, otherName]
            · rw [if_neg sameHold, append_nil]

theorem steady_flushSome (n : ℕ) :
    ∀ {p : Provider}, Steady held p → Steady held (flushSome config n p) := by
  induction n with
  | zero =>
    intro p steady
    exact steady
  | succ n ih =>
    intro p steady
    unfold flushSome
    split
    · exact steady
    · split
      · exact steady
      · rename_i key slot rest isHead
        apply ih
        apply steady_flushSlot config steady
        rw [isHead, Entries.get_cons, if_pos rfl]

section

variable (steady : Steady held p)
include steady

theorem steady_flush : Steady held (p.flush config) :=
  steady_flushSome config p.slots.length steady

theorem steady_setSlot_unit (hold : ℕ) :
    Steady held (p.setSlot (.unit hold) .unit) := by
  apply steady_of_moves steady
  intro h m
  refine moves_of_same ?_ rfl rfl
  exact get_setSlot_of_ne p .unit SlotKey.noConfusion

theorem steady_queueUnit (hold : ℕ) :
    Steady held (p.queueUnit config hold) := by
  unfold queueUnit
  dsimp only
  apply steady_flush config
  split
  · exact steady
  · exact steady_setSlot_unit steady hold

theorem steady_resetLater (fed : (p.feedAt hold m).isSome = true) :
    Steady held (p.resetLater config hold m) := by
  have reset :
      ∀ bytes : ℤ, Steady held
        { p.setSlot (.state hold m) (.state lazySlot) with
          pendingBytes := bytes } := by
    intro bytes
    apply steady_of_moves steady
    intro h name
    by_cases here : h = hold ∧ name = m
    · obtain ⟨rfl, rfl⟩ := here
      exact Moves.lazied (get_setSlot_self p _ _) fed rfl
    · refine moves_of_same ?_ rfl rfl
      apply get_setSlot_of_ne p
      intro same
      cases same
      exact here ⟨rfl, rfl⟩
  unfold resetLater
  dsimp only
  split
  · exact steady
  · exact steady_flush config (reset _)
  · exact steady_flush config (reset p.pendingBytes)

end

/-! ## Streams that end -/

theorem dropState_spec (p : Provider) (hold : ℕ) (m : Name) :
    (p.dropState hold m).served = p.served ∧ (p.dropState hold m).wire = p.wire ∧
    ∀ h name,
      ((p.dropState hold m).slotAt h name = p.slotAt h name ∨
        (h = hold ∧ name = m ∧ (p.dropState hold m).slotAt h name = none)) ∧
      (h = hold → name = m → ∀ slot, (p.dropState hold m).slotAt h name ≠ some (.state slot)) := by
  unfold dropState
  split
  · rename_i slot isSlot
    refine ⟨rfl, rfl, ?_⟩
    intro h name
    have after :
        slotAt { p with
            slots := delete p.slots (.state hold m)
            pendingBytes := p.pendingBytes - slot.size } h name =
          if SlotKey.state h name = .state hold m then none
          else p.slotAt h name :=
      slotAt_delete p.slots (.state hold m) h name
    rw [after]
    by_cases here : h = hold ∧ name = m
    · obtain ⟨rfl, rfl⟩ := here
      rw [if_pos rfl]
      exact ⟨.inr ⟨rfl, rfl, rfl⟩, fun _ _ _ isSome => by cases isSome⟩
    · rw [if_neg]
      · refine ⟨.inl rfl, ?_⟩
        intro sameHold sameName
        exact absurd ⟨sameHold, sameName⟩ here
      · intro same
        cases same
        exact here ⟨rfl, rfl⟩
  · rename_i notState
    refine ⟨rfl, rfl, ?_⟩
    intro h name
    refine ⟨.inl rfl, ?_⟩
    rintro rfl rfl slot isSlot
    exact notState slot isSlot

theorem dropMembers_spec (hold : ℕ) (names : List Name) :
    ∀ p : Provider, (dropMembers hold names p).served = p.served ∧
      (dropMembers hold names p).wire = p.wire ∧
      ∀ h name,
        ((dropMembers hold names p).slotAt h name = p.slotAt h name ∨
          (h = hold ∧ name ∈ names ∧ (dropMembers hold names p).slotAt h name = none)) ∧
        (h = hold → name ∈ names → ∀ slot,
          (dropMembers hold names p).slotAt h name ≠ some (.state slot)) := by
  induction names with
  | nil =>
    intro p
    refine ⟨rfl, rfl, ?_⟩
    intro h name
    exact ⟨.inl rfl, fun _ member => absurd member not_mem_nil⟩
  | cons m rest ih =>
    intro p
    obtain ⟨served, wire, slots⟩ := dropState_spec p hold m
    obtain ⟨servedRest, wireRest, slotsRest⟩ := ih (p.dropState hold m)
    refine ⟨servedRest.trans served, wireRest.trans wire, ?_⟩
    intro h name
    have here := slots h name
    have later := slotsRest h name
    unfold dropMembers
    refine ⟨?_, ?_⟩
    · rcases later.1 with same | ⟨sameHold, isRest, isNone⟩
      · rw [same]
        rcases here.1 with same | ⟨sameHold, sameName, isNone⟩
        · exact .inl same
        · right
          refine ⟨sameHold, ?_, isNone⟩
          rw [sameName]
          exact mem_cons_self
      · exact .inr ⟨sameHold, mem_cons_of_mem m isRest, isNone⟩
    · intro sameHold isMember slot
      by_cases inRest : name ∈ rest
      · exact later.2 sameHold inRest slot
      · have sameName : name = m := by
          rcases List.mem_cons.mp isMember with same | isRest
          · exact same
          · exact absurd isRest inRest
        rcases later.1 with same | ⟨_, isRest, _⟩
        · rw [same]
          exact here.2 sameHold sameName slot
        · exact absurd isRest inRest

theorem slotAt_dropHoldState (p : Provider) (hold h : ℕ) (m : Name) :
    (p.dropHoldState hold).slotAt h m =
      if h = hold then none else p.slotAt h m := by
  have restricted := get_restrict p.slots (fun key => key.hold ≠ hold) (.state h m)
  unfold slotAt dropHoldState
  rw [restricted]
  by_cases same : h = hold
  · simp [SlotKey.hold, same]
  · simp [SlotKey.hold, same]

theorem steady_unit (steady : Steady held p) (hold : ℕ) : Steady held (p.unit config hold) := by
  unfold unit
  cases was : Entries.get p.served hold with
  | none => exact steady
  | some served =>
    dsimp only
    cases isShape : served.ref.shape with
    | none => exact steady
    | some shape =>
      dsimp only
      generalize served.members shape = members
      obtain ⟨sameServed, wire, slots⟩ :=
        dropMembers_spec hold ((Entries.keys served.feeds).filter fun name => name ∉ members)
          (p.setServed hold
            { served with
              feeds := restrict served.feeds fun name => name ∈ members })
      generalize dropMembers hold ((Entries.keys served.feeds).filter fun name => name ∉ members)
          (p.setServed hold
            { served with
              feeds :=
                restrict served.feeds fun name =>
                  name ∈ members }) =
        next at sameServed wire slots ⊢
      have dropped : Steady held next := by
        apply steady_of_moves steady
        intro h m
        have slot := slots h m
        have sameWire : onWire next.wire h m = onWire p.wire h m := by
          rw [wire]
          rfl
        by_cases sameHold : h = hold
        · subst sameHold
          have isServed :
              Entries.get next.served h =
                some
                  { served with
                    feeds :=
                      restrict served.feeds fun name =>
                        name ∈ members } := by
            rw [sameServed]
            exact get_setServed_self p h _
          by_cases isMember : m ∈ members
          · have kept : next.slotAt h m = p.slotAt h m := by
              rcases slot.1 with same | ⟨_, isLeft, _⟩
              · exact same
              · have left := (List.mem_filter.mp isLeft).2
                exact absurd isMember (of_decide_eq_true left)
            refine Moves.stays kept ?_ ?_ sameWire
            · rw [isServed, was]
              simp only [streamAt, bind_some,
                get_restrict, isMember, decide_true, if_true]
            · unfold feedAt
              rw [isServed, was]
              simp only [bind_some, get_restrict, isMember,
                decide_true, if_true]
              exact id
          · refine Moves.ends ?_ ?_ sameWire
            · cases isSlot : next.slotAt h m with
              | none => rfl
              | some other =>
                have wasSlot : p.slotAt h m = some other := by
                  rcases slot.1 with same | ⟨_, _, isNone⟩
                  · rw [← isSlot, same]
                    rfl
                  · rw [isSlot] at isNone
                    cases isNone
                have fed := steady.fed h m other wasSlot
                have isKey : m ∈ Entries.keys served.feeds := by
                  rw [← Entries.has_iff_mem_keys]
                  have isFed := fed.2
                  unfold feedAt at isFed
                  rwa [was] at isFed
                have isLeft : m ∈ (Entries.keys served.feeds).filter fun name => name ∉ members :=
                  List.mem_filter.mpr
                    ⟨isKey, decide_eq_true isMember⟩
                cases other with
                | unit => exact absurd rfl fed.1
                | state other => exact absurd isSlot (slot.2 rfl isLeft other)
            · rw [isServed]
              apply streamAt_none_of_feed
              simp only [get_restrict, isMember, decide_false, Bool.false_eq_true, if_false]
        · have kept : next.slotAt h m = p.slotAt h m := by
            rcases slot.1 with same | ⟨isHold, _, _⟩
            · exact same
            · exact absurd isHold sameHold
          refine moves_of_same kept ?_ sameWire
          rw [sameServed]
          exact get_setServed_of_ne p _ sameHold
      split
      · exact steady_sendUnit config dropped hold
      · exact steady_queueUnit config dropped hold

theorem steady_dropHold (steady : Steady held p)
    (slots : ∀ h m, next.slotAt h m = if h = hold then none else p.slotAt h m)
    (noStream : ∀ m, streamAt (Entries.get next.served hold) m = none)
    (served : ∀ h, h ≠ hold → Entries.get next.served h = Entries.get p.served h)
    (wire : next.wire = p.wire) : Steady held next := by
  apply steady_of_moves steady
  intro h m
  have slot := slots h m
  by_cases sameHold : h = hold
  · rw [if_pos sameHold] at slot
    refine Moves.ends slot ?_ (by rw [wire])
    rw [sameHold]
    exact noStream m
  · rw [if_neg sameHold] at slot
    exact moves_of_same slot (served h sameHold) (by rw [wire])

theorem steady_dropServed (steady : Steady held p) (id : ℕ) : Steady held (p.dropServed id) := by
  unfold dropServed
  split
  · apply steady_dropHold steady
    · intro h m
      exact slotAt_dropHoldState { p with served := delete p.served id } id h m
    · intro m
      change streamAt (Entries.get (delete p.served id) id) m = none
      rw [get_delete, if_pos rfl]
      rfl
    · intro h isOther
      change Entries.get (delete p.served id) h = _
      rw [get_delete, if_neg isOther]
    · rfl
  · exact steady

/-! ## Every operation -/

section

variable (steady : Steady held p)
include steady

theorem steady_counters (slots : next.slots = p.slots) (served : next.served = p.served)
    (wire : next.wire = p.wire) : Steady held next :=
  steady_of_same steady slots served fun hold m => by rw [wire]

theorem steady_onHello (acks : Bool) : Steady held (p.onHello acks) := by
  unfold onHello
  split
  · exact steady
  · split
    · exact steady_counters steady rfl rfl rfl
    · exact steady_counters steady rfl rfl rfl

theorem steady_onAck (n : ℕ) : Steady held (p.onAck config n) := by
  unfold onAck
  split
  · exact steady_counters steady rfl rfl rfl
  · apply steady_flush config
    exact steady_counters steady rfl rfl rfl

theorem steady_onHold (id : ℕ) (contract : Contract) (acquired : Except ChordError Ref)
    (wantsState again : Bool) :
    Steady held (p.onHold config id contract acquired wantsState again) := by
  unfold onHold
  split
  · exact steady_counters steady rfl rfl rfl
  · rename_i isNew
    split
    · apply steady_send config steady
      intro hold m out
      exact Frame.noConfusion
    · rename_i ref
      apply steady_unit config
      have notServed : Entries.get p.served id = none := by
        unfold Entries.has at isNew
        rwa [Bool.not_eq_true, isSome_eq_false_iff, isNone_iff_eq_none] at isNew
      apply steady_of_moves steady
      intro h m
      by_cases same : h = id
      · subst same
        refine Moves.ends ?_ ?_ rfl
        · apply noSlot_of_noFeed steady
          unfold feedAt
          rw [notServed]
          rfl
        · rw [get_setServed_self]
          exact streamAt_none_of_feed rfl
      · refine moves_of_same rfl ?_ rfl
        exact get_setServed_of_ne p _ same

theorem steady_onWantState (hold : ℕ) (wanted : Bool) :
    Steady held (p.onWantState config hold wanted) := by
  unfold onWantState
  cases was : Entries.get p.served hold with
  | none => exact steady
  | some served =>
    dsimp only
    split
    · exact steady
    · split
      · apply steady_unit config
        exact steady_setServed steady was (fun _ => rfl) (fun _ => rfl)
      · apply steady_dropHold steady
        · intro h m
          exact slotAt_dropHoldState _ hold h m
        · intro m
          have isServed :=
            get_setServed_self p hold { served with wantsState := false, feeds := [] }
          change streamAt (Entries.get
            (p.setServed hold { served with wantsState := false, feeds := [] }).served hold)
            m = none
          rw [isServed]
          exact streamAt_none_of_feed rfl
        · intro h isOther
          exact get_setServed_of_ne p _ isOther
        · rfl

theorem steady_onResync (hold : ℕ) (m : Name) :
    Steady held (p.onResync config hold m) := by
  unfold onResync
  cases was : Entries.get p.served hold with
  | none => exact steady
  | some served =>
    dsimp only
    split
    · rename_i isFed
      apply steady_resetLater config steady
      unfold feedAt
      rw [was]
      exact isFed
    · exact steady

end

theorem steady_setIdle {p : Provider} (steady : Steady held p) (hold : ℕ) (name : Name)
    (value : Option JsonValue) : Steady held (p.setIdle hold name value) := by
  unfold setIdle
  cases was : Entries.get p.served hold with
  | none => exact steady
  | some served =>
    dsimp only
    split
    · exact steady
    · rename_i notFed
      have noFeed : Entries.get served.feeds name = none := by
        unfold Entries.has at notFed
        rwa [Bool.not_eq_true, isSome_eq_false_iff, isNone_iff_eq_none] at notFed
      have streams :
          ∀ next : Served, next.feeds = served.feeds →
            (∀ m, m ≠ name → Entries.get next.ref.values m = Entries.get served.ref.values m) →
            ∀ m, streamAt (some next) m = streamAt (some served) m := by
        intro next feeds values m
        unfold streamAt
        rw [bind_some, bind_some, feeds]
        by_cases here : m = name
        · rw [here, noFeed]
          rfl
        · rw [values m here]
      split
      · refine steady_setServed steady was (streams _ rfl ?_) fun _ => rfl
        intro m isOther
        simp [Served.setValue, isOther]
      · refine steady_setServed steady was (streams _ rfl ?_) fun _ => rfl
        intro m isOther
        simp [isOther]

theorem steady_reshape (steady : Steady held p) (hold : ℕ) (shape : Shape)
    (validateSnapshot : Name → JsonValue → Option ChordError) :
    Steady held (p.reshape config hold shape validateSnapshot) := by
  unfold reshape
  cases was : Entries.get p.served hold with
  | none => exact steady
  | some served =>
    apply steady_unit config
    exact steady_setServed steady was (fun _ => rfl) (fun _ => rfl)

theorem steady_refGone (steady : Steady held p) (hold : ℕ) (error : ChordError) :
    Steady held (p.refGone config hold error) := by
  unfold refGone
  split
  · apply steady_send config (steady_dropServed steady hold)
    intro h m out
    exact Frame.noConfusion
  · exact steady

end Operations

theorem steady_new : Steady held newProvider := by
  refine ⟨?_, ?_, ?_⟩
  · intro hold m member _ value enc isEnd
    cases isEnd
  · intro hold m slot isSlot
    cases isSlot
  · intro hold m lazily
    cases lazily

end Provider

end PiEmbodied.Chord
