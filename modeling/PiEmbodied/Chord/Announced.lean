import PiEmbodied.Chord.Sending

/-!
# What a shape announces follows it

A unit is sent in one go: the frame of a shape is followed on the wire by a
snapshot, or the error in its place, of every member it lists.
-/

namespace PiEmbodied.Chord

open Delta

/-! ## Wires -/

/-- A frame that opens a stream: a value, or the error in its place. -/
def StateOut.isOpening : StateOut → Bool
  | .ops _ _ => false
  | _ => true

def Follows (wire : List Frame) (hold : ℕ) (m : Name) : Prop :=
  ∃ out ∈ Provider.onWire wire hold m, out.isOpening = true

def Announced : List Frame → Prop
  | [] => True
  | .shape id _ listed :: rest => (∀ m ∈ listed, Follows rest id m) ∧ Announced rest
  | _ :: rest => Announced rest

theorem follows_append {wire : List Frame} {hold : ℕ} {m : Name}
    (follows : Follows wire hold m) (more : List Frame) : Follows (wire ++ more) hold m := by
  obtain ⟨out, member, opening⟩ := follows
  refine ⟨out, ?_, opening⟩
  rw [Provider.onWire_append]
  exact List.mem_append_left _ member

theorem announced_append {wire more : List Frame} (announced : Announced wire)
    (later : Announced more) : Announced (wire ++ more) := by
  induction wire with
  | nil => exact later
  | cons frame rest ih =>
    cases frame with
    | shape id shape listed =>
      obtain ⟨follow, announcedRest⟩ := announced
      refine ⟨?_, ih announcedRest⟩
      intro m isListed
      exact follows_append (follow m isListed) more
    | state hold m out | gone id e | other label => exact ih announced

theorem announced_tail {frame : Frame} {rest : List Frame}
    (announced : Announced (frame :: rest)) : Announced rest := by
  cases frame with
  | shape id shape listed => exact announced.2
  | state hold m out | gone id e | other label => exact announced

theorem announced_states (hold : ℕ) (frames : List (Name × StateOut)) :
    Announced (frames.map fun entry => .state hold entry.1 entry.2) := by
  induction frames with
  | nil => trivial
  | cons entry rest ih => exact ih

/-- What an operation sends: frames where every shape is followed by what it
lists. -/
def Sends (p next : Provider) : Prop :=
  ∃ frames, next.wire = p.wire ++ frames ∧ Announced frames

theorem sends_of_wire {p next : Provider} (wire : next.wire = p.wire) : Sends p next :=
  ⟨[], by rw [wire, List.append_nil], trivial⟩

theorem sends_refl (p : Provider) : Sends p p :=
  sends_of_wire rfl

theorem sends_trans {p middle next : Provider}
    (here : Sends p middle) (later : Sends middle next) : Sends p next := by
  obtain ⟨first, wire, announced⟩ := here
  obtain ⟨second, wireLater, announcedLater⟩ := later
  refine ⟨first ++ second, ?_, announced_append announced announcedLater⟩
  rw [wireLater, wire, List.append_assoc]

theorem sends_of_sends {p before next : Provider} (wire : before.wire = p.wire)
    (sends : Sends before next) : Sends p next :=
  sends_trans (sends_of_wire wire) sends

namespace Provider

section Operations

variable (config : Config) (p : Provider) (n id hold : ℕ) (shape : Shape) (name m : Name)

theorem sends_send {frame : Frame} (announced : Announced [frame]) :
    Sends p (p.send config frame) :=
  ⟨[frame], send_wire config p frame, announced⟩

theorem sends_sendAll {frames : List Frame} (announced : Announced frames) :
    Sends p (p.sendAll config frames) :=
  ⟨frames, (sendAll_keeps config frames p).2.2, announced⟩

theorem sends_sendState (frame : StateOut) : Sends p (p.sendState config hold m frame) := by
  by_cases isUnit : p.slotAt hold m = some .unit
  · have unchanged : p.sendState config hold m frame = p := by
      unfold slotAt at isUnit
      unfold sendState
      dsimp only
      rw [isUnit]
    rw [unchanged]
    exact sends_refl p
  · have takes := sendState_takes config p hold m frame isUnit
    cases takes.taken with
    | sent noSlot still wire => exact ⟨[.state hold m frame], wire, trivial⟩
    | covered wire isLazy kept isOps | joined wire size notLazy ops upTo isOps slot
    | replaced wire notOps slot => exact sends_of_wire wire

theorem announced_unit {snaps : List (Name × StateOut)}
    (opening : ∀ snap ∈ snaps, snap.2.isOpening = true) :
    Announced
      (.shape hold shape (snaps.map Prod.fst) ::
        snaps.map fun snap => .state hold snap.1 snap.2) := by
  refine ⟨?_, announced_states hold snaps⟩
  intro m isListed
  obtain ⟨snap, member, rfl⟩ := List.mem_map.mp isListed
  refine ⟨snap.2, ?_, opening snap member⟩
  apply List.mem_filterMap.mpr
  refine ⟨.state hold snap.1 snap.2, ?_, ?_⟩
  · exact List.mem_map_of_mem member
  · exact if_pos ⟨rfl, rfl⟩

theorem isOpening_of_opens {value : JsonValue} {frame : StateOut}
    (opens : Opens value frame) : frame.isOpening = true := by
  rcases opens with rfl | rfl | ⟨e, rfl⟩
  · rfl
  · rfl
  · rfl

theorem sends_sendUnit : Sends p (p.sendUnit config hold) := by
  unfold sendUnit
  dsimp only
  cases Entries.get p.served hold with
  | none => exact sends_of_wire rfl
  | some served =>
    dsimp only
    cases served.ref.shape with
    | none => exact sends_of_wire rfl
    | some shape =>
      dsimp only
      generalize (Served.members { served with unitSent := true } shape).filter _ = listed
      obtain ⟨_, _, members⟩ := attachAll_spec listed { served with unitSent := true }
      generalize
        Served.attachAll { served with unitSent := true } listed = attached at members ⊢
      have opening : ∀ snap ∈ attached.2, snap.2.isOpening = true := by
        intro snap member
        rcases members snap.1 with ⟨absent, _⟩ | ⟨_, _, value, _, opens⟩
        · exact absurd rfl (absent snap member)
        · exact isOpening_of_opens (opens snap member rfl)
      refine ⟨_, ?_, announced_unit hold shape opening⟩
      rw [(sendAll_keeps config _ _).2.2, send_wire, List.append_assoc]
      rfl

theorem sends_resend : Sends p (p.resend config hold m) := by
  unfold resend
  split
  · exact sends_refl p
  · split
    · dsimp only
      split
      · exact sends_of_wire rfl
      · apply sends_of_sends rfl
        exact sends_send config _ trivial
    · exact sends_refl p

theorem sends_flushSlot (key : SlotKey) (slot : Slot) :
    Sends p (p.flushSlot config key slot) := by
  unfold flushSlot
  dsimp only
  split
  · apply sends_of_sends rfl
    exact sends_sendUnit config _ _
  · split
    · apply sends_of_sends rfl
      exact sends_resend config _ _ _
    · rename_i hold m slot notLazy
      apply sends_of_sends rfl
      apply sends_sendAll
      have states := announced_states hold ((slotFrames slot).map fun out => (m, out))
      rwa [List.map_map] at states
  · exact sends_of_wire rfl

theorem sends_flushSome : ∀ p : Provider, Sends p (flushSome config n p) := by
  induction n with
  | zero =>
    intro p
    exact sends_refl p
  | succ n ih =>
    intro p
    unfold flushSome
    split
    · exact sends_refl p
    · split
      · exact sends_refl p
      · exact sends_trans (sends_flushSlot config p _ _) (ih _)

theorem sends_flush : Sends p (p.flush config) :=
  sends_flushSome config _ p

theorem sends_queueUnit : Sends p (p.queueUnit config hold) := by
  unfold queueUnit
  dsimp only
  split
  · exact sends_flush config p
  · apply sends_of_sends rfl
    exact sends_flush config _

theorem sends_resetLater :
    Sends p (p.resetLater config hold m) := by
  unfold resetLater
  dsimp only
  split
  · exact sends_refl p
  · apply sends_of_sends rfl
    exact sends_flush config _
  · apply sends_of_sends rfl
    exact sends_flush config _

theorem sends_unit : Sends p (p.unit config hold) := by
  unfold unit
  split
  · exact sends_refl p
  · split
    · exact sends_refl p
    · dsimp only
      split
      · refine sends_trans (sends_of_wire ?_) (sends_sendUnit config _ hold)
        exact (dropMembers_spec hold _ _).2.1
      · refine sends_trans (sends_of_wire ?_) (sends_queueUnit config _ hold)
        exact (dropMembers_spec hold _ _).2.1

theorem sends_onHello (acks : Bool) : Sends p (p.onHello acks) := by
  unfold onHello
  split
  · exact sends_refl p
  · split
    · exact sends_of_wire rfl
    · exact sends_of_wire rfl

theorem sends_onAck : Sends p (p.onAck config n) := by
  unfold onAck
  split
  · exact sends_of_wire rfl
  · apply sends_of_sends rfl
    exact sends_flush config _

theorem sends_onHold (contract : Contract) (acquired : Except ChordError Ref)
    (wantsState again : Bool) :
    Sends p (p.onHold config id contract acquired wantsState again) := by
  unfold onHold
  split
  · exact sends_of_wire rfl
  · split
    · exact sends_send config p trivial
    · apply sends_of_sends rfl
      exact sends_unit config _ id

theorem wire_dropServed : (p.dropServed id).wire = p.wire := by
  unfold dropServed
  split <;> rfl

theorem sends_onWantState (wanted : Bool) :
    Sends p (p.onWantState config hold wanted) := by
  unfold onWantState
  split
  · exact sends_refl p
  · split
    · exact sends_refl p
    · split
      · apply sends_of_sends rfl
        exact sends_unit config _ hold
      · exact sends_of_wire rfl

theorem sends_onResync :
    Sends p (p.onResync config hold m) := by
  unfold onResync
  split
  · exact sends_refl p
  · split
    · exact sends_resetLater config p hold m
    · exact sends_refl p

theorem sends_memberEvent (event : MemberEvent) :
    Sends p (p.memberEvent config hold name event) := by
  unfold memberEvent
  split
  · exact sends_refl p
  · split
    · exact sends_refl p
    · split
      · exact sends_refl p
      · dsimp only
        split
        · exact sends_of_wire rfl
        · split
          · apply sends_of_sends rfl
            exact sends_sendState config _ hold name _
          · apply sends_of_sends rfl
            exact sends_sendState config _ hold name _

theorem sends_setIdle (value : Option JsonValue) : Sends p (p.setIdle hold name value) := by
  unfold setIdle
  split
  · exact sends_refl p
  · split
    · exact sends_refl p
    · split
      · exact sends_of_wire rfl
      · exact sends_of_wire rfl

theorem sends_reshape (validateSnapshot : Name → JsonValue → Option ChordError) :
    Sends p (p.reshape config hold shape validateSnapshot) := by
  unfold reshape
  split
  · exact sends_refl p
  · apply sends_of_sends rfl
    exact sends_unit config _ hold

theorem sends_refGone (error : ChordError) :
    Sends p (p.refGone config hold error) := by
  unfold refGone
  split
  · apply sends_of_sends (wire_dropServed p hold)
    exact sends_send config _ trivial
  · exact sends_refl p

end Operations

end Provider

end PiEmbodied.Chord
