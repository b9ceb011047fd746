import PiEmbodied.Chord.Delta.Apply
import PiEmbodied.Chord.Delta.Codec
import PiEmbodied.Runs

/-!
# Remote bindings

A consumer's hold on an object of another host.  The provider answers with a
unit, the shape followed by a snapshot of each state member the binding lacks;
a shape is applied only once all of its snapshots are here.
-/

namespace PiEmbodied.Chord

open Delta

abbrev Name := String

/-! ## Contracts and shapes -/

inductive MemberKind where
  | method | state | opaqueData
deriving DecidableEq

structure Contract where
  /-- `description.variants[variant]?.[name]?.kind` -/
  kind : String → Name → Option MemberKind

structure Shape where
  variant : Option String
  members : List Name
deriving DecidableEq

def Contract.isState (contract : Contract) (variant : Option String) (name : Name) : Bool :=
  match variant with
  | none => false
  | some variant => contract.kind variant name = some .state

def Contract.stateMembers (contract : Contract) (shape : Shape) : List Name :=
  shape.members.filter (contract.isState shape.variant)

structure ChordError where
  (code message : String)
deriving DecidableEq

inductive StateIn where
  | snap (value : JsonValue)
  | reset (value : JsonValue)
  | ops (wire : List JsonValue)
  | error (error : ChordError)

inductive StateEvent where
  | reset (value : JsonValue)
  | ops (ops : List (Op Unit)) (value : JsonValue)

/-- What a binding does to the link, the host and its readers. -/
inductive Notice where
  | wantState (hold : ℕ) (wanted : Bool)
  | release (hold : ℕ)
  | idle
  | forget
  | report (error : ChordError)
  | thrown (error : DeltaError)
  | deliver (name : Name) (event : StateEvent)

/-! ## The binding -/

/-- A member's value with the decoder of its current stream. -/
structure MemberState where
  value : JsonValue
  decoder : Decoder

structure Pending where
  shape : Shape
  missing : List Name
  values : List (Name × MemberState)

inductive Status where
  | loading | live | ended
deriving DecidableEq

structure Binding where
  status : Status
  error : Option ChordError
  shape : Option Shape
  hydrated : Bool
  hold : Option ℕ
  stateOn : Bool
  /-- Whether each view wants state. -/
  views : List Bool
  members : List (Name × MemberState)
  pending : Option Pending
  applied : Bool

def freshBinding : Binding where
  status := .loading
  error := none
  shape := none
  hydrated := false
  hold := none
  stateOn := false
  views := []
  members := []
  pending := none
  applied := false

def Binding.ended (b : Binding) : Bool := b.status = .ended

def Binding.stateViews (b : Binding) : ℕ := b.views.count true

def Binding.wantsState (b : Binding) : Bool :=
  if b.views.length = 0 then b.stateOn else 0 < b.stateViews

def Binding.inVariant (contract : Contract) (b : Binding) (name : Name) : Bool :=
  contract.isState (b.shape.bind (·.variant)) name

section Binding

variable (contract : Contract) (owned : ℕ → Bool)

/-- Tells the provider to start or stop state when the views' wish changed. -/
def Binding.syncState (b : Binding) : Binding × List Notice :=
  if b.ended ∨ b.views.length = 0 then (b, [])
  else
    let wanted : Bool := 0 < b.stateViews
    if wanted = b.stateOn then (b, [])
    else
      let told := b.hold.toList.map fun id => Notice.wantState id wanted
      if wanted then ({ b with stateOn := wanted }, told)
      else
        ({ b with
            stateOn := wanted
            hydrated := false
            members := []
            pending := b.pending.map fun p => { p with missing := [] } },
          told)

def Binding.addView (b : Binding) (wantsState : Bool) : Binding × List Notice :=
  Binding.syncState { b with views := wantsState :: b.views }

def Binding.removeView (b : Binding) (wantsState : Bool) : Binding × List Notice :=
  if wantsState ∈ b.views then
    let b := { b with views := b.views.erase wantsState }
    if b.views.length = 0 then (b, [.idle]) else b.syncState
  else (b, [])

def Binding.bound (b : Binding) (id : ℕ) : Binding × List Notice :=
  ({ b with hold := some id, stateOn := b.wantsState }, [])

def Binding.apply (b : Binding) : Binding × List Notice :=
  match b.pending with
  | none => (b, [])
  | some pending =>
    let wanted := contract.stateMembers pending.shape
    let fresh := Entries.restrict pending.values (· ∈ wanted)
    let members := Entries.setAll (Entries.restrict b.members (· ∈ wanted)) fresh
    ({ b with
        pending := none
        shape := some pending.shape
        members := members
        hydrated := b.stateOn && wanted.all (Entries.has members)
        status := .live
        applied := true },
      fresh.map fun entry => .deliver entry.1 (.reset entry.2.value))

def Binding.await (b : Binding) (pending : Pending) : Binding × List Notice :=
  let b := { b with pending := some pending }
  if pending.missing = [] then b.apply contract else (b, [])

/-- A unit begins: `listed` are the members whose snapshots follow. -/
def Binding.shaped (b : Binding) (shape : Shape) (listed : List Name) : Binding × List Notice :=
  if b.ended then (b, [])
  else
    let previous := (b.pending.map (·.missing)).getD []
    let wanted := contract.stateMembers shape
    let missing := (listed ++ previous).filter fun name => name ∈ wanted ∧ b.stateOn
    let values := (b.pending.map (·.values)).getD []
    b.await contract ⟨shape, missing, values⟩

def Binding.gone (b : Binding) (error : ChordError) : Binding × List Notice :=
  if b.ended then (b, [])
  else
    ({ b with
        status := .ended, error := some error, hold := none, pending := none },
      [.forget])

def Binding.close (b : Binding) : Binding × List Notice :=
  ({ b with status := .ended, hold := none, pending := none },
    b.hold.toList.map Notice.release ++ [.forget])

def Binding.detached (b : Binding) : Binding × List Notice :=
  if b.ended then (b, [])
  else
    ({ b with
        hold := none
        pending := none
        status := if b.status = .live then .loading else b.status },
      [])

def decodedUntil (dec : Decoder) : List JsonValue → Decoder
  | [] => dec
  | raw :: rest =>
    match codec.decodeOne dec raw with
    | .ok (next, _) => decodedUntil next rest
    | .error _ => dec

/-- A member's stream goes on with an `ops` frame. -/
def MemberState.advance (member : MemberState) (wire : List JsonValue) :
    MemberState × Except DeltaError (List (Op Unit)) :=
  match codec.decodeBatch member.decoder wire with
  | .error e =>
    ({ member with
        decoder := decodedUntil (codec.beginDecode member.decoder) wire },
      .error e)
  | .ok (dec, ops) =>
    match applyImmutable owned member.value ops with
    | .error e => ({ member with decoder := dec }, .error e)
    | .ok value => (⟨value, dec⟩, .ok ops)

def Binding.memberOps (b : Binding) (name : Name) (wire : List JsonValue) : Binding × List Notice :=
  match Entries.get b.members name with
  | none => (b, [])
  | some target =>
    let next := target.advance owned wire
    ({ b with members := Entries.set b.members name next.1 },
      match next.2 with
      | .ok ops => [.deliver name (.ops ops next.1.value)]
      | .error e => [.thrown e])

/-- An `ops` frame: for the snapshot that waits, else for the value held. -/
def Binding.stateOps (b : Binding) (name : Name) (wire : List JsonValue) : Binding × List Notice :=
  match b.pending with
  | none => b.memberOps owned name wire
  | some pending =>
    match Entries.get pending.values name with
    | none => b.memberOps owned name wire
    | some target =>
      let next := target.advance owned wire
      let values := Entries.set pending.values name next.1
      ({ b with pending := some { pending with values := values } },
        match next.2 with
        | .ok _ => []
        | .error e => [.thrown e])

def Binding.stateValue (b : Binding) (name : Name) (value : JsonValue) : Binding × List Notice :=
  let fresh : MemberState := ⟨value, decoder⟩
  match b.pending.filter fun p =>
      name ∈ p.missing ∨ Entries.has p.values name with
  | some pending =>
    b.await contract
      { pending with
        values := Entries.set pending.values name fresh
        missing := pending.missing.filter (· ≠ name) }
  | none =>
    if b.inVariant contract name then
      ({ b with members := Entries.set b.members name fresh }, [.deliver name (.reset value)])
    else (b, [])

/-- Before the first hydration nobody could read anything: the binding fails
instead of waiting forever. -/
def Binding.stateError (b : Binding) (error : ChordError) : Binding × List Notice :=
  if !b.hydrated && b.stateOn then
    let failed := b.gone error
    let closed := failed.1.close
    (closed.1, failed.2 ++ closed.2)
  else (b, [.report error])

def Binding.state (b : Binding) (name : Name) (frame : StateIn) : Binding × List Notice :=
  if b.ended then (b, [])
  else
    match frame with
    | .error error => b.stateError error
    | .ops wire => b.stateOps owned name wire
    | .snap value | .reset value => b.stateValue contract name value

inductive Input where
  | addView (wantsState : Bool)
  | removeView (wantsState : Bool)
  | bound (id : ℕ)
  | shaped (shape : Shape) (listed : List Name)
  | state (name : Name) (frame : StateIn)
  | gone (error : ChordError)
  | detached
  | close

def Binding.take (b : Binding) : Input → Binding × List Notice
  | .addView wantsState => b.addView wantsState
  | .removeView wantsState => b.removeView wantsState
  | .bound id => b.bound id
  | .shaped shape listed => b.shaped contract shape listed
  | .state name frame => b.state contract owned name frame
  | .gone error => b.gone error
  | .detached => b.detached
  | .close => b.close

end Binding

end PiEmbodied.Chord
