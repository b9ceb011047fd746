import PiEmbodied.Chord.Announced

/-!
# What a binding holds

A state frame goes to the snapshot that waits for its unit, else to the value
held.  Frames of one member change what is held of that member only; everything
else a binding is told may make it lose what it holds, and gives it nothing.
-/

namespace PiEmbodied.Chord

open Delta Coding
open Entries (get_restrict get_set get_setAll restrict)
open Option (bind_some filter none_or)

/-! ## The value a frame finds -/

/-- What a state frame of a member would find: the snapshot that waits, else
the value held. -/
def Binding.held (b : Binding) (name : Name) : Option MemberState :=
  if b.ended then none
  else
    (b.pending.bind fun p => Entries.get p.values name).or (Entries.get b.members name)

def Loses (before after : Option MemberState) : Prop :=
  after = before ∨ after = none

theorem loses_refl (held : Option MemberState) : Loses held held :=
  .inl rfl

/-- A binding holds members of its variant only, and all of them once it is
hydrated; a hydrated binding has no unit that waits for nothing. -/
structure Binding.WellFormed (contract : Contract) (b : Binding) : Prop where
  members : ∀ name, Entries.has b.members name = true → b.inVariant contract name = true
  hydrated :
    b.hydrated = true → ∀ shape, b.shape = some shape →
      ∀ name ∈ contract.stateMembers shape, Entries.has b.members name = true
  waits : b.hydrated = true → ∀ pending, b.pending = some pending → pending.missing ≠ []

theorem mem_stateMembers {contract : Contract} {shape : Shape} {name : Name}
    (member : name ∈ contract.stateMembers shape) : contract.isState shape.variant name = true :=
  (List.mem_filter.mp member).2

theorem held_of_open {b : Binding} (open_ : b.ended = false) (name : Name) :
    b.held name =
      (b.pending.bind fun p => Entries.get p.values name).or (Entries.get b.members name) := by
  unfold Binding.held
  rw [open_]
  rfl

theorem held_of_ended {b : Binding} (ended : b.ended = true) (name : Name) :
    b.held name = none := by
  unfold Binding.held
  rw [if_pos ended]

section Held

variable {contract : Contract} (owned : ℕ → Bool) {b : Binding} {pending : Pending}

theorem apply_held (waits : b.pending = some pending) (open_ : b.ended = false) (name : Name) :
    Loses (b.held name) ((b.apply contract).1.held name) := by
  have applied : (b.apply contract).1.ended = false ∧ (b.apply contract).1.pending = none ∧
      (b.apply contract).1.members =
        Entries.setAll
          (restrict b.members (· ∈ contract.stateMembers pending.shape))
          (restrict pending.values (· ∈ contract.stateMembers pending.shape)) := by
    unfold Binding.apply
    rw [waits]
    exact ⟨rfl, rfl, rfl⟩
  obtain ⟨stillOpen, noPending, members⟩ := applied
  rw [held_of_open open_, held_of_open stillOpen, waits, noPending, members,
    Option.bind_none, none_or, bind_some, get_setAll,
    get_restrict, get_restrict]
  by_cases wanted : name ∈ contract.stateMembers pending.shape
  · apply Or.inl
    simp only [wanted, decide_true, if_true]
  · apply Or.inr
    simp only [wanted, decide_false, Bool.false_eq_true, if_false, none_or]

theorem await_held (b : Binding) (pending : Pending) (open_ : b.ended = false) (name : Name) :
    Loses
      ((Entries.get pending.values name).or (Entries.get b.members name))
      ((b.await contract pending).1.held name) := by
  have waiting :
      Binding.held { b with pending := some pending } name =
        (Entries.get pending.values name).or (Entries.get b.members name) :=
    @held_of_open { b with pending := some pending } open_ name
  unfold Binding.await
  dsimp only
  split
  · rw [← waiting]
    apply apply_held
    · rfl
    · exact open_
  · exact .inl waiting

theorem shaped_held (b : Binding) (shape : Shape) (listed : List Name) (name : Name) :
    Loses (b.held name) ((b.shaped contract shape listed).1.held name) := by
  unfold Binding.shaped
  by_cases ended : b.ended = true
  · rw [if_pos ended]
    exact .inl rfl
  · rw [if_neg ended]
    rw [Bool.not_eq_true] at ended
    have kept :
        (Entries.get ((b.pending.map (·.values)).getD []) name).or (Entries.get b.members name) =
          b.held name := by
      rw [held_of_open ended]
      cases b.pending <;> rfl
    rw [← kept]
    exact await_held b _ ended name

theorem stateValue_held (b : Binding) (name : Name) (value : JsonValue)
    (wellFormed : b.WellFormed contract) (open_ : b.ended = false) :
    Loses (some ⟨value, decoder⟩) ((b.stateValue contract name value).1.held name) ∧
    ∀ other, other ≠ name →
      Loses (b.held other) ((b.stateValue contract name value).1.held other) := by
  unfold Binding.stateValue
  dsimp only
  cases waits :
      b.pending.filter fun p =>
        name ∈ p.missing ∨ Entries.has p.values name with
  | some pending =>
    have isPending : b.pending = some pending := (Option.filter_eq_some_iff.mp waits).1
    dsimp only
    refine ⟨?_, ?_⟩
    · have here :=
        @await_held contract b
          { pending with
            values := Entries.set pending.values name ⟨value, decoder⟩
            missing := pending.missing.filter (· ≠ name) } open_ name
      rwa [get_set, if_pos rfl] at here
    · intro other isOther
      have there :=
        @await_held contract b
          { pending with
            values := Entries.set pending.values name ⟨value, decoder⟩
            missing := pending.missing.filter (· ≠ name) } open_ other
      rw [get_set, if_neg isOther] at there
      have before :
          b.held other = (Entries.get pending.values other).or (Entries.get b.members other) := by
        rw [held_of_open open_, isPending]
        rfl
      rw [before]
      exact there
  | none =>
    have notWaiting : (b.pending.bind fun p => Entries.get p.values name) = none := by
      cases isPending : b.pending with
      | none => rfl
      | some p =>
        rw [isPending] at waits
        have lacks : ¬(name ∈ p.missing ∨ Entries.has p.values name) := by
          intro has
          simp [filter, has] at waits
        rw [bind_some]
        cases isValue : Entries.get p.values name with
        | none => rfl
        | some state => exact absurd (.inr (by rw [Entries.has, isValue]; rfl)) lacks
    dsimp only
    split
    · have members :
          ∀ other,
            Binding.held
                { b with
                  members :=
                    Entries.set b.members name ⟨value, decoder⟩ } other =
              (b.pending.bind fun p => Entries.get p.values other).or
                (if other = name then some ⟨value, decoder⟩
                else Entries.get b.members other) := by
        intro other
        rw [← get_set]
        exact @held_of_open
          { b with
            members := Entries.set b.members name ⟨value, decoder⟩ }
          open_ other
      refine ⟨.inl ?_, ?_⟩
      · rw [members, notWaiting, if_pos rfl]
        rfl
      · intro other isOther
        apply Or.inl
        rw [members, if_neg isOther, held_of_open open_]
    · rename_i notInVariant
      refine ⟨Or.inr ?_, fun _ _ => Or.inl rfl⟩
      rw [held_of_open open_, notWaiting, none_or]
      cases isMember : Entries.get b.members name with
      | none => rfl
      | some state =>
        exact absurd (wellFormed.members name (by rw [Entries.has, isMember]; rfl)) notInVariant

def MemberState.Advances (member : MemberState) (wire : List JsonValue) (next : MemberState) :
    Prop :=
  ∃ ops, codec.decodeBatch member.decoder wire = .ok (next.decoder, ops) ∧
    applyOps member.value ops = .ok next.value

theorem advance_of_advances {member next : MemberState} {wire : List JsonValue}
    (advances : member.Advances wire next) : (member.advance owned wire).1 = next := by
  obtain ⟨ops, decoded, applied⟩ := advances
  have immutable := (@applyImmutable_ok owned _ _ _).mpr applied
  unfold MemberState.advance
  rw [decoded]
  dsimp only
  rw [immutable]

theorem stateOps_held (b : Binding) (name : Name) (wire : List JsonValue)
    (open_ : b.ended = false) :
    (∀ other, other ≠ name → (b.stateOps owned name wire).1.held other = b.held other) ∧
    (b.held name = none → (b.stateOps owned name wire).1.held name = none) ∧
    ∀ member next, b.held name = some member → member.Advances wire next →
      (b.stateOps owned name wire).1.held name = some next := by
  rw [held_of_open open_]
  have inMembers : (b.pending.bind fun p => Entries.get p.values name) = none →
      (∀ other, other ≠ name → (b.memberOps owned name wire).1.held other = b.held other) ∧
      ((b.pending.bind fun p => Entries.get p.values name).or (Entries.get b.members name) = none →
        (b.memberOps owned name wire).1.held name = none) ∧
      ∀ member next,
        (b.pending.bind fun p => Entries.get p.values name).or
            (Entries.get b.members name) = some member →
        member.Advances wire next →
        (b.memberOps owned name wire).1.held name = some next := by
    intro notWaiting
    rw [notWaiting, none_or]
    unfold Binding.memberOps
    cases isMember : Entries.get b.members name with
    | none =>
      refine ⟨fun _ _ => rfl, fun _ => ?_, ?_⟩
      · rw [held_of_open open_, notWaiting, none_or]
        exact isMember
      · intro member next isSome
        cases isSome
    | some target =>
      dsimp only
      have members :
          ∀ other,
            Binding.held
                { b with
                  members :=
                    Entries.set b.members name (target.advance owned wire).1 } other =
              (b.pending.bind fun p => Entries.get p.values other).or
                (if other = name then some (target.advance owned wire).1
                else Entries.get b.members other) := by
        intro other
        rw [← get_set]
        exact @held_of_open
          { b with
            members := Entries.set b.members name (target.advance owned wire).1 }
          open_ other
      refine ⟨?_, ?_, ?_⟩
      · intro other isOther
        rw [members, if_neg isOther, held_of_open open_]
      · intro isNone
        cases isNone
      · intro member next isSome advances
        cases isSome
        rw [members, notWaiting, if_pos rfl, none_or, advance_of_advances owned advances]
  unfold Binding.stateOps
  cases isPending : b.pending with
  | none =>
    rw [isPending] at inMembers
    exact inMembers rfl
  | some pending =>
    dsimp only
    rw [isPending, bind_some] at inMembers
    rw [bind_some]
    cases isWaiting : Entries.get pending.values name with
    | none =>
      rw [isWaiting] at inMembers
      exact inMembers rfl
    | some target =>
      dsimp only
      have values :
          ∀ other,
            Binding.held
                { b with
                  pending := some
                    { pending with
                      values :=
                        Entries.set pending.values name (target.advance owned wire).1 } } other =
              (if other = name then some (target.advance owned wire).1
                else Entries.get pending.values other).or
                (Entries.get b.members other) := by
        intro other
        rw [← get_set]
        exact @held_of_open
          { b with
            pending := some
              { pending with
                values := Entries.set pending.values name (target.advance owned wire).1 } }
          open_ other
      refine ⟨?_, ?_, ?_⟩
      · intro other isOther
        rw [values, if_neg isOther, held_of_open open_, isPending]
        rfl
      · intro isNone
        cases isNone
      · intro member next isSome advances
        cases isSome
        rw [values, if_pos rfl, advance_of_advances owned advances]
        rfl

/-! ## Every frame -/

theorem syncState_held (b : Binding) (name : Name) :
    Loses (b.held name) (b.syncState.1.held name) := by
  unfold Binding.syncState
  split
  · exact loses_refl _
  · rename_i stays
    have open_ : b.ended = false := by
      rw [not_or, Bool.not_eq_true] at stays
      exact stays.1
    dsimp only
    split
    · exact loses_refl _
    · split
      · exact .inl rfl
      · have turnedOff :
            ∀ next : Binding, next.ended = false → next.members = [] →
              next.pending = b.pending.map (fun p => { p with missing := [] }) →
              next.held name = (b.pending.bind fun p => Entries.get p.values name) := by
          intro next stillOpen members pending
          rw [held_of_open stillOpen, members, pending, Entries.get_nil, Option.or_none]
          cases b.pending <;> rfl
        dsimp only
        rw [held_of_open open_, turnedOff]
        · cases b.pending.bind fun p => Entries.get p.values name with
          | none => exact .inr rfl
          | some state => exact .inl rfl
        · exact open_
        · rfl
        · rfl

theorem addView_held (b : Binding) (wantsState : Bool) (name : Name) :
    Loses (b.held name) ((b.addView wantsState).1.held name) :=
  syncState_held { b with views := wantsState :: b.views } name

theorem removeView_held (b : Binding) (wantsState : Bool) (name : Name) :
    Loses (b.held name) ((b.removeView wantsState).1.held name) := by
  unfold Binding.removeView
  split
  · dsimp only
    split
    · exact .inl rfl
    · exact syncState_held { b with views := b.views.erase wantsState } name
  · exact loses_refl _

theorem stateError_held (b : Binding) (error : ChordError) (name : Name) :
    if b.hydrated = false ∧ b.stateOn = true then
      (b.stateError error).1.held name = none
    else (b.stateError error).1.held name = b.held name := by
  unfold Binding.stateError
  by_cases ends : b.hydrated = false ∧ b.stateOn = true
  · rw [if_pos ends, if_pos (by rw [ends.1, ends.2]; rfl)]
    exact held_of_ended rfl name
  · rw [if_neg ends, if_neg (by simpa using ends)]

theorem state_held_other (b : Binding) (name other : Name) (frame : StateIn)
    (wellFormed : b.WellFormed contract) (isOther : other ≠ name) :
    Loses (b.held other) ((b.state contract owned name frame).1.held other) := by
  unfold Binding.state
  by_cases ended : b.ended = true
  · rw [if_pos ended]
    exact loses_refl _
  · rw [if_neg ended]
    rw [Bool.not_eq_true] at ended
    cases frame with
    | error e =>
      have errored := stateError_held b e other
      split at errored
      · exact .inr errored
      · exact .inl errored
    | ops wire => exact .inl ((stateOps_held owned b name wire ended).1 other isOther)
    | snap value | reset value =>
      exact (stateValue_held b name value wellFormed ended).2 other isOther

def Binding.missing (b : Binding) : List Name :=
  if b.ended then [] else (b.pending.map (·.missing)).getD []

/-- What an error frame must find so that no stale value survives it: nothing
of the member, nor a unit that waits for it, or a binding that ends. -/
def Binding.Spared (b : Binding) (name : Name) : Prop :=
  (b.held name = none ∧ name ∉ b.missing) ∨ (b.hydrated = false ∧ b.stateOn = true)

instance (b : Binding) (name : Name) : Decidable (b.held name = none) :=
  decidable_of_iff (b.held name).isNone Option.isNone_iff_eq_none

instance (b : Binding) (name : Name) : Decidable (b.Spared name) :=
  inferInstanceAs (Decidable (_ ∨ _))

variable {streamEnd : Option StreamEnd}

theorem sound_loses {before after : Option MemberState} {frames : List StateOut}
    (loses : Loses before after) (sound : Sound before frames streamEnd) :
    Sound after frames streamEnd := by
  rcases loses with same | lost
  · rw [same]
    exact sound
  · rw [lost]
    exact sound_none sound

theorem state_sound (b : Binding) (name : Name) (out : StateOut) {rest : List StateOut}
    (wellFormed : b.WellFormed contract) (spared : (∃ e, out = .error e) → b.Spared name)
    (sound : Sound (b.held name) (out :: rest) streamEnd) :
    Sound ((b.state contract owned name out.received).1.held name) rest
      streamEnd := by
  unfold Binding.state
  by_cases ended : b.ended = true
  · rw [if_pos ended, held_of_ended ended]
    rw [held_of_ended ended] at sound
    cases out with
    | snap value | reset value => exact sound_none sound
    | ops wire upTo | error e => exact sound
  · rw [if_neg ended]
    rw [Bool.not_eq_true] at ended
    cases out with
    | snap value | reset value =>
      have held := (stateValue_held b name value wellFormed ended).1
      exact sound_loses held sound
    | error e =>
      have errored := stateError_held b e name
      have nothing : (b.stateError e).1.held name = none := by
        rcases spared ⟨e, rfl⟩ with ⟨lost, _⟩ | ends
        · split at errored
          · exact errored
          · exact errored.trans lost
        · rwa [if_pos ends] at errored
      change Sound ((b.stateError e).1.held name) rest streamEnd
      rw [nothing]
      exact sound
    | ops wire upTo =>
      obtain ⟨_, lost, advances⟩ := stateOps_held owned b name wire ended
      cases isHeld : b.held name with
      | none =>
        rw [isHeld] at sound
        have after := lost isHeld
        change Sound ((b.stateOps owned name wire).1.held name) rest _
        rw [after]
        exact sound
      | some member =>
        rw [isHeld] at sound
        obtain ⟨dec, ops, decoded, applied, later⟩ := sound
        have after := advances member ⟨upTo, dec⟩ isHeld ⟨ops, decoded, applied⟩
        change Sound ((b.stateOps owned name wire).1.held name) rest _
        rw [after]
        exact later

/-- An `ops` frame at the head of a sound stream takes the value held to the
value it is stamped with. -/
theorem state_applied (b : Binding) (name : Name) (wire : List JsonValue) (upTo : JsonValue)
    {rest : List StateOut} {streamEnd : Option StreamEnd}
    {member : MemberState} (isHeld : b.held name = some member)
    (sound : Sound (b.held name) (.ops wire upTo :: rest) streamEnd) :
    ∃ next,
      (b.state contract owned name (.ops wire)).1.held name = some next ∧
        next.value = upTo := by
  have open_ : b.ended = false := by
    cases ended : b.ended with
    | false => rfl
    | true =>
      rw [held_of_ended ended] at isHeld
      cases isHeld
  rw [isHeld] at sound
  obtain ⟨dec, ops, decoded, applied, _⟩ := sound
  obtain ⟨_, _, advances⟩ := stateOps_held owned b name wire open_
  refine ⟨⟨upTo, dec⟩, ?_, rfl⟩
  unfold Binding.state
  rw [if_neg (by rw [open_]; exact Bool.false_ne_true)]
  exact advances member ⟨upTo, dec⟩ isHeld ⟨ops, decoded, applied⟩

/-! ## Well-formed bindings -/

theorem wellFormed_fresh : freshBinding.WellFormed contract where
  members := by
    intro name isMember
    cases isMember
  hydrated := by
    intro hydrated
    cases hydrated
  waits := by
    intro hydrated
    cases hydrated

variable {next : Binding}

theorem wellFormed_of_grows (wellFormed : b.WellFormed contract) (shape : next.shape = b.shape)
    (grows : ∀ name, Entries.has b.members name = true → Entries.has next.members name = true)
    (inVariant :
      ∀ name, Entries.has next.members name = true →
        Entries.has b.members name = true ∨ b.inVariant contract name = true)
    (hydrated : next.hydrated = true → b.hydrated = true)
    (waits :
      next.hydrated = true → ∀ pending, next.pending = some pending → pending.missing ≠ []) :
    next.WellFormed contract where
  members := by
    intro name isMember
    have known : b.inVariant contract name = true := by
      rcases inVariant name isMember with was | known
      · exact wellFormed.members name was
      · exact known
    unfold Binding.inVariant at known ⊢
    rw [shape]
    exact known
  hydrated := by
    intro isHydrated current isShape name isState
    rw [shape] at isShape
    exact grows name (wellFormed.hydrated (hydrated isHydrated) current isShape name isState)
  waits := waits

theorem wellFormed_of_same (wellFormed : b.WellFormed contract) (shape : next.shape = b.shape)
    (members : next.members = b.members) (hydrated : next.hydrated = true → b.hydrated = true)
    (waits :
      next.hydrated = true → ∀ pending, next.pending = some pending → pending.missing ≠ []) :
    next.WellFormed contract := by
  apply wellFormed_of_grows wellFormed shape
  · intro name isMember
    rw [members]
    exact isMember
  · intro name isMember
    rw [members] at isMember
    exact .inl isMember
  · exact hydrated
  · exact waits

theorem wellFormed_noPending (wellFormed : b.WellFormed contract) (shape : next.shape = b.shape)
    (members : next.members = b.members) (hydrated : next.hydrated = b.hydrated)
    (pending : next.pending = none) : next.WellFormed contract := by
  apply wellFormed_of_same wellFormed shape members
  · intro isHydrated
    rwa [hydrated] at isHydrated
  · intro _ other isPending
    rw [pending] at isPending
    cases isPending

theorem wellFormed_apply (waits : b.pending = some pending) :
    (b.apply contract).1.WellFormed contract := by
  unfold Binding.apply
  rw [waits]
  dsimp only
  refine ⟨?_, ?_, ?_⟩
  · intro name isMember
    have wanted : name ∈ contract.stateMembers pending.shape := by
      unfold Entries.has at isMember
      rw [get_setAll, get_restrict, get_restrict] at isMember
      by_contra unwanted
      simp [unwanted] at isMember
    exact mem_stateMembers wanted
  · intro isHydrated shape isShape name isState
    cases isShape
    have all := (Bool.and_eq_true_iff.mp isHydrated).2
    exact List.all_eq_true.mp all name isState
  · intro _ other isPending
    cases isPending

theorem wellFormed_await (wellFormed : b.WellFormed contract) (pending : Pending) :
    (b.await contract pending).1.WellFormed contract := by
  unfold Binding.await
  dsimp only
  split
  · exact wellFormed_apply rfl
  · rename_i missing
    apply wellFormed_of_same wellFormed
    · rfl
    · rfl
    · exact id
    · intro _ other isPending
      cases isPending
      exact missing

variable {name : Name}

theorem has_set {members : List (Name × MemberState)} {state : MemberState} (other : Name) :
    Entries.has (Entries.set members name state) other = true ↔
      other = name ∨ Entries.has members other = true := by
  unfold Entries.has
  rw [get_set]
  by_cases same : other = name
  · simp [same]
  · simp [same]

theorem wellFormed_setMember (wellFormed : b.WellFormed contract) (state : MemberState)
    (known : Entries.has b.members name = true ∨ b.inVariant contract name = true) :
    Binding.WellFormed contract { b with members := Entries.set b.members name state } := by
  apply wellFormed_of_grows wellFormed
  · rfl
  · intro other isMember
    exact (has_set other).mpr (.inr isMember)
  · intro other isMember
    rcases (has_set other).mp isMember with same | was
    · rw [same]
      exact known
    · exact .inl was
  · exact id
  · exact wellFormed.waits

theorem wellFormed_stateOps
    (wellFormed : b.WellFormed contract) (name : Name) (wire : List JsonValue) :
    (b.stateOps owned name wire).1.WellFormed contract := by
  have toMembers : (b.memberOps owned name wire).1.WellFormed contract := by
    unfold Binding.memberOps
    cases isMember : Entries.get b.members name with
    | none => exact wellFormed
    | some target =>
      apply wellFormed_setMember wellFormed
      left
      rw [Entries.has, isMember]
      rfl
  unfold Binding.stateOps
  split
  · exact toMembers
  · rename_i pending isPending
    split
    · exact toMembers
    · apply wellFormed_of_same wellFormed
      · rfl
      · rfl
      · exact id
      · intro isHydrated other isOther
        cases isOther
        exact wellFormed.waits isHydrated pending isPending

theorem wellFormed_stateValue
    (wellFormed : b.WellFormed contract) (name : Name) (value : JsonValue) :
    (b.stateValue contract name value).1.WellFormed contract := by
  unfold Binding.stateValue
  dsimp only
  split
  · exact wellFormed_await wellFormed _
  · split
    · rename_i known
      exact wellFormed_setMember wellFormed _ (.inr known)
    · exact wellFormed

theorem wellFormed_close (wellFormed : b.WellFormed contract) : b.close.1.WellFormed contract :=
  wellFormed_noPending wellFormed rfl rfl rfl rfl

theorem wellFormed_gone (wellFormed : b.WellFormed contract) (error : ChordError) :
    (b.gone error).1.WellFormed contract := by
  unfold Binding.gone
  split
  · exact wellFormed
  · exact wellFormed_noPending wellFormed rfl rfl rfl rfl

theorem wellFormed_detached (wellFormed : b.WellFormed contract) :
    b.detached.1.WellFormed contract := by
  unfold Binding.detached
  split
  · exact wellFormed
  · exact wellFormed_noPending wellFormed rfl rfl rfl rfl

theorem wellFormed_syncState (wellFormed : b.WellFormed contract) :
    b.syncState.1.WellFormed contract := by
  unfold Binding.syncState
  split
  · exact wellFormed
  · dsimp only
    split
    · exact wellFormed
    · split
      · exact wellFormed_of_same wellFormed rfl rfl id wellFormed.waits
      · refine ⟨?_, ?_, ?_⟩
        · intro name isMember
          cases isMember
        · intro isHydrated
          cases isHydrated
        · intro isHydrated
          cases isHydrated

theorem wellFormed_state (wellFormed : b.WellFormed contract) (name : Name) (frame : StateIn) :
    (b.state contract owned name frame).1.WellFormed contract := by
  unfold Binding.state
  split
  · exact wellFormed
  · cases frame with
    | error e =>
      dsimp only
      unfold Binding.stateError
      split
      · exact wellFormed_close (wellFormed_gone wellFormed e)
      · exact wellFormed
    | ops wire => exact wellFormed_stateOps owned wellFormed name wire
    | snap value | reset value => exact wellFormed_stateValue wellFormed name value

theorem wellFormed_take (wellFormed : b.WellFormed contract) (input : Input) :
    (b.take contract owned input).1.WellFormed contract := by
  have views : ∀ views : List Bool, Binding.WellFormed contract { b with views := views } := by
    intro views
    exact wellFormed_of_same wellFormed rfl rfl id wellFormed.waits
  cases input with
  | addView wantsState => exact wellFormed_syncState (views _)
  | removeView wantsState =>
    unfold Binding.take Binding.removeView
    dsimp only
    split
    · split
      · exact views _
      · exact wellFormed_syncState (views _)
    · exact wellFormed
  | bound id_ => exact wellFormed_of_same wellFormed rfl rfl id wellFormed.waits
  | shaped shape listed =>
    unfold Binding.take Binding.shaped
    dsimp only
    split
    · exact wellFormed
    · exact wellFormed_await wellFormed _
  | state name frame => exact wellFormed_state owned wellFormed name frame
  | gone e => exact wellFormed_gone wellFormed e
  | detached => exact wellFormed_detached wellFormed
  | close => exact wellFormed_close wellFormed

theorem wellFormed_after (inputs : List Input) :
    (Runs.after (fun b input => (b.take contract owned input).1) freshBinding
      inputs).WellFormed contract :=
  Runs.after_invariant _ (Binding.WellFormed contract)
    (fun _ input wellFormed => wellFormed_take owned wellFormed input)
    wellFormed_fresh inputs

/-! ## The snapshots a unit misses -/

variable {m : Name}

theorem mem_missing :
    m ∈ b.missing ↔
      b.ended = false ∧ ∃ pending, b.pending = some pending ∧ m ∈ pending.missing := by
  unfold Binding.missing
  cases b.ended with
  | true => simp
  | false => cases b.pending <;> simp

theorem missing_await (b : Binding) (pending : Pending)
    (misses : m ∈ (b.await contract pending).1.missing) :
    b.ended = false ∧ m ∈ pending.missing := by
  unfold Binding.await at misses
  dsimp only at misses
  split at misses
  · obtain ⟨_, other, isPending, _⟩ := mem_missing.mp misses
    cases isPending
  · obtain ⟨open_, other, isPending, missed⟩ := mem_missing.mp misses
    cases isPending
    exact ⟨open_, missed⟩

theorem missing_shaped (b : Binding) (shape : Shape) (listed : List Name)
    (misses : m ∈ (b.shaped contract shape listed).1.missing) : m ∈ listed ∨ m ∈ b.missing := by
  unfold Binding.shaped at misses
  split at misses
  · exact .inr misses
  · obtain ⟨open_, added⟩ := missing_await b _ misses
    rcases List.mem_append.mp (List.mem_filter.mp added).1 with
      isListed | previous
    · exact .inl isListed
    · right
      unfold Binding.missing
      rw [open_]
      exact previous

theorem missing_syncState (b : Binding) (misses : m ∈ b.syncState.1.missing) : m ∈ b.missing := by
  unfold Binding.syncState at misses
  split at misses
  · exact misses
  · dsimp only at misses
    split at misses
    · exact misses
    · split at misses
      · exact misses
      · obtain ⟨_, other, isPending, missed⟩ := mem_missing.mp misses
        obtain ⟨pending, _, rfl⟩ := Option.map_eq_some_iff.mp isPending
        exact absurd missed List.not_mem_nil

theorem missing_removeView (b : Binding) (wantsState : Bool)
    (misses : m ∈ (b.removeView wantsState).1.missing) : m ∈ b.missing := by
  unfold Binding.removeView at misses
  split at misses
  · dsimp only at misses
    split at misses
    · exact misses
    · exact missing_syncState { b with views := b.views.erase wantsState } misses
  · exact misses

theorem missing_stateValue (b : Binding) (name : Name) (value : JsonValue)
    (misses : m ∈ (b.stateValue contract name value).1.missing) : m ∈ b.missing ∧ m ≠ name := by
  unfold Binding.stateValue at misses
  dsimp only at misses
  cases waits :
      b.pending.filter fun p =>
        name ∈ p.missing ∨ Entries.has p.values name with
  | some pending =>
    rw [waits] at misses
    have isPending : b.pending = some pending := (Option.filter_eq_some_iff.mp waits).1
    obtain ⟨open_, still⟩ := missing_await b _ misses
    have kept := List.mem_filter.mp still
    refine ⟨?_, of_decide_eq_true kept.2⟩
    exact mem_missing.mpr ⟨open_, pending, isPending, kept.1⟩
  | none =>
    rw [waits] at misses
    have same : m ∈ b.missing := by
      dsimp only at misses
      split at misses
      · exact misses
      · exact misses
    refine ⟨same, ?_⟩
    rintro rfl
    obtain ⟨_, pending, isPending, missed⟩ := mem_missing.mp same
    rw [isPending] at waits
    simp [filter, missed] at waits

theorem missing_stateOps (b : Binding) (name : Name) (wire : List JsonValue)
    (misses : m ∈ (b.stateOps owned name wire).1.missing) : m ∈ b.missing := by
  have toMembers : m ∈ (b.memberOps owned name wire).1.missing → m ∈ b.missing := by
    unfold Binding.memberOps
    split
    · exact id
    · exact id
  unfold Binding.stateOps at misses
  split at misses
  · exact toMembers misses
  · rename_i pending isPending
    split at misses
    · exact toMembers misses
    · obtain ⟨open_, other, isOther, missed⟩ := mem_missing.mp misses
      cases isOther
      exact mem_missing.mpr ⟨open_, pending, isPending, missed⟩

/-- A frame of a member adds nothing to what is missed; one that opens the
member's stream ends the wait for it, where an error is spared. -/
theorem missing_state (b : Binding) (name : Name) (out : StateOut)
    (spared : (∃ e, out = .error e) → b.Spared name)
    (misses : m ∈ (b.state contract owned name out.received).1.missing) :
    m ∈ b.missing ∧ (m = name → out.isOpening = false) := by
  unfold Binding.state at misses
  by_cases ended : b.ended = true
  · rw [if_pos ended] at misses
    have open_ := (mem_missing.mp misses).1
    rw [ended] at open_
    cases open_
  · rw [if_neg ended] at misses
    cases out with
    | snap value | reset value =>
      obtain ⟨before, isOther⟩ := missing_stateValue b name value misses
      exact ⟨before, fun same => absurd same isOther⟩
    | ops wire upTo => exact ⟨missing_stateOps owned b name wire misses, fun _ => rfl⟩
    | error e =>
      change m ∈ (b.stateError e).1.missing at misses
      unfold Binding.stateError at misses
      split at misses
      · have open_ := (mem_missing.mp misses).1
        cases open_
      · rename_i stays
        refine ⟨misses, ?_⟩
        rintro rfl
        rcases spared ⟨e, rfl⟩ with ⟨_, notMissing⟩ | ⟨notHydrated, isOn⟩
        · exact absurd misses notMissing
        · rw [notHydrated, isOn] at stays
          exact absurd rfl stays

end Held

end PiEmbodied.Chord
