import PiEmbodied.Chord.Held

/-!
# Replication over one connection

The sending end, the frames on the wire and the consumer's bindings.  What the
peer sends, what the objects do, when frames arrive and what the views want come
in any order.
-/

namespace PiEmbodied.Chord

open Delta
open Entries (delete get_delete get_set)

/-! ## The two ends -/

/-- What reaches the sending end: frames of the peer and events of the objects
it serves. -/
inductive ProviderEvent where
  | hello (acks : Bool)
  | ack (n : ℕ)
  | hold (id : ℕ) (contract : Contract) (acquired : Except ChordError Ref)
      (wantsState again : Bool)
  | release (id : ℕ)
  | wantState (hold : ℕ) (wanted : Bool)
  | resync (hold : ℕ) (m : Name)
  | member (hold : ℕ) (name : Name) (event : MemberEvent)
  | idle (hold : ℕ) (name : Name) (value : Option JsonValue)
  | reshape (hold : ℕ) (shape : Shape)
      (validateSnapshot : Name → JsonValue → Option ChordError)
  | refGone (hold : ℕ) (error : ChordError)
  | other (label : String)

def Provider.take (config : Config) (p : Provider) : ProviderEvent → Provider
  | .hello acks => p.onHello acks
  | .ack n => p.onAck config n
  | .hold id contract acquired wantsState again =>
    p.onHold config id contract acquired wantsState again
  | .release id => p.dropServed id
  | .wantState hold wanted => p.onWantState config hold wanted
  | .resync hold m => p.onResync config hold m
  | .member hold name event => p.memberEvent config hold name event
  | .idle hold name value => p.setIdle hold name value
  | .reshape hold shape validateSnapshot => p.reshape config hold shape validateSnapshot
  | .refGone hold e => p.refGone config hold e
  | .other label => p.send config (.other label)

structure Remote where
  contract : Contract
  binding : Binding

structure Link where
  provider : Provider
  remotes : List (ℕ × Remote)

def newLink : Link where
  provider := newProvider
  remotes := []

inductive LinkEvent where
  | provider (event : ProviderEvent)
  /-- A binding is held over this link, after a past on other links. -/
  | bind (id : ℕ) (contract : Contract) (past : List Input)
  | addView (id : ℕ) (wantsState : Bool)
  | removeView (id : ℕ) (wantsState : Bool)
  | close (id : ℕ)
  /-- The next frame arrives at the consumer. -/
  | deliver

def Frame.hold : Frame → Option ℕ
  | .shape id _ _ => some id
  | .state hold _ _ => some hold
  | .gone id _ => some id
  | .other _ => none

namespace Link

section Steps

variable (config : Config) (owned : ℕ → Bool)

def fresh (link : Link) (id : ℕ) : Bool :=
  !Entries.has link.provider.served id && !Entries.has link.remotes id &&
    link.provider.wire.all fun frame => frame.hold != some id

def update (link : Link) (id : ℕ) (change : Remote → Binding) : Link :=
  match Entries.get link.remotes id with
  | none => link
  | some remote =>
    let changed := { remote with binding := change remote }
    { link with remotes := Entries.set link.remotes id changed }

def bind (link : Link) (id : ℕ) (contract : Contract) (past : List Input) :
    Link :=
  if link.fresh id then
    let known := Runs.after (fun b input => (b.take contract owned input).1) freshBinding past
    let held := (known.detached.1.bound id).1
    { link with remotes := Entries.set link.remotes id ⟨contract, held⟩ }
  else link

def receive (link : Link) : Frame → Link
  | .shape id shape listed =>
    link.update id fun remote => (remote.binding.shaped remote.contract shape listed).1
  | .state hold m out =>
    link.update hold fun remote => (remote.binding.state remote.contract owned m out.received).1
  | .gone id _ => { link with remotes := delete link.remotes id }
  | .other _ => link

def deliver (link : Link) : Link :=
  match link.provider.wire with
  | [] => link
  | frame :: rest =>
    receive owned { link with provider := { link.provider with wire := rest } } frame

def step (link : Link) (event : LinkEvent) : Link :=
  if link.provider.violated then link
  else
    match event with
    | .provider event => { link with provider := link.provider.take config event }
    | .bind id contract past => link.bind owned id contract past
    | .addView id wantsState => link.update id fun remote => (remote.binding.addView wantsState).1
    | .removeView id wantsState =>
      link.update id fun remote => (remote.binding.removeView wantsState).1
    | .close id => { link with remotes := delete link.remotes id }
    | .deliver => link.deliver owned

end Steps

/-- What a state frame of a member would find at the consumer. -/
def held (link : Link) (id : ℕ) (m : Name) : Option MemberState :=
  (Entries.get link.remotes id).bind fun remote => remote.binding.held m

/-- Whatever is held, an `ops` frame that arrives takes it to the provider's
value right after its batches; a hydrated consumer to which nothing is on its
way holds the provider's values. -/
structure Converges (owned : ℕ → Bool) (link : Link) : Prop where
  applied :
    ∀ id m wire upTo rest member, link.provider.wire = .state id m (.ops wire upTo) :: rest →
      link.held id m = some member →
      ∃ next, (link.deliver owned).held id m = some next ∧ next.value = upTo
  settled :
    ∀ id remote shape m value, Entries.get link.remotes id = some remote →
      remote.binding.ended = false → remote.binding.hydrated = true →
      remote.binding.shape = some shape →
      m ∈ remote.contract.stateMembers shape →
      (∀ name, Provider.onWire link.provider.wire id name = []) →
      link.provider.slotAt id m = none →
      (link.provider.feedAt id m).isSome = true →
      link.provider.valueAt id m = some value →
      ∃ member, Entries.get remote.binding.members m = some member ∧ member.value = value

/-- The error frame that arrives next, if any, finds nothing stale. -/
def Spared (link : Link) : Prop :=
  match link.provider.wire with
  | .state id m (.error _) :: _ =>
    match Entries.get link.remotes id with
    | some remote => remote.binding.Spared m
    | none => True
  | _ => True

instance (link : Link) : Decidable link.Spared := by
  unfold Spared
  split
  · split
    · infer_instance
    · infer_instance
  · infer_instance

def Allowed (link : Link) : LinkEvent → Prop
  | .deliver => link.Spared
  | _ => True

instance (link : Link) (event : LinkEvent) :
    Decidable (link.Allowed event) := by
  unfold Allowed
  split
  · infer_instance
  · infer_instance

structure Steady (link : Link) : Prop where
  streams : link.provider.Steady link.held
  wellFormed :
    ∀ id remote, Entries.get link.remotes id = some remote →
      remote.binding.WellFormed remote.contract
  announced : Announced link.provider.wire
  awaited :
    ∀ id remote, Entries.get link.remotes id = some remote →
      ∀ m ∈ remote.binding.missing, Follows link.provider.wire id m

theorem steady_newLink : newLink.Steady where
  streams := Provider.steady_new
  wellFormed := by
    intro id remote isRemote
    cases isRemote
  announced := trivial
  awaited := by
    intro id remote isRemote
    cases isRemote

variable {p : Provider}

theorem steady_provider_take (config : Config) {held : ℕ → Name → Option MemberState}
    (steady : p.Steady held) (event : ProviderEvent) : (p.take config event).Steady held := by
  cases event with
  | hello acks => exact Provider.steady_onHello steady acks
  | ack n => exact Provider.steady_onAck config steady n
  | hold id contract acquired wantsState again =>
    exact
      Provider.steady_onHold config steady id contract acquired wantsState again
  | release id => exact Provider.steady_dropServed steady id
  | wantState hold wanted => exact Provider.steady_onWantState config steady hold wanted
  | resync hold m => exact Provider.steady_onResync config steady hold m
  | member hold name event => exact Provider.steady_memberEvent config steady hold name event
  | idle hold name value => exact Provider.steady_setIdle steady hold name value
  | reshape hold shape validateSnapshot =>
    exact Provider.steady_reshape config steady hold shape validateSnapshot
  | refGone hold e => exact Provider.steady_refGone config steady hold e
  | other label =>
    apply Provider.steady_send config steady
    intro hold m out
    exact Frame.noConfusion

theorem sends_take (config : Config) (p : Provider) (event : ProviderEvent) :
    Sends p (p.take config event) := by
  cases event with
  | hello acks => exact Provider.sends_onHello p acks
  | ack n => exact Provider.sends_onAck config p n
  | hold id contract acquired wantsState again =>
    exact
      Provider.sends_onHold config p id contract acquired wantsState again
  | release id => exact sends_of_wire (Provider.wire_dropServed p id)
  | wantState hold wanted => exact Provider.sends_onWantState config p hold wanted
  | resync hold m => exact Provider.sends_onResync config p hold m
  | member hold name event => exact Provider.sends_memberEvent config p hold name event
  | idle hold name value => exact Provider.sends_setIdle p hold name value
  | reshape hold shape validateSnapshot =>
    exact Provider.sends_reshape config p hold shape validateSnapshot
  | refGone hold e => exact Provider.sends_refGone config p hold e
  | other label => exact Provider.sends_send config p trivial

variable {link : Link}

theorem steady_take (config : Config) (steady : link.Steady) (event : ProviderEvent) :
    Steady { link with provider := link.provider.take config event } := by
  obtain ⟨frames, wire, announced⟩ := sends_take config link.provider event
  refine ⟨?_, steady.wellFormed, ?_, ?_⟩
  · exact steady_provider_take config steady.streams event
  · dsimp only
    rw [wire]
    exact announced_append steady.announced announced
  · intro id remote isRemote m misses
    dsimp only
    rw [wire]
    exact follows_append (steady.awaited id remote isRemote m misses) frames

/-! ### The consumer -/

variable {before after : ℕ → Name → Option MemberState}

theorem steady_of_loses (loses : ∀ id m, Loses (before id m) (after id m))
    (steady : p.Steady before) : p.Steady after where
  sound := fun id m => sound_loses (loses id m) (steady.sound id m)
  fed := steady.fed
  lazily := steady.lazily

theorem held_set (link : Link) (id other : ℕ) (remote : Remote) (m : Name) :
    held { link with remotes := Entries.set link.remotes id remote } other m =
      if other = id then remote.binding.held m else link.held other m := by
  unfold held
  dsimp only
  rw [get_set]
  by_cases same : other = id
  · rw [if_pos same, if_pos same]
    rfl
  · rw [if_neg same, if_neg same]

theorem forall_set {remotes : List (ℕ × Remote)} {id : ℕ} {remote : Remote}
    {holds : ℕ → Remote → Prop} (here : holds id remote)
    (there : ∀ other known, other ≠ id → Entries.get remotes other = some known →
      holds other known) :
    ∀ other known, Entries.get (Entries.set remotes id remote) other = some known →
      holds other known := by
  intro other known isKnown
  rw [get_set] at isKnown
  split at isKnown
  · rename_i same
    cases isKnown
    rw [same]
    exact here
  · rename_i different
    exact there other known different isKnown

variable {change : Remote → Binding}

theorem steady_update (steady : link.Steady) (id : ℕ) {change : Remote → Binding}
    (loses : ∀ remote m, Loses (remote.binding.held m) ((change remote).held m))
    (wellFormed :
      ∀ remote, remote.binding.WellFormed remote.contract →
        (change remote).WellFormed remote.contract)
    (missing : ∀ remote, ∀ m ∈ (change remote).missing, m ∈ remote.binding.missing) :
    (link.update id change).Steady := by
  unfold update
  cases isRemote : Entries.get link.remotes id with
  | none => exact steady
  | some remote =>
    refine ⟨?_, ?_, steady.announced, ?_⟩
    · apply steady_of_loses ?_ steady.streams
      intro other m
      rw [held_set]
      by_cases same : other = id
      · rw [if_pos same, same]
        unfold held
        rw [isRemote]
        exact loses remote m
      · rw [if_neg same]
        exact loses_refl _
    · exact forall_set (wellFormed remote (steady.wellFormed id remote isRemote))
        fun other known _ => steady.wellFormed other known
    · exact forall_set
        (fun m misses => steady.awaited id remote isRemote m (missing remote m misses))
        fun other known _ => steady.awaited other known

theorem steady_delete (steady : link.Steady) (id : ℕ) :
    Steady { link with remotes := delete link.remotes id } := by
  have still :
      ∀ other remote, Entries.get (delete link.remotes id) other = some remote →
        Entries.get link.remotes other = some remote := by
    intro other remote isRemote
    rw [get_delete] at isRemote
    split at isRemote
    · cases isRemote
    · exact isRemote
  refine ⟨?_, ?_, steady.announced, ?_⟩
  · apply steady_of_loses ?_ steady.streams
    intro other m
    unfold held
    dsimp only
    rw [get_delete]
    split
    · exact Or.inr rfl
    · exact Or.inl rfl
  · intro other remote isRemote
    exact steady.wellFormed other remote (still other remote isRemote)
  · intro other remote isRemote
    exact steady.awaited other remote (still other remote isRemote)

/-! ### Frames that arrive -/

theorem onWire_cons (frame : Frame) (rest : List Frame) (id : ℕ) (m : Name) :
    Provider.onWire (frame :: rest) id m =
      Provider.onWire [frame] id m ++ Provider.onWire rest id m :=
  Provider.onWire_append [frame] rest id m

theorem sound_none_skip {skipped frames : List StateOut} {streamEnd : Option StreamEnd} :
    ∀ {held : Option MemberState}, Sound held (skipped ++ frames) streamEnd →
      Sound none frames streamEnd := by
  induction skipped with
  | nil =>
    intro held sound
    exact sound_none sound
  | cons out rest ih =>
    intro held sound
    have weaker := sound_none sound
    cases out with
    | snap value | reset value | ops wire upTo | error e => exact ih weaker

variable {frame : Frame} {rest : List Frame} {id : ℕ} {m : Name}

theorem follows_tail (follows : Follows (frame :: rest) id m)
    (notHere : ∀ out ∈ Provider.onWire [frame] id m, out.isOpening = false) :
    Follows rest id m := by
  obtain ⟨out, member, opening⟩ := follows
  rw [onWire_cons] at member
  rcases List.mem_append.mp member with here | later
  · rw [notHere out here] at opening
    cases opening
  · exact ⟨out, later, opening⟩

/-- The frame at the head of the wire is taken: of every stream the consumer
takes the frame's part. -/
theorem steady_taken (wire : p.wire = frame :: rest) (steady : p.Steady before)
    (taken :
      ∀ id m frames streamEnd,
        Sound (before id m) (Provider.onWire [frame] id m ++ frames) streamEnd →
        Sound (after id m) frames streamEnd) :
    Provider.Steady after { p with wire := rest } where
  sound := by
    intro id m
    apply taken
    have sound := steady.sound id m
    unfold Provider.framesAt at sound
    rwa [wire, onWire_cons, List.append_assoc] at sound
  fed := steady.fed
  lazily := steady.lazily

theorem steady_received (steady : link.Steady) (wire : link.provider.wire = frame :: rest) (id : ℕ)
    (aboutIt : ∀ other m, other ≠ id → Provider.onWire [frame] other m = [])
    (taken :
      ∀ remote, Entries.get link.remotes id = some remote →
        ∀ m frames streamEnd,
          Sound (remote.binding.held m) (Provider.onWire [frame] id m ++ frames) streamEnd →
          Sound ((change remote).held m) frames streamEnd)
    (wellFormed :
      ∀ remote, remote.binding.WellFormed remote.contract →
        (change remote).WellFormed remote.contract)
    (missing :
      ∀ remote, Entries.get link.remotes id = some remote →
        ∀ m ∈ (change remote).missing, Follows rest id m) :
    Steady
      (update { link with provider := { link.provider with wire := rest } } id
        change) := by
  have announced : Announced rest := by
    have all := steady.announced
    rw [wire] at all
    exact announced_tail all
  have awaitedOther :
      ∀ other remote, Entries.get link.remotes other = some remote →
        other ≠ id → ∀ m ∈ remote.binding.missing, Follows rest other m := by
    intro other remote isRemote isOther m misses
    have follows := steady.awaited other remote isRemote m misses
    rw [wire] at follows
    apply follows_tail follows
    rw [aboutIt other m isOther]
    intro out member
    cases member
  unfold update
  dsimp only
  cases isRemote : Entries.get link.remotes id with
  | none =>
    refine ⟨?_, steady.wellFormed, announced, ?_⟩
    · apply steady_taken wire steady.streams
      intro other m frames streamEnd sound
      by_cases same : other = id
      · have nothing : link.held other m = none := by
          unfold held
          rw [same, isRemote]
          rfl
        change Sound (link.held other m) frames streamEnd
        rw [nothing] at sound ⊢
        exact sound_none_skip sound
      · rwa [aboutIt other m same] at sound
    · intro other remote isOther
      apply awaitedOther other remote isOther
      rintro rfl
      rw [isRemote] at isOther
      cases isOther
  | some remote =>
    refine ⟨?_, ?_, announced, ?_⟩
    · apply steady_taken wire steady.streams
      intro other m frames streamEnd sound
      have after :=
        held_set
          { link with provider := { link.provider with wire := rest } } id
          other { remote with binding := change remote } m
      rw [after]
      by_cases same : other = id
      · rw [if_pos same]
        apply taken remote isRemote
        rw [same] at sound
        unfold held at sound
        rwa [isRemote] at sound
      · rw [if_neg same]
        rwa [aboutIt other m same] at sound
    · exact forall_set (wellFormed remote (steady.wellFormed id remote isRemote))
        fun other known _ => steady.wellFormed other known
    · exact forall_set (missing remote isRemote)
        fun other known different isKnown => awaitedOther other known isKnown different

section Steps

variable (config : Config) (owned : ℕ → Bool) {link : Link} {id : ℕ} {rest : List Frame}

theorem steady_shaped (steady : link.Steady) {shape : Shape} {listed : List Name}
    (wire : link.provider.wire = .shape id shape listed :: rest) :
    Steady
      (receive owned { link with provider := { link.provider with wire := rest } }
        (.shape id shape listed)) := by
  have notState : ∀ other m, Provider.onWire [.shape id shape listed] other m = [] :=
    fun other m => Provider.onWire_other fun out => Frame.noConfusion
  apply steady_received steady wire
  · intro other m _
    exact notState other m
  · intro remote _ m frames streamEnd sound
    rw [notState] at sound
    exact sound_loses (shaped_held remote.binding shape listed m) sound
  · intro remote wellFormed
    exact wellFormed_take owned wellFormed (.shaped shape listed)
  · intro remote isRemote m misses
    rcases missing_shaped remote.binding shape listed misses with
      isListed | missed
    · have announced := steady.announced
      rw [wire] at announced
      exact announced.1 m isListed
    · have follows := steady.awaited id remote isRemote m missed
      rw [wire] at follows
      apply follows_tail follows
      rw [notState]
      intro out member
      cases member

theorem steady_state (steady : link.Steady) (spared : link.Spared) {m : Name} {out : StateOut}
    (wire : link.provider.wire = .state id m out :: rest) :
    Steady
      (receive owned { link with provider := { link.provider with wire := rest } }
        (.state id m out)) := by
  have sparedHere :
      ∀ remote, Entries.get link.remotes id = some remote →
        (∃ e, out = .error e) → remote.binding.Spared m := by
    intro remote isRemote isError
    obtain ⟨e, rfl⟩ := isError
    unfold Spared at spared
    rw [wire] at spared
    dsimp only at spared
    rwa [isRemote] at spared
  apply steady_received steady wire
  · intro other name isOther
    rw [Provider.onWire_state]
    exact if_neg fun same => isOther same.1.symm
  · intro remote isRemote name frames streamEnd sound
    have wellFormed := steady.wellFormed id remote isRemote
    rw [Provider.onWire_state] at sound
    by_cases same : m = name
    · subst same
      rw [if_pos ⟨rfl, rfl⟩] at sound
      exact
        state_sound owned remote.binding m out wellFormed (sparedHere remote isRemote) sound
    · rw [if_neg fun both => same both.2] at sound
      have loses :=
        state_held_other owned remote.binding m name out.received wellFormed
          (fun isSame => same isSame.symm)
      exact sound_loses loses sound
  · intro remote wellFormed
    exact wellFormed_state owned wellFormed m out.received
  · intro remote isRemote name misses
    obtain ⟨missed, notOpening⟩ :=
      missing_state owned remote.binding m out (sparedHere remote isRemote) misses
    have follows := steady.awaited id remote isRemote name missed
    rw [wire] at follows
    apply follows_tail follows
    intro other member
    rw [Provider.onWire_state] at member
    by_cases same : m = name
    · rw [if_pos ⟨rfl, same⟩] at member
      rw [List.mem_singleton.mp member]
      exact notOpening same.symm
    · rw [if_neg fun both => same both.2] at member
      cases member

theorem steady_deliver (steady : link.Steady) (spared : link.Spared) :
    (link.deliver owned).Steady := by
  unfold deliver
  cases wire : link.provider.wire with
  | nil => exact steady
  | cons frame rest =>
    dsimp only
    have skipped : (∀ id m, Provider.onWire [frame] id m = []) →
        Steady
          { link with provider := { link.provider with wire := rest } } := by
      intro notState
      refine ⟨?_, steady.wellFormed, ?_, ?_⟩
      · apply steady_taken wire steady.streams
        intro id m frames streamEnd sound
        rwa [notState] at sound
      · have announced := steady.announced
        rw [wire] at announced
        exact announced_tail announced
      · intro id remote isRemote m misses
        have follows := steady.awaited id remote isRemote m misses
        rw [wire] at follows
        apply follows_tail follows
        rw [notState]
        intro out member
        cases member
    cases frame with
    | shape id shape listed => exact steady_shaped owned steady wire
    | state id m out => exact steady_state owned steady spared wire
    | gone id e =>
      apply steady_delete (skipped ?_)
      intro other m
      exact Provider.onWire_other fun out => Frame.noConfusion
    | other label =>
      apply skipped
      intro other m
      exact Provider.onWire_other fun out => Frame.noConfusion

theorem onWire_of_all {wire : List Frame} (m : Name)
    (none_ : (wire.all fun frame => frame.hold != some id) = true) :
    Provider.onWire wire id m = [] := by
  apply List.filterMap_eq_nil_iff.mpr
  intro frame member
  have isOther := List.all_eq_true.mp none_ frame member
  cases frame with
  | state hold name out =>
    apply if_neg
    rintro ⟨rfl, _⟩
    simp [Frame.hold] at isOther
  | _ => rfl

theorem steady_bind (steady : link.Steady) (id : ℕ) (contract : Contract) (past : List Input) :
    (link.bind owned id contract past).Steady := by
  unfold bind
  split
  · rename_i isFresh
    unfold fresh at isFresh
    simp only [Bool.and_eq_true, Bool.not_eq_true'] at isFresh
    obtain ⟨⟨notServed, _⟩, notOnWire⟩ := isFresh
    have noServed : Entries.get link.provider.served id = none := by
      unfold Entries.has at notServed
      rwa [Option.isSome_eq_false_iff, Option.isNone_iff_eq_none] at notServed
    have noFeed : ∀ m, link.provider.feedAt id m = none := by
      intro m
      unfold Provider.feedAt
      rw [noServed]
      rfl
    have pastWellFormed := @wellFormed_after contract owned past
    dsimp only
    generalize
      Runs.after (fun b input => (Binding.take contract owned b input).1)
        freshBinding past = known at pastWellFormed ⊢
    have isWellFormed : (known.detached.1.bound id).1.WellFormed contract :=
      wellFormed_take owned (wellFormed_detached pastWellFormed) (.bound id)
    have noMissing : (known.detached.1.bound id).1.missing = [] := by
      apply List.eq_nil_iff_forall_not_mem.mpr
      intro m misses
      obtain ⟨open_, pending, isPending, missed⟩ := mem_missing.mp misses
      unfold Binding.detached at isPending open_
      split at isPending
      · rename_i ended
        rw [if_pos ended] at open_
        change known.ended = false at open_
        rw [ended] at open_
        cases open_
      · cases isPending
    generalize (known.detached.1.bound id).1 = binding at isWellFormed noMissing ⊢
    refine ⟨?_, ?_, steady.announced, ?_⟩
    · refine ⟨?_, steady.streams.fed, steady.streams.lazily⟩
      intro other m
      dsimp only
      rw [held_set]
      by_cases same : other = id
      · rw [if_pos same, same]
        have noFrames : link.provider.framesAt id m = [] := by
          unfold Provider.framesAt
          rw [onWire_of_all m notOnWire, Provider.noSlot_of_noFeed steady.streams (noFeed m)]
          rfl
        have noEnd : link.provider.endAt id m = none := by
          unfold Provider.endAt
          rw [noServed]
          split <;> rfl
        rw [noFrames, noEnd]
        intro member _ value enc isEnd
        cases isEnd
      · rw [if_neg same]
        exact steady.streams.sound other m
    · exact forall_set isWellFormed fun other remote _ => steady.wellFormed other remote
    · refine forall_set (fun m misses => ?_) fun other remote _ => steady.awaited other remote
      dsimp only at misses
      rw [noMissing] at misses
      cases misses
  · exact steady

theorem steady_step (link : Link) (event : LinkEvent) (allowed : link.Allowed event)
    (steady : link.Steady) : (link.step config owned event).Steady := by
  unfold step
  split
  · exact steady
  · cases event with
    | provider event => exact steady_take config steady event
    | bind id contract past => exact steady_bind owned steady id contract past
    | addView id wantsState =>
      apply steady_update steady
      · intro remote m
        exact addView_held remote.binding wantsState m
      · intro remote wellFormed
        exact wellFormed_take owned wellFormed (.addView wantsState)
      · intro remote m misses
        exact
          missing_syncState
            { remote.binding with
              views := wantsState :: remote.binding.views } misses
    | removeView id wantsState =>
      apply steady_update steady
      · intro remote m
        exact removeView_held remote.binding wantsState m
      · intro remote wellFormed
        exact wellFormed_take owned wellFormed (.removeView wantsState)
      · intro remote m misses
        exact missing_removeView remote.binding wantsState misses
    | close id => exact steady_delete steady id
    | deliver => exact steady_deliver owned steady allowed

end Steps

/-! ## Convergence -/

theorem applied_of_steady (owned : ℕ → Bool) (steady : link.Steady) {wire : List JsonValue}
    {upTo : JsonValue} {member : MemberState}
    (isNext : link.provider.wire = .state id m (.ops wire upTo) :: rest)
    (isHeld : link.held id m = some member) :
    ∃ next, (link.deliver owned).held id m = some next ∧ next.value = upTo := by
  have sound := steady.streams.sound id m
  unfold Provider.framesAt at sound
  rw [isNext, onWire_cons, Provider.onWire_state, if_pos ⟨rfl, rfl⟩, List.append_assoc] at sound
  obtain ⟨remote, isRemote, bindingHolds⟩ := Option.bind_eq_some_iff.mp isHeld
  have holds : link.held id m = remote.binding.held m := by
    unfold held
    rw [isRemote]
    rfl
  rw [holds] at sound
  obtain ⟨next, isNextHeld, value⟩ :=
    @state_applied remote.contract owned remote.binding m wire upTo _ _ member bindingHolds sound
  refine ⟨next, ?_, value⟩
  unfold deliver
  rw [isNext]
  dsimp only [receive, update]
  rw [isRemote]
  dsimp only [StateOut.received]
  rw [held_set { link with provider := { link.provider with wire := rest } }, if_pos rfl]
  exact isNextHeld

theorem noPending_of_steady (steady : link.Steady) {remote : Remote}
    (isRemote : Entries.get link.remotes id = some remote) (open_ : remote.binding.ended = false)
    (hydrated : remote.binding.hydrated = true)
    (nothing : ∀ name, Provider.onWire link.provider.wire id name = []) :
    remote.binding.pending = none := by
  cases isPending : remote.binding.pending with
  | none => rfl
  | some pending =>
    have waits := (steady.wellFormed id remote isRemote).waits hydrated pending isPending
    obtain ⟨name, misses⟩ := List.exists_mem_of_ne_nil _ waits
    obtain ⟨out, member, _⟩ :=
      steady.awaited id remote isRemote name (mem_missing.mpr ⟨open_, pending, isPending, misses⟩)
    rw [nothing name] at member
    cases member

theorem converges_of_steady (owned : ℕ → Bool) (steady : link.Steady) : link.Converges owned where
  applied := by
    intro id m wire upTo rest member isNext isHeld
    exact applied_of_steady owned steady isNext isHeld
  settled := by
    intro id remote shape m value isRemote open_ hydrated isShape isState
      nothing noSlot isFed isValue
    have isMember :=
      (steady.wellFormed id remote isRemote).hydrated hydrated shape isShape m isState
    obtain ⟨member, isMember⟩ := Option.isSome_iff_exists.mp isMember
    refine ⟨member, isMember, ?_⟩
    have holds : link.held id m = some member := by
      unfold held
      rw [isRemote, Option.bind_some, held_of_open open_,
        noPending_of_steady steady isRemote open_ hydrated nothing]
      exact isMember
    have sound := steady.streams.sound id m
    unfold Provider.framesAt Provider.endAt at sound
    rw [nothing m, noSlot, holds] at sound
    obtain ⟨feed, isFeed⟩ := Option.isSome_iff_exists.mp isFed
    obtain ⟨served, isServed, feedHere⟩ := Option.bind_eq_some_iff.mp isFeed
    have isEnd :
        Provider.streamAt (Entries.get link.provider.served id) m = some (value, feed.encoder) := by
      unfold Provider.valueAt at isValue
      rw [isServed, Option.bind_some] at isValue
      unfold Provider.streamAt
      rw [isServed, Option.bind_some, feedHere, Option.bind_some, isValue]
      rfl
    exact (sound member rfl value feed.encoder isEnd).1

/-- Whatever the peer sends, the objects do, the window lets through and the
views want, in any order: as long as no error frame meets a stale value, every
`ops` frame takes what is held to the provider's value right after its batches,
and a hydrated consumer to which nothing is on its way holds the provider's
values. -/
theorem replication_converges (config : Config) (owned : ℕ → Bool) (events : List LinkEvent)
    (allowed : Runs.AllAllowed (step config owned) Allowed newLink events) :
    (Runs.after (step config owned) newLink events).Converges owned :=
  converges_of_steady owned
    (Runs.after_of_allAllowed (step config owned) (steady_step config owned) steady_newLink allowed)

/-- Every frame and every wire operation counts for one byte. -/
def unitSizes (window pendingCap : ℤ) : Config where
  window := window
  pendingCap := pendingCap
  size := fun _ => 1
  opsSize := List.length

def feedContract : Contract where
  kind := fun variant name =>
    if variant = "open" ∧ name = "log" then some .state else none

/-- An object whose state is an empty array, and whose schema refuses arrays
of one element. -/
def feedRef : Ref where
  shape := some ⟨some "open", ["log"]⟩
  values := [("log", .arr () [])]
  validateSnapshot := fun _ value =>
    match value with
    | .arr () [_] => some ⟨"internal", "snapshot does not match"⟩
    | _ => none

def insertNull : List (Op Unit) :=
  [.edit [] (.p 0 0 [.null])]

def hydration : List LinkEvent :=
  [.bind 1 feedContract [.addView true], .provider (.hello true),
    .provider (.hold 1 feedContract (.ok feedRef) true false),
    .deliver, .deliver]

/-- A batch is sent, two more meet a full window and the cap, the lazy reset
that replaces them is flushed by an acknowledgement, and a last batch follows. -/
def stalledRun : List LinkEvent :=
  hydration ++
    [.provider (.member 1 "log" (.ops insertNull)), .deliver,
      .provider (.member 1 "log" (.ops insertNull)),
      .provider (.member 1 "log" (.ops insertNull)),
      .provider (.ack 3), .deliver,
      .provider (.member 1 "log" (.ops insertNull))]

theorem replication_converges_stalled :
    (Runs.after (step (unitSizes 3 2) fun _ => false) newLink
      stalledRun).Converges fun _ => false :=
  replication_converges (unitSizes 3 2) (fun _ => false) stalledRun (by decide +kernel)

/-- The object resets to a value its schema refuses, an error frame takes the
reset's place, and a batch follows. -/
def staleRun : List LinkEvent :=
  hydration ++
    [.provider (.member 1 "log" (.reset (.arr () [.null]))),
      .provider (.member 1 "log" (.ops insertNull)), .deliver]

theorem stale_value_goes_on :
    ¬(Runs.after (step (unitSizes 100 100) fun _ => false) newLink
      staleRun).Converges fun _ => false := by
  intro converges
  obtain ⟨next, isHeld, value⟩ := converges.applied 1 "log" _ _ [] _ rfl rfl
  cases isHeld
  cases value

end Link

end PiEmbodied.Chord
