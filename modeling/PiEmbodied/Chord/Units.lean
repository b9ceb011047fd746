import PiEmbodied.Chord.Remote

/-!
# Unit completion

A binding that was told of a unit applies it, ends, or waits for an announced
member whose frame has not come.
-/

namespace PiEmbodied.Chord

open Delta

/-! ## What the provider has said -/

structure Told where
  /-- The shape of the last unit. -/
  unit : Option Shape
  announced : List Name
  /-- The members of which a frame came since they were last announced. -/
  heard : List Name

def toldNothing : Told where
  unit := none
  announced := []
  heard := []

def Told.hear (told : Told) : Input → Told
  | .shaped shape listed =>
    { unit := some shape
      announced := listed ++ told.announced
      heard := told.heard.filter (· ∉ listed) }
  | .state name _ => { told with heard := name :: told.heard }
  | .detached => toldNothing
  | _ => told

/-- The last unit is applied, the binding has ended, or the unit waits for
announced members and no frame of these has come. -/
def Completes (b : Binding) (told : Told) : Prop :=
  ∀ shape, told.unit = some shape → b.ended = true ∨ (b.pending = none ∧ b.shape = some shape) ∨
    ∃ pending, b.pending = some pending ∧ pending.shape = shape ∧ pending.missing ≠ [] ∧
      ∀ name ∈ pending.missing, name ∈ told.announced ∧ name ∉ told.heard

section Units

variable (contract : Contract) (owned : ℕ → Bool)

def hearing (state : Binding × Told) (input : Input) : Binding × Told :=
  ((state.1.take contract owned input).1, state.2.hear input)

/-- State is on and none of the views there will be wants it. -/
def Binding.turnsOff (b : Binding) (views : List Bool) : Prop :=
  b.stateOn = true ∧ views ≠ [] ∧ true ∉ views

/-- A member that is missing gets no error while the binding is hydrated or
has no state, and no operations before its snapshot; and state is not turned
off while a unit is pending. -/
def UnitAllowed (state : Binding × Told) (input : Input) : Prop :=
  ∀ pending, state.1.pending = some pending →
    match input with
    | .state name (.error _) =>
      name ∈ pending.missing → state.1.hydrated = false ∧ state.1.stateOn = true
    | .state name (.ops _) => name ∉ pending.missing
    | .addView wantsState => ¬state.1.turnsOff (wantsState :: state.1.views)
    | .removeView wantsState =>
      wantsState ∈ state.1.views → ¬state.1.turnsOff (state.1.views.erase wantsState)
    | _ => True

/-! ## What each operation does to the pending unit -/

section

variable (b : Binding)
include b

theorem syncState_shape :
    b.syncState.1.shape = b.shape ∧ b.syncState.1.ended = b.ended := by
  unfold Binding.syncState
  split
  · exact ⟨rfl, rfl⟩
  · dsimp only
    split
    · exact ⟨rfl, rfl⟩
    · split <;> exact ⟨rfl, rfl⟩

theorem syncState_pending :
    (b.syncState.1.pending = b.pending ∧ (b.ended = false → ¬b.turnsOff b.views)) ∨
    (b.turnsOff b.views ∧
      b.syncState.1.pending = b.pending.map fun p => { p with missing := [] }) := by
  unfold Binding.syncState Binding.turnsOff
  by_cases idle : b.ended = true ∨ b.views.length = 0
  · left
    rw [if_pos idle]
    refine ⟨rfl, ?_⟩
    rintro notEnded ⟨_, someView, _⟩
    rcases idle with ended | noView
    · rw [notEnded] at ended
      cases ended
    · exact someView (List.length_eq_zero_iff.mp noView)
  · rw [if_neg idle]
    push Not at idle
    have someView : b.views ≠ [] := by
      intro none
      exact idle.2 (by rw [none]; rfl)
    have wanted : 0 < b.stateViews ↔ true ∈ b.views := List.count_pos_iff
    by_cases wants : true ∈ b.views
    · left
      refine ⟨?_, fun _ off => off.2.2 wants⟩
      simp only [wanted, wants, decide_true]
      split <;> rfl
    · simp only [wanted, wants, decide_false]
      by_cases off : b.stateOn = true
      · right
        simp only [off]
        exact ⟨⟨trivial, someView, not_false⟩, rfl⟩
      · left
        rw [Bool.not_eq_true] at off
        simp only [off]
        exact ⟨rfl, by simp⟩

theorem await_cases (pending : Pending) :
    (pending.missing = [] ∧ (b.await contract pending).1.pending = none ∧
      (b.await contract pending).1.shape = some pending.shape) ∨
    (pending.missing ≠ [] ∧ (b.await contract pending).1 = { b with pending := some pending }) := by
  unfold Binding.await
  by_cases nothing : pending.missing = []
  · left
    refine ⟨nothing, ?_⟩
    dsimp only
    rw [if_pos nothing]
    exact ⟨rfl, rfl⟩
  · right
    refine ⟨nothing, ?_⟩
    dsimp only
    rw [if_neg nothing]

theorem memberOps_pending (name : Name) (wire : List JsonValue) :
    (b.memberOps owned name wire).1.pending = b.pending ∧
      (b.memberOps owned name wire).1.shape = b.shape ∧
      (b.memberOps owned name wire).1.status = b.status := by
  unfold Binding.memberOps
  split <;> exact ⟨rfl, rfl, rfl⟩

theorem stateOps_pending (name : Name) (wire : List JsonValue) :
    (b.stateOps owned name wire).1.shape = b.shape ∧
    (b.stateOps owned name wire).1.status = b.status ∧
    ∃ keep : Pending → Pending, (∀ p, (keep p).shape = p.shape ∧ (keep p).missing = p.missing) ∧
      (b.stateOps owned name wire).1.pending = b.pending.map keep := by
  have kept := memberOps_pending owned b name wire
  have inMembers :
      ∃ keep : Pending → Pending, (∀ p, (keep p).shape = p.shape ∧ (keep p).missing = p.missing) ∧
        (b.memberOps owned name wire).1.pending = b.pending.map keep :=
    ⟨id, fun _ => ⟨rfl, rfl⟩, by rw [kept.1, Option.map_id_fun, id]⟩
  unfold Binding.stateOps
  split
  · exact ⟨kept.2.1, kept.2.2, inMembers⟩
  · rename_i pending waits
    split
    · exact ⟨kept.2.1, kept.2.2, inMembers⟩
    · rename_i target found
      refine ⟨rfl, rfl, fun p =>
        { p with
          values :=
            Entries.set pending.values name (target.advance owned wire).1 },
        fun _ => ⟨rfl, rfl⟩, ?_⟩
      rw [waits]
      rfl

/-- A snapshot or a reset takes its member from what is missing, and the last
one applies the unit. -/
theorem stateValue_cases (name : Name) (value : JsonValue) :
    ((b.stateValue contract name value).1.pending = b.pending ∧
      (b.stateValue contract name value).1.shape = b.shape ∧
      (b.stateValue contract name value).1.status = b.status ∧
      ∀ p, b.pending = some p → name ∉ p.missing) ∨
    (∃ p values, b.pending = some p ∧
      (b.stateValue contract name value).1 =
        { b with
          pending :=
            some ⟨p.shape, p.missing.filter (· ≠ name), values⟩ } ∧
      p.missing.filter (· ≠ name) ≠ []) ∨
    (∃ p, b.pending = some p ∧ (b.stateValue contract name value).1.pending = none ∧
      (b.stateValue contract name value).1.shape = some p.shape) := by
  unfold Binding.stateValue
  dsimp only
  cases waits :
      b.pending.filter fun p =>
        name ∈ p.missing ∨ Entries.has p.values name with
  | some pending =>
    right
    have isPending : b.pending = some pending := (Option.filter_eq_some_iff.mp waits).1
    dsimp only
    rcases await_cases contract b
      { pending with
        values := Entries.set pending.values name ⟨value, decoder⟩
        missing := pending.missing.filter (· ≠ name) } with
      ⟨_, applied, shape⟩ | ⟨more, waiting⟩
    · exact .inr ⟨pending, isPending, applied, shape⟩
    · exact .inl ⟨pending, _, isPending, waiting, more⟩
  | none =>
    left
    have notMissing : ∀ p, b.pending = some p → name ∉ p.missing := by
      intro p isPending missing
      rw [isPending] at waits
      simp [Option.filter, missing] at waits
    dsimp only
    split <;> exact ⟨rfl, rfl, rfl, notMissing⟩

theorem gone_pending (error : ChordError) (consistent : b.ended = true → b.pending = none) :
    (b.gone error).1.ended = true ∧ (b.gone error).1.pending = none := by
  unfold Binding.gone
  by_cases ended : b.ended = true
  · rw [if_pos ended]
    exact ⟨ended, consistent ended⟩
  · rw [if_neg ended]
    exact ⟨rfl, rfl⟩

theorem stateError_cases (error : ChordError) :
    ((b.hydrated = false ∧ b.stateOn = true) ∧ (b.stateError error).1.ended = true ∧
      (b.stateError error).1.pending = none) ∨
    (¬(b.hydrated = false ∧ b.stateOn = true) ∧ (b.stateError error).1 = b) := by
  unfold Binding.stateError
  by_cases fails : b.hydrated = false ∧ b.stateOn = true
  · left
    refine ⟨fails, ?_⟩
    rw [if_pos (by simp [fails.1, fails.2])]
    exact ⟨rfl, rfl⟩
  · right
    refine ⟨fails, ?_⟩
    rw [if_neg (by simpa using fails)]

theorem shaped_cases (shape : Shape) (listed : List Name) (open_ : b.ended = false) :
    ((b.shaped contract shape listed).1.pending = none ∧
      (b.shaped contract shape listed).1.shape = some shape) ∨
    ∃ missing values, missing ≠ [] ∧
      (b.shaped contract shape listed).1 = { b with pending := some ⟨shape, missing, values⟩ } ∧
      ∀ name ∈ missing, name ∈ listed ∨ ∃ p, b.pending = some p ∧ name ∈ p.missing := by
  unfold Binding.shaped
  rw [if_neg (by rw [open_]; exact Bool.false_ne_true)]
  dsimp only
  generalize lacks :
    List.filter (fun name => decide (name ∈ contract.stateMembers shape ∧
      b.stateOn = true)) (listed ++ (b.pending.map (·.missing)).getD []) = missing
  rcases await_cases contract b ⟨shape, missing, (b.pending.map (·.values)).getD []⟩ with
    ⟨_, applied, isShape⟩ | ⟨more, waiting⟩
  · exact .inl ⟨applied, isShape⟩
  · right
    refine ⟨missing, _, more, waiting, ?_⟩
    intro name isMissing
    rw [← lacks] at isMissing
    rcases List.mem_append.mp (List.mem_filter.mp isMissing).1 with
      new | old
    · exact .inl new
    · right
      cases before : b.pending with
      | none =>
        rw [before] at old
        exact absurd old List.not_mem_nil
      | some p =>
        rw [before] at old
        exact ⟨p, rfl, old⟩

/-- A state frame of an open binding ends it, leaves what is missing, takes its
member from what is missing, or applies the unit. -/
theorem state_cases (name : Name) (frame : StateIn) (open_ : b.ended = false) :
    ((b.state contract owned name frame).1.ended = true ∧
      (b.state contract owned name frame).1.pending = none) ∨
    ((b.state contract owned name frame).1.shape = b.shape ∧
      (b.state contract owned name frame).1.ended = b.ended ∧
      (∃ keep : Pending → Pending, (∀ p, (keep p).shape = p.shape ∧ (keep p).missing = p.missing) ∧
        (b.state contract owned name frame).1.pending = b.pending.map keep) ∧
      ∀ p, b.pending = some p → name ∈ p.missing →
        match frame with
        | .error _ => ¬(b.hydrated = false ∧ b.stateOn = true)
        | .ops _ => True
        | _ => False) ∨
    (∃ p values, b.pending = some p ∧
      (b.state contract owned name frame).1 =
        { b with
          pending :=
            some ⟨p.shape, p.missing.filter (· ≠ name), values⟩ } ∧
      p.missing.filter (· ≠ name) ≠ []) ∨
    (∃ p, b.pending = some p ∧ (b.state contract owned name frame).1.pending = none ∧
      (b.state contract owned name frame).1.shape = some p.shape) := by
  have value : ∀ given, _ := stateValue_cases contract b name
  unfold Binding.state
  rw [if_neg (by rw [open_]; exact Bool.false_ne_true)]
  have kept : ∀ given,
      ((b.stateValue contract name given).1.pending = b.pending ∧
        (b.stateValue contract name given).1.shape = b.shape ∧
        (b.stateValue contract name given).1.status = b.status ∧
        ∀ p, b.pending = some p → name ∉ p.missing) →
      (b.stateValue contract name given).1.shape = b.shape ∧
        (b.stateValue contract name given).1.ended = b.ended ∧
        (∃ keep : Pending → Pending,
          (∀ p, (keep p).shape = p.shape ∧ (keep p).missing = p.missing) ∧
          (b.stateValue contract name given).1.pending = b.pending.map keep) ∧
        ∀ p, b.pending = some p → name ∈ p.missing → False := by
    rintro given ⟨pending, shape, status, notMissing⟩
    refine ⟨shape, ?_, ⟨id, fun _ => ⟨rfl, rfl⟩, ?_⟩, notMissing⟩
    · unfold Binding.ended
      rw [status]
    · rw [pending, Option.map_id_fun, id]
  cases frame with
  | snap given | reset given =>
    rcases value given with same | took | applied
    · exact .inr (.inl (kept given same))
    · exact .inr (.inr (.inl took))
    · exact .inr (.inr (.inr applied))
  | ops wire =>
    obtain ⟨shape, status, keep⟩ := stateOps_pending owned b name wire
    refine .inr (.inl ⟨shape, ?_, keep, fun _ _ _ => trivial⟩)
    unfold Binding.ended
    rw [status]
  | error error =>
    rcases stateError_cases b error with ⟨_, ended, none⟩ | ⟨stays, same⟩
    · exact .inl ⟨ended, none⟩
    · right; left
      dsimp only
      rw [same]
      refine ⟨rfl, rfl, ⟨id, fun _ => ⟨rfl, rfl⟩, ?_⟩, fun _ _ _ => stays⟩
      rw [Option.map_id_fun, id]

end

/-! ## Every run -/

/-- An ended binding waits for nothing, and a pending unit is the last one. -/
structure UnitInvariant (state : Binding × Told) : Prop where
  ended : state.1.ended = true → state.1.pending = none
  unit : ∀ pending, state.1.pending = some pending → state.2.unit = some pending.shape

variable (name : Name) (state : Binding × Told) (input : Input)

theorem unitInvariant_preserved (holds : UnitInvariant state) :
    UnitInvariant (hearing contract owned state input) := by
  obtain ⟨b, told⟩ := state
  obtain ⟨ended, unit⟩ := holds
  dsimp only at ended unit
  have synced :
      ∀ c : Binding, c.pending = b.pending → c.ended = b.ended →
        UnitInvariant (c.syncState.1, told) := by
    intro c samePending sameEnded
    have shape := syncState_shape c
    rcases syncState_pending c with ⟨same, _⟩ | ⟨_, cleared⟩
    · refine ⟨?_, ?_⟩
      · intro isEnded
        rw [same, samePending]
        exact ended (by rw [← sameEnded, ← shape.2]; exact isEnded)
      · intro pending waits
        exact unit pending (by rw [← samePending, ← same]; exact waits)
    · refine ⟨?_, ?_⟩
      · intro isEnded
        have none := ended (by rw [← sameEnded, ← shape.2]; exact isEnded)
        dsimp only
        rw [cleared, samePending, none]
        rfl
      · intro pending waits
        dsimp only at waits
        rw [cleared, samePending] at waits
        obtain ⟨old, isOld, rfl⟩ := Option.map_eq_some_iff.mp waits
        exact unit old isOld
  cases input with
  | addView wantsState => exact synced { b with views := wantsState :: b.views } rfl rfl
  | removeView wantsState =>
    unfold hearing Binding.take Binding.removeView
    dsimp only [Told.hear]
    split
    · split
      · exact ⟨ended, unit⟩
      · exact synced { b with views := b.views.erase wantsState } rfl rfl
    · exact ⟨ended, unit⟩
  | bound id => exact ⟨ended, unit⟩
  | shaped shape listed =>
    by_cases isEnded : b.ended = true
    · have same : (b.shaped contract shape listed).1 = b := by
        unfold Binding.shaped
        rw [if_pos isEnded]
      refine ⟨?_, ?_⟩
      · intro _
        change (b.shaped contract shape listed).1.pending = none
        rw [same]
        exact ended isEnded
      · intro pending waits
        change (b.shaped contract shape listed).1.pending = _ at waits
        rw [same, ended isEnded] at waits
        cases waits
    · rw [Bool.not_eq_true] at isEnded
      rcases shaped_cases contract b shape listed isEnded with
        ⟨none, _⟩ | ⟨missing, values, _, same, _⟩
      · refine ⟨fun _ => none, ?_⟩
        intro pending waits
        change (b.shaped contract shape listed).1.pending = _ at waits
        rw [none] at waits
        cases waits
      · refine ⟨?_, ?_⟩
        · intro nowEnded
          change (b.shaped contract shape listed).1.ended = true at nowEnded
          rw [same] at nowEnded
          change b.ended = true at nowEnded
          rw [isEnded] at nowEnded
          cases nowEnded
        · intro pending waits
          change (b.shaped contract shape listed).1.pending = _ at waits
          rw [same] at waits
          cases waits
          rfl
  | state name frame =>
    by_cases isEnded : b.ended = true
    · have same : (b.state contract owned name frame).1 = b := by
        unfold Binding.state
        rw [if_pos isEnded]
      unfold hearing Binding.take
      dsimp only
      rw [same]
      exact ⟨ended, unit⟩
    · rw [Bool.not_eq_true] at isEnded
      unfold hearing Binding.take
      dsimp only [Told.hear]
      rcases state_cases contract owned b name frame isEnded with
        ⟨nowEnded, none⟩ | ⟨_, sameEnded, ⟨keep, keeps, kept⟩, _⟩ |
        ⟨p, values, waits, same, _⟩ | ⟨p, waits, none, _⟩
      · refine ⟨fun _ => none, ?_⟩
        intro pending still
        rw [none] at still
        cases still
      · refine ⟨?_, ?_⟩
        · intro nowEnded
          rw [sameEnded, isEnded] at nowEnded
          cases nowEnded
        · intro pending still
          rw [kept] at still
          obtain ⟨old, isOld, rfl⟩ := Option.map_eq_some_iff.mp still
          rw [(keeps old).1]
          exact unit old isOld
      · rw [same]
        refine ⟨?_, ?_⟩
        · intro nowEnded
          change b.ended = true at nowEnded
          rw [isEnded] at nowEnded
          cases nowEnded
        · intro pending still
          cases still
          exact unit p waits
      · refine ⟨fun _ => none, ?_⟩
        intro pending still
        rw [none] at still
        cases still
  | gone error =>
    have isGone := gone_pending b error ended
    refine ⟨fun _ => isGone.2, ?_⟩
    intro pending waits
    change (b.gone error).1.pending = _ at waits
    rw [isGone.2] at waits
    cases waits
  | detached =>
    have none : b.detached.1.pending = none := by
      unfold Binding.detached
      split
      · rename_i isEnded
        exact ended isEnded
      · rfl
    refine ⟨fun _ => none, ?_⟩
    intro pending waits
    change b.detached.1.pending = _ at waits
    rw [none] at waits
    cases waits
  | close =>
    refine ⟨fun _ => rfl, ?_⟩
    intro pending waits
    cases waits

variable {b : Binding} {told : Told}

theorem completes_waits {pending : Pending} (holds : UnitInvariant (b, told))
    (completes : Completes b told) (waits : b.pending = some pending) :
    pending.missing ≠ [] ∧ ∀ name ∈ pending.missing, name ∈ told.announced ∧ name ∉ told.heard := by
  rcases completes pending.shape (holds.unit pending waits) with
    ended | ⟨none, _⟩ | ⟨p, isPending, _, missing, unheard⟩
  · have none := holds.ended ended
    rw [waits] at none
    cases none
  · rw [waits] at none
    cases none
  · rw [waits] at isPending
    cases isPending
    exact ⟨missing, unheard⟩

/-- What is left of a unit that `Completes` when the unit stays as it is and the
frames heard are not those it misses. -/
theorem completes_of_kept {b next : Binding} {told : Told} {heard : List Name}
    {keep : Pending → Pending} (completes : Completes b told)
    (sameShape : next.shape = b.shape) (sameEnded : next.ended = b.ended)
    (keeps : ∀ p, (keep p).shape = p.shape ∧ (keep p).missing = p.missing)
    (kept : next.pending = b.pending.map keep)
    (unheard : ∀ p, b.pending = some p → ∀ name ∈ p.missing, name ∉ told.heard → name ∉ heard) :
    Completes next { told with heard := heard } := by
  intro shape isUnit
  rcases completes shape isUnit with
    ended | ⟨none, applied⟩ | ⟨p, isPending, unit, missing, waits⟩
  · left
    rw [sameEnded]
    exact ended
  · right; left
    rw [kept, none, sameShape]
    exact ⟨rfl, applied⟩
  · right; right
    refine ⟨keep p, by rw [kept, isPending]; rfl, ?_, ?_, ?_⟩
    · rw [(keeps p).1]
      exact unit
    · rw [(keeps p).2]
      exact missing
    · rw [(keeps p).2]
      intro name isMissing
      have known := waits name isMissing
      exact ⟨known.1, unheard p isPending name isMissing known.2⟩

theorem syncState_completes {b next : Binding} {told : Told}
    (holds : UnitInvariant (b, told)) (completes : Completes b told)
    (samePending : next.pending = b.pending)
    (sameShape : next.shape = b.shape) (sameEnded : next.ended = b.ended) :
    (∀ pending, b.pending = some pending → ¬next.turnsOff next.views) ↔
      Completes next.syncState.1 told := by
  have shape := syncState_shape next
  constructor
  · intro allowed
    have kept : next.syncState.1.pending = b.pending.map id := by
      rcases syncState_pending next with ⟨same, _⟩ | ⟨off, cleared⟩
      · rw [same, samePending, Option.map_id_fun, id]
      · cases waits : b.pending with
        | none =>
          rw [cleared, samePending, waits]
          rfl
        | some p => exact absurd off (allowed p waits)
    exact completes_of_kept completes (shape.1.trans sameShape)
      (shape.2.trans sameEnded) (fun _ => ⟨rfl, rfl⟩) kept
      (fun _ _ _ _ unheard => unheard)
  · intro after pending waits off
    have open_ : next.ended = false := by
      rw [sameEnded]
      by_contra ended
      rw [Bool.not_eq_false] at ended
      have none := holds.ended ended
      dsimp only at none
      rw [waits] at none
      cases none
    rcases syncState_pending next with ⟨_, stays⟩ | ⟨_, cleared⟩
    · exact stays open_ off
    · rw [samePending, waits] at cleared
      rcases after pending.shape (holds.unit pending waits) with
        ended | ⟨none, _⟩ | ⟨p, isPending, _, missing, _⟩
      · rw [shape.2, open_] at ended
        cases ended
      · rw [cleared] at none
        cases none
      · rw [cleared] at isPending
        cases isPending
        exact missing rfl

/-- The frame of a member that is not missing, or of one that no unit waits for,
leaves the unit to wait as it did. -/
theorem unheard_of_other {name : Name} (notMissing : ∀ p, b.pending = some p → name ∉ p.missing) :
    ∀ p, b.pending = some p → ∀ other ∈ p.missing, other ∉ told.heard →
      other ∉ name :: told.heard := by
  intro p isPending other isMissing unheard
  rw [List.mem_cons]
  rintro (same | before)
  · exact notMissing p isPending (by rw [← same]; exact isMissing)
  · exact unheard before

theorem stateValue_completes (value : JsonValue) (holds : UnitInvariant (b, told))
    (completes : Completes b told) :
    Completes (b.stateValue contract name value).1 { told with heard := name :: told.heard } := by
  rcases stateValue_cases contract b name value with
    ⟨same, sameShape, sameStatus, notMissing⟩ |
    ⟨p, values, waits, same, more⟩ | ⟨p, waits, none, isShape⟩
  · refine @completes_of_kept _ _ _ _ id completes sameShape ?_
      (fun _ => ⟨rfl, rfl⟩) ?_ (unheard_of_other notMissing)
    · unfold Binding.ended
      rw [sameStatus]
    · rw [same, Option.map_id_fun, id]
  · rw [same]
    intro shape isUnit
    have unit := holds.unit p waits
    have unheard := (completes_waits holds completes waits).2
    rw [Option.some.inj (isUnit.symm.trans unit)]
    refine .inr (.inr ⟨_, rfl, rfl, more, ?_⟩)
    intro other isMissing
    obtain ⟨wasMissing, isOther⟩ := List.mem_filter.mp isMissing
    have known := unheard other wasMissing
    refine ⟨known.1, ?_⟩
    rw [List.mem_cons]
    rintro (sameName | before)
    · exact of_decide_eq_true isOther sameName
    · exact known.2 before
  · intro shape isUnit
    have unit := holds.unit p waits
    right; left
    rw [none, isShape]
    exact ⟨rfl, unit.symm.trans isUnit⟩

theorem state_completes (frame : StateIn) (holds : UnitInvariant (b, told))
    (completes : Completes b told) :
    UnitAllowed (b, told) (.state name frame) ↔
      Completes (b.state contract owned name frame).1
        { told with heard := name :: told.heard } := by
  have holdsAfter :
      UnitInvariant ((b.state contract owned name frame).1,
        { told with heard := name :: told.heard }) :=
    unitInvariant_preserved contract owned (b, told) (.state name frame) holds
  -- what is missing after the frame has not been heard, the frame included
  have after_waits :
      Completes (b.state contract owned name frame).1 { told with heard := name :: told.heard } →
        ∀ p, (b.state contract owned name frame).1.pending = some p → name ∉ p.missing := by
    intro after p waits isMissing
    have known := (completes_waits holdsAfter after waits).2 name isMissing
    exact known.2 List.mem_cons_self
  by_cases ended : b.ended = true
  · have same : (b.state contract owned name frame).1 = b := by
      unfold Binding.state
      rw [if_pos ended]
    rw [same]
    constructor
    · intro _ shape _
      exact .inl ended
    · intro _ pending waits
      have none := holds.ended ended
      rw [waits] at none
      cases none
  · have open_ : ¬b.ended = true := ended
    unfold Binding.state at after_waits ⊢
    rw [if_neg open_] at after_waits ⊢
    cases frame with
    | snap value | reset value =>
      exact ⟨fun _ => stateValue_completes contract name value holds completes,
        fun _ _ _ => trivial⟩
    | ops wire =>
      obtain ⟨sameShape, sameStatus, keep, keeps, kept⟩ := stateOps_pending owned b name wire
      constructor
      · intro allowed
        refine completes_of_kept completes sameShape ?_ keeps kept (unheard_of_other allowed)
        unfold Binding.ended
        rw [sameStatus]
      · intro after p waits isMissing
        refine after_waits after (keep p) (by rw [kept, waits]; rfl) ?_
        rw [(keeps p).2]
        exact isMissing
    | error error =>
      rcases stateError_cases b error with
        ⟨fails, nowEnded, _⟩ | ⟨stays, same⟩
      · constructor
        · intro _ shape _
          exact .inl nowEnded
        · intro _ p _ _
          exact fails
      · dsimp only at after_waits ⊢
        rw [same] at after_waits ⊢
        constructor
        · intro allowed
          refine @completes_of_kept _ _ _ _ id completes rfl rfl
            (fun _ => ⟨rfl, rfl⟩) (by rw [Option.map_id_fun, id]) ?_
          apply unheard_of_other
          intro p waits isMissing
          exact stays (allowed p waits isMissing)
        · intro after p waits isMissing
          exact absurd isMissing (after_waits after p waits)

theorem shaped_completes (shape : Shape) (listed : List Name) (holds : UnitInvariant (b, told))
    (completes : Completes b told) :
    Completes (b.shaped contract shape listed).1 (told.hear (.shaped shape listed)) := by
  by_cases ended : b.ended = true
  · intro _ _
    left
    unfold Binding.shaped
    rw [if_pos ended]
    exact ended
  · rw [Bool.not_eq_true] at ended
    intro unit isUnit
    cases isUnit
    rcases shaped_cases contract b shape listed ended with
      applied | ⟨missing, values, more, same, members⟩
    · exact .inr (.inl applied)
    · rw [same]
      refine .inr (.inr ⟨_, rfl, rfl, more, ?_⟩)
      intro name isMissing
      rcases members name isMissing with new | ⟨p, waits, old⟩
      · refine ⟨List.mem_append_left _ new, ?_⟩
        intro heard
        have notListed := (List.mem_filter.mp heard).2
        exact of_decide_eq_true notListed new
      · have known := (completes_waits holds completes waits).2 name old
        refine ⟨List.mem_append_right listed known.1, ?_⟩
        intro heard
        exact known.2 (List.mem_filter.mp heard).1

theorem hearing_completes (holds : UnitInvariant state) (completes : Completes state.1 state.2) :
    UnitAllowed state input ↔
      Completes (hearing contract owned state input).1 (hearing contract owned state input).2 := by
  obtain ⟨b, told⟩ := state
  cases input with
  | addView wantsState =>
    exact @syncState_completes b
      { b with views := wantsState :: b.views } told holds completes rfl rfl
      rfl
  | removeView wantsState =>
    unfold UnitAllowed hearing Binding.take Binding.removeView
    dsimp only [Told.hear]
    by_cases isView : wantsState ∈ b.views
    · rw [if_pos isView]
      by_cases last : (b.views.erase wantsState).length = 0
      · rw [if_pos last]
        have noView : b.views.erase wantsState = [] := List.length_eq_zero_iff.mp last
        constructor
        · intro _
          exact @completes_of_kept b { b with views := b.views.erase wantsState } told told.heard id
            completes rfl rfl (fun _ => ⟨rfl, rfl⟩)
            (by rw [Option.map_id_fun, id]) (fun _ _ _ _ unheard => unheard)
        · intro _ pending _ _ off
          exact off.2.1 noView
      · rw [if_neg last]
        have synced :=
          @syncState_completes b { b with views := b.views.erase wantsState } told holds completes
            rfl rfl rfl
        rw [← synced]
        constructor
        · intro allowed pending waits
          exact allowed pending waits isView
        · intro allowed pending waits _
          exact allowed pending waits
    · rw [if_neg isView]
      exact ⟨fun _ => completes, fun _ _ _ member => absurd member isView⟩
  | bound id => exact ⟨fun _ => completes, fun _ _ _ => trivial⟩
  | shaped shape listed =>
    exact ⟨fun _ => shaped_completes contract shape listed holds completes, fun _ _ _ => trivial⟩
  | state name frame => exact state_completes contract owned name frame holds completes
  | gone error =>
    have isGone := gone_pending b error holds.ended
    exact ⟨fun _ _ _ => .inl isGone.1, fun _ _ _ => trivial⟩
  | detached =>
    constructor
    · intro _ shape isUnit
      cases isUnit
    · intro _ _ _
      trivial
  | close => exact ⟨fun _ _ _ => .inl rfl, fun _ _ _ => trivial⟩

/-- In a run from a binding nobody has held, the conditions hold exactly when at
every moment the last unit is applied, the binding has ended, or the unit waits
for announced members of which no frame has come. -/
theorem unit_completion (inputs : List Input) :
    Runs.AllAllowed (hearing contract owned) UnitAllowed (freshBinding, toldNothing) inputs ↔
      ∀ taken, taken <+: inputs →
        Completes
          (Runs.after (hearing contract owned) (freshBinding, toldNothing) taken).1
          (Runs.after (hearing contract owned) (freshBinding, toldNothing) taken).2 := by
  apply Runs.allAllowed_iff_always_good (hearing contract owned)
    (fun state input => unitInvariant_preserved contract owned state input)
    (fun state input => hearing_completes contract owned state input)
  · refine ⟨fun _ => rfl, ?_⟩
    intro pending waits
    cases waits
  · intro shape isUnit
    cases isUnit

end Units

def stateContract : Contract where
  kind := fun _ _ => some .state

/-- A binding hydrated with `a` is told of a variant with `b`, whose snapshot
could not be sent. -/
def variantChange : List Input :=
  [.addView true, .bound 1, .shaped ⟨some "one", ["a"]⟩ ["a"], .state "a" (.snap .null),
    .shaped ⟨some "two", ["b"]⟩ ["b"],
    .state "b" (.error ⟨"internal", "snapshot does not match"⟩)]

/-- The frame of every announced member came, and the binding neither applied
the unit nor ended: it waits for `b`. -/
theorem variantChange_waits :
    let state :=
      Runs.after (hearing stateContract fun _ => false) (freshBinding, toldNothing) variantChange
    (∀ name ∈ state.2.announced, name ∈ state.2.heard) ∧
    state.2.unit = some ⟨some "two", ["b"]⟩ ∧
    state.1.ended = false ∧
    state.1.shape = some ⟨some "one", ["a"]⟩ ∧
    state.1.pending.map (·.missing) = some ["b"] := by
  refine ⟨?_, ?_, ?_, ?_, ?_⟩ <;> decide +kernel

end PiEmbodied.Chord
