import PiEmbodied.Chord.Delta.OverlayReplay
import PiEmbodied.Runs

/-!
# The tracker

A tracker holds one immutable value and counts its revisions.  Changes begun at
one revision may be open together; the first adopted makes the next revision,
and every other one begun there is stale from then on.
-/

namespace PiEmbodied.Chord.Delta

open Coding

/-! ## Data -/

inductive Status where
  | open_ | prepared | consumed | aborted | stale
deriving DecidableEq

structure Ref where
  id : ℕ
  value : JsonValue

structure Prepared where
  (base value : Ref)
  ops : List (Op Unit)

structure OverlayContext where
  baseRevision : ℕ
  status : Status
  baseValue : Ref
  draft : Draft
  /-- Made by `prepareReplace`, so there is no change to abort. -/
  replacement : Bool
  /-- Among the contexts that an adoption invalidates. -/
  (registered overlayReleased : Bool)
  /-- The change was prepared or aborted. -/
  settled : Bool
  prepared : Option Prepared

/-- The tracker; a context is known by its place in the list. -/
structure TrackerState where
  value : Ref
  revision : ℕ
  contexts : List OverlayContext
  /-- The identities given out. -/
  made : ℕ

inductive TrackerError where
  | changeSettled
  | overlaySettled
  | overlayReadOnly
  | differentTracker
  | alreadyUsed
  | isAborted
  | isStale
  | notReady
  | delta (error : DeltaError)

def TrackerError.text : TrackerError → String
  | .changeSettled => "Change has already been settled"
  | .overlaySettled => "Cannot use a settled overlay"
  | .overlayReadOnly => "Prepared overlays are read-only"
  | .differentTracker => "Prepared change belongs to a different tracker"
  | .alreadyUsed => "Prepared change has already been used"
  | .isAborted => "Prepared change has been aborted"
  | .isStale => "Prepared change is stale"
  | .notReady => "Prepared change is not ready"
  | .delta _ => "delta error"

inductive TrackerCall where
  | beginChange
  | edit (context : ℕ) (change : DraftEdit)
  /-- `emitted` is what `emitOperations` gives where a draft is not simple. -/
  | prepare (context : ℕ) (emitted : Except DeltaError (List (Op Unit)))
  | prepareReplace (value : JsonValue)
  | abortChange (context : ℕ)
  | abortPrepared (context : ℕ)
  /-- No context for a prepared change of another tracker. -/
  | adopt (context : Option ℕ)

/-! ## The calls -/

def track (initial : JsonValue) : TrackerState where
  value := ⟨0, initial⟩
  revision := 0
  contexts := []
  made := 1

namespace TrackerState

variable (t : TrackerState)

def put (id : ℕ) (context : OverlayContext) : TrackerState :=
  { t with contexts := t.contexts.set id context }

def createContext (status : Status) : OverlayContext where
  baseRevision := t.revision
  status := status
  baseValue := t.value
  draft := Draft.start
  replacement := false
  registered := true
  overlayReleased := false
  settled := false
  prepared := none

end TrackerState

namespace OverlayContext

variable (c : OverlayContext)

def isSettledContext : Bool :=
  c.overlayReleased || c.status = .consumed || c.status = .aborted ||
    c.status = .stale

def assertWritable : Option TrackerError :=
  if c.isSettledContext then some .overlaySettled
  else if c.status ≠ .open_ then some .overlayReadOnly
  else none

/-- `clearContext` and `releaseOverlayReferences`. -/
def clear : OverlayContext :=
  { c with registered := false, overlayReleased := true }

def abort : OverlayContext :=
  if c.status = .aborted ∨ c.status = .consumed ∨ c.status = .stale then c
  else { c.clear with status := .aborted }

/-- The operations of a draft and whether its clone is taken as the value. -/
def emit (emitted : Except DeltaError (List (Op Unit))) :
    Except DeltaError Emission :=
  if c.draft.nodes.isEmpty && !c.draft.mixed then .ok ⟨[], false⟩
  else
    match emitSimpleObjectOperations c.baseValue.value c.draft with
    | some emission => .ok emission
    | none => emitted.map fun operations => ⟨operations, false⟩

/-- The value of a prepared change; `id` is a new identity. -/
def materialize (id : ℕ) (emission : Emission) : Except DeltaError Ref :=
  if emission.operations.isEmpty then .ok c.baseValue
  else if emission.simpleObjectMaterialization then
    .ok ⟨id, cloneStored c.draft.nodes c.baseValue.value⟩
  else
    (materializeOperations c.baseValue.value emission.operations).map fun value => ⟨id, value⟩

def materializePrepared (id : ℕ) (emission : Emission) :
    Except DeltaError Prepared :=
  (c.materialize id emission).map fun value => ⟨c.baseValue, value, emission.operations⟩

def invalidate : OverlayContext :=
  if c.registered then
    { c.clear with
      status :=
        if c.status = .open_ ∨ c.status = .prepared then .stale
        else c.status }
  else c

end OverlayContext

/-- The operations of a replacement: none for an equal value. -/
def replaceEmission (base value : JsonValue) : Emission :=
  if equalTrustedJson base value then ⟨[], false⟩ else ⟨[.r value], false⟩

namespace TrackerState

variable (t : TrackerState)

def beginChange : TrackerState :=
  { t with contexts := t.contexts ++ [t.createContext .open_] }

def edit (id : ℕ) (c : OverlayContext) (change : DraftEdit) : TrackerState × Option TrackerError :=
  match c.assertWritable with
  | some error => (t, some error)
  | none => (t.put id { c with draft := c.draft.edit c.baseValue.value change }, none)

def prepare (id : ℕ) (c : OverlayContext) (emitted : Except DeltaError (List (Op Unit))) :
    TrackerState × Option TrackerError :=
  if c.settled then (t, some .changeSettled)
  else
    match c.assertWritable with
    | some error => (t, some error)
    | none =>
      match c.emit emitted >>= c.materializePrepared t.made with
      | .ok prepared =>
        ({ t with made := t.made + 1 }.put id
          { c.clear with
            status := .prepared
            settled := true
            prepared := some prepared },
          none)
      | .error error =>
        (t.put id { c.clear with status := .aborted, settled := true }, some (.delta error))

def prepareReplace (value : JsonValue) : TrackerState × Option TrackerError :=
  let c :=
    { t.createContext .prepared with replacement := true, settled := true }
  match c.materializePrepared t.made (replaceEmission t.value.value value) with
  | .ok prepared =>
    ({ t with
        made := t.made + 1
        contexts :=
          t.contexts ++ [{ c.clear with prepared := some prepared }] },
      none)
  | .error error =>
    ({ t with
        contexts := t.contexts ++ [{ c.clear with status := .aborted }] },
      some (.delta error))

def abortChange (id : ℕ) (c : OverlayContext) : TrackerState :=
  if c.replacement then t
  else if c.settled then
    if c.status = .prepared then t.put id { c with status := .aborted } else t
  else t.put id { c.abort with settled := true }

def adopt (id : ℕ) (c : OverlayContext) (prepared : Prepared) :
    TrackerState × Option TrackerError :=
  match c.status with
  | .consumed => (t, some .alreadyUsed)
  | .aborted => (t, some .isAborted)
  | .stale => (t, some .isStale)
  | .open_ => (t, some .notReady)
  | .prepared =>
    if c.baseRevision ≠ t.revision then
      (t.put id { c.clear with status := .stale }, some .isStale)
    else if t.value.id ≠ prepared.base.id then
      (t.put id { c with status := .stale }, some .isStale)
    else
      ({ t with
          value := prepared.value
          revision := t.revision + 1
          contexts :=
            (t.contexts.map OverlayContext.invalidate).set id
              { c with status := .consumed, registered := false } },
        none)

def call (t : TrackerState) : TrackerCall → TrackerState × Option TrackerError
  | .beginChange => (t.beginChange, none)
  | .edit id change =>
    match t.contexts[id]? with
    | none => (t, some .overlaySettled)
    | some c => t.edit id c change
  | .prepare id emitted =>
    match t.contexts[id]? with
    | none => (t, some .changeSettled)
    | some c => t.prepare id c emitted
  | .prepareReplace value => t.prepareReplace value
  | .abortChange id =>
    match t.contexts[id]? with
    | none => (t, none)
    | some c => (t.abortChange id c, none)
  | .abortPrepared id =>
    match t.contexts[id]? with
    | none => (t, none)
    | some c => (if c.prepared.isSome then t.put id c.abort else t, none)
  | .adopt none => (t, some .differentTracker)
  | .adopt (some id) =>
    match t.contexts[id]? with
    | none => (t, some .differentTracker)
    | some c =>
      match c.prepared with
      | none => (t, some .differentTracker)
      | some prepared => t.adopt id c prepared

end TrackerState

/-- A prepared change adopted, with the values of the tracker around it. -/
structure Adoption where
  (context baseRevision : ℕ)
  ops : List (Op Unit)
  (before after : JsonValue)

def adoption (t : TrackerState) : TrackerCall → Option Adoption
  | .adopt (some id) =>
    match t.contexts[id]?, (t.call (.adopt (some id))).2 with
    | some c, none =>
      c.prepared.map fun prepared =>
        { context := id
          baseRevision := c.baseRevision
          ops := prepared.ops
          before := t.value.value
          after := (t.call (.adopt (some id))).1.value.value }
    | _, _ => none
  | _ => none

structure TrackerRun where
  tracker : TrackerState
  adopted : List Adoption

def trackerStep (run : TrackerRun) (c : TrackerCall) : TrackerRun where
  tracker := (run.tracker.call c).1
  adopted := run.adopted ++ (adoption run.tracker c).toList

/-- A tracker after a list of calls, and the adoptions made. -/
abbrev trackerAfter (initial : JsonValue) (calls : List TrackerCall) :
    TrackerRun :=
  Runs.after trackerStep ⟨track initial, []⟩ calls

/-! ## What a prepared change holds -/

def Yields (base : JsonValue) (ops : List (Op Unit)) (value : JsonValue) :
    Prop :=
  ∃ result, materializeOperations base ops = .ok result ∧ DeepEqual result value

variable {c : OverlayContext} {emission : Emission} {emitted : Except DeltaError (List (Op Unit))}

theorem emit_simple (emits : c.emit emitted = .ok emission)
    (clones : emission.simpleObjectMaterialization = true) :
    emitSimpleObjectOperations c.baseValue.value c.draft = some emission := by
  unfold OverlayContext.emit at emits
  split at emits
  · cases emits
    cases clones
  · split at emits
    · rename_i found
      cases emits
      exact found
    · cases emitted with
      | error error => cases emits
      | ok operations =>
        cases emits
        cases clones

variable {id : ℕ} {value : Ref}

theorem materialize_yields
    (clones :
      emission.simpleObjectMaterialization = true →
        ∃ result,
          materializeOperations c.baseValue.value emission.operations = .ok result ∧
            DeepEqual result (cloneStored c.draft.nodes c.baseValue.value))
    (materialized : c.materialize id emission = .ok value) :
    Yields c.baseValue.value emission.operations value.value := by
  unfold OverlayContext.materialize at materialized
  split at materialized
  · rename_i nothing
    cases materialized
    rw [List.isEmpty_iff.mp nothing]
    exact ⟨_, rfl, DeepEqual.same _⟩
  · split at materialized
    · rename_i simple
      cases materialized
      exact clones simple
    · cases replayed : materializeOperations c.baseValue.value emission.operations with
      | error error =>
        rw [replayed] at materialized
        cases materialized
      | ok result =>
        rw [replayed] at materialized
        cases materialized
        exact ⟨result, replayed, DeepEqual.same result⟩

variable {prepared : Prepared}

theorem materializePrepared_eq_ok (made : c.materializePrepared id emission = .ok prepared) :
    prepared.base = c.baseValue ∧ prepared.ops = emission.operations ∧
      c.materialize id emission = .ok prepared.value := by
  unfold OverlayContext.materializePrepared at made
  cases materialized : c.materialize id emission with
  | error error =>
    rw [materialized] at made
    cases made
  | ok value =>
    rw [materialized] at made
    cases made
    exact ⟨rfl, rfl, rfl⟩

/-- A context of a tracker: begun at a revision whose value it has, with a
draft of that value, and a prepared change that leads on from it. -/
structure ContextOk (value : Ref) (revision : ℕ) (c : OverlayContext) :
    Prop where
  begun : c.baseRevision ≤ revision
  current : c.baseRevision = revision → c.baseValue = value
  draft : DraftWf c.baseValue.value c.draft
  prepared :
    ∀ prepared, c.prepared = some prepared →
      prepared.base = c.baseValue ∧ Yields prepared.base.value prepared.ops prepared.value.value

theorem contextOk_of_same {value : Ref} {revision : ℕ} {c changed : OverlayContext}
    (ok : ContextOk value revision c) (sameRevision : changed.baseRevision = c.baseRevision)
    (sameValue : changed.baseValue = c.baseValue) (sameDraft : changed.draft = c.draft)
    (samePrepared : changed.prepared = c.prepared) :
    ContextOk value revision changed where
  begun := by
    rw [sameRevision]
    exact ok.begun
  current := by
    rw [sameRevision, sameValue]
    exact ok.current
  draft := by
    rw [sameValue, sameDraft]
    exact ok.draft
  prepared := by
    rw [samePrepared, sameValue]
    exact ok.prepared

variable {t : TrackerState}

theorem contextOk_created (status : Status) :
    ContextOk t.value t.revision (t.createContext status) where
  begun := Nat.le_refl _
  current := fun _ => rfl
  draft := draftWf_start _
  prepared := fun _ none_ => by cases none_

variable {revision : ℕ}

theorem contextOk_prepared (ok : ContextOk value revision c)
    (made : c.emit emitted >>= c.materializePrepared id = .ok prepared) :
    ContextOk value revision
      { c.clear with
        status := .prepared
        settled := true
        prepared := some prepared } where
  begun := ok.begun
  current := ok.current
  draft := ok.draft
  prepared := by
    intro other same
    cases same
    obtain ⟨emission, emits, materialized⟩ := bind_eq_ok.mp made
    obtain ⟨sameBase, sameOps, isValue⟩ := materializePrepared_eq_ok materialized
    refine ⟨sameBase, ?_⟩
    rw [sameBase, sameOps]
    refine materialize_yields ?_ isValue
    intro clones
    exact emitSimple_materializes ok.draft (emit_simple emits clones) clones

theorem replaceEmission_direct (base value : JsonValue) :
    (replaceEmission base value).simpleObjectMaterialization = false := by
  rw [replaceEmission]
  split
  · rfl
  · rfl

theorem contextOk_replacement {value : JsonValue} (ok : ContextOk t.value t.revision c)
    (made : c.materializePrepared t.made (replaceEmission t.value.value value) = .ok prepared) :
    ContextOk t.value t.revision { c.clear with prepared := some prepared } where
  begun := ok.begun
  current := ok.current
  draft := ok.draft
  prepared := by
    intro other same
    cases same
    obtain ⟨sameBase, sameOps, isValue⟩ := materializePrepared_eq_ok made
    refine ⟨sameBase, ?_⟩
    rw [sameBase, sameOps]
    refine materialize_yields ?_ isValue
    intro clones
    rw [replaceEmission_direct] at clones
    cases clones

/-! ## Calls that adopt nothing -/

/-- The value and the revision stay, sound contexts stay sound, and what was
consumed stays so. -/
structure Quiet (t next : TrackerState) : Prop where
  value : next.value = t.value
  revision : next.revision = t.revision
  contexts :
    (∀ (id : ℕ) (c : OverlayContext), t.contexts[id]? = some c → ContextOk t.value t.revision c) →
      ∀ (id : ℕ) (c : OverlayContext), next.contexts[id]? = some c → ContextOk t.value t.revision c
  consumed :
    ∀ (id : ℕ) (c : OverlayContext), t.contexts[id]? = some c →
      c.status = .consumed → ∃ other, next.contexts[id]? = some other ∧ other.status = .consumed

theorem quiet_self (t : TrackerState) : Quiet t t where
  value := rfl
  revision := rfl
  contexts := fun ok => ok
  consumed := fun _ c found consumed => ⟨c, found, consumed⟩

variable {next : TrackerState}

theorem quiet_set {changed : OverlayContext} (sameValue : next.value = t.value)
    (sameRevision : next.revision = t.revision) (isSet : next.contexts = t.contexts.set id changed)
    (found : t.contexts[id]? = some c)
    (ok : ContextOk t.value t.revision c → ContextOk t.value t.revision changed)
    (unused : c.status = .consumed → changed.status = .consumed) :
    Quiet t next where
  value := sameValue
  revision := sameRevision
  contexts := by
    intro all other d isD
    rw [isSet, List.getElem?_set] at isD
    split at isD
    · split at isD
      · cases isD
        exact ok (all id c found)
      · cases isD
    · exact all other d isD
  consumed := by
    intro other d isD consumed
    rw [isSet, List.getElem?_set]
    by_cases same : id = other
    · subst same
      rw [found] at isD
      cases isD
      have inside := (List.getElem?_eq_some_iff.mp found).1
      exact ⟨changed, by simp [inside], unused consumed⟩
    · exact ⟨d, by simpa [same] using isD, consumed⟩

theorem quiet_add {added : OverlayContext} (sameValue : next.value = t.value)
    (sameRevision : next.revision = t.revision) (isAdded : next.contexts = t.contexts ++ [added])
    (ok : ContextOk t.value t.revision added) : Quiet t next where
  value := sameValue
  revision := sameRevision
  contexts := by
    intro all id c found
    rw [isAdded] at found
    have member := List.mem_of_getElem? found
    rcases List.mem_append.mp member with old | new
    · obtain ⟨place, isPlace⟩ := List.mem_iff_getElem?.mp old
      exact all place c isPlace
    · rw [List.mem_singleton.mp new]
      exact ok
  consumed := by
    intro id c found consumed
    have inside := (List.getElem?_eq_some_iff.mp found).1
    refine ⟨c, ?_, consumed⟩
    rw [isAdded, List.getElem?_append_left inside]
    exact found

theorem abort_same (c : OverlayContext) :
    c.abort.baseRevision = c.baseRevision ∧
      c.abort.baseValue = c.baseValue ∧ c.abort.draft = c.draft ∧
      c.abort.prepared = c.prepared ∧
      (c.status = .consumed → c.abort.status = .consumed) := by
  rw [OverlayContext.abort]
  split
  · exact ⟨rfl, rfl, rfl, rfl, id⟩
  · rename_i active
    refine ⟨rfl, rfl, rfl, rfl, fun consumed => ?_⟩
    exact absurd (.inr (.inl consumed)) active

theorem not_consumed_of_writable (writable : c.assertWritable = none) : c.status ≠ .consumed := by
  intro consumed
  rw [OverlayContext.assertWritable, OverlayContext.isSettledContext, consumed] at writable
  simp at writable

theorem quiet_edit (change : DraftEdit) (found : t.contexts[id]? = some c) :
    Quiet t (t.edit id c change).1 := by
  rw [TrackerState.edit]
  split
  · exact quiet_self t
  · refine quiet_set rfl rfl rfl found ?_ (fun consumed => consumed)
    intro ok
    exact
      { begun := ok.begun
        current := ok.current
        draft := draftWf_edit ok.draft change
        prepared := ok.prepared }

theorem quiet_prepare (emitted : Except DeltaError (List (Op Unit)))
    (found : t.contexts[id]? = some c) : Quiet t (t.prepare id c emitted).1 := by
  rw [TrackerState.prepare]
  split
  · exact quiet_self t
  · split
    · exact quiet_self t
    · rename_i writable
      have unused := not_consumed_of_writable writable
      split
      · rename_i prepared made
        exact quiet_set rfl rfl rfl found (fun ok => contextOk_prepared ok made)
          (fun consumed => absurd consumed unused)
      · exact quiet_set rfl rfl rfl found (fun ok => contextOk_of_same ok rfl rfl rfl rfl)
          (fun consumed => absurd consumed unused)

theorem quiet_prepareReplace (t : TrackerState) (value : JsonValue) :
    Quiet t (t.prepareReplace value).1 := by
  have created := contextOk_created (t := t) .prepared
  rw [TrackerState.prepareReplace]
  dsimp only
  split
  · rename_i prepared made
    have ok :=
      contextOk_replacement
        (@contextOk_of_same _ _ _
          { t.createContext .prepared with replacement := true, settled := true }
          created rfl rfl rfl rfl) made
    exact quiet_add rfl rfl rfl ok
  · exact quiet_add rfl rfl rfl (contextOk_of_same created rfl rfl rfl rfl)

theorem quiet_abortChange (found : t.contexts[id]? = some c) : Quiet t (t.abortChange id c) := by
  rw [TrackerState.abortChange]
  split
  · exact quiet_self t
  · split
    · split
      · rename_i isPrepared
        refine quiet_set rfl rfl rfl found (fun ok => contextOk_of_same ok rfl rfl rfl rfl) ?_
        intro consumed
        rw [isPrepared] at consumed
        cases consumed
      · exact quiet_self t
    · obtain ⟨sameRevision, sameValue, sameDraft, samePrepared, stays⟩ :=
        abort_same c
      exact quiet_set rfl rfl rfl found
        (fun ok => contextOk_of_same ok sameRevision sameValue sameDraft samePrepared)
        stays

theorem quiet_abortPrepared (found : t.contexts[id]? = some c) : Quiet t (t.put id c.abort) := by
  obtain ⟨sameRevision, sameValue, sameDraft, samePrepared, stays⟩ := abort_same c
  exact quiet_set rfl rfl rfl found
    (fun ok => contextOk_of_same ok sameRevision sameValue sameDraft samePrepared)
    stays

/-! ## Adopting -/

/-- The tracker once a prepared change of one of its contexts is adopted. -/
def TrackerState.adopting (t : TrackerState) (id : ℕ) (c : OverlayContext) (prepared : Prepared) :
    TrackerState :=
  { t with
    value := prepared.value
    revision := t.revision + 1
    contexts :=
      (t.contexts.map OverlayContext.invalidate).set id
        { c with status := .consumed, registered := false } }

/-- An adoption throws and changes no more than the context, or the change was
prepared at this revision. -/
theorem adopt_cases (prepared : Prepared) (found : t.contexts[id]? = some c) :
    (Quiet t (t.adopt id c prepared).1 ∧ (t.adopt id c prepared).2.isSome = true) ∨
      (c.status = .prepared ∧ c.baseRevision = t.revision ∧
        t.adopt id c prepared = (t.adopting id c prepared, none)) := by
  rw [TrackerState.adopt]
  cases status : c.status with
  | consumed | aborted | stale | open_ => exact .inl ⟨quiet_self t, rfl⟩
  | prepared =>
    have unused : c.status ≠ .consumed := by
      rw [status]
      intro same
      cases same
    dsimp only
    split
    · left
      refine ⟨quiet_set rfl rfl rfl found ?_ ?_, rfl⟩
      · exact fun ok => contextOk_of_same ok rfl rfl rfl rfl
      · exact fun consumed => absurd consumed unused
    · rename_i sameRevision
      split
      · left
        refine ⟨quiet_set rfl rfl rfl found ?_ ?_, rfl⟩
        · exact fun ok => contextOk_of_same ok rfl rfl rfl rfl
        · exact fun consumed => absurd consumed unused
      · exact .inr ⟨rfl, not_not.mp sameRevision, rfl⟩

/-- A call adopts nothing and leaves the value and the revision, or it adopts
a change prepared at this revision. -/
theorem call_cases (t : TrackerState) (c : TrackerCall) :
    (Quiet t (t.call c).1 ∧ adoption t c = none) ∨
      ∃ id context prepared, t.contexts[id]? = some context ∧
        context.prepared = some prepared ∧ context.status = .prepared ∧
        context.baseRevision = t.revision ∧
        t.call c = (t.adopting id context prepared, none) ∧
        adoption t c =
          some
            { context := id
              baseRevision := context.baseRevision
              ops := prepared.ops
              before := t.value.value
              after := prepared.value.value } := by
  cases c with
  | beginChange => exact .inl ⟨quiet_add rfl rfl rfl (contextOk_created .open_), rfl⟩
  | edit id change =>
    refine .inl ⟨?_, rfl⟩
    rw [TrackerState.call]
    split
    · exact quiet_self t
    · rename_i context found
      exact quiet_edit change found
  | prepare id emitted =>
    refine .inl ⟨?_, rfl⟩
    rw [TrackerState.call]
    split
    · exact quiet_self t
    · rename_i context found
      exact quiet_prepare emitted found
  | prepareReplace value => exact .inl ⟨quiet_prepareReplace t value, rfl⟩
  | abortChange id =>
    refine .inl ⟨?_, rfl⟩
    rw [TrackerState.call]
    split
    · exact quiet_self t
    · rename_i context found
      exact quiet_abortChange found
  | abortPrepared id =>
    refine .inl ⟨?_, rfl⟩
    rw [TrackerState.call]
    split
    · exact quiet_self t
    · rename_i context found
      dsimp only
      split
      · exact quiet_abortPrepared found
      · exact quiet_self t
  | adopt given =>
    cases given with
    | none => exact .inl ⟨quiet_self t, rfl⟩
    | some id =>
      cases found : t.contexts[id]? with
      | none =>
        left
        simp only [TrackerState.call, adoption, found]
        exact ⟨quiet_self t, trivial⟩
      | some context =>
        cases isPrepared : context.prepared with
        | none =>
          left
          simp only [TrackerState.call, adoption, found, isPrepared]
          exact ⟨quiet_self t, trivial⟩
        | some prepared =>
          have called :
              t.call (.adopt (some id)) =
                t.adopt id context prepared := by
            simp only [TrackerState.call, found, isPrepared]
          rcases adopt_cases prepared found with
            ⟨quiet, throws⟩ | ⟨status, sameRevision, adopted⟩
          · left
            rw [called]
            refine ⟨quiet, ?_⟩
            obtain ⟨error, isError⟩ := Option.isSome_iff_exists.mp throws
            simp only [adoption, found, called, isError]
          · right
            refine ⟨id, context, prepared, found, isPrepared, status,
              sameRevision, by rw [called, adopted], ?_⟩
            simp only [adoption, found, called, adopted, isPrepared]
            rfl

theorem call_error {c : TrackerCall} {error : TrackerError} (throws : (t.call c).2 = some error) :
    (t.call c).1.value = t.value ∧ (t.call c).1.revision = t.revision := by
  rcases call_cases t c with
    ⟨quiet, _⟩ | ⟨id, context, prepared, _, _, _, _, called, _⟩
  · exact ⟨quiet.value, quiet.revision⟩
  · rw [called] at throws
    cases throws

/-! ## Runs -/

/-- Each adoption starts from the value the one before left. -/
def Linked : JsonValue → List Adoption → JsonValue → Prop
  | start, [], last => last = start
  | start, adoption :: rest, last => adoption.before = start ∧ Linked adoption.after rest last

theorem linked_snoc {start middle : JsonValue} {adopted : List Adoption} {next : Adoption}
    (linked : Linked start adopted middle) (starts : next.before = middle) :
    Linked start (adopted ++ [next]) next.after := by
  induction adopted generalizing start with
  | nil =>
    cases linked
    exact ⟨starts, rfl⟩
  | cons first rest ih => exact ⟨linked.1, ih linked.2⟩

structure RunOk (initial : JsonValue) (run : TrackerRun) : Prop where
  contexts :
    ∀ (id : ℕ) (c : OverlayContext), run.tracker.contexts[id]? = some c →
      ContextOk run.tracker.value run.tracker.revision c
  revision : run.tracker.revision = run.adopted.length
  consumed :
    ∀ one ∈ run.adopted, ∃ c, run.tracker.contexts[one.context]? = some c ∧ c.status = .consumed
  once : (run.adopted.map Adoption.context).Nodup
  revisions : run.adopted.map Adoption.baseRevision = List.range run.adopted.length
  yields : ∀ one ∈ run.adopted, Yields one.before one.ops one.after
  linked : Linked initial run.adopted run.tracker.value.value

theorem runOk_start (initial : JsonValue) : RunOk initial ⟨track initial, []⟩ where
  contexts := fun _ _ found => by cases found
  revision := rfl
  consumed := fun _ member => absurd member List.not_mem_nil
  once := List.nodup_nil
  revisions := rfl
  yields := fun _ member => absurd member List.not_mem_nil
  linked := rfl

variable {initial : JsonValue} {run : TrackerRun}

theorem runOk_quiet (ok : RunOk initial run) (quiet : Quiet run.tracker next) :
    RunOk initial ⟨next, run.adopted⟩ where
  contexts := by
    rw [quiet.value, quiet.revision]
    exact quiet.contexts ok.contexts
  revision := quiet.revision.trans ok.revision
  consumed := by
    intro one member
    obtain ⟨c, found, consumed⟩ := ok.consumed one member
    exact quiet.consumed one.context c found consumed
  once := ok.once
  revisions := ok.revisions
  yields := ok.yields
  linked := by
    rw [quiet.value]
    exact ok.linked

theorem invalidate_same (c : OverlayContext) :
    c.invalidate.baseRevision = c.baseRevision ∧
      c.invalidate.baseValue = c.baseValue ∧ c.invalidate.draft = c.draft ∧
      c.invalidate.prepared = c.prepared ∧
      (c.status = .consumed → c.invalidate.status = .consumed) := by
  rw [OverlayContext.invalidate]
  split
  · refine ⟨rfl, rfl, rfl, rfl, fun consumed => ?_⟩
    rw [consumed]
    rfl
  · exact ⟨rfl, rfl, rfl, rfl, id⟩

theorem contextOk_later {later : Ref} (ok : ContextOk value revision c) :
    ContextOk later (revision + 1) c where
  begun := Nat.le_succ_of_le ok.begun
  current := fun same => absurd ok.begun (by omega)
  draft := ok.draft
  prepared := ok.prepared

theorem runOk_adopting (ok : RunOk initial run) (found : run.tracker.contexts[id]? = some c)
    (isPrepared : c.prepared = some prepared) (status : c.status = .prepared)
    (sameRevision : c.baseRevision = run.tracker.revision) :
    RunOk initial
      { tracker := run.tracker.adopting id c prepared
        adopted :=
          run.adopted ++
            [{ context := id
               baseRevision := c.baseRevision
               ops := prepared.ops
               before := run.tracker.value.value
               after := prepared.value.value }] } where
  contexts := by
    intro other d isD
    simp only [TrackerState.adopting, List.getElem?_set, List.length_map, List.getElem?_map] at isD
    split at isD
    · split at isD
      · cases isD
        exact contextOk_of_same (contextOk_later (ok.contexts id c found))
          rfl rfl rfl rfl
      · cases isD
    · obtain ⟨old, isOld, rfl⟩ := Option.map_eq_some_iff.mp isD
      obtain ⟨begun, value, draft, made, _⟩ := invalidate_same old
      exact contextOk_of_same (contextOk_later (ok.contexts other old isOld)) begun value draft made
  revision := by simp [TrackerState.adopting, ok.revision]
  consumed := by
    intro one member
    have inside := (List.getElem?_eq_some_iff.mp found).1
    simp only [TrackerState.adopting, List.getElem?_set, List.length_map, List.getElem?_map]
    rcases List.mem_append.mp member with old | new
    · obtain ⟨d, isD, consumed⟩ := ok.consumed one old
      by_cases same : id = one.context
      · exact ⟨_, by rw [if_pos same, if_pos inside], rfl⟩
      · obtain ⟨_, _, _, _, stays⟩ := invalidate_same d
        exact ⟨d.invalidate, by rw [if_neg same, isD]; rfl, stays consumed⟩
    · rw [List.mem_singleton.mp new]
      exact ⟨_, by rw [if_pos rfl, if_pos inside], rfl⟩
  once := by
    rw [List.map_append]
    refine List.nodup_append.mpr ⟨ok.once, by simp, ?_⟩
    rintro first isFirst second isSecond rfl
    obtain ⟨one, isOne, same⟩ := List.mem_map.mp isFirst
    obtain ⟨d, isD, consumed⟩ := ok.consumed one isOne
    have isId : first = id := by simpa using isSecond
    rw [same, isId, found] at isD
    cases isD
    rw [status] at consumed
    cases consumed
  revisions := by
    rw [List.map_append, ok.revisions, List.length_append, List.length_singleton, List.range_succ]
    simp [sameRevision, ok.revision]
  yields := by
    intro one member
    rcases List.mem_append.mp member with old | new
    · exact ok.yields one old
    · rw [List.mem_singleton.mp new]
      have contextOk := ok.contexts id c found
      obtain ⟨sameBase, yields⟩ := contextOk.prepared prepared isPrepared
      rwa [sameBase, contextOk.current sameRevision] at yields
  linked := linked_snoc ok.linked rfl

theorem runOk_step (initial : JsonValue) (run : TrackerRun) (c : TrackerCall)
    (ok : RunOk initial run) : RunOk initial (trackerStep run c) := by
  rcases call_cases run.tracker c with
    ⟨quiet, nothing⟩ |
      ⟨id, context, prepared, found, isPrepared, status, sameRevision, called, adopts⟩
  · rw [trackerStep, nothing]
    simp only [Option.toList_none, List.append_nil]
    exact runOk_quiet ok quiet
  · rw [trackerStep, called, adopts]
    exact runOk_adopting ok found isPrepared status sameRevision

theorem runOk_after (initial : JsonValue) (calls : List TrackerCall) :
    RunOk initial (trackerAfter initial calls) :=
  Runs.after_invariant trackerStep (RunOk initial)
    (fun run c => runOk_step initial run c) (runOk_start initial) calls

/-- Over every order of calls on one tracker a prepared change is adopted at
most once and at most one per base revision, each adoption makes the value it
starts from into that value with the change's operations applied, and a call
that throws leaves the value and the revision. -/
theorem trackerAfter_adopts (initial : JsonValue) (calls : List TrackerCall) :
    let run := trackerAfter initial calls
    (run.adopted.map Adoption.context).Nodup ∧
      run.adopted.map Adoption.baseRevision = List.range run.tracker.revision ∧
      Linked initial run.adopted run.tracker.value.value ∧
      (∀ one ∈ run.adopted, Yields one.before one.ops one.after) ∧
      ∀ c error, (run.tracker.call c).2 = some error →
        (run.tracker.call c).1.value = run.tracker.value ∧
          (run.tracker.call c).1.revision = run.tracker.revision := by
  intro run
  have ok := runOk_after initial calls
  refine ⟨ok.once, ?_, ok.linked, ok.yields, ?_⟩
  · rw [ok.revision]
    exact ok.revisions
  · intro c error throws
    exact call_error throws

end PiEmbodied.Chord.Delta
