import PiEmbodied.Chord.Boxed
import PiEmbodied.Chord.Delta.DiffSound

/-!
# Cells and derivations

A write prepares a change of one cell, recomputes all that is derived from the
cell over the candidate values, and only then adopts and publishes.  A cell
publishes its tracker's operations without the box, or a diff; a derivation
publishes the diff of its two values.
-/

namespace PiEmbodied.Chord.Cells

open Coding Delta

/-! ## Data -/

inductive SourceRef where
  | cell (place : ℕ)
  | derived (place : ℕ)
  | outside (place : ℕ)
deriving DecidableEq

/-- A value; none is `undefined`. -/
abbrev StateValue := Option JsonValue

abbrev Schema := StateValue → Bool

inductive StateEvent where
  | ops (ops : List (Op Unit)) (value : StateValue)
  | reset (value : StateValue)

def StateEvent.value : StateEvent → StateValue
  | .ops _ value | .reset value => value

structure Cell where
  schema : Schema
  schemas : List Schema
  tracker : TrackerState

structure Derived where
  schemas : List Schema
  value : StateValue

/-- The sources of each derivation, in the order they were made; a source is
made before what is derived from it. -/
structure Wiring where
  sources : List (List SourceRef)
  ordered :
    ∀ (j : ℕ) (list : List SourceRef), sources[j]? = some list →
      ∀ k, SourceRef.derived k ∈ list → k < j

/-- The cells and derivations of an object with the events they emitted. -/
structure System where
  wiring : Wiring
  dev : Bool
  cells : List Cell
  deriveds : List Derived
  outside : List StateValue
  events : List (SourceRef × StateEvent)

inductive CellError where
  | missing
  /-- The callback or the function of a derivation threw. -/
  | thrown
  /-- `assertValid` refused a value. -/
  | invalid (source : SourceRef)
  | tracker (error : TrackerError)

/-- What the functions of the derivations compute during a call, and what
`diffRevisions` gives for two values of a source. -/
structure Moment where
  compute : ℕ → List StateValue → Except CellError StateValue
  diff : SourceRef → JsonValue → JsonValue → List (Op Unit)

/-- The value a callback of `change` returned; `fresh` unless it is the draft's
own.  `edit` is what assigning it to the box does to the draft. -/
structure Returned where
  value : JsonValue
  fresh : Bool
  edit : { edit : DraftEdit // BoxedEdit edit }

/-- What `emitOperations` gives for the draft of a box. -/
abbrev BoxedEmission :=
  { emitted : Except DeltaError (List (Op Unit)) //
    ∀ ops, emitted = .ok ops → ∀ op ∈ ops, Boxed op }

/-- A change is begun, edited and finished by calls of their own, as other
writes may come between them. -/
inductive CellCall where
  | beginChange (cell : ℕ)
  | editDraft (cell context : ℕ) (edit : { edit : DraftEdit // BoxedEdit edit })
  /-- The callback threw or returned a promise. -/
  | failChange (cell context : ℕ)
  | finishChange
      (cell context : ℕ) (returned : Option Returned) (emitted : BoxedEmission)
  /-- `diff` is the option given, or whether the values share structure. -/
  | replace (cell : ℕ) (value : JsonValue) (diff : Bool)
  | reset (cell : ℕ) (value : JsonValue) (schema : Schema)
  | setOutside (place : ℕ) (value : StateValue)
  | refresh (derived : ℕ)

namespace System

variable (s : System)

def value : SourceRef → StateValue
  | .cell place => s.cells[place]?.bind fun cell => unboxed cell.tracker.value.value
  | .derived place => s.deriveds[place]?.bind Derived.value
  | .outside place => s.outside[place]?.join

def shown (source : SourceRef) : JsonValue :=
  (s.value source).getD .null

def revision (place : ℕ) : Option ℕ :=
  s.cells[place]?.map fun cell => cell.tracker.revision

def allSchemas : SourceRef → List Schema
  | .cell place =>
    match s.cells[place]? with
    | some cell => cell.schema :: cell.schemas
    | none => []
  | .derived place =>
    match s.deriveds[place]? with
    | some derived => derived.schemas
    | none => []
  | .outside _ => []

/-- `validate`: checks in dev mode only. -/
def validate (source : SourceRef) (value : StateValue) : Except CellError Unit :=
  if s.dev && (s.allSchemas source).any (fun schema => !schema value) then
    .error (.invalid source)
  else .ok ()

end System

/-- The derivations with a source among those found or derived from them. -/
def followersFrom (found : List SourceRef) (j : ℕ) : List (List SourceRef) → List ℕ
  | [] => []
  | sources :: rest =>
    if sources.any (found.contains ·) then
      j :: followersFrom (.derived j :: found) (j + 1) rest
    else followersFrom found (j + 1) rest

/-- Every transitive dependent of a source, in the order they were made. -/
def Wiring.followers (wiring : Wiring) (changed : SourceRef) : List ℕ :=
  followersFrom [changed] 0 wiring.sources

namespace System

variable (s : System)

/-- `compute` of a derivation over candidate values where there are some. -/
def compute (moment : Moment) (values : List (SourceRef × StateValue)) (j : ℕ) :
    Except CellError StateValue :=
  moment.compute j
    (((s.wiring.sources[j]?).getD []).map fun source =>
      (Entries.get values source).getD (s.value source))

def computeAll (moment : Moment) (validate : Bool) :
    List ℕ → List (SourceRef × StateValue) → Except CellError (List (ℕ × StateValue))
  | [], _ => .ok []
  | j :: rest, values => do
      let next ← s.compute moment values j
      if validate then
        s.validate (.derived j) next
      let later ← computeAll moment validate rest (Entries.set values (.derived j) next)
      pure ((j, next) :: later)

def computeDependents (moment : Moment) (changed : SourceRef) (value : StateValue)
    (validate : Bool) : Except CellError (List (ℕ × StateValue)) :=
  s.computeAll moment validate (s.wiring.followers changed) [(changed, value)]

/-! ## Publishing -/

def emit (source : SourceRef) (event : StateEvent) : System :=
  { s with events := s.events ++ [(source, event)] }

def installOps (moment : Moment) (j : ℕ) : StateValue → StateValue → List (Op Unit)
  | some before, some next => moment.diff (.derived j) before next
  | _, next => [.r (next.getD .null)]

def install (moment : Moment) (j : ℕ) (next : StateValue) : System :=
  match s.deriveds[j]? with
  | none => s
  | some derived =>
    let ops := installOps moment j derived.value next
    let installed :=
      { s with deriveds := s.deriveds.set j { derived with value := next } }
    if ops.isEmpty then installed
    else installed.emit (.derived j) (.ops ops next)

def installAll (moment : Moment) (candidates : List (ℕ × StateValue)) : System :=
  candidates.foldl
    (fun system candidate => system.install moment candidate.1 candidate.2) s

def onTracker (i : ℕ) (c : TrackerCall) : System × Option CellError :=
  match s.cells[i]? with
  | none => (s, some .missing)
  | some cell =>
    ({ s with
        cells :=
          s.cells.set i { cell with tracker := (cell.tracker.call c).1 } },
      (cell.tracker.call c).2.map .tracker)

def preparedAt (i id : ℕ) : Option Prepared :=
  s.cells[i]?.bind fun cell => cell.tracker.contexts[id]?.bind OverlayContext.prepared

end System

inductive PublishType where
  | ops | reset
deriving DecidableEq

/-- The event of a prepared change: its operations without the box, or the
given ones. -/
def publishedEvent (type : PublishType) (prepared : Prepared) (given : List (Op Unit)) :
    StateEvent :=
  let value := unboxed prepared.value.value
  match type with
  | .reset => .reset value
  | .ops =>
    .ops
      (if given.isEmpty then unbox prepared.ops (value.getD .null) else given)
      value

namespace System

variable (s : System)

def candidates (moment : Moment) (changed : SourceRef) (value : StateValue)
    (validate : Bool) : Except CellError (List (ℕ × StateValue)) := do
  if validate then
    s.validate changed value
  s.computeDependents moment changed value validate

/-- `#publish`; no given operations is an empty list. -/
def publish (moment : Moment) (i id : ℕ) (type : PublishType) (validate : Bool)
    (given : List (Op Unit)) : System × Option CellError :=
  match s.preparedAt i id with
  | none => (s, some .missing)
  | some prepared =>
    if prepared.ops.isEmpty ∧ type = .ops then
      s.onTracker i (.adopt (some id))
    else
      match
        s.candidates moment (.cell i) (unboxed prepared.value.value) validate
      with
      | .error error => ((s.onTracker i (.abortPrepared id)).1, some error)
      | .ok found =>
        match s.onTracker i (.adopt (some id)) with
        | (adopted, some error) => (adopted, some error)
        | (adopted, none) =>
          ((adopted.emit (.cell i) (publishedEvent type prepared given)).installAll moment found,
            none)

/-- The part of `change` after its callback, as far as the prepared change. -/
def prepareChange (i id : ℕ) (returned : Option Returned) (emitted : BoxedEmission) :
    System × Option CellError :=
  match returned with
  | none => s.onTracker i (.prepare id emitted.1)
  | some result =>
    if result.fresh &&
        s.cells[i]?.any (fun cell => !cell.schema (some result.value)) then
      (s, some (.invalid (.cell i)))
    else
      match s.onTracker i (.edit id result.edit.1) with
      | (edited, some error) => (edited, some error)
      | (edited, none) => edited.onTracker i (.prepare id emitted.1)

def replaceWith (moment : Moment) (i : ℕ) (value : JsonValue) (type : PublishType)
    (validate : Bool) (given : List (Op Unit)) : System × Option CellError :=
  match s.cells[i]? with
  | none => (s, some .missing)
  | some cell =>
    match s.onTracker i (.prepareReplace (box value)) with
    | (prepared, some error) => (prepared, some error)
    | (prepared, none) => prepared.publish moment i cell.tracker.contexts.length type validate given

def refresh (moment : Moment) (j : ℕ) : System × Option CellError :=
  match
    (do
      let next ← s.compute moment [] j
      let found ← s.computeDependents moment (.derived j) next true
      pure ((j, next) :: found) : Except CellError (List (ℕ × StateValue)))
  with
  | .error error => (s, some error)
  | .ok found => (s.installAll moment found, none)

def perform (moment : Moment) : CellCall → System × Option CellError
  | .beginChange i => s.onTracker i .beginChange
  | .editDraft i id edit => s.onTracker i (.edit id edit.1)
  | .failChange i id => ((s.onTracker i (.abortChange id)).1, some .thrown)
  | .finishChange i id returned emitted =>
    match s.prepareChange i id returned emitted with
    | (stopped, some error) => ((stopped.onTracker i (.abortChange id)).1, some error)
    | (prepared, none) => prepared.publish moment i id .ops true []
  | .replace i value diff =>
    s.replaceWith moment i value .ops true
      (if diff then moment.diff (.cell i) (s.shown (.cell i)) value else [])
  | .reset i value schema =>
    { s with
      cells := s.cells.modify i fun cell => { cell with schema := schema } }.replaceWith
      moment i value .reset false []
  | .setOutside place value => ({ s with outside := s.outside.set place value }, none)
  | .refresh j => s.refresh moment j

end System

/-! ## Exact events -/

/-- Replaying the operations gives the value, and so does applying them
wherever they apply. -/
structure Exact (before : JsonValue) (ops : List (Op Unit)) (value : JsonValue) :
    Prop where
  yields : Yields before ops value
  applied : ∀ owned result, applyImmutable owned before ops = .ok result → DeepEqual result value

def StateEvent.shown (event : StateEvent) : JsonValue :=
  event.value.getD .null

/-- The event follows an event of the value before; `undefined` is shown as
`null`. -/
def StateEvent.Follows (event : StateEvent) (before : JsonValue) : Prop :=
  match event with
  | .ops batch value => Exact before batch (value.getD .null)
  | .reset _ => True

def Chained : JsonValue → List StateEvent → Prop
  | _, [] => True
  | before, event :: rest => event.Follows before ∧ Chained event.shown rest

def latest (start : JsonValue) (events : List StateEvent) : JsonValue :=
  events.foldl (fun _ event => event.shown) start

def eventsOf (source : SourceRef) (events : List (SourceRef × StateEvent)) :
    List StateEvent :=
  (events.filter fun event => event.1 = source).map Prod.snd

variable {ops : List (Op Unit)}

theorem valid_of_applyOps {root result : JsonValue} (applied : applyOps root ops = .ok result) :
    ∀ op ∈ ops, op.Valid := by
  induction ops generalizing root with
  | nil => exact fun op member => absurd member List.not_mem_nil
  | cons op rest ih =>
    obtain ⟨next, here, later⟩ := bind_eq_ok.mp applied
    intro other member
    rcases List.mem_cons.mp member with rfl | inRest
    · exact valid_of_applyOp here
    · exact ih later other inRest

variable {before : JsonValue}

theorem exact_of_yields {value : JsonValue} (yields : Yields before ops value) :
    Exact before ops value where
  yields := yields
  applied := by
    intro owned result accepted
    obtain ⟨replayed, isReplayed, equal⟩ := yields
    have applied := applyImmutable_ok.mp accepted
    rw [materializeOperations_of_applyOps (valid_of_applyOps applied) applied] at isReplayed
    cases isReplayed
    exact equal

theorem exact_replace (before value : JsonValue) : Exact before [.r value] value :=
  exact_of_yields ⟨value, rfl, DeepEqual.same value⟩

theorem exact_of_sound {start after : JsonValue} (sound : Sound before after ops)
    (equal : DeepEqual start before) : Exact start ops after := by
  obtain ⟨result, applied, resultEqual⟩ := sound.applied
  obtain ⟨other, otherApplied, otherEqual⟩ :=
    applyOps_agrees ops (deepEqual_symm equal) result applied
  refine exact_of_yields ⟨other, ?_, ?_⟩
  · exact materializeOperations_of_applyOps sound.valid otherApplied
  · exact deepEqual_trans (deepEqual_symm otherEqual) resultEqual

theorem chained_append {start : JsonValue} {first second : List StateEvent} :
    Chained start (first ++ second) ↔
      Chained start first ∧ Chained (latest start first) second := by
  induction first generalizing start with
  | nil => simp [Chained, latest]
  | cons event rest ih =>
    rw [List.cons_append, Chained, Chained, ih, and_assoc]
    exact Iff.rfl

theorem latest_append (start : JsonValue) (first second : List StateEvent) :
    latest start (first ++ second) = latest (latest start first) second :=
  List.foldl_append

theorem eventsOf_append (source : SourceRef) (first second : List (SourceRef × StateEvent)) :
    eventsOf source (first ++ second) = eventsOf source first ++ eventsOf source second := by
  rw [eventsOf, List.filter_append, List.map_append]
  rfl

@[simp]
theorem eventsOf_self (source : SourceRef) (event : StateEvent) :
    eventsOf source [(source, event)] = [event] := by
  simp [eventsOf]

variable {source : SourceRef}

theorem eventsOf_other {other : SourceRef} (different : other ≠ source) (event : StateEvent) :
    eventsOf source [(other, event)] = [] := by
  simp [eventsOf, different]

/-- A derivation may go on to an equal value without an event. -/
def SourceRef.Matches : SourceRef → JsonValue → JsonValue → Prop
  | .derived _ => DeepEqual
  | _ => Eq

theorem matches_self (source : SourceRef) (value : JsonValue) : source.Matches value value := by
  cases source with
  | derived place => exact DeepEqual.same value
  | cell place | outside place => rfl

/-- The events of a source emitted on the way from one system to another lead
from what it showed to what it shows. -/
def Moves (source : SourceRef) (s t : System) : Prop :=
  ∃ more, t.events = s.events ++ more ∧
    ∀ start, source.Matches start (s.shown source) →
      Chained start (eventsOf source more) ∧
        source.Matches (latest start (eventsOf source more)) (t.shown source)

variable {s t : System}

theorem moves_quiet (sameEvents : t.events = s.events)
    (sameShown : t.shown source = s.shown source) : Moves source s t := by
  refine ⟨[], ?_, ?_⟩
  · rw [sameEvents, List.append_nil]
  · intro start starts
    rw [sameShown]
    exact ⟨trivial, starts⟩

theorem moves_trans {u : System} (first : Moves source s t) (second : Moves source t u) :
    Moves source s u := by
  obtain ⟨more, isMore, leads⟩ := first
  obtain ⟨later, isLater, leadsOn⟩ := second
  refine ⟨more ++ later, ?_, ?_⟩
  · rw [isLater, isMore, List.append_assoc]
  · intro start starts
    obtain ⟨chained, reaches⟩ := leads start starts
    obtain ⟨chainedOn, reachesOn⟩ := leadsOn _ reaches
    rw [eventsOf_append, latest_append]
    exact ⟨chained_append.mpr ⟨chained, chainedOn⟩, reachesOn⟩

theorem moves_emitted {other : SourceRef} {event : StateEvent}
    (isEvents : t.events = s.events ++ [(other, event)])
    (elsewhere : other ≠ source → t.shown source = s.shown source)
    (here :
      other = source →
        (∀ start, source.Matches start (s.shown source) →
          event.Follows start) ∧ event.shown = t.shown source) : Moves source s t := by
  refine ⟨_, isEvents, ?_⟩
  intro start starts
  by_cases same : other = source
  · obtain ⟨follows, isShown⟩ := here same
    rw [same, eventsOf_self]
    refine ⟨⟨follows start starts, trivial⟩, ?_⟩
    rw [← isShown]
    exact matches_self source _
  · rw [eventsOf_other same, elsewhere same]
    exact ⟨trivial, starts⟩

/-! ## Calls on a cell's tracker -/

structure CellOk (cell : Cell) : Prop where
  run : ∃ initial adopted, RunOk initial ⟨cell.tracker, adopted⟩
  boxed : BoxedTracker cell.tracker

def SystemOk (s : System) : Prop :=
  ∀ cell ∈ s.cells, CellOk cell

structure SameView (s t : System) : Prop where
  events : t.events = s.events
  value : ∀ source, t.value source = s.value source
  revision : ∀ i, t.revision i = s.revision i

theorem sameView_refl (s : System) : SameView s s where
  events := rfl
  value := fun _ => rfl
  revision := fun _ => rfl

theorem sameView_trans {u : System} (first : SameView s t) (second : SameView t u) :
    SameView s u where
  events := second.events.trans first.events
  value := fun source => (second.value source).trans (first.value source)
  revision := fun i => (second.revision i).trans (first.revision i)

theorem moves_sameView (same : SameView s t) : Moves source s t := by
  refine moves_quiet same.events ?_
  rw [System.shown, System.shown, same.value]

variable {cell : Cell} {c : TrackerCall}

theorem cellOk_call (ok : CellOk cell) (boxedCall : BoxedCall c) :
    CellOk { cell with tracker := (cell.tracker.call c).1 } where
  run := by
    obtain ⟨initial, adopted, runOk⟩ := ok.run
    exact ⟨initial, _, runOk_step initial ⟨cell.tracker, adopted⟩ c runOk⟩
  boxed := boxedTracker_call ok.boxed boxedCall

variable {i : ℕ}

theorem systemOk_set (ok : SystemOk s) (cellOk : CellOk cell) :
    SystemOk { s with cells := s.cells.set i cell } := by
  intro other member
  rcases List.mem_or_eq_of_mem_set member with old | rfl
  · exact ok other old
  · exact cellOk

theorem systemOk_onTracker (ok : SystemOk s) (boxedCall : BoxedCall c) (i : ℕ) :
    SystemOk (s.onTracker i c).1 := by
  rw [System.onTracker]
  split
  · exact ok
  · rename_i cell found
    exact systemOk_set ok (cellOk_call (ok cell (List.mem_of_getElem? found)) boxedCall)

theorem sameView_set {other : Cell} (found : s.cells[i]? = some cell)
    (sameValue : other.tracker.value = cell.tracker.value)
    (sameRevision : other.tracker.revision = cell.tracker.revision) :
    SameView s { s with cells := s.cells.set i other } where
  events := rfl
  value := by
    intro source
    cases source with
    | cell place =>
      rw [System.value, System.value]
      by_cases here : i = place
      · subst here
        have inside := (List.getElem?_eq_some_iff.mp found).1
        rw [List.getElem?_set_self inside, found, Option.bind_some, Option.bind_some, sameValue]
      · rw [List.getElem?_set_ne here]
    | derived place | outside place => rfl
  revision := by
    intro place
    rw [System.revision, System.revision]
    by_cases here : i = place
    · subst here
      have inside := (List.getElem?_eq_some_iff.mp found).1
      rw [List.getElem?_set_self inside, found, Option.map_some, Option.map_some, sameRevision]
    · rw [List.getElem?_set_ne here]

theorem sameView_onTracker
    (keeps :
      ∀ cell, s.cells[i]? = some cell →
        (cell.tracker.call c).1.value = cell.tracker.value ∧
          (cell.tracker.call c).1.revision = cell.tracker.revision) :
    SameView s (s.onTracker i c).1 := by
  rw [System.onTracker]
  split
  · exact sameView_refl s
  · rename_i cell found
    obtain ⟨sameValue, sameRevision⟩ := keeps cell found
    exact sameView_set found sameValue sameRevision

theorem call_keeps (t : TrackerState) (notAdopt : ∀ given, c ≠ .adopt given) :
    (t.call c).1.value = t.value ∧ (t.call c).1.revision = t.revision := by
  rcases call_cases t c with
    ⟨quiet, _⟩ | ⟨id, context, prepared, _, _, _, _, _, adopts⟩
  · exact ⟨quiet.value, quiet.revision⟩
  · cases c with
    | adopt given => exact absurd rfl (notAdopt given)
    | _ => cases adopts

theorem onTracker_keeps (s : System) (i : ℕ) (notAdopt : ∀ given, c ≠ .adopt given) :
    SameView s (s.onTracker i c).1 :=
  sameView_onTracker fun cell _ => call_keeps cell.tracker notAdopt

theorem onTracker_error {error : CellError} (throws : (s.onTracker i c).2 = some error) :
    SameView s (s.onTracker i c).1 := by
  refine sameView_onTracker ?_
  intro cell found
  rw [System.onTracker, found] at throws
  obtain ⟨inner, isInner, _⟩ := Option.map_eq_some_iff.mp throws
  exact call_error isInner

/-! ## Adopting a box -/

variable {id : ℕ} {prepared : Prepared}

/-- An adopted change leads from the value of the cell to the next by its
operations without the box. -/
theorem adopt_unboxes (ok : CellOk cell)
    (isPrepared : cell.tracker.contexts[id]?.bind OverlayContext.prepared = some prepared)
    (adopts : (cell.tracker.call (.adopt (some id))).2 = none) :
    (cell.tracker.call (.adopt (some id))).1.value = prepared.value ∧
      ∃ before next, cell.tracker.value.value = box before ∧ prepared.value.value = box next ∧
        Yields before (unbox prepared.ops next) next ∧
        (prepared.ops = [] → next = before) := by
  obtain ⟨context, found, hasPrepared⟩ := Option.bind_eq_some_iff.mp isPrepared
  obtain ⟨initial, adopted, runOk⟩ := ok.run
  obtain ⟨before, isBefore⟩ := ok.boxed.value
  rcases call_cases cell.tracker (.adopt (some id)) with
    ⟨_, nothing⟩ |
      ⟨place, other, its, isOther, isIts, _, sameRevision, called, adoptsIt⟩
  · rw [adoption] at nothing
    simp only [found, adopts, hasPrepared, Option.map_some] at nothing
    cases nothing
  · rw [adoption] at adoptsIt
    simp only [found, adopts, hasPrepared, Option.map_some] at adoptsIt
    have samePlace : id = place := by
      injection adoptsIt with same
      injection same
    subst samePlace
    rw [found] at isOther
    cases isOther
    rw [hasPrepared] at isIts
    cases isIts
    have contextOk := runOk.contexts id context found
    obtain ⟨isBase, yields⟩ := contextOk.prepared prepared hasPrepared
    have boxed :=
      (ok.boxed.contexts context (List.mem_of_getElem? found)).prepared prepared hasPrepared
    rw [contextOk.current sameRevision] at isBase boxed
    rw [isBase, isBefore] at yields
    obtain ⟨next, isNext⟩ := boxed.value
    obtain ⟨result, replayed, equal⟩ := yields
    obtain ⟨inner, rfl, unboxes⟩ := unbox_yields boxed.ops replayed
    rw [isNext] at equal
    refine ⟨by rw [called]; rfl, before, next, isBefore, isNext, ?_, ?_⟩
    · exact unboxes next (deepEqual_of_box equal)
    · intro nothing
      have same := boxed.same nothing
      rw [same, isBefore] at isNext
      exact (box_injective isNext).symm

theorem onTracker_adopts (ok : SystemOk s) (isPrepared : s.preparedAt i id = some prepared)
    (adopts : (s.onTracker i (.adopt (some id))).2 = none) :
    (s.onTracker i (.adopt (some id))).1.events = s.events ∧
      (s.onTracker i (.adopt (some id))).1.deriveds = s.deriveds ∧
      (∀ source, source ≠ .cell i →
        (s.onTracker i (.adopt (some id))).1.value source = s.value source) ∧
      ∃ before next, s.value (.cell i) = some before ∧
        (s.onTracker i (.adopt (some id))).1.value (.cell i) = some next ∧
        unboxed prepared.value.value = some next ∧
        Yields before (unbox prepared.ops next) next ∧
        (prepared.ops = [] → next = before) := by
  obtain ⟨cell, found, isPreparedHere⟩ := Option.bind_eq_some_iff.mp isPrepared
  rw [System.onTracker, found] at adopts ⊢
  have adoptsHere := Option.map_eq_none_iff.mp adopts
  obtain ⟨isValue, before, next, isBefore, isNext, yields, same⟩ :=
    adopt_unboxes (ok cell (List.mem_of_getElem? found)) isPreparedHere adoptsHere
  have inside := (List.getElem?_eq_some_iff.mp found).1
  refine ⟨rfl, rfl, ?_, before, next, ?_, ?_, ?_, yields, same⟩
  · intro source other
    cases source with
    | cell place =>
      have elsewhere : i ≠ place := fun same => other (by rw [same])
      simp only [System.value, List.getElem?_set_ne elsewhere]
    | derived place | outside place => rfl
  · rw [System.value, found, Option.bind_some, isBefore, unboxed_box]
  · simp only [System.value, List.getElem?_set_self inside, Option.bind_some,
      isValue, isNext, unboxed_box]
  · rw [isNext, unboxed_box]

/-! ## Installing -/

/-- The batch is what `diffRevisions` gives for two immutable revisions. -/
def Diffs (before next : JsonValue) (ops : List (Op Unit)) : Prop :=
  ∃ (ι : Type) (_ : DecidableEq ι) (heap : ι → Json ι)
    (old new : Revision heap) (numberLength : ℚ → ℕ),
    old.value.erase = before ∧ new.value.erase = next ∧
      ops = diffRevisions numberLength old.value new.value

theorem sound_of_diffs {next : JsonValue} (diffs : Diffs before next ops) :
    Sound before next ops := by
  obtain ⟨ι, decides, heap, old, new, numberLength, rfl, rfl, rfl⟩ := diffs
  exact sound_diff numberLength old new

/-- Between two systems the diffs of a source's values are diffs. -/
def DiffsFrom (moment : Moment) (source : SourceRef) (before next : StateValue) : Prop :=
  ∀ old new, before = some old → next = some new → Diffs old new (moment.diff source old new)

theorem installed_events (s : System) (moment : Moment) (j : ℕ) (next : StateValue)
    {derived : Derived} (found : s.deriveds[j]? = some derived) :
    (s.install moment j next).events =
      s.events ++ (if (System.installOps moment j derived.value next).isEmpty then []
        else
          [(.derived j, .ops (System.installOps moment j derived.value next) next)]) := by
  simp only [System.install, found]
  split
  · exact (List.append_nil s.events).symm
  · rfl

theorem install_value (s : System) (moment : Moment) (j : ℕ) (next : StateValue)
    (source : SourceRef) :
    (s.install moment j next).value source =
      if source = .derived j ∧ j < s.deriveds.length then next
      else s.value source := by
  rw [System.install]
  cases found : s.deriveds[j]? with
  | none =>
    have outside := List.getElem?_eq_none_iff.mp found
    rw [if_neg (fun both => absurd both.2 (by omega))]
  | some derived =>
    have inside := (List.getElem?_eq_some_iff.mp found).1
    have valueOf :
        ∀ events,
          System.value
              { s with
                deriveds := s.deriveds.set j { derived with value := next }
                events := events } source =
            if source = .derived j ∧ j < s.deriveds.length then next
            else s.value source := by
      intro events
      cases source with
      | cell place | outside place => rw [if_neg (fun both => by cases both.1)]; rfl
      | derived place =>
        by_cases here : j = place
        · subst here
          rw [if_pos ⟨rfl, inside⟩]
          simp [System.value, List.getElem?_set_self inside]
        · rw [if_neg (fun both => here (by cases both.1; rfl))]
          simp [System.value, List.getElem?_set_ne here]
    dsimp only
    split
    · exact valueOf s.events
    · exact valueOf _

variable {moment : Moment} {j : ℕ}

theorem moves_install {next : StateValue}
    (diffs : DiffsFrom moment (.derived j) (s.value (.derived j)) next)
    (source : SourceRef) : Moves source s (s.install moment j next) := by
  cases found : s.deriveds[j]? with
  | none =>
    have same : s.install moment j next = s := by rw [System.install, found]
    rw [same]
    exact moves_sameView (sameView_refl s)
  | some derived =>
    have inside := (List.getElem?_eq_some_iff.mp found).1
    have isValue : s.value (.derived j) = derived.value := by
      rw [System.value, found, Option.bind_some]
    have isNext : (s.install moment j next).value (.derived j) = next := by
      rw [install_value, if_pos ⟨rfl, inside⟩]
    have elsewhere :
        .derived j ≠ source → (s.install moment j next).shown source = s.shown source := by
      intro other
      rw [System.shown, System.shown, install_value, if_neg (fun both => other both.1.symm)]
    -- The operations lead to the next value from every equal one.
    have exact_ :
        ∀ start, DeepEqual start (s.shown (.derived j)) →
          Exact start (System.installOps moment j derived.value next) (next.getD .null) := by
      intro start equal
      rw [System.shown, isValue] at equal
      cases old : derived.value with
      | none => exact exact_replace start _
      | some before =>
        cases next with
        | none => exact exact_replace start _
        | some new =>
          rw [old] at equal
          have sound := sound_of_diffs (diffs before new (isValue.trans old) rfl)
          exact exact_of_sound sound equal
    have events := installed_events s moment j next found
    by_cases silent : (System.installOps moment j derived.value next).isEmpty
    · rw [if_pos silent, List.append_nil] at events
      refine ⟨[], by rw [events, List.append_nil], ?_⟩
      intro start starts
      refine ⟨trivial, ?_⟩
      by_cases here : SourceRef.derived j = source
      · subst here
        have nothing := (exact_ start starts).yields
        rw [List.isEmpty_iff.mp silent] at nothing
        obtain ⟨result, replayed, equal⟩ := nothing
        cases replayed
        rw [System.shown, isNext]
        exact equal
      · rw [elsewhere here]
        exact starts
    · rw [if_neg silent] at events
      refine moves_emitted events elsewhere ?_
      rintro rfl
      refine ⟨exact_, ?_⟩
      rw [System.shown, isNext]
      rfl

theorem install_keeps (s : System) (moment : Moment) (j : ℕ) (next : StateValue) :
    (s.install moment j next).cells = s.cells ∧
      (s.install moment j next).deriveds.length = s.deriveds.length := by
  rw [System.install]
  split
  · exact ⟨rfl, rfl⟩
  · dsimp only
    split
    · exact ⟨rfl, List.length_set⟩
    · exact ⟨rfl, List.length_set⟩

variable {found : List (ℕ × StateValue)}

/-- Every candidate is of another derivation, so each is installed over the
value it had before. -/
theorem moves_installAll (distinct : (found.map Prod.fst).Nodup)
    (diffs :
      ∀ candidate ∈ found,
        DiffsFrom moment (.derived candidate.1) (s.value (.derived candidate.1)) candidate.2)
    (source : SourceRef) : Moves source s (s.installAll moment found) := by
  induction found generalizing s with
  | nil => exact moves_sameView (sameView_refl s)
  | cons candidate rest ih =>
    obtain ⟨apart, restDistinct⟩ := List.nodup_cons.mp distinct
    refine moves_trans (moves_install (diffs candidate List.mem_cons_self) source) ?_
    refine ih restDistinct ?_
    intro other member
    have different : other.1 ≠ candidate.1 := by
      intro same
      exact apart (by rw [← same]; exact List.mem_map_of_mem member)
    rw [install_value, if_neg (fun both => different (SourceRef.derived.inj both.1))]
    exact diffs other (List.mem_cons_of_mem candidate member)

theorem installAll_cells (s : System) (moment : Moment) (found : List (ℕ × StateValue)) :
    (s.installAll moment found).cells = s.cells := by
  induction found generalizing s with
  | nil => rfl
  | cons candidate rest ih =>
    exact (ih (s.install moment candidate.1 candidate.2)).trans
      (install_keeps s moment candidate.1 candidate.2).1

theorem installAll_other {s : System} {moment : Moment} {found : List (ℕ × StateValue)}
    {source : SourceRef} (other : ∀ candidate ∈ found, source ≠ .derived candidate.1) :
    (s.installAll moment found).value source = s.value source := by
  induction found generalizing s with
  | nil => rfl
  | cons candidate rest ih =>
    have later :=
      @ih (s.install moment candidate.1 candidate.2)
        (fun one member => other one (List.mem_cons_of_mem candidate member))
    refine later.trans ?_
    rw [install_value, if_neg (fun both => other candidate List.mem_cons_self both.1)]

theorem installAll_value {s : System} {moment : Moment} {found : List (ℕ × StateValue)}
    (distinct : (found.map Prod.fst).Nodup)
    {candidate : ℕ × StateValue} (member : candidate ∈ found)
    (inside : candidate.1 < s.deriveds.length) :
    (s.installAll moment found).value (.derived candidate.1) = candidate.2 := by
  induction found generalizing s with
  | nil => cases member
  | cons first rest ih =>
    obtain ⟨apart, restDistinct⟩ := List.nodup_cons.mp distinct
    rcases List.mem_cons.mp member with rfl | inRest
    · have later :
          ((s.install moment candidate.1 candidate.2).installAll moment
              rest).value (.derived candidate.1) =
            (s.install moment candidate.1 candidate.2).value (.derived candidate.1) := by
        refine installAll_other ?_
        intro one inRest same
        refine apart ?_
        rw [SourceRef.derived.inj same]
        exact List.mem_map_of_mem inRest
      refine later.trans ?_
      rw [install_value, if_pos ⟨rfl, inside⟩]
    · refine ih restDistinct inRest ?_
      rw [(install_keeps s moment first.1 first.2).2]
      exact inside

/-! ## The candidates of a write -/

theorem computeAll_keys {validate : Bool} {list : List ℕ} {values : List (SourceRef × StateValue)}
    (computed : s.computeAll moment validate list values = .ok found) :
    found.map Prod.fst = list := by
  induction list generalizing values found with
  | nil =>
    cases computed
    rfl
  | cons j rest ih =>
    rw [System.computeAll] at computed
    obtain ⟨next, _, afterNext⟩ := bind_eq_ok.mp computed
    have built :
        ∃ later, s.computeAll moment validate rest
            (Entries.set values (.derived j) next) = .ok later ∧
          (j, next) :: later = found := by
      dsimp only at afterNext
      split at afterNext
      · obtain ⟨_, _, afterCheck⟩ := bind_eq_ok.mp afterNext
        obtain ⟨later, isLater, isFound⟩ := bind_eq_ok.mp afterCheck
        exact ⟨later, isLater, pure_eq_ok.mp isFound⟩
      · obtain ⟨later, isLater, isFound⟩ := bind_eq_ok.mp afterNext
        exact ⟨later, isLater, pure_eq_ok.mp isFound⟩
    obtain ⟨later, isLater, rfl⟩ := built
    rw [List.map_cons, ih isLater]

theorem followersFrom_ge {found : List SourceRef} {lists : List (List SourceRef)} :
    ∀ k ∈ followersFrom found j lists, j ≤ k := by
  induction lists generalizing found j with
  | nil => exact fun k member => absurd member List.not_mem_nil
  | cons sources rest ih =>
    intro k member
    rw [followersFrom] at member
    split at member
    · rcases List.mem_cons.mp member with rfl | later
      · exact Nat.le_refl k
      · exact Nat.le_of_succ_le (ih k later)
    · exact Nat.le_of_succ_le (ih k member)

theorem followersFrom_nodup (found : List SourceRef) (j : ℕ) (lists : List (List SourceRef)) :
    (followersFrom found j lists).Nodup := by
  induction lists generalizing found j with
  | nil => exact List.nodup_nil
  | cons sources rest ih =>
    rw [followersFrom]
    split
    · refine List.nodup_cons.mpr ⟨?_, ih _ _⟩
      intro member
      exact absurd (followersFrom_ge j member) (Nat.not_succ_le_self j)
    · exact ih _ _

theorem followersFrom_gt {wiring : Wiring} {first : ℕ} {found : List SourceRef}
    {lists : List (List SourceRef)} (isRest : wiring.sources.drop j = lists)
    (later : ∀ source ∈ found, ∃ k, source = .derived k ∧ first ≤ k) :
    ∀ k ∈ followersFrom found j lists, first < k := by
  induction lists generalizing found j with
  | nil => exact fun k member => absurd member List.not_mem_nil
  | cons sources rest ih =>
    have here : wiring.sources[j]? = some sources := by
      rw [← List.head?_drop, isRest, List.head?_cons]
    have isTail : wiring.sources.drop (j + 1) = rest := by
      rw [← List.tail_drop, isRest, List.tail_cons]
    intro k member
    rw [followersFrom] at member
    split at member
    · rename_i follows
      obtain ⟨source, isSource, inFound⟩ := List.any_eq_true.mp follows
      obtain ⟨m, rfl, atLeast⟩ := later source (List.contains_iff_mem.mp inFound)
      have below := wiring.ordered j sources here m isSource
      rcases List.mem_cons.mp member with rfl | inRest
      · omega
      · refine ih isTail ?_ k inRest
        intro other isOther
        rcases List.mem_cons.mp isOther with rfl | old
        · exact ⟨j, rfl, by omega⟩
        · exact later other old
    · exact ih isTail later k member

theorem candidates_distinct {changed : SourceRef} {value : StateValue} {validate : Bool}
    (computed : s.computeDependents moment changed value validate = .ok found) :
    (found.map Prod.fst).Nodup := by
  rw [computeAll_keys computed]
  exact followersFrom_nodup _ _ _

theorem candidates_later {value : StateValue} {validate : Bool}
    (computed : s.computeDependents moment (.derived j) value validate = .ok found) :
    j ∉ found.map Prod.fst := by
  rw [computeAll_keys computed]
  intro member
  refine absurd (followersFrom_gt List.drop_zero ?_ j member) (Nat.lt_irrefl j)
  intro source isSource
  exact ⟨j, List.mem_singleton.mp isSource, Nat.le_refl j⟩

/-! ## Writes -/

theorem systemOk_of_cells (ok : SystemOk s) (same : t.cells = s.cells) : SystemOk t := by
  intro cell member
  rw [same] at member
  exact ok cell member

theorem publish_ok (ok : SystemOk s) (moment : Moment) (i id : ℕ) (type : PublishType)
    (validate : Bool) (given : List (Op Unit)) :
    SystemOk (s.publish moment i id type validate given).1 := by
  have adopts := systemOk_onTracker ok (c := .adopt (some id)) trivial i
  rw [System.publish]
  split
  · exact ok
  · split
    · exact adopts
    · split
      · exact systemOk_onTracker ok (c := .abortPrepared id) trivial i
      · split
        · rename_i adopted error isAdopted
          rwa [isAdopted] at adopts
        · rename_i adopted isAdopted
          rw [isAdopted] at adopts
          exact systemOk_of_cells adopts (installAll_cells _ _ _)

theorem candidates_eq_ok {changed : SourceRef} {value : StateValue} {validate : Bool}
    (computed : s.candidates moment changed value validate = .ok found) :
    s.computeDependents moment changed value validate = .ok found := by
  rw [System.candidates] at computed
  dsimp only at computed
  split at computed
  · obtain ⟨_, _, afterCheck⟩ := bind_eq_ok.mp computed
    exact afterCheck
  · exact computed

variable {type : PublishType} {given : List (Op Unit)}

theorem moves_published {adopted : System} {validate : Bool}
    (isPrepared : s.preparedAt i id = some prepared)
    (adoption :
      adopted.events = s.events ∧ adopted.deriveds = s.deriveds ∧
        (∀ source, source ≠ .cell i → adopted.value source = s.value source) ∧
        ∃ before next, s.value (.cell i) = some before ∧ adopted.value (.cell i) = some next ∧
          unboxed prepared.value.value = some next ∧
          Yields before (unbox prepared.ops next) next ∧
          (prepared.ops = [] → next = before))
    (exactGiven :
      given ≠ [] → ∀ prepared before next, s.preparedAt i id = some prepared →
        prepared.ops ≠ [] → s.value (.cell i) = some before →
        unboxed prepared.value.value = some next → Exact before given next)
    (computed : s.candidates moment (.cell i) (unboxed prepared.value.value) validate = .ok found)
    (published : ¬(prepared.ops.isEmpty ∧ type = .ops))
    (diffs :
      ∀ source,
        DiffsFrom moment source (s.value source)
          (((adopted.emit (.cell i)
            (publishedEvent type prepared given)).installAll moment found).value source))
    (source : SourceRef) :
    Moves source s
      ((adopted.emit (.cell i) (publishedEvent type prepared given)).installAll moment found) := by
  obtain ⟨events, sameDeriveds, elsewhere, before, next, isBefore, isNext,
    isShown, yields, _⟩ := adoption
  have distinct := candidates_distinct (candidates_eq_ok computed)
  have emitted : Moves source s (adopted.emit (.cell i) (publishedEvent type prepared given)) := by
    have isEvents :
        (adopted.emit (.cell i) (publishedEvent type prepared given)).events =
          s.events ++ [(.cell i, publishedEvent type prepared given)] := by
      rw [System.emit, events]
    refine moves_emitted isEvents ?_ ?_
    · intro other
      have same := elsewhere source (fun here => other here.symm)
      rw [System.shown, System.shown, ← same]
      rfl
    · rintro rfl
      constructor
      · intro start starts
        have isStart : start = before := by
          rwa [System.shown, isBefore] at starts
        subst isStart
        cases type with
        | reset => trivial
        | ops =>
          have changed : prepared.ops ≠ [] := by
            intro nothing
            exact published ⟨by rw [nothing]; rfl, rfl⟩
          rw [publishedEvent, isShown]
          simp only [StateEvent.Follows, Option.getD_some]
          split
          · exact exact_of_yields yields
          · rename_i some_
            refine exactGiven ?_ prepared start next isPrepared changed isBefore isShown
            intro nothing
            exact some_ (by rw [nothing]; rfl)
      · have isValue : (publishedEvent type prepared given).value = some next := by
          cases type with
          | reset | ops => exact isShown
        rw [StateEvent.shown, isValue, System.shown]
        exact (congrArg (fun value => value.getD .null) isNext).symm
  refine moves_trans emitted (moves_installAll distinct ?_ source)
  intro candidate member
  have same :
      (adopted.emit (.cell i) (publishedEvent type prepared given)).value
          (.derived candidate.1) = s.value (.derived candidate.1) :=
    elsewhere (.derived candidate.1) (fun here => by cases here)
  by_cases inside : candidate.1 < adopted.deriveds.length
  · have diff := diffs (.derived candidate.1)
    have installed :=
      @installAll_value (adopted.emit (.cell i) (publishedEvent type prepared given)) moment
        found distinct candidate member inside
    rw [installed] at diff
    rw [same]
    exact diff
  · intro old new isOld _
    rw [same, System.value, ← sameDeriveds,
      List.getElem?_eq_none_iff.mpr (Nat.le_of_not_lt inside)] at isOld
    cases isOld

/-- The given operations and every diff of a derivation are diffs of the
values around the publication. -/
theorem moves_publish (ok : SystemOk s) {validate : Bool}
    (exactGiven :
      given ≠ [] → ∀ prepared before next, s.preparedAt i id = some prepared →
        prepared.ops ≠ [] → s.value (.cell i) = some before →
        unboxed prepared.value.value = some next → Exact before given next)
    (diffs :
      ∀ source,
        DiffsFrom moment source (s.value source)
          ((s.publish moment i id type validate given).1.value source))
    (source : SourceRef) : Moves source s (s.publish moment i id type validate given).1 := by
  rw [System.publish] at diffs ⊢
  cases isPrepared : s.preparedAt i id with
  | none => exact moves_sameView (sameView_refl s)
  | some prepared =>
    rw [isPrepared] at diffs
    simp only at diffs ⊢
    split
    · rename_i silent
      -- No operations: the value stays what it was.
      cases adopts : (s.onTracker i (.adopt (some id))).2 with
      | some error => exact moves_sameView (onTracker_error adopts)
      | none =>
        obtain ⟨events, _, elsewhere, before, next, isBefore, isNext, _, _,
          same⟩ := onTracker_adopts ok isPrepared adopts
        refine moves_quiet events ?_
        by_cases here : source = .cell i
        · rw [System.shown, System.shown, here, isBefore, isNext,
            same (List.isEmpty_iff.mp silent.1)]
        · rw [System.shown, System.shown, elsewhere source here]
    · rename_i published
      rw [if_neg published] at diffs
      split
      · exact moves_sameView (onTracker_keeps s i (fun given same => by cases same))
      · rename_i found isFound
        simp only [isFound] at diffs
        split
        · rename_i adopted error isAdopted
          have throws : (s.onTracker i (.adopt (some id))).2 = some error := by rw [isAdopted]
          have same := onTracker_error throws
          rw [isAdopted] at same
          exact moves_sameView same
        · rename_i adopted isAdopted
          simp only [isAdopted] at diffs
          have adopts : (s.onTracker i (.adopt (some id))).2 = none := by rw [isAdopted]
          have adoption := onTracker_adopts ok isPrepared adopts
          rw [isAdopted] at adoption
          exact moves_published isPrepared adoption exactGiven isFound published diffs source

theorem prepareReplace_value {t : TrackerState} {value : JsonValue}
    (isPrepared :
      (t.prepareReplace value).1.contexts[t.contexts.length]?.bind
        OverlayContext.prepared = some prepared)
    (changes : prepared.ops ≠ []) : prepared.value.value = value := by
  rw [TrackerState.prepareReplace] at isPrepared
  dsimp only at isPrepared
  split at isPrepared
  · rename_i own made
    rw [List.getElem?_concat_length, Option.bind_some] at isPrepared
    cases isPrepared
    obtain ⟨_, sameOps, isValue⟩ := materializePrepared_eq_ok made
    rw [replaceEmission] at sameOps isValue
    split at sameOps
    · exact absurd sameOps changes
    · rename_i differs
      rw [if_neg differs, OverlayContext.materialize] at isValue
      simp only [List.isEmpty_cons, Bool.false_eq_true, if_false] at isValue
      obtain ⟨result, replayed, same⟩ := map_eq_ok.mp isValue
      cases replayed
      rw [← same]
  · rw [List.getElem?_concat_length, Option.bind_some] at isPrepared
    cases isPrepared

theorem replaceWith_ok (ok : SystemOk s) (moment : Moment) (i : ℕ) (value : JsonValue)
    (type : PublishType) (validate : Bool) (given : List (Op Unit)) :
    SystemOk (s.replaceWith moment i value type validate given).1 := by
  have prepares := systemOk_onTracker ok (c := .prepareReplace (box value)) ⟨value, rfl⟩ i
  rw [System.replaceWith]
  split
  · exact ok
  · split
    · rename_i prepared error isPrepared
      rwa [isPrepared] at prepares
    · rename_i prepared isPrepared
      rw [isPrepared] at prepares
      exact publish_ok prepares moment i _ type validate given

theorem moves_replaceWith (ok : SystemOk s) {value : JsonValue} {validate : Bool}
    (exactGiven : given ≠ [] → ∀ before, s.value (.cell i) = some before → Exact before given value)
    (diffs :
      ∀ source,
        DiffsFrom moment source (s.value source)
          ((s.replaceWith moment i value type validate given).1.value source))
    (source : SourceRef) : Moves source s (s.replaceWith moment i value type validate given).1 := by
  have prepares := systemOk_onTracker ok (c := .prepareReplace (box value)) ⟨value, rfl⟩ i
  have same :=
    onTracker_keeps s i (c := .prepareReplace (box value)) (fun given same => by cases same)
  rw [System.replaceWith] at diffs ⊢
  cases found : s.cells[i]? with
  | none => exact moves_sameView (sameView_refl s)
  | some cell =>
    simp only [found] at diffs ⊢
    cases done : s.onTracker i (.prepareReplace (box value)) with
    | mk prepared failure =>
      rw [done] at same prepares
      cases failure with
      | some error => exact moves_sameView same
      | none =>
        simp only [done] at diffs
        refine moves_trans (moves_sameView same) (moves_publish prepares ?_ ?_ source)
        · intro some_ made before next isMade changes isBefore isNext
          rw [same.value] at isBefore
          rw [System.onTracker, found] at done
          have isCells := congrArg (fun pair => pair.1.cells) done
          have inside := (List.getElem?_eq_some_iff.mp found).1
          rw [System.preparedAt, ← isCells] at isMade
          simp only [List.getElem?_set_self inside, Option.bind_some] at isMade
          have isValue := prepareReplace_value isMade changes
          rw [isValue, unboxed_box] at isNext
          cases isNext
          exact exactGiven some_ before isBefore
        · intro source
          rw [same.value]
          exact diffs source

theorem moves_refresh
    (diffs :
      ∀ source, DiffsFrom moment source (s.value source) ((s.refresh moment j).1.value source))
    (source : SourceRef) : Moves source s (s.refresh moment j).1 := by
  rw [System.refresh] at diffs ⊢
  split
  · exact moves_sameView (sameView_refl s)
  · rename_i all isAll
    simp only [isAll] at diffs
    obtain ⟨next, _, afterNext⟩ := bind_eq_ok.mp isAll
    obtain ⟨found, isFound, built⟩ := bind_eq_ok.mp afterNext
    cases pure_eq_ok.mp built
    have distinct : (((j, next) :: found).map Prod.fst).Nodup :=
      List.nodup_cons.mpr
        ⟨candidates_later isFound, candidates_distinct isFound⟩
    refine moves_installAll distinct ?_ source
    intro candidate member
    by_cases inside : candidate.1 < s.deriveds.length
    · have diff := diffs (.derived candidate.1)
      rwa [installAll_value distinct member inside] at diff
    · intro old new isOld _
      rw [System.value, List.getElem?_eq_none_iff.mpr (Nat.le_of_not_lt inside)] at isOld
      cases isOld

theorem prepareChange_keeps (s : System) (i id : ℕ) (returned : Option Returned)
    (emitted : BoxedEmission) : SameView s (s.prepareChange i id returned emitted).1 := by
  have edits (edit : DraftEdit) : SameView s (s.onTracker i (.edit id edit)).1 :=
    onTracker_keeps s i (fun given same => by cases same)
  have prepares (t : System) : SameView t (t.onTracker i (.prepare id emitted.1)).1 :=
    onTracker_keeps t i (fun given same => by cases same)
  cases returned with
  | none => exact prepares s
  | some result =>
    rw [System.prepareChange]
    split
    · exact sameView_refl s
    · have edited := edits result.edit.1
      split
      · rename_i t error isEdited
        rwa [isEdited] at edited
      · rename_i t isEdited
        rw [isEdited] at edited
        exact sameView_trans edited (prepares t)

theorem prepareChange_ok (ok : SystemOk s) (i id : ℕ) (returned : Option Returned)
    (emitted : BoxedEmission) : SystemOk (s.prepareChange i id returned emitted).1 := by
  have edits (edit : { edit : DraftEdit // BoxedEdit edit }) :
      SystemOk (s.onTracker i (.edit id edit.1)).1 :=
    systemOk_onTracker ok (c := .edit id edit.1) edit.2 i
  have prepares {t : System} (tOk : SystemOk t) :
      SystemOk (t.onTracker i (.prepare id emitted.1)).1 :=
    systemOk_onTracker tOk (c := .prepare id emitted.1) emitted.2 i
  cases returned with
  | none => exact prepares ok
  | some result =>
    rw [System.prepareChange]
    split
    · exact ok
    · have edited := edits result.edit
      split
      · rename_i t error isEdited
        rwa [isEdited] at edited
      · rename_i t isEdited
        rw [isEdited] at edited
        exact prepares edited

/-! ## Calls -/

/-- The batches of a call are the diffs of the values around it, and of the
value given to `replace`. -/
def DiffsOf (s : System) (step : Moment × CellCall) : Prop :=
  (∀ source, DiffsFrom step.1 source (s.value source) ((s.perform step.1 step.2).1.value source)) ∧
    match step.2 with
    | .replace i value true => DiffsFrom step.1 (.cell i) (s.value (.cell i)) (some value)
    | _ => True

theorem systemOk_schema (ok : SystemOk s) (i : ℕ) (schema : Schema) :
    SystemOk
      { s with
        cells :=
          s.cells.modify i fun cell => { cell with schema := schema } } := by
  intro cell member
  obtain ⟨place, isPlace⟩ := List.mem_iff_getElem?.mp member
  rw [List.getElem?_modify] at isPlace
  obtain ⟨old, isOld, rfl⟩ := Option.map_eq_some_iff.mp isPlace
  have oldOk := ok old (List.mem_of_getElem? isOld)
  split
  · exact ⟨oldOk.run, oldOk.boxed⟩
  · exact oldOk

theorem perform_ok (ok : SystemOk s) (moment : Moment) (call : CellCall) :
    SystemOk (s.perform moment call).1 := by
  cases call with
  | beginChange i => exact systemOk_onTracker ok (c := .beginChange) trivial i
  | editDraft i id edit => exact systemOk_onTracker ok (c := .edit id edit.1) edit.2 i
  | failChange i id => exact systemOk_onTracker ok (c := .abortChange id) trivial i
  | finishChange i id returned emitted =>
    have prepares := prepareChange_ok ok i id returned emitted
    rw [System.perform]
    split
    · rename_i stopped error isStopped
      rw [isStopped] at prepares
      exact systemOk_onTracker prepares (c := .abortChange id) trivial i
    · rename_i prepared isPrepared
      rw [isPrepared] at prepares
      exact publish_ok prepares moment i id .ops true []
  | replace i value diff => exact replaceWith_ok ok moment i value .ops true _
  | reset i value schema =>
    exact replaceWith_ok (systemOk_schema ok i schema) moment i value .reset false []
  | setOutside place value => exact ok
  | refresh j =>
    rw [System.perform, System.refresh]
    split
    · exact ok
    · exact systemOk_of_cells ok (installAll_cells _ _ _)

theorem sameView_schema (s : System) (i : ℕ) (schema : Schema) :
    SameView s
      { s with
        cells := s.cells.modify i fun cell => { cell with schema := schema } } where
  events := rfl
  value := by
    intro source
    cases source with
    | cell place =>
      rw [System.value, System.value, List.getElem?_modify]
      cases s.cells[place]? with
      | none => rfl
      | some cell =>
        simp only [Option.map_eq_map, Option.map_some, Option.bind_some]
        split
        · rfl
        · rfl
    | derived place | outside place => rfl
  revision := by
    intro place
    rw [System.revision, System.revision, List.getElem?_modify]
    cases s.cells[place]? with
    | none => rfl
    | some cell =>
      simp only [Option.map_eq_map, Option.map_some]
      split
      · rfl
      · rfl

theorem publish_fails {validate : Bool}
    (fails : (s.publish moment i id type validate given).2.isSome = true) :
    SameView s (s.publish moment i id type validate given).1 := by
  have adopting :
      (s.onTracker i (.adopt (some id))).2.isSome = true →
        SameView s (s.onTracker i (.adopt (some id))).1 := by
    intro throws
    obtain ⟨error, isError⟩ := Option.isSome_iff_exists.mp throws
    exact onTracker_error isError
  rw [System.publish] at fails ⊢
  split at fails
  · exact sameView_refl s
  · split at fails
    · rename_i silent
      rw [if_pos silent]
      exact adopting fails
    · rename_i published
      rw [if_neg published]
      split at fails
      · exact onTracker_keeps s i (fun given same => by cases same)
      · split at fails
        · rename_i isAdopted
          rw [isAdopted] at adopting
          exact adopting rfl
        · cases fails

theorem replaceWith_fails {value : JsonValue} {validate : Bool}
    (fails : (s.replaceWith moment i value type validate given).2.isSome = true) :
    SameView s (s.replaceWith moment i value type validate given).1 := by
  have same :=
    onTracker_keeps s i (c := .prepareReplace (box value)) (fun given same => by cases same)
  rw [System.replaceWith] at fails ⊢
  split at fails
  · exact sameView_refl s
  · split at fails
    · rename_i isPrepared
      rwa [isPrepared] at same
    · rename_i isPrepared
      rw [isPrepared] at same
      exact sameView_trans same (publish_fails fails)

theorem perform_fails {call : CellCall} (fails : (s.perform moment call).2.isSome = true) :
    SameView s (s.perform moment call).1 := by
  have keeps (i : ℕ) {c : TrackerCall} (notAdopt : ∀ given, c ≠ .adopt given) :
      SameView s (s.onTracker i c).1 :=
    onTracker_keeps s i notAdopt
  cases call with
  | beginChange i | editDraft i id edit | failChange i id =>
    exact keeps i (fun given same => by cases same)
  | finishChange i id returned emitted =>
    have same := prepareChange_keeps s i id returned emitted
    rw [System.perform] at fails ⊢
    split at fails
    · rename_i stopped error isStopped
      rw [isStopped] at same
      exact sameView_trans same (onTracker_keeps stopped i (fun given same => by cases same))
    · rename_i isPrepared
      rw [isPrepared] at same
      exact sameView_trans same (publish_fails fails)
  | replace i value diff => exact replaceWith_fails fails
  | reset i value schema =>
    exact sameView_trans (sameView_schema s i schema) (replaceWith_fails fails)
  | setOutside place value => cases fails
  | refresh j =>
    rw [System.perform, System.refresh] at fails ⊢
    split at fails
    · exact sameView_refl s
    · cases fails

theorem moves_perform (ok : SystemOk s) {taken : Moment × CellCall} (diffs : DiffsOf s taken)
    (own : ∀ place, source ≠ .outside place) : Moves source s (s.perform taken.1 taken.2).1 := by
  obtain ⟨moment, call⟩ := taken
  obtain ⟨around, ofReplaced⟩ := diffs
  have keeps (i : ℕ) {c : TrackerCall} (notAdopt : ∀ given, c ≠ .adopt given) :
      Moves source s (s.onTracker i c).1 :=
    moves_sameView (onTracker_keeps s i notAdopt)
  cases call with
  | beginChange i | editDraft i id edit | failChange i id =>
    exact keeps i (fun given same => by cases same)
  | finishChange i id returned emitted =>
    have same := prepareChange_keeps s i id returned emitted
    have prepares := prepareChange_ok ok i id returned emitted
    rw [System.perform] at around ⊢
    cases done : s.prepareChange i id returned emitted with
    | mk prepared failure =>
      rw [done] at same prepares
      cases failure with
      | some error =>
        exact moves_sameView (sameView_trans same
          (onTracker_keeps prepared i (fun given same => by cases same)))
      | none =>
        simp only [done] at around
        refine moves_trans (moves_sameView same) (moves_publish prepares ?_ ?_ source)
        · exact fun some_ => absurd rfl some_
        · intro other
          rw [same.value]
          exact around other
  | replace i value diff =>
    refine moves_replaceWith ok ?_ around source
    intro some_ before isBefore
    cases diff with
    | false => exact absurd rfl some_
    | true =>
      have sound := sound_of_diffs (ofReplaced before value isBefore rfl)
      rw [if_pos rfl, System.shown, isBefore]
      exact exact_of_sound sound (DeepEqual.same before)
  | reset i value schema =>
    have same := sameView_schema s i schema
    refine moves_trans (moves_sameView same)
      (moves_replaceWith (systemOk_schema ok i schema) ?_ ?_ source)
    · exact fun some_ => absurd rfl some_
    · intro other
      rw [same.value]
      exact around other
  | setOutside place value =>
    refine moves_quiet rfl ?_
    cases source with
    | outside other => exact absurd rfl (own other)
    | cell other | derived other => rfl
  | refresh j => exact moves_refresh around source

/-! ## Runs -/

def System.step (s : System) (taken : Moment × CellCall) : System :=
  (s.perform taken.1 taken.2).1

/-- Cells with their first values, and derivations with theirs. -/
def startSystem (wiring : Wiring) (dev : Bool)
    (cells : List (JsonValue × Schema × List Schema)) (deriveds : List Derived)
    (outside : List StateValue) : System where
  wiring := wiring
  dev := dev
  cells := cells.map fun cell => ⟨cell.2.1, cell.2.2, track (box cell.1)⟩
  deriveds := deriveds
  outside := outside
  events := []

theorem systemOk_start (wiring : Wiring) (dev : Bool)
    (cells : List (JsonValue × Schema × List Schema)) (deriveds : List Derived)
    (outside : List StateValue) : SystemOk (startSystem wiring dev cells deriveds outside) := by
  intro cell member
  obtain ⟨given, _, rfl⟩ := List.mem_map.mp member
  exact ⟨⟨box given.1, [], runOk_start (box given.1)⟩, boxedTracker_track given.1⟩

theorem moves_run (ok : SystemOk s) {taken : List (Moment × CellCall)}
    (diffs : Runs.AllAllowed System.step DiffsOf s taken) (own : ∀ place, source ≠ .outside place) :
    Moves source s (Runs.after System.step s taken) := by
  induction taken generalizing s with
  | nil => exact moves_sameView (sameView_refl s)
  | cons first rest ih =>
    obtain ⟨here, later⟩ := diffs
    exact moves_trans (moves_perform ok here own) (ih (perform_ok ok first.1 first.2) later)

theorem systemOk_run (ok : SystemOk s) (taken : List (Moment × CellCall)) :
    SystemOk (Runs.after System.step s taken) :=
  Runs.after_invariant System.step SystemOk
    (fun _ step stateOk => perform_ok stateOk step.1 step.2) ok taken

/-- Over every run, the events of a cell or a derivation from any moment on
lead from its value then to its value now, each exact from the value of the one
before (`undefined` counted as `null`); and a call that fails leaves every
value, every revision and the events. -/
theorem published_events_exact (wiring : Wiring) (dev : Bool)
    (cells : List (JsonValue × Schema × List Schema)) (deriveds : List Derived)
    (outside : List StateValue) (first second : List (Moment × CellCall))
    (diffs :
      Runs.AllAllowed System.step DiffsOf
        (startSystem wiring dev cells deriveds outside) (first ++ second)) :
    let before :=
      Runs.after System.step (startSystem wiring dev cells deriveds outside)
        first
    let now := Runs.after System.step before second
    (∀ source, (∀ place, source ≠ .outside place) →
      ∃ more, now.events = before.events ++ more ∧
        Chained (before.shown source) (eventsOf source more) ∧
        source.Matches (latest (before.shown source) (eventsOf source more)) (now.shown source)) ∧
      ∀ moment call, (now.perform moment call).2.isSome = true →
        SameView now (now.perform moment call).1 := by
  intro before now
  have startOk := systemOk_start wiring dev cells deriveds outside
  have beforeOk := systemOk_run startOk first
  refine ⟨?_, fun moment call fails => perform_fails fails⟩
  intro source own
  have laterDiffs := ((Runs.allAllowed_append System.step).mp diffs).2
  obtain ⟨more, isMore, leads⟩ := moves_run beforeOk laterDiffs own
  obtain ⟨chained, reaches⟩ := leads _ (matches_self source _)
  exact ⟨more, isMore, chained, reaches⟩

def flagWiring : Wiring where
  sources := [[.cell 0]]
  ordered := by
    intro j list isList k member
    cases j with
    | zero =>
      cases isList
      cases List.mem_singleton.mp member
    | succ j => cases isList

def flagSystem : System :=
  startSystem flagWiring true [(.bool false, fun _ => true, [])] [⟨[], some (.bool false)⟩] []

def constantMoment (value : StateValue) : Moment where
  compute := fun _ _ => .ok value
  diff := fun _ before next => diffRevisions (fun _ => 1) before next

theorem coherent_bool (value : Bool) : Json.Coherent (fun _ : Unit => .null) (.bool value) where
  identity := by
    intro part isPart label isLabel
    cases isPart
    cases isLabel
  keys := by
    intro label fields isPart
    cases isPart

theorem diffs_bool (before next : Bool) :
    Diffs (.bool before) (.bool next)
      (@diffRevisions Unit _ (fun _ => 1) (.bool before) (.bool next)) :=
  ⟨Unit, inferInstance, fun _ => .null, ⟨.bool before, coherent_bool before⟩,
    ⟨.bool next, coherent_bool next⟩, fun _ => 1, rfl, rfl, rfl⟩

theorem diffsOf_flag :
    DiffsOf flagSystem (constantMoment (some (.bool true)), .replace 0 (.bool true) false) := by
  refine ⟨?_, trivial⟩
  intro source old new isOld isNew
  rcases source with (_ | place) | (_ | place) | place
  · cases isOld
    cases isNew
    exact diffs_bool false true
  · cases isOld
  · cases isOld
    cases isNew
    exact diffs_bool false true
  · cases isOld
  · cases isOld

theorem published_events_exact_flag :
    Chained (.bool false)
      (eventsOf (.derived 0)
        (flagSystem.step
          (constantMoment (some (.bool true)), .replace 0 (.bool true) false)).events) := by
  have exact_ :=
    (published_events_exact flagWiring true
      [(.bool false, fun _ => true, [])] [⟨[], some (.bool false)⟩] [] []
      [(constantMoment (some (.bool true)), .replace 0 (.bool true) false)]
      ⟨diffsOf_flag, trivial⟩).1 (.derived 0) (fun place same => by cases same)
  obtain ⟨more, isMore, chained, _⟩ := exact_
  have isAll :
      (flagSystem.step
        (constantMoment (some (.bool true)), .replace 0 (.bool true) false)).events = more := isMore
  rw [isAll]
  exact chained

/-- A derivation that becomes `undefined` publishes operations that give
`null`. -/
theorem undefined_publishes_null :
    let now := flagSystem.step (constantMoment none, .replace 0 (.bool true) false)
    eventsOf (.derived 0) now.events = [.ops [.r .null] none] ∧
      applyOps (.bool false) [.r .null] = .ok .null ∧
      now.value (.derived 0) ≠ some .null := by
  refine ⟨rfl, rfl, ?_⟩
  intro same
  cases same

end PiEmbodied.Chord.Cells
