import PiEmbodied.Chord.ReplicatedState

/-!
# Subscriptions

What holds of every subscriber, whatever the publishers and the listeners do.
-/

namespace PiEmbodied.Chord.ReplicatedState

open StateSubscriber State
open List (append_assoc length_append length_cons mem_cons_of_mem mem_cons_self
  mem_of_ne_of_mem not_mem_nil)

variable {α κ : Type}

/-! ## The publisher -/

/-- The sequence of the last publication that came to a subscriber. -/
def State.offered (state : State α κ) (id : ℕ) : ℕ :=
  match state.delivering with
  | .publication publication rest =>
    if id ∈ rest.map Prod.fst then publication.sequence - 1
    else publication.sequence
  | _ => state.sequence - state.publications.length

structure Publishes (first : α) (state : State α κ) : Prop where
  logged : state.log.length = state.sequence
  numbered :
    ∀ (k : ℕ) (publication : Publication α κ),
      state.log[k]? = some publication → publication.sequence = k + 1
  current : (state.revisions first).getLast? = some state.value
  queued :
    ∃ done, state.log = done ++ state.publications ∧
      (state.delivering = .idle → state.publications = []) ∧
      ∀ publication rest, state.delivering = .publication publication rest →
        done.getLast? = some publication
  unique : (state.listeners.map Prod.fst).Nodup
  attached : ∀ entry ∈ state.listeners, entry.1 < state.created ∧ entry.2 ≤ state.sequence
  rest :
    ∀ publication rest, state.delivering = .publication publication rest →
      (rest.map Prod.fst).Nodup ∧ ∀ entry ∈ rest, entry.1 < state.created
  looping : state.delivering ≠ .idle → .publishing ∈ state.stack

variable {first : α} {state : State α κ}

theorem length_revisions (publishes : Publishes first state) :
    (state.revisions first).length = state.sequence + 1 := by
  rw [State.revisions, length_cons, List.length_map, publishes.logged]

variable {publication : Publication α κ}

theorem revision_of_logged (publishes : Publishes first state) (member : publication ∈ state.log) :
    (state.revisions first)[publication.sequence]? = some publication.value := by
  obtain ⟨k, isAt⟩ := List.mem_iff_getElem?.mp member
  rw [publishes.numbered k publication isAt, State.revisions,
    List.getElem?_cons_succ, List.getElem?_map, isAt]
  rfl

variable {rest : List (ℕ × ℕ)}

theorem sequence_in_hand (publishes : Publishes first state)
    (inHand : state.delivering = .publication publication rest) :
    publication.sequence + state.publications.length = state.sequence ∧
      0 < publication.sequence ∧ publication ∈ state.log := by
  obtain ⟨done, isLog, _, isLast⟩ := publishes.queued
  obtain ⟨earlier, isDone⟩ := List.getLast?_eq_some_iff.mp (isLast publication rest inHand)
  have isAt : state.log[earlier.length]? = some publication := by
    rw [isLog, isDone, append_assoc, List.getElem?_append_right (Nat.le_refl _), Nat.sub_self]
    rfl
  have numbered := publishes.numbered _ _ isAt
  have length := publishes.logged
  rw [isLog, isDone, length_append, length_append, List.length_singleton] at length
  refine ⟨?_, ?_, List.mem_of_getElem? isAt⟩
  · omega
  · omega

theorem offered_le (publishes : Publishes first state) (id : ℕ) :
    state.offered id ≤ state.sequence := by
  unfold State.offered
  cases inHand : state.delivering with
  | idle | next => exact Nat.sub_le _ _
  | publication publication rest =>
    obtain ⟨isSequence, _, _⟩ := sequence_in_hand publishes inHand
    dsimp only
    split_ifs
    · omega
    · omega

/-- What is said of a subscriber, apart from whether its listener is at work. -/
structure Attached (first : α) (state : State α κ) (id : ℕ) : Prop where
  orderly : Orderly (state.revisions first) (state.subscribers id)
  gone : (state.subscribers id).closed = true → ∀ entry ∈ state.listeners, entry.1 ≠ id
  open_ :
    (state.subscribers id).closed = false →
      ∃ hydratedSequence, (id, hydratedSequence) ∈ state.listeners ∧
        Newest (state.subscribers id) (max hydratedSequence (state.offered id))
  rest :
    ∀ publication rest, state.delivering = .publication publication rest →
      (state.subscribers id).closed = false →
      ∀ entry ∈ rest, entry.1 = id → entry ∈ state.listeners

/-- What waits is delivered: by the callback that runs, or when its promise
settles. -/
structure Drains (state : State α κ) (id : ℕ) : Prop where
  drained : (state.subscribers id).running = false → (state.subscribers id).pending = []
  runs :
    (state.subscribers id).running = true →
      (state.subscribers id).awaiting = true ∨ .listening id ∈ state.stack

structure Serves (first : α) (state : State α κ) : Prop where
  publishes : Publishes first state
  attached : ∀ id < state.created, Attached first state id
  drains : ∀ id < state.created, Drains state id

theorem serves_initial (first : α) : Serves first (State.initial first : State α κ) where
  publishes :=
    { logged := rfl
      numbered := fun _ _ isAt => by cases isAt
      current := rfl
      queued := by
        refine ⟨[], rfl, fun _ => rfl, ?_⟩
        intro publication rest inHand
        cases inHand
      unique := List.nodup_nil
      attached := fun _ member => absurd member not_mem_nil
      rest := by
        intro publication rest inHand
        cases inHand
      looping := fun notIdle => absurd rfl notIdle }
  attached := fun id less => absurd less (Nat.not_lt_zero id)
  drains := fun id less => absurd less (Nat.not_lt_zero id)

@[simp]
theorem setSubscriber_same (state : State α κ) (id : ℕ) (subscriber : StateSubscriber α κ) :
    (state.setSubscriber id subscriber).subscribers id = subscriber :=
  if_pos rfl

variable {id other : ℕ}

theorem setSubscriber_other (state : State α κ) (subscriber : StateSubscriber α κ)
    (different : other ≠ id) :
    (state.setSubscriber id subscriber).subscribers other =
      state.subscribers other :=
  if_neg different

/-! ## Changes of one subscriber -/

/-- Only this subscriber changed, and code above the stack may have started. -/
structure SameElsewhere (id : ℕ) (state next : State α κ) : Prop where
  others : ∀ other ≠ id, next.subscribers other = state.subscribers other
  sequence : next.sequence = state.sequence
  publications : next.publications = state.publications
  delivering : next.delivering = state.delivering
  listeners : next.listeners = state.listeners
  created : next.created = state.created
  log : next.log = state.log
  value : next.value = state.value

variable {next : State α κ}

section

variable (same : SameElsewhere id state next)
include same

theorem offered_same :
    next.offered other = state.offered other := by
  unfold State.offered
  rw [same.delivering, same.sequence, same.publications]

theorem revisions_same :
    next.revisions first = state.revisions first := by
  unfold State.revisions
  rw [same.log]

theorem publishes_same (stack : ∀ frame ∈ state.stack, frame = .publishing → frame ∈ next.stack)
    (publishes : Publishes first state) : Publishes first next where
  logged := by
    rw [same.log, same.sequence]
    exact publishes.logged
  numbered := by
    rw [same.log]
    exact publishes.numbered
  current := by
    rw [revisions_same same, same.value]
    exact publishes.current
  queued := by
    rw [same.log, same.publications, same.delivering]
    exact publishes.queued
  unique := by
    rw [same.listeners]
    exact publishes.unique
  attached := by
    rw [same.listeners, same.created, same.sequence]
    exact publishes.attached
  rest := by
    rw [same.delivering, same.created]
    exact publishes.rest
  looping := by
    rw [same.delivering]
    intro notIdle
    exact stack _ (publishes.looping notIdle) rfl

theorem attached_of_same (isSame : next.subscribers other = state.subscribers other)
    (attached : Attached first state other) : Attached first next other where
  orderly := by
    rw [revisions_same same, isSame]
    exact attached.orderly
  gone := by
    rw [isSame, same.listeners]
    exact attached.gone
  open_ := by
    rw [isSame, same.listeners, offered_same same]
    exact attached.open_
  rest := by
    rw [isSame, same.delivering, same.listeners]
    exact attached.rest

end

theorem drains_of_same (isSame : next.subscribers other = state.subscribers other)
    (stack : .listening other ∈ state.stack → .listening other ∈ next.stack)
    (drains : Drains state other) : Drains next other where
  drained := by
    rw [isSame]
    exact drains.drained
  runs := by
    rw [isSame]
    intro running
    rcases drains.runs running with awaiting | listening
    · exact .inl awaiting
    · exact .inr (stack listening)

theorem same_trans {middle : State α κ} (here : SameElsewhere id state middle)
    (there : SameElsewhere id middle next) : SameElsewhere id state next where
  others := fun other different =>
    (there.others other different).trans (here.others other different)
  sequence := there.sequence.trans here.sequence
  publications := there.publications.trans here.publications
  delivering := there.delivering.trans here.delivering
  listeners := there.listeners.trans here.listeners
  created := there.created.trans here.created
  log := there.log.trans here.log
  value := there.value.trans here.value

theorem setSubscriber_sameElsewhere
    (state : State α κ) (id : ℕ) (subscriber : StateSubscriber α κ) :
    SameElsewhere id state (state.setSubscriber id subscriber) :=
  ⟨fun _ different => setSubscriber_other state subscriber different, rfl, rfl,
    rfl, rfl, rfl, rfl, rfl⟩

theorem stack_same (state : State α κ) (id : ℕ) (stack : List Frame) :
    SameElsewhere id state { state with stack := stack } :=
  ⟨fun _ _ => rfl, rfl, rfl, rfl, rfl, rfl, rfl, rfl⟩

/-! ## Draining -/

theorem drainNext_same (state : State α κ) (id : ℕ) :
    SameElsewhere id state (state.drainNext id) := by
  unfold State.drainNext
  dsimp only
  split
  · exact
      ⟨fun other different => setSubscriber_other state _ different, rfl, rfl,
        rfl, rfl, rfl, rfl, rfl⟩
  · exact
      ⟨fun other different => setSubscriber_other state _ different, rfl, rfl,
        rfl, rfl, rfl, rfl, rfl⟩

theorem drainNext_stack (state : State α κ) (id : ℕ) :
    ∀ frame ∈ state.stack, frame ∈ (state.drainNext id).stack := by
  intro frame member
  unfold State.drainNext
  dsimp only
  split
  · exact member
  · exact mem_cons_of_mem _ member

variable {revisions : List α}

theorem orderly_next {subscriber : StateSubscriber α κ} {frame : StateDelivery α κ}
    {rest : List (StateDelivery α κ)} (orderly : Orderly revisions subscriber)
    (isPending : subscriber.pending = frame :: rest) (running : Bool) :
    Orderly revisions
      { subscriber with
        running := running
        pending := rest
        started := true
        delivered := subscriber.delivered ++ [frame] } := by
  have isFrames : subscriber.delivered ++ [frame] ++ rest = subscriber.frames := by
    rw [StateSubscriber.frames, isPending, append_assoc]
    rfl
  refine
    { hydrated := ?_
      increasing := ?_
      known := ?_
      bounded := ?_
      started := rfl
      closed := ?_
      consecutive := ?_ }
  · obtain ⟨hydration, updates, isDelivered, isHydrate, areUpdates⟩ :=
      orderly.hydrated
    refine ⟨hydration, updates ++ [frame], ?_, isHydrate, ?_⟩
    · dsimp only
      rw [isDelivered, List.cons_append]
    · rw [isPending] at areUpdates
      rw [append_assoc]
      exact areUpdates
  · unfold StateSubscriber.frames
    dsimp only
    rw [isFrames]
    exact orderly.increasing
  · unfold StateSubscriber.frames
    dsimp only
    rw [isFrames]
    exact orderly.known
  · have bounded := orderly.bounded
    rw [isPending, length_cons] at bounded
    exact Nat.le_of_succ_le bounded
  · intro isClosed
    have nothing := orderly.closed isClosed
    rw [isPending] at nothing
    cases nothing
  · unfold StateSubscriber.frames
    dsimp only
    rw [isFrames]
    exact orderly.consecutive

theorem drainNext_attached (attached : Attached first state id) :
    Attached first (state.drainNext id) id ∧ Drains (state.drainNext id) id := by
  have same := drainNext_same state id
  cases isPending : (state.subscribers id).pending with
  | nil =>
    have isNext :
        (state.drainNext id).subscribers id = { state.subscribers id with running := false } := by
      unfold State.drainNext
      dsimp only
      rw [isPending]
      exact setSubscriber_same _ _ _
    refine ⟨⟨?_, ?_, ?_, ?_⟩, ?_, ?_⟩
    · rw [revisions_same same, isNext]
      exact { attached.orderly with }
    · rw [isNext, same.listeners]
      exact attached.gone
    · rw [isNext, same.listeners, offered_same same]
      exact attached.open_
    · rw [isNext, same.delivering, same.listeners]
      exact attached.rest
    · rw [isNext]
      intro _
      exact isPending
    · rw [isNext]
      intro running
      cases running
  | cons frame rest =>
    have isNext :
        (state.drainNext id).subscribers id =
          { state.subscribers id with
            running := true
            pending := rest
            started := true
            delivered := (state.subscribers id).delivered ++ [frame] } := by
      unfold State.drainNext
      dsimp only
      rw [isPending]
      exact setSubscriber_same _ _ _
    have isStack : (state.drainNext id).stack = .listening id :: state.stack := by
      unfold State.drainNext
      dsimp only
      rw [isPending]
    refine ⟨⟨?_, ?_, ?_, ?_⟩, ?_, ?_⟩
    · rw [revisions_same same, isNext]
      exact orderly_next attached.orderly isPending true
    · rw [isNext, same.listeners]
      exact attached.gone
    · rw [isNext, same.listeners, offered_same same]
      intro isOpen
      obtain ⟨hydratedSequence, isListed, newest, isLast, isSequence⟩ := attached.open_ isOpen
      refine ⟨hydratedSequence, isListed, newest, ?_, isSequence⟩
      rw [← isLast]
      unfold StateSubscriber.frames
      dsimp only
      rw [isPending, append_assoc]
      rfl
    · rw [isNext, same.delivering, same.listeners]
      exact attached.rest
    · rw [isNext]
      intro running
      cases running
    · rw [isStack]
      intro _
      exact .inr mem_cons_self

theorem drain_same (state : State α κ) (id : ℕ) : SameElsewhere id state (state.drain id) := by
  unfold State.drain
  dsimp only
  split
  · exact ⟨fun _ _ => rfl, rfl, rfl, rfl, rfl, rfl, rfl, rfl⟩
  · exact drainNext_same state id

theorem drain_stack (state : State α κ) (id : ℕ) :
    ∀ frame ∈ state.stack, frame ∈ (state.drain id).stack := by
  unfold State.drain
  dsimp only
  split
  · exact fun _ member => member
  · exact drainNext_stack state id

theorem drain_attached (attached : Attached first state id)
    (runs :
      (state.subscribers id).running = true →
        (state.subscribers id).awaiting = true ∨ .listening id ∈ state.stack) :
    Attached first (state.drain id) id ∧ Drains (state.drain id) id := by
  unfold State.drain
  dsimp only
  split
  · rename_i busy
    refine ⟨attached, ?_, runs⟩
    intro notRunning
    rw [notRunning, Bool.false_or] at busy
    exact attached.orderly.closed busy
  · exact drainNext_attached attached

theorem serves_change (serves : Serves first state) (same : SameElsewhere id state next)
    (publishing : ∀ frame ∈ state.stack, frame = .publishing → frame ∈ next.stack)
    (listening : ∀ other ≠ id, .listening other ∈ state.stack → .listening other ∈ next.stack)
    (here : id < state.created → Attached first next id ∧ Drains next id) :
    Serves first next where
  publishes := publishes_same same publishing serves.publishes
  attached := by
    intro other less
    rw [same.created] at less
    by_cases isId : other = id
    · rw [isId] at less ⊢
      exact (here less).1
    · exact attached_of_same same (same.others other isId) (serves.attached other less)
  drains := by
    intro other less
    rw [same.created] at less
    by_cases isId : other = id
    · rw [isId] at less ⊢
      exact (here less).2
    · exact
        drains_of_same (same.others other isId) (listening other isId) (serves.drains other less)

/-! ## Callbacks -/

theorem serves_returned {rest : List Frame} (serves : Serves first state)
    (isStack : state.stack = .listening id :: rest) :
    Serves first ({ state with stack := rest }.drainNext id) := by
  have popped := stack_same state id rest
  have same := same_trans popped (drainNext_same _ id)
  refine serves_change serves same ?_ ?_ ?_
  · intro frame member isPublishing
    apply drainNext_stack
    rw [isStack, isPublishing] at member
    rw [isPublishing]
    exact mem_of_ne_of_mem (by intro equal; cases equal) member
  · intro other different member
    apply drainNext_stack
    rw [isStack] at member
    refine mem_of_ne_of_mem ?_ member
    intro equal
    exact different (Frame.listening.inj equal)
  · intro less
    exact
      drainNext_attached (attached_of_same popped rfl (serves.attached id less))

theorem serves_promised {rest : List Frame} (serves : Serves first state)
    (isStack : state.stack = .listening id :: rest) :
    Serves first
      { state.setSubscriber id
          { state.subscribers id with awaiting := true } with
        stack := rest } := by
  have same :
      SameElsewhere id state
        { state.setSubscriber id
            { state.subscribers id with awaiting := true } with
          stack := rest } :=
    same_trans (setSubscriber_sameElsewhere state id _) (stack_same _ id rest)
  refine serves_change serves same ?_ ?_ ?_
  · intro frame member isPublishing
    rw [isStack, isPublishing] at member
    rw [isPublishing]
    exact mem_of_ne_of_mem (by intro equal; cases equal) member
  · intro other different member
    rw [isStack] at member
    refine mem_of_ne_of_mem ?_ member
    intro equal
    exact different (Frame.listening.inj equal)
  · intro less
    have attached := serves.attached id less
    refine ⟨⟨?_, ?_, ?_, ?_⟩, ?_, ?_⟩
    · rw [revisions_same same]
      rw [setSubscriber_same]
      exact { attached.orderly with }
    · rw [setSubscriber_same]
      exact attached.gone
    · rw [setSubscriber_same, offered_same same]
      exact attached.open_
    · rw [setSubscriber_same]
      exact attached.rest
    · rw [setSubscriber_same]
      exact (serves.drains id less).drained
    · rw [setSubscriber_same]
      exact fun _ => .inl rfl

theorem serves_resume (id : ℕ) (serves : Serves first state) :
    Serves first
      ((state.setSubscriber id
        { state.subscribers id with
          awaiting := false
          running := false }).drain id) := by
  have here :=
    setSubscriber_sameElsewhere state id
      { state.subscribers id with awaiting := false, running := false }
  have same := same_trans here (drain_same _ id)
  refine serves_change serves same ?_ ?_ ?_
  · intro frame member _
    exact drain_stack _ id frame member
  · intro other _ member
    exact drain_stack _ id _ member
  · intro less
    have attached := serves.attached id less
    apply drain_attached
    · refine ⟨?_, ?_, ?_, ?_⟩
      · rw [revisions_same here, setSubscriber_same]
        exact { attached.orderly with }
      · rw [setSubscriber_same]
        exact attached.gone
      · rw [setSubscriber_same, offered_same here]
        exact attached.open_
      · rw [setSubscriber_same]
        exact attached.rest
    · rw [setSubscriber_same]
      intro running
      cases running

theorem serves_unsubscribe (id : ℕ) (serves : Serves first state) :
    Serves first (state.unsubscribe id) where
  publishes :=
    { serves.publishes with
      unique := by
        apply List.Nodup.sublist _ serves.publishes.unique
        exact (List.filter_sublist).map Prod.fst
      attached := by
        intro entry member
        exact serves.publishes.attached entry (List.mem_filter.mp member).1 }
  attached := by
    intro other less
    have attached := serves.attached other less
    by_cases isId : other = id
    · subst isId
      have isNow : (state.unsubscribe other).subscribers other = (state.subscribers other).close :=
        setSubscriber_same _ _ _
      refine ⟨?_, ?_, ?_, ?_⟩
      · rw [isNow]
        exact orderly_close attached.orderly
      · intro _ entry member
        exact of_decide_eq_true (List.mem_filter.mp member).2
      · rw [isNow]
        intro isOpen
        cases isOpen
      · rw [isNow]
        intro _ _ _ isOpen
        cases isOpen
    · have isNow : (state.unsubscribe id).subscribers other = state.subscribers other :=
        setSubscriber_other _ _ isId
      have kept :
          ∀ entry ∈ state.listeners, entry.1 = other →
            entry ∈ (state.unsubscribe id).listeners := by
        intro entry member isOther
        apply List.mem_filter.mpr
        refine ⟨member, decide_eq_true ?_⟩
        rw [isOther]
        exact isId
      refine ⟨?_, ?_, ?_, ?_⟩
      · rw [isNow]
        exact attached.orderly
      · rw [isNow]
        intro isClosed entry member
        exact attached.gone isClosed entry (List.mem_filter.mp member).1
      · rw [isNow]
        intro isOpen
        obtain ⟨hydratedSequence, isListed, newest⟩ := attached.open_ isOpen
        exact ⟨hydratedSequence, kept _ isListed rfl, newest⟩
      · rw [isNow]
        intro publication rest inHand isOpen entry member isOther
        exact
          kept entry (attached.rest publication rest inHand isOpen entry member isOther) isOther
  drains := by
    intro other less
    have drains := serves.drains other less
    by_cases isId : other = id
    · subst isId
      have isNow : (state.unsubscribe other).subscribers other = (state.subscribers other).close :=
        setSubscriber_same _ _ _
      refine ⟨?_, ?_⟩
      · rw [isNow]
        exact fun _ => rfl
      · rw [isNow]
        exact drains.runs
    · exact drains_of_same (setSubscriber_other _ _ isId) (fun member => member) drains

/-! ## Publications -/

theorem serves_published (serves : Serves first state)
    (isSequence : publication.sequence = state.sequence + 1)
    (value : next.value = publication.value) (sequence : next.sequence = state.sequence + 1)
    (publications : next.publications = state.publications ++ [publication])
    (log : next.log = state.log ++ [publication]) (listeners : next.listeners = state.listeners)
    (subscribers : next.subscribers = state.subscribers) (created : next.created = state.created)
    (delivering :
      next.delivering = state.delivering ∧ state.delivering ≠ .idle ∧
          next.stack = state.stack ∨
        next.delivering = .next ∧ state.delivering = .idle ∧
          next.stack = .publishing :: state.stack) : Serves first next := by
  have publishes := serves.publishes
  have revisions_ :
      next.revisions first = state.revisions first ++ [publication.value] := by
    rw [State.revisions, log, List.map_append]
    rfl
  have inHand :
      ∀ other rest, next.delivering = .publication other rest →
        state.delivering = .publication other rest := by
    intro other rest isHand
    rcases delivering with ⟨isSame, _, _⟩ | ⟨isNext, _, _⟩
    · rw [← isSame]
      exact isHand
    · rw [isNext] at isHand
      cases isHand
  have offered_ : ∀ id, next.offered id = state.offered id := by
    intro id
    rcases delivering with ⟨isSame, busy, _⟩ | ⟨isNext, isIdle, _⟩
    · unfold State.offered
      rw [isSame, sequence, publications, length_append, List.length_singleton]
      cases isDelivering : state.delivering with
      | idle => exact absurd isDelivering busy
      | next => exact Nat.add_sub_add_right _ _ _
      | publication other rest => rfl
    · obtain ⟨_, _, nothing, _⟩ := publishes.queued
      unfold State.offered
      rw [isNext, isIdle, sequence, publications, nothing isIdle]
      rfl
  have stack_ : ∀ frame ∈ state.stack, frame ∈ next.stack := by
    intro frame member
    rcases delivering with ⟨_, _, isSame⟩ | ⟨_, _, isPushed⟩
    · rw [isSame]
      exact member
    · rw [isPushed]
      exact mem_cons_of_mem _ member
  refine ⟨?_, ?_, ?_⟩
  · refine
      { logged := ?_
        numbered := ?_
        current := ?_
        queued := ?_
        unique := ?_
        attached := ?_
        rest := ?_
        looping := ?_ }
    · rw [log, sequence, length_append, publishes.logged]
      rfl
    · intro k other isAt
      rw [log] at isAt
      by_cases inside : k < state.log.length
      · rw [List.getElem?_append_left inside] at isAt
        exact publishes.numbered k other isAt
      · have isLast : k = state.log.length := by
          have less := (List.getElem?_eq_some_iff.mp isAt).1
          rw [length_append, List.length_singleton] at less
          omega
        rw [isLast, List.getElem?_concat_length] at isAt
        cases isAt
        rw [isSequence, isLast, publishes.logged]
    · rw [revisions_, value]
      exact List.getLast?_concat
    · obtain ⟨done, isLog, nothing, isHand⟩ := publishes.queued
      refine ⟨done, ?_, ?_, ?_⟩
      · rw [log, isLog, publications, append_assoc]
      · intro isIdle
        rcases delivering with ⟨isSame, busy, _⟩ | ⟨isNext, _, _⟩
        · rw [isSame] at isIdle
          exact absurd isIdle busy
        · rw [isNext] at isIdle
          cases isIdle
      · intro other rest isNow
        exact isHand other rest (inHand other rest isNow)
    · rw [listeners]
      exact publishes.unique
    · rw [listeners, created, sequence]
      intro entry member
      obtain ⟨less, hydrated⟩ := publishes.attached entry member
      exact ⟨less, Nat.le_succ_of_le hydrated⟩
    · intro other rest isNow
      rw [created]
      exact publishes.rest other rest (inHand other rest isNow)
    · intro _
      rcases delivering with ⟨_, busy, isSame⟩ | ⟨_, _, isPushed⟩
      · rw [isSame]
        exact publishes.looping busy
      · rw [isPushed]
        exact mem_cons_self
  · intro id less
    rw [created] at less
    have attached := serves.attached id less
    refine ⟨?_, ?_, ?_, ?_⟩
    · rw [revisions_, subscribers]
      exact orderly_more attached.orderly publication.value
    · rw [subscribers, listeners]
      exact attached.gone
    · rw [subscribers, listeners, offered_]
      exact attached.open_
    · rw [subscribers, listeners]
      intro other rest isNow
      exact attached.rest other rest (inHand other rest isNow)
  · intro id less
    rw [created] at less
    apply drains_of_same _ (fun member => stack_ _ member) (serves.drains id less)
    rw [subscribers]

theorem serves_publish (value : α) (context : κ) (serves : Serves first state) :
    Serves first (state.publish value context) := by
  unfold State.publish
  dsimp only
  split
  · rename_i isIdle
    exact
      serves_published serves rfl rfl rfl rfl rfl rfl rfl rfl (.inr ⟨rfl, isIdle, rfl⟩)
  · rename_i busy
    exact
      serves_published serves rfl rfl rfl rfl rfl rfl rfl rfl (.inl ⟨rfl, busy, rfl⟩)

/-! ## New subscribers -/

theorem subscribe_eq (background : κ) (state : State α κ) :
    let hydration : StateDelivery α κ :=
      ⟨state.value, background, .hydrate, state.sequence⟩
    (∀ id, (state.subscribe background).subscribers id =
      if id = state.created then
        { running := true, started := true, delivered := [hydration] }
      else state.subscribers id) ∧
      (state.subscribe background).stack = .listening state.created :: state.stack ∧
      (state.subscribe background).listeners =
        state.listeners ++ [(state.created, state.sequence)] := by
  refine ⟨?_, ?_, ?_⟩
  · intro id
    by_cases isNew : id = state.created
    · rw [if_pos isNew, isNew]
      simp [State.subscribe, State.drain, State.drainNext, State.pushTo,
        State.setSubscriber, StateSubscriber.push, QUEUE_LIMIT]
    · rw [if_neg isNew]
      simp [State.subscribe, State.drain, State.drainNext, State.pushTo,
        State.setSubscriber, StateSubscriber.push, QUEUE_LIMIT, isNew]
  · simp [State.subscribe, State.drain, State.drainNext, State.pushTo,
      State.setSubscriber, StateSubscriber.push, QUEUE_LIMIT]
  · simp [State.subscribe, State.drain, State.drainNext, State.pushTo,
      State.setSubscriber, StateSubscriber.push, QUEUE_LIMIT]

variable (background : κ)

theorem subscribe_same (state : State α κ) :
    (state.subscribe background).value = state.value ∧
      (state.subscribe background).sequence = state.sequence ∧
      (state.subscribe background).publications = state.publications ∧
      (state.subscribe background).delivering = state.delivering ∧
      (state.subscribe background).created = state.created + 1 ∧
      (state.subscribe background).log = state.log := by
  have pushed :=
    drain_same
      (({ state.setSubscriber state.created {} with
          created := state.created + 1
          listeners := state.listeners ++ [(state.created, state.sequence)] } :
          State α κ).pushTo
        state.created ⟨state.value, background, .hydrate, state.sequence⟩)
      state.created
  exact
    ⟨pushed.value, pushed.sequence, pushed.publications, pushed.delivering,
      pushed.created, pushed.log⟩

theorem orderly_hydrated {hydration : StateDelivery α κ} (isHydrate : hydration.kind = .hydrate)
    (known : revisions[hydration.sequence]? = some hydration.value) :
    Orderly revisions { running := true, started := true, delivered := [hydration] } where
  hydrated :=
    ⟨hydration, [], rfl, isHydrate, fun _ member => absurd member not_mem_nil⟩
  increasing := List.pairwise_singleton _ _
  known := by
    intro frame member
    rw [List.mem_singleton.mp member]
    exact known
  bounded := Nat.zero_le _
  started := rfl
  closed := fun isClosed => by cases isClosed
  consecutive := fun _ => ⟨hydration.sequence, rfl⟩

theorem serves_subscribe (serves : Serves first state) :
    Serves first (state.subscribe background) := by
  have publishes := serves.publishes
  obtain ⟨subscribers, stack, listeners⟩ := subscribe_eq background state
  obtain ⟨value, sequence, publications, delivering, created, log⟩ :=
    subscribe_same background state
  generalize state.subscribe background = next at *
  have revisions_ : next.revisions first = state.revisions first := by
    rw [State.revisions, log]
    rfl
  have offered_ : ∀ id, next.offered id = state.offered id := by
    intro id
    unfold State.offered
    rw [delivering, sequence, publications]
  have others : ∀ id < state.created, next.subscribers id = state.subscribers id := by
    intro id less
    rw [subscribers, if_neg (Nat.ne_of_lt less)]
  have mem_listeners :
      ∀ entry, entry ∈ next.listeners ↔
        entry ∈ state.listeners ∨ entry = (state.created, state.sequence) := by
    intro entry
    rw [listeners, List.mem_append, List.mem_singleton]
  refine ⟨?_, ?_, ?_⟩
  · refine
      { logged := by rw [log, sequence]; exact publishes.logged
        numbered := by rw [log]; exact publishes.numbered
        current := by rw [revisions_, value]; exact publishes.current
        queued := by
          rw [log, publications, delivering]
          exact publishes.queued
        unique := ?_
        attached := ?_
        rest := ?_
        looping := ?_ }
    · rw [listeners, List.map_append, List.nodup_append]
      refine ⟨publishes.unique, List.pairwise_singleton _ _, ?_⟩
      intro id isOld other isNew
      obtain ⟨entry, member, rfl⟩ := List.mem_map.mp isOld
      rw [List.mem_singleton.mp isNew]
      exact Nat.ne_of_lt (publishes.attached entry member).1
    · intro entry member
      rw [created, sequence]
      rcases (mem_listeners entry).mp member with isOld | rfl
      · obtain ⟨less, hydrated⟩ := publishes.attached entry isOld
        exact ⟨Nat.lt_succ_of_lt less, hydrated⟩
      · exact ⟨Nat.lt_succ_self _, Nat.le_refl _⟩
    · rw [delivering, created]
      intro publication rest inHand
      obtain ⟨unique, less⟩ := publishes.rest publication rest inHand
      exact ⟨unique, fun entry member => Nat.lt_succ_of_lt (less entry member)⟩
    · rw [delivering, stack]
      intro notIdle
      exact mem_cons_of_mem _ (publishes.looping notIdle)
  · intro id less
    rw [created] at less
    by_cases isNew : id = state.created
    · have isNext := subscribers id
      rw [if_pos isNew] at isNext
      have known : (state.revisions first)[state.sequence]? = some state.value := by
        rw [← publishes.current, List.getLast?_eq_getElem?, length_revisions publishes]
        rfl
      refine ⟨?_, ?_, ?_, ?_⟩
      · rw [revisions_, isNext]
        exact orderly_hydrated rfl known
      · rw [isNext]
        intro isClosed
        cases isClosed
      · rw [isNext]
        intro _
        refine ⟨state.sequence, ?_, _, rfl, ?_⟩
        · apply (mem_listeners _).mpr
          right
          rw [isNew]
        · have atMost := offered_le publishes id
          rw [offered_, Nat.max_eq_left atMost]
          rfl
      · rw [delivering]
        intro publication rest inHand _ entry member isId
        have inside := (publishes.rest publication rest inHand).2 entry member
        omega
    · have isOld : id < state.created := by
        omega
      have attached := serves.attached id isOld
      refine ⟨?_, ?_, ?_, ?_⟩
      · rw [revisions_, others id isOld]
        exact attached.orderly
      · rw [others id isOld]
        intro isClosed entry member
        rcases (mem_listeners entry).mp member with wasListed | rfl
        · exact attached.gone isClosed entry wasListed
        · exact fun equal => isNew equal.symm
      · rw [others id isOld, offered_]
        intro isOpen
        obtain ⟨hydratedSequence, isListed, newest⟩ := attached.open_ isOpen
        exact
          ⟨hydratedSequence, (mem_listeners _).mpr (.inl isListed), newest⟩
      · rw [others id isOld, delivering]
        intro publication rest inHand isOpen entry member isId
        apply (mem_listeners _).mpr
        left
        exact attached.rest publication rest inHand isOpen entry member isId
  · intro id less
    rw [created] at less
    by_cases isNew : id = state.created
    · have isNext := subscribers id
      rw [if_pos isNew] at isNext
      refine ⟨?_, ?_⟩
      · rw [isNext]
        intro running
        cases running
      · rw [stack, isNew]
        exact fun _ => .inr mem_cons_self
    · have isOld : id < state.created := by
        omega
      apply drains_of_same (others id isOld) _ (serves.drains id isOld)
      intro member
      rw [stack]
      exact mem_cons_of_mem _ member

/-! ## The loop of `publish` -/

structure Moves (state next : State α κ) : Prop where
  value : next.value = state.value
  sequence : next.sequence = state.sequence
  log : next.log = state.log
  listeners : next.listeners = state.listeners
  subscribers : next.subscribers = state.subscribers
  created : next.created = state.created
  queued :
    ∃ done, next.log = done ++ next.publications ∧
      (next.delivering = .idle → next.publications = []) ∧
      ∀ publication rest, next.delivering = .publication publication rest →
        done.getLast? = some publication
  rest :
    ∀ publication rest, next.delivering = .publication publication rest →
      (rest.map Prod.fst).Nodup ∧ ∀ entry ∈ rest,
        entry.1 < state.created ∧
          ((state.subscribers entry.1).closed = false → entry ∈ state.listeners)
  looping : next.delivering ≠ .idle → .publishing ∈ next.stack
  listening : ∀ id, .listening id ∈ state.stack → .listening id ∈ next.stack

section

variable (moves : Moves state next)
include moves

theorem publishes_moves (publishes : Publishes first state) :
    Publishes first next where
  logged := by
    rw [moves.log, moves.sequence]
    exact publishes.logged
  numbered := by
    rw [moves.log]
    exact publishes.numbered
  current := by
    rw [State.revisions, moves.log, moves.value]
    exact publishes.current
  queued := moves.queued
  unique := by
    rw [moves.listeners]
    exact publishes.unique
  attached := by
    rw [moves.listeners, moves.created, moves.sequence]
    exact publishes.attached
  rest := by
    rw [moves.created]
    intro publication later inHand
    obtain ⟨unique, inside⟩ := moves.rest publication later inHand
    exact ⟨unique, fun entry member => (inside entry member).1⟩
  looping := moves.looping

theorem attached_moves (attached : Attached first state id)
    (newest :
      (state.subscribers id).closed = false →
        ∀ hydratedSequence, (id, hydratedSequence) ∈ state.listeners →
        Newest (state.subscribers id) (max hydratedSequence (state.offered id)) →
        Newest (state.subscribers id) (max hydratedSequence (next.offered id))) :
    Attached first next id where
  orderly := by
    rw [State.revisions, moves.log, moves.subscribers]
    exact attached.orderly
  gone := by
    rw [moves.subscribers, moves.listeners]
    exact attached.gone
  open_ := by
    rw [moves.subscribers, moves.listeners]
    intro isOpen
    obtain ⟨hydratedSequence, isListed, isNewest⟩ := attached.open_ isOpen
    exact
      ⟨hydratedSequence, isListed, newest isOpen hydratedSequence isListed isNewest⟩
  rest := by
    rw [moves.subscribers, moves.listeners]
    intro publication later inHand isOpen entry member isId
    apply ((moves.rest publication later inHand).2 entry member).2
    rw [isId]
    exact isOpen

theorem drains_moves (drains : Drains state id) : Drains next id :=
  drains_of_same (congrFun moves.subscribers id) (moves.listening id) drains

end

theorem serves_moves (serves : Serves first state) (moves : Moves state next)
    (offered : ∀ entry ∈ state.listeners, next.offered entry.1 = state.offered entry.1) :
    Serves first next where
  publishes := publishes_moves moves serves.publishes
  attached := by
    intro id less
    rw [moves.created] at less
    apply attached_moves moves (serves.attached id less)
    intro _ hydratedSequence isListed newest
    rw [offered _ isListed]
    exact newest
  drains := by
    intro id less
    rw [moves.created] at less
    exact drains_moves moves (serves.drains id less)

theorem listed_once (publishes : Publishes first state) {one : ℕ}
    (isOne : (id, one) ∈ state.listeners) (isOther : (id, other) ∈ state.listeners) : one = other :=
  congrArg Prod.snd (List.inj_on_of_nodup_map publishes.unique isOne isOther rfl)

theorem handed_moves {entry : ℕ × ℕ} (serves : Serves first state)
    (inHand : state.delivering = .publication publication (entry :: rest)) :
    Moves state { state with delivering := .publication publication rest } := by
  have publishes := serves.publishes
  obtain ⟨unique, inside⟩ := publishes.rest _ _ inHand
  refine
    { value := rfl
      sequence := rfl
      log := rfl
      listeners := rfl
      subscribers := rfl
      created := rfl
      queued := ?_
      rest := ?_
      looping := ?_
      listening := fun _ member => member }
  · obtain ⟨done, isLog, _, isLast⟩ := publishes.queued
    refine ⟨done, isLog, ?_, ?_⟩
    · intro isIdle
      cases isIdle
    · intro other later isNow
      cases isNow
      exact isLast _ _ inHand
  · intro other later isNow
    cases isNow
    refine ⟨(List.nodup_cons.mp unique).2, ?_⟩
    intro other member
    have isInside := inside other (mem_cons_of_mem _ member)
    refine ⟨isInside, fun isOpen => ?_⟩
    exact
      (serves.attached other.1 isInside).rest _ _ inHand isOpen other
        (mem_cons_of_mem _ member) rfl
  · intro _
    apply publishes.looping
    rw [inHand]
    intro isIdle
    cases isIdle

theorem offered_handed {entry : ℕ × ℕ}
    (inHand : state.delivering = .publication publication (entry :: rest))
    (different : id ≠ entry.1) :
    State.offered
        { state with delivering := .publication publication rest } id =
      state.offered id := by
  have sameMember : id ∈ (entry :: rest).map Prod.fst ↔ id ∈ rest.map Prod.fst := by
    rw [List.map_cons, List.mem_cons, or_iff_right different]
  unfold State.offered
  rw [inHand]
  dsimp only
  simp only [sameMember]

theorem serves_handed {hydratedSequence : ℕ} (serves : Serves first state)
    (inHand : state.delivering = .publication publication ((id, hydratedSequence) :: rest)) :
    Serves first state.proceed := by
  have publishes := serves.publishes
  obtain ⟨isSequence, positive, isLogged⟩ := sequence_in_hand publishes inHand
  obtain ⟨unique, inside⟩ := publishes.rest _ _ inHand
  have isOnce := (List.nodup_cons.mp unique).1
  have less := inside _ mem_cons_self
  have attached := serves.attached id less
  have moves := handed_moves serves inHand
  have offeredHere : state.offered id = publication.sequence - 1 := by
    unfold State.offered
    rw [inHand]
    exact if_pos mem_cons_self
  have goingOther :
      ∀ other ≠ id,
        State.offered
            { state with delivering := .publication publication rest } other =
          state.offered other :=
    fun other different => offered_handed inHand different
  have goingHere :
      State.offered
          { state with delivering := .publication publication rest } id =
        publication.sequence :=
    if_neg isOnce
  have isProceed :
      state.proceed =
        if publication.sequence ≤ hydratedSequence then
          { state with delivering := .publication publication rest }
        else
          (State.pushTo { state with delivering := .publication publication rest } id
            (update publication)).drain id := by
    unfold State.proceed
    rw [inHand]
  have isListed :
      (state.subscribers id).closed = false → (id, hydratedSequence) ∈ state.listeners :=
    fun isOpen =>
      attached.rest _ _ inHand isOpen (id, hydratedSequence) mem_cons_self
        rfl
  rw [isProceed]
  generalize
    ({ state with delivering := .publication publication rest } : State α κ) = going at *
  by_cases seen : publication.sequence ≤ hydratedSequence
  · rw [if_pos seen]
    refine ⟨publishes_moves moves publishes, ?_, ?_⟩
    · intro other isOther
      rw [moves.created] at isOther
      apply attached_moves moves (serves.attached other isOther)
      intro isOpen hydrated listed newest
      by_cases isId : other = id
      · rw [isId] at isOpen listed newest ⊢
        have same := listed_once publishes listed (isListed isOpen)
        rw [offeredHere, same, Nat.max_eq_left (by omega)] at newest
        rw [goingHere, same, Nat.max_eq_left seen]
        exact newest
      · rw [goingOther other isId]
        exact newest
    · intro other isOther
      rw [moves.created] at isOther
      exact drains_moves moves (serves.drains other isOther)
  · rw [if_neg seen]
    have pushed : SameElsewhere id going (going.pushTo id (update publication)) :=
      setSubscriber_sameElsewhere going id _
    have same := same_trans pushed (drain_same _ id)
    have isPushed :
        (going.pushTo id (update publication)).subscribers id =
          (state.subscribers id).push (update publication) := by
      rw [← moves.subscribers]
      exact setSubscriber_same _ _ _
    have others :
        ∀ other < state.created, other ≠ id →
          Attached first going other := by
      intro other isOther different
      apply attached_moves moves (serves.attached other isOther)
      intro _ _ _ newest
      rw [goingOther other different]
      exact newest
    have here : Attached first (going.pushTo id (update publication)) id := by
      by_cases isClosed : (state.subscribers id).closed = true
      · apply attached_of_same pushed
        · rw [isPushed, push_closed _ isClosed, moves.subscribers]
        · apply attached_moves moves attached
          intro isOpen
          rw [isClosed] at isOpen
          cases isOpen
      · have isOpen := Bool.eq_false_iff.mpr isClosed
        obtain ⟨other, listed, newest⟩ := attached.open_ isOpen
        rw [listed_once publishes listed (isListed isOpen), offeredHere] at newest
        refine ⟨?_, ?_, ?_, ?_⟩
        · rw [revisions_same pushed, isPushed, State.revisions, moves.log]
          apply orderly_push attached.orderly isOpen newest
          · change publication.sequence = _
            omega
          · rfl
          · exact revision_of_logged publishes isLogged
        · rw [isPushed, (push_same _ _).2.2.2.1, isOpen]
          intro closed
          cases closed
        · rw [isPushed, pushed.listeners, moves.listeners, offered_same pushed, goingHere]
          intro _
          refine ⟨hydratedSequence, isListed isOpen, ?_⟩
          rw [Nat.max_eq_right (by omega)]
          exact newest_push isOpen attached.orderly.started
        · rw [isPushed, pushed.delivering, pushed.listeners, moves.listeners,
            (push_same _ _).2.2.2.1]
          intro now later isNow _ entry member isId
          apply ((moves.rest now later isNow).2 entry member).2
          rw [isId]
          exact isOpen
    have runs :
        ((going.pushTo id (update publication)).subscribers id).running = true →
          ((going.pushTo id (update publication)).subscribers id).awaiting = true ∨
            .listening id ∈ (going.pushTo id (update publication)).stack := by
      rw [isPushed, (push_same _ _).2.1, (push_same _ _).2.2.2.2]
      intro running
      rcases (serves.drains id less).runs running with awaiting | listening
      · exact .inl awaiting
      · exact .inr (moves.listening id listening)
    refine ⟨?_, ?_, ?_⟩
    · apply publishes_same same _ (publishes_moves moves publishes)
      intro frame member _
      exact drain_stack _ id frame member
    · intro other isOther
      rw [same.created, moves.created] at isOther
      by_cases isId : other = id
      · rw [isId]
        exact (drain_attached here runs).1
      · exact attached_of_same same (same.others other isId) (others other isOther isId)
    · intro other isOther
      rw [same.created, moves.created] at isOther
      by_cases isId : other = id
      · rw [isId]
        exact (drain_attached here runs).2
      · exact
          drains_of_same (same.others other isId) (fun member => drain_stack _ id _ member)
            (drains_moves moves (serves.drains other isOther))

theorem mem_tail_of_publishing {stack rest : List Frame} (isStack : stack = .publishing :: rest)
    (member : .listening id ∈ stack) : .listening id ∈ stack.tail := by
  rw [isStack] at member ⊢
  exact mem_of_ne_of_mem (by intro equal; cases equal) member

theorem serves_proceed {rest : List Frame} (serves : Serves first state)
    (isStack : state.stack = .publishing :: rest) : Serves first state.proceed := by
  have publishes := serves.publishes
  obtain ⟨done, isLog, nothing, isHand⟩ := publishes.queued
  have popped : ∀ id, .listening id ∈ state.stack → .listening id ∈ state.stack.tail :=
    fun id member => mem_tail_of_publishing isStack member
  have listed :
      ∀ entry ∈ state.listeners, entry.1 < state.created ∧
        ((state.subscribers entry.1).closed = false → entry ∈ state.listeners) :=
    fun entry member => ⟨(publishes.attached entry member).1, fun _ => member⟩
  cases inHand : state.delivering with
  | idle =>
    have isProceed : state.proceed = { state with stack := state.stack.tail } := by
      unfold State.proceed
      rw [inHand]
    rw [isProceed]
    refine serves_moves serves ⟨rfl, rfl, rfl, rfl, rfl, rfl,
      publishes.queued, ?_, ?_, popped⟩ (fun _ _ => rfl)
    · intro publication later isNow
      rw [inHand] at isNow
      cases isNow
    · intro notIdle
      exact absurd inHand notIdle
  | next =>
    cases isQueue : state.publications with
    | nil =>
      have isProceed :
          state.proceed =
            { state with
              delivering := .idle
              stack := state.stack.tail } := by
        unfold State.proceed
        rw [inHand, isQueue]
      rw [isProceed]
      refine serves_moves serves ⟨rfl, rfl, rfl, rfl, rfl, rfl,
        ⟨done, isLog, fun _ => isQueue, ?_⟩, ?_, ?_, popped⟩ ?_
      · intro publication later isNow
        cases isNow
      · intro publication later isNow
        cases isNow
      · intro notIdle
        exact absurd rfl notIdle
      · intro entry _
        unfold State.offered
        rw [inHand]
    | cons publication queue =>
      have isProceed :
          state.proceed =
            { state with
              publications := queue
              delivering := .publication publication state.listeners } := by
        unfold State.proceed
        rw [inHand, isQueue]
      have isAt : state.log[done.length]? = some publication := by
        rw [isLog, isQueue, List.getElem?_append_right (Nat.le_refl _), Nat.sub_self]
        rfl
      have numbered := publishes.numbered _ _ isAt
      have length := publishes.logged
      rw [isLog, isQueue, length_append, length_cons] at length
      rw [isProceed]
      refine serves_moves serves ⟨rfl, rfl, rfl, rfl, rfl, rfl,
        ⟨done ++ [publication], ?_, ?_, ?_⟩, ?_, ?_,
        fun _ member => member⟩ ?_
      · rw [isLog, isQueue, append_assoc]
        rfl
      · intro isIdle
        cases isIdle
      · intro other later isNow
        cases isNow
        exact List.getLast?_concat
      · intro other later isNow
        cases isNow
        exact ⟨publishes.unique, listed⟩
      · intro _
        apply publishes.looping
        rw [inHand]
        intro isIdle
        cases isIdle
      · intro entry member
        unfold State.offered
        rw [inHand]
        dsimp only
        rw [if_pos (List.mem_map_of_mem member), isQueue, length_cons]
        omega
  | publication publication later =>
    obtain ⟨isSequence, _, _⟩ := sequence_in_hand publishes inHand
    cases later with
    | nil =>
      have isProceed : state.proceed = { state with delivering := .next } := by
        unfold State.proceed
        rw [inHand]
      rw [isProceed]
      refine serves_moves serves ⟨rfl, rfl, rfl, rfl, rfl, rfl,
        ⟨done, isLog, ?_, ?_⟩, ?_, ?_, fun _ member => member⟩ ?_
      · intro isIdle
        cases isIdle
      · intro other later isNow
        cases isNow
      · intro other later isNow
        cases isNow
      · intro _
        apply publishes.looping
        rw [inHand]
        intro isIdle
        cases isIdle
      · intro entry _
        unfold State.offered
        rw [inHand]
        dsimp only
        rw [List.map_nil, if_neg not_mem_nil]
        omega
    | cons entry later =>
      obtain ⟨id, hydratedSequence⟩ := entry
      exact serves_handed serves inHand

/-! ## Runs -/

theorem serves_step (serves : Serves first state) (event : Event α κ) :
    Serves first (state.step background event) := by
  unfold State.step
  cases event with
  | publish value context =>
    dsimp only
    split
    · exact serves_publish value context serves
    · exact serves
  | subscribe =>
    dsimp only
    split
    · exact serves_subscribe background serves
    · exact serves
  | unsubscribe id =>
    dsimp only
    split
    · exact serves_unsubscribe id serves
    · exact serves
  | returned =>
    dsimp only
    split
    · rename_i isStack
      exact serves_returned serves isStack
    · exact serves
  | promised =>
    dsimp only
    split
    · rename_i isStack
      exact serves_promised serves isStack
    · exact serves
  | resume id =>
    dsimp only
    split
    · exact serves_resume id serves
    · exact serves
  | proceed =>
    dsimp only
    split
    · rename_i isStack
      exact serves_proceed serves isStack
    · exact serves

def run (background : κ) (first : α) (events : List (Event α κ)) : State α κ :=
  Runs.after (State.step background) (State.initial first) events

theorem serves_run (first : α) (events : List (Event α κ)) :
    Serves first (run background first events) :=
  Runs.after_invariant (State.step background) (Serves first)
    (fun _ event serves => serves_step background serves event)
    (serves_initial first) events

/-- What a listener has been called with: one hydration, then updates with
increasing sequences, each the value of its revision; without an overflow none
is skipped. -/
structure Received (revisions : List α) (subscriber : StateSubscriber α κ) :
    Prop where
  hydrated :
    ∃ hydration updates, subscriber.delivered = hydration :: updates ∧
      hydration.kind = .hydrate ∧ ∀ update ∈ updates, update.kind = .update
  increasing : subscriber.delivered.Pairwise fun first second => first.sequence < second.sequence
  exact_ : ∀ frame ∈ subscriber.delivered, revisions[frame.sequence]? = some frame.value
  consecutive :
    subscriber.overflowed = false →
      ∃ first, subscriber.delivered.map StateDelivery.sequence =
        List.range' first subscriber.delivered.length
  bounded : subscriber.pending.length ≤ QUEUE_LIMIT

theorem received_of_orderly {revisions : List α} {subscriber : StateSubscriber α κ}
    (orderly : Orderly revisions subscriber) : Received revisions subscriber := by
  have closed := orderly_close orderly
  have isFrames : subscriber.close.frames = subscriber.delivered := List.append_nil _
  refine ⟨?_, ?_, ?_, ?_, orderly.bounded⟩
  · obtain ⟨hydration, updates, isDelivered, isHydrate, areUpdates⟩ :=
      orderly.hydrated
    exact
      ⟨hydration, updates, isDelivered, isHydrate, fun update member =>
        areUpdates update (List.mem_append_left _ member)⟩
  · rw [← isFrames]
    exact closed.increasing
  · rw [← isFrames]
    exact closed.known
  · rw [← isFrames]
    exact closed.consecutive

/-- Between callbacks a subscriber that waits for no promise has an empty queue;
with an empty queue, the last delivery is the newest publication. -/
structure Settled (state : State α κ) (subscriber : StateSubscriber α κ) :
    Prop where
  drained : subscriber.awaiting = false → subscriber.pending = []
  newest :
    subscriber.pending = [] →
      ∃ last, subscriber.delivered.getLast? = some last ∧
        last.sequence = state.sequence ∧ last.value = state.value

theorem settled_of_serves {first : α} {state : State α κ} (serves : Serves first state)
    (quiet : state.stack = []) {id : ℕ} (less : id < state.created)
    (isOpen : (state.subscribers id).closed = false) :
    Settled state (state.subscribers id) where
  drained := by
    intro notAwaiting
    have drains := serves.drains id less
    apply drains.drained
    apply Bool.eq_false_iff.mpr
    intro running
    rcases drains.runs running with awaiting | listening
    · rw [notAwaiting] at awaiting
      cases awaiting
    · rw [quiet] at listening
      exact not_mem_nil listening
  newest := by
    intro nothing
    have publishes := serves.publishes
    have attached := serves.attached id less
    have isIdle : state.delivering = .idle := by
      by_contra busy
      have member := publishes.looping busy
      rw [quiet] at member
      exact not_mem_nil member
    obtain ⟨_, _, isEmpty, _⟩ := publishes.queued
    obtain ⟨hydratedSequence, isListed, last, isLast, isSequence⟩ := attached.open_ isOpen
    have hydrated := (publishes.attached _ isListed).2
    have offered : state.offered id = state.sequence := by
      unfold State.offered
      rw [isIdle, isEmpty isIdle]
      rfl
    rw [offered, Nat.max_eq_right hydrated] at isSequence
    have known := attached.orderly.known last (List.mem_of_getLast? isLast)
    have current := publishes.current
    rw [List.getLast?_eq_getElem?, length_revisions publishes, Nat.add_sub_cancel] at current
    rw [isSequence, current] at known
    refine ⟨last, ?_, isSequence, (Option.some.inj known).symm⟩
    rwa [StateSubscriber.frames, nothing, List.append_nil] at isLast

/-- Every subscriber of every run is hydrated first and updated in order; once
its queue drains, it has the newest value. -/
theorem subscription_in_order (background : κ) (first : α) (events : List (Event α κ)) (id : ℕ)
    (subscribed : id < (run background first events).created) :
    Received ((run background first events).revisions first)
        ((run background first events).subscribers id) ∧
      ((run background first events).stack = [] →
        ((run background first events).subscribers id).closed = false →
        Settled (run background first events) ((run background first events).subscribers id)) := by
  have serves := serves_run background first events
  refine ⟨?_, ?_⟩
  · exact received_of_orderly (serves.attached id subscribed).orderly
  · intro quiet isOpen
    exact settled_of_serves serves quiet subscribed isOpen

/-- A listener that publishes while it is hydrated, then a second subscriber:
each sees its hydration, and the first one the update. -/
def reentrant : List (Event ℕ Unit) :=
  [.subscribe, .publish 8 (), .proceed, .proceed, .proceed, .proceed, .returned,
    .returned, .subscribe, .returned]

theorem subscription_in_order_reentrant :
    Received ((run () 7 reentrant).revisions 7) ((run () 7 reentrant).subscribers 0) ∧
      ((run () 7 reentrant).stack = [] → ((run () 7 reentrant).subscribers 0).closed = false →
        Settled (run () 7 reentrant) ((run () 7 reentrant).subscribers 0)) :=
  subscription_in_order () 7 reentrant 0 (by decide)

end PiEmbodied.Chord.ReplicatedState
