import PiEmbodied.Runs

/-!
# Replicated state

Subscriptions of a replicated state.  A publisher hands every publication to its
subscribers; a subscriber queues what comes while its listener runs.  Listeners
may publish, subscribe and unsubscribe, and may answer with a promise.
-/

namespace PiEmbodied.Chord.ReplicatedState

/-! ## Subscribers -/

inductive DeliveryKind where
  | hydrate
  | update
  deriving DecidableEq

structure StateDelivery (α κ : Type) where
  value : α
  context : κ
  kind : DeliveryKind
  sequence : ℕ
  deriving DecidableEq

structure StateSubscriber (α κ : Type) where
  pending : List (StateDelivery α κ) := []
  running : Bool := false
  started : Bool := false
  closed : Bool := false
  /-- The promise of the last callback is not settled yet. -/
  awaiting : Bool := false
  /-- What the listener was called with, in order. -/
  delivered : List (StateDelivery α κ) := []
  /-- Whether the queue ever collapsed. -/
  overflowed : Bool := false
  deriving DecidableEq

def QUEUE_LIMIT : ℕ := 100

namespace StateSubscriber

variable {α κ : Type}

def push (subscriber : StateSubscriber α κ) (frame : StateDelivery α κ) :
    StateSubscriber α κ :=
  if subscriber.closed then subscriber
  else if subscriber.pending.length = QUEUE_LIMIT then
    -- before the first callback the hydration stays
    let hydration := if subscriber.started then [] else subscriber.pending.take 1
    { subscriber with pending := hydration ++ [frame], overflowed := true }
  else { subscriber with pending := subscriber.pending ++ [frame] }

def close (subscriber : StateSubscriber α κ) : StateSubscriber α κ :=
  { subscriber with closed := true, pending := [] }

def frames (subscriber : StateSubscriber α κ) : List (StateDelivery α κ) :=
  subscriber.delivered ++ subscriber.pending

end StateSubscriber

/-! ## The publisher -/

structure Publication (α κ : Type) where
  value : α
  sequence : ℕ
  context : κ
  deriving DecidableEq

/-- The loop of `publish`, of which at most one runs at a time. -/
inductive Delivering (α κ : Type) where
  | idle
  /-- Before the next publication. -/
  | next
  /-- The subscribers that this publication has not come to, with the sequences
  they were hydrated at. -/
  | publication (publication : Publication α κ) (rest : List (ℕ × ℕ))
  deriving DecidableEq

/-- What runs: a listener, or the loop of `publish`. -/
inductive Frame where
  | listening (id : ℕ)
  | publishing
  deriving DecidableEq

structure State (α κ : Type) where
  value : α
  sequence : ℕ
  publications : List (Publication α κ)
  delivering : Delivering α κ
  /-- The open subscribers with the sequences they were hydrated at. -/
  listeners : List (ℕ × ℕ)
  subscribers : ℕ → StateSubscriber α κ
  created : ℕ
  stack : List Frame
  /-- Every publication so far. -/
  log : List (Publication α κ)

inductive Event (α κ : Type) where
  | publish (value : α) (context : κ)
  | subscribe
  | unsubscribe (id : ℕ)
  /-- The listener returned a plain value, or threw and was reported. -/
  | returned
  /-- The listener returned a promise. -/
  | promised
  /-- A promise settled. -/
  | resume (id : ℕ)
  /-- The loop of `publish` goes on. -/
  | proceed
  deriving DecidableEq

namespace State

variable {α κ : Type}

def initial (value : α) : State α κ where
  value := value
  sequence := 0
  publications := []
  delivering := .idle
  listeners := []
  subscribers := fun _ => {}
  created := 0
  stack := []
  log := []

def setSubscriber (state : State α κ) (id : ℕ) (subscriber : StateSubscriber α κ) : State α κ :=
  { state with
    subscribers := fun other =>
      if other = id then subscriber else state.subscribers other }

/-- One turn of the loop of `drain`: the next callback, or its end. -/
def drainNext (state : State α κ) (id : ℕ) : State α κ :=
  let subscriber := state.subscribers id
  match subscriber.pending with
  | [] => state.setSubscriber id { subscriber with running := false }
  | frame :: rest =>
    { state.setSubscriber id
        { subscriber with
          running := true
          pending := rest
          started := true
          delivered := subscriber.delivered ++ [frame] } with
      stack := .listening id :: state.stack }

def drain (state : State α κ) (id : ℕ) : State α κ :=
  let subscriber := state.subscribers id
  if subscriber.running || subscriber.closed then state
  else state.drainNext id

def pushTo (state : State α κ) (id : ℕ) (frame : StateDelivery α κ) :
    State α κ :=
  state.setSubscriber id ((state.subscribers id).push frame)

def userCode (state : State α κ) : Bool :=
  match state.stack with
  | [] | .listening _ :: _ => true
  | .publishing :: _ => false

def publish (state : State α κ) (value : α) (context : κ) : State α κ :=
  let publication := ⟨value, state.sequence + 1, context⟩
  let published :=
    { state with
      value := value
      sequence := state.sequence + 1
      publications := state.publications ++ [publication]
      log := state.log ++ [publication] }
  match state.delivering with
  | .idle =>
    { published with
      delivering := .next
      stack := .publishing :: state.stack }
  | _ => published

def subscribe (background : κ) (state : State α κ) : State α κ :=
  let id := state.created
  let added :=
    { state.setSubscriber id {} with
      created := id + 1
      listeners := state.listeners ++ [(id, state.sequence)] }
  let hydration := ⟨state.value, background, .hydrate, state.sequence⟩
  (added.pushTo id hydration).drain id

def unsubscribe (state : State α κ) (id : ℕ) : State α κ :=
  { state.setSubscriber id (state.subscribers id).close with
    listeners := state.listeners.filter fun entry => entry.1 ≠ id }

def update (publication : Publication α κ) : StateDelivery α κ :=
  ⟨publication.value, publication.context, .update, publication.sequence⟩

/-- The loop of `publish` goes on, after a callback that it made or at its
start. -/
def proceed (state : State α κ) : State α κ :=
  match state.delivering with
  | .idle => { state with stack := state.stack.tail }
  | .next =>
    match state.publications with
    | [] => { state with delivering := .idle, stack := state.stack.tail }
    | publication :: rest =>
      { state with
        publications := rest
        delivering := .publication publication state.listeners }
  | .publication _ [] => { state with delivering := .next }
  | .publication publication ((id, hydratedSequence) :: rest) =>
    let going := { state with delivering := .publication publication rest }
    if publication.sequence ≤ hydratedSequence then going
    else (going.pushTo id (update publication)).drain id

def step (background : κ) (state : State α κ) : Event α κ → State α κ
  | .publish value context =>
    if state.userCode then state.publish value context else state
  | .subscribe =>
    if state.userCode then state.subscribe background else state
  | .unsubscribe id =>
    if state.userCode && decide (id < state.created) then
      state.unsubscribe id
    else state
  | .returned =>
    match state.stack with
    | .listening id :: rest => { state with stack := rest }.drainNext id
    | _ => state
  | .promised =>
    match state.stack with
    | .listening id :: rest =>
      { state.setSubscriber id
          { state.subscribers id with awaiting := true } with
        stack := rest }
    | _ => state
  | .resume id =>
    -- a microtask: no other code runs
    if state.stack = [] ∧ (state.subscribers id).awaiting then
      (state.setSubscriber id
        { state.subscribers id with
          awaiting := false
          running := false }).drain id
    else state
  | .proceed =>
    match state.stack with
    | .publishing :: _ => state.proceed
    | _ => state

def revisions (first : α) (state : State α κ) : List α :=
  first :: state.log.map Publication.value

end State

/-! ## What a subscriber has been handed -/

open StateSubscriber State

variable {α κ : Type}

/-- A subscriber's frames: a hydration, then updates in order, each with the
value of its revision. -/
structure Orderly (revisions : List α) (subscriber : StateSubscriber α κ) :
    Prop where
  hydrated :
    ∃ hydration updates, subscriber.delivered = hydration :: updates ∧ hydration.kind = .hydrate ∧
      ∀ update ∈ updates ++ subscriber.pending, update.kind = .update
  increasing : subscriber.frames.Pairwise fun first second => first.sequence < second.sequence
  known : ∀ frame ∈ subscriber.frames, revisions[frame.sequence]? = some frame.value
  bounded : subscriber.pending.length ≤ QUEUE_LIMIT
  started : subscriber.started = true
  closed : subscriber.closed = true → subscriber.pending = []
  consecutive :
    subscriber.overflowed = false →
      ∃ first, subscriber.frames.map StateDelivery.sequence =
        List.range' first subscriber.frames.length

variable {subscriber : StateSubscriber α κ}

theorem orderly_more {revisions : List α} (orderly : Orderly revisions subscriber) (value : α) :
    Orderly (revisions ++ [value]) subscriber :=
  { orderly with
    known := by
      intro frame member
      have known := orderly.known frame member
      have inside := (List.getElem?_eq_some_iff.mp known).1
      rw [List.getElem?_append_left inside]
      exact known }

def Newest (subscriber : StateSubscriber α κ) (sequence : ℕ) : Prop :=
  ∃ newest, subscriber.frames.getLast? = some newest ∧ newest.sequence = sequence

variable {sequence : ℕ}

theorem le_newest {revisions : List α} (orderly : Orderly revisions subscriber)
    (newest : Newest subscriber sequence) :
    ∀ frame ∈ subscriber.frames, frame.sequence ≤ sequence := by
  obtain ⟨last, isLast, rfl⟩ := newest
  obtain ⟨earlier, isFrames⟩ := List.getLast?_eq_some_iff.mp isLast
  have increasing := orderly.increasing
  rw [isFrames] at increasing ⊢
  intro frame member
  rcases List.mem_append.mp member with isEarlier | isNewest
  · have less :=
      (List.pairwise_append.mp increasing).2.2 frame isEarlier last (List.mem_singleton_self last)
    exact Nat.le_of_lt less
  · rw [List.mem_singleton.mp isNewest]

theorem push_pending (frame : StateDelivery α κ) (isOpen : subscriber.closed = false)
    (started : subscriber.started = true) :
    ∃ kept, (subscriber.push frame).pending = kept ++ [frame] ∧
      (kept = [] ∧ (subscriber.push frame).overflowed = true ∨
        kept = subscriber.pending ∧ subscriber.pending.length ≠ QUEUE_LIMIT ∧
          (subscriber.push frame).overflowed = subscriber.overflowed) := by
  unfold StateSubscriber.push
  rw [if_neg (by rw [isOpen]; exact Bool.false_ne_true)]
  by_cases full : subscriber.pending.length = QUEUE_LIMIT
  · rw [if_pos full]
    refine ⟨[], ?_, Or.inl ⟨rfl, rfl⟩⟩
    simp only [started, if_true]
  · rw [if_neg full]
    exact ⟨subscriber.pending, rfl, Or.inr ⟨rfl, full, rfl⟩⟩

theorem push_same (subscriber : StateSubscriber α κ) (frame : StateDelivery α κ) :
    (subscriber.push frame).delivered = subscriber.delivered ∧
      (subscriber.push frame).running = subscriber.running ∧
      (subscriber.push frame).started = subscriber.started ∧
      (subscriber.push frame).closed = subscriber.closed ∧
      (subscriber.push frame).awaiting = subscriber.awaiting := by
  unfold StateSubscriber.push
  by_cases isClosed : subscriber.closed = true
  · rw [if_pos isClosed]
    exact ⟨rfl, rfl, rfl, rfl, rfl⟩
  · rw [if_neg isClosed]
    by_cases full : subscriber.pending.length = QUEUE_LIMIT
    · rw [if_pos full]
      exact ⟨rfl, rfl, rfl, rfl, rfl⟩
    · rw [if_neg full]
      exact ⟨rfl, rfl, rfl, rfl, rfl⟩

theorem push_closed (frame : StateDelivery α κ) (isClosed : subscriber.closed = true) :
    subscriber.push frame = subscriber := by
  unfold StateSubscriber.push
  rw [if_pos isClosed]

variable {frame : StateDelivery α κ}

theorem newest_push (isOpen : subscriber.closed = false) (started : subscriber.started = true) :
    Newest (subscriber.push frame) frame.sequence := by
  obtain ⟨kept, isPending, _⟩ := push_pending frame isOpen started
  refine ⟨frame, ?_, rfl⟩
  rw [StateSubscriber.frames, isPending, ← List.append_assoc]
  exact List.getLast?_concat

/-- A newer update keeps the frames in order, whether the queue collapses or
not. -/
theorem orderly_push {revisions : List α} (orderly : Orderly revisions subscriber)
    (isOpen : subscriber.closed = false) (newest : Newest subscriber sequence)
    (isNext : frame.sequence = sequence + 1) (isUpdate : frame.kind = .update)
    (known : revisions[frame.sequence]? = some frame.value) :
    Orderly revisions (subscriber.push frame) := by
  obtain ⟨kept, isPending, isKept⟩ := push_pending frame isOpen orderly.started
  obtain ⟨sameDelivered, _, sameStarted, sameClosed, _⟩ := push_same subscriber frame
  have keptSublist : kept.Sublist subscriber.pending := by
    rcases isKept with ⟨rfl, _⟩ | ⟨rfl, _⟩
    · exact List.nil_sublist _
    · exact List.Sublist.refl _
  have isFrames : (subscriber.push frame).frames = (subscriber.delivered ++ kept) ++ [frame] := by
    rw [StateSubscriber.frames, isPending, sameDelivered, List.append_assoc]
  have framesSublist : (subscriber.delivered ++ kept).Sublist subscriber.frames :=
    List.Sublist.append (List.Sublist.refl _) keptSublist
  refine
    { hydrated := ?_
      increasing := ?_
      known := ?_
      bounded := ?_
      started := by rw [sameStarted]; exact orderly.started
      closed := ?_
      consecutive := ?_ }
  · obtain ⟨hydration, updates, isDelivered, isHydrate, areUpdates⟩ :=
      orderly.hydrated
    refine ⟨hydration, updates, ?_, isHydrate, ?_⟩
    · rw [sameDelivered, isDelivered]
    · intro update member
      rw [isPending, ← List.append_assoc] at member
      rcases List.mem_append.mp member with isOld | isNew
      · apply areUpdates
        rcases List.mem_append.mp isOld with isDone | isKept
        · exact List.mem_append_left _ isDone
        · exact List.mem_append_right _ (keptSublist.subset isKept)
      · rw [List.mem_singleton.mp isNew]
        exact isUpdate
  · rw [isFrames, List.pairwise_append]
    refine ⟨orderly.increasing.sublist framesSublist, ?_, ?_⟩
    · exact List.pairwise_singleton _ _
    · intro earlier isEarlier last isLast
      have atMost := le_newest orderly newest earlier (framesSublist.subset isEarlier)
      rw [List.mem_singleton.mp isLast, isNext]
      omega
  · intro other member
    rw [isFrames] at member
    rcases List.mem_append.mp member with isOld | isNew
    · exact orderly.known other (framesSublist.subset isOld)
    · rw [List.mem_singleton.mp isNew]
      exact known
  · rw [isPending, List.length_append, List.length_singleton]
    have bounded := orderly.bounded
    rcases isKept with ⟨rfl, _⟩ | ⟨rfl, notFull, _⟩
    · exact Nat.succ_le_succ (Nat.zero_le 99)
    · omega
  · intro isClosed
    rw [sameClosed, isOpen] at isClosed
    cases isClosed
  · intro fits
    rcases isKept with ⟨_, overflowed⟩ | ⟨rfl, _, sameOverflowed⟩
    · rw [overflowed] at fits
      cases fits
    · rw [sameOverflowed] at fits
      obtain ⟨first, isRange⟩ := orderly.consecutive fits
      refine ⟨first, ?_⟩
      obtain ⟨last, isLast, rfl⟩ := newest
      rw [isFrames, List.map_append, List.length_append, List.length_singleton]
      have isRange_ :
          (subscriber.delivered ++ subscriber.pending).map StateDelivery.sequence =
            List.range' first (subscriber.delivered ++ subscriber.pending).length :=
        isRange
      rw [isRange_, List.range'_concat]
      obtain ⟨earlier, isAll⟩ := List.getLast?_eq_some_iff.mp isLast
      have isAll_ : subscriber.delivered ++ subscriber.pending = earlier ++ [last] := isAll
      rw [isAll_, List.map_append, List.length_append, List.length_singleton,
        List.range'_concat] at isRange_
      have lastIs := (List.append_inj' isRange_ rfl).2
      simp only [List.map_cons, List.map_nil, List.cons.injEq, and_true, Nat.one_mul] at lastIs
      rw [List.map_cons, List.map_nil, isNext, lastIs, isAll_,
        List.length_append, List.length_singleton]
      congr 2
      omega

theorem orderly_close {revisions : List α} (orderly : Orderly revisions subscriber) :
    Orderly revisions subscriber.close := by
  have isFrames : subscriber.close.frames = subscriber.delivered := List.append_nil _
  have sublist : subscriber.delivered.Sublist subscriber.frames := List.sublist_append_left _ _
  refine
    { hydrated := ?_
      increasing := ?_
      known := ?_
      bounded := Nat.zero_le _
      started := orderly.started
      closed := fun _ => rfl
      consecutive := ?_ }
  · obtain ⟨hydration, updates, isDelivered, isHydrate, areUpdates⟩ :=
      orderly.hydrated
    refine ⟨hydration, updates, isDelivered, isHydrate, ?_⟩
    intro update member
    apply areUpdates
    rcases List.mem_append.mp member with isDone | isPending
    · exact List.mem_append_left _ isDone
    · exact absurd isPending List.not_mem_nil
  · rw [isFrames]
    exact orderly.increasing.sublist sublist
  · intro frame member
    rw [isFrames] at member
    exact orderly.known frame (sublist.subset member)
  · intro fits
    obtain ⟨first, isRange⟩ := orderly.consecutive fits
    refine ⟨first, ?_⟩
    rw [StateSubscriber.frames, List.map_append, List.length_append,
      ← List.range'_append_1] at isRange
    rw [isFrames]
    apply List.append_inj_left isRange
    rw [List.length_map, List.length_range']

end PiEmbodied.Chord.ReplicatedState
