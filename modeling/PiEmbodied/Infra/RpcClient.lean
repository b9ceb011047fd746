import PiEmbodied.Runs

/-!
# The calls of an RPC client

Calls to one endpoint wait behind each other, each on the answer to the one
before it.  A timeout or an abort releases the caller; the server still runs a
call that was sent, and an abort asks it to stop on a request that waits for
nothing.
-/

namespace PiEmbodied.Infra.RpcClient

/-! ## Calls -/

/-- How far the promise `answered` of a call has come. -/
inductive Phase where
  /-- It awaits the answer to the previous call. -/
  | waiting
  | posted
  /-- It is settled. -/
  | «over»
  /-- Its `finally` has run as well. -/
  | retired
deriving DecidableEq

def Phase.done : Phase → Bool
  | «over» | retired => true
  | _ => false

theorem Phase.posted_of_done {phase : Phase} {sent : Bool} (isDone : phase.done = true) :
    (phase = .posted → sent = true) ∧ (sent = true → phase ≠ .waiting) := by
  cases phase <;> simp_all [done]

/-- `timer` and `listening` tell that the timeout, and the listener of the
abort signal, are still set; `grace` counts the timers of `graceMs`. -/
structure Call where
  previous : Option ℕ
  phase : Phase
  (sent gaveUp timer listening : Bool)
  grace : ℕ
deriving DecidableEq

/-- One endpoint.  A call that is refused at once has a number and nothing
else.  `busy` and `dead` are the entries of the endpoint in the two maps. -/
structure World where
  calls : ℕ → Option Call
  made : ℕ
  busy : Option ℕ
  dead : Bool
  /-- The calls posted so far, in order. -/
  sends : List ℕ
  /-- The calls whose promise has settled, in order. -/
  settled : List ℕ
  /-- The calls the server still has, on the way to it or running. -/
  serving : List ℕ
  /-- The stops on their way to the server, and the calls they are for. -/
  stops : List (Option ℕ)
  /-- The calls that stops found at the server. -/
  struck : List (Option ℕ × ℕ)

inductive CallEvent where
  /-- It goes on behind the previous call. -/
  | leave
  | reply
  /-- Its connection fails. -/
  | fail
  | timeout
  | abort
  | graceEnds
  /-- The `finally` of `answered` runs. -/
  | retire
  /-- The `finally` of the call runs. -/
  | detach
deriving DecidableEq

inductive Event where
  | call (aborted : Bool)
  | on (id : ℕ) (event : CallEvent)
  /-- The server has answered the call, or has dropped it. -/
  | finish (id : ℕ)
  | interrupt
  | stopArrives (place : ℕ)
  | forgetUnresponsive
deriving DecidableEq

namespace World

def initial : World where
  calls := fun _ => none
  made := 0
  busy := none
  dead := false
  sends := []
  settled := []
  serving := []
  stops := []
  struck := []

def put (world : World) (id : ℕ) (call : Call) : World :=
  { world with calls := Function.update world.calls id (some call) }

def settle (world : World) (id : ℕ) : World :=
  { world with
    settled :=
      if id ∈ world.settled then world.settled else world.settled ++ [id] }

/-- The call has no slot, or its `answered` is settled. -/
def isDone (world : World) (id : ℕ) : Bool :=
  (world.calls id).all (·.phase.done)

def isPosted (world : World) (id : ℕ) : Bool :=
  (world.calls id).any (·.phase = .posted)

def call (world : World) (aborted : Bool) : World :=
  if aborted ∨ world.dead then
    { world with
      made := world.made + 1
      settled := world.settled ++ [world.made] }
  else
    { world.put world.made
        { previous := world.busy
          phase := .waiting
          sent := false
          gaveUp := false
          timer := true
          listening := true
          grace := 0 } with
      made := world.made + 1
      busy := some world.made }

/-- `answered` settles, and with it the call that nothing has released. -/
def answer (world : World) (id : ℕ) (call : Call) : World :=
  (world.put id { call with phase := .«over» }).settle id

def post (world : World) (id : ℕ) (call : Call) : World :=
  { world.put id { call with phase := .posted, sent := true } with
    sends := world.sends ++ [id]
    serving := world.serving ++ [id] }

def release (world : World) (id : ℕ) (call : Call) : World :=
  (world.put id
    { call with
      gaveUp := true
      grace := if call.sent then call.grace + 1 else call.grace }).settle id

def interruptFor (world : World) (id : ℕ) (call : Call) : World :=
  { world with
    stops := if call.sent then world.stops ++ [some id] else world.stops }

def isReady (world : World) (id : ℕ) (call : Call) : CallEvent → Bool
  | .leave => call.phase = .waiting && call.previous.all world.isDone
  | .reply => call.phase = .posted && !world.serving.contains id
  | .fail => call.phase = .posted
  | .timeout => call.timer
  | .abort => call.listening
  | .graceEnds => call.grace ≠ 0
  | .retire => call.phase = .«over»
  | .detach => world.settled.contains id

def act (world : World) (id : ℕ) (call : Call) : CallEvent → World
  | .leave =>
    if call.gaveUp ∨ world.dead then world.answer id call
    else world.post id call
  | .reply | .fail => world.answer id call
  | .timeout => world.release id { call with timer := false }
  | .abort => (world.interruptFor id call).release id { call with listening := false }
  | .graceEnds =>
    let call := { call with grace := call.grace - 1 }
    if call.phase = .posted then { world with dead := true }.answer id call
    else { world with dead := true }.put id call
  | .retire =>
    { world.put id { call with phase := .retired, grace := call.grace - 1 } with
      busy := if world.busy = some id then none else world.busy }
  | .detach => world.put id { call with timer := false, listening := false }

def onCall (world : World) (id : ℕ) (event : CallEvent) : World :=
  match world.calls id with
  | none => world
  | some call =>
    if world.isReady id call event then world.act id call event else world

def step (world : World) : Event → World
  | .call aborted => world.call aborted
  | .on id event => world.onCall id event
  | .finish id => { world with serving := world.serving.erase id }
  | .interrupt => { world with stops := world.stops ++ [none] }
  | .stopArrives place =>
    match world.stops[place]? with
    | none => world
    | some issuedFor =>
      { world with
        stops := world.stops.eraseIdx place
        struck := world.struck ++ world.serving.map (issuedFor, ·) }
  | .forgetUnresponsive => { world with dead := false }

def after (world : World) (events : List Event) : World :=
  Runs.after step world events

/-- The calls go to the server in the order they were made in, and the promise
of each settles once, at its timeout at the latest. -/
structure Serial (world : World) : Prop where
  inOrder : world.sends.Pairwise (· < ·)
  once : world.settled.Nodup
  settles : ∀ id < world.made, id ∈ world.settled ∨ id ∈ (world.step (.on id .timeout)).settled
  /-- A call that was refused, or given up on before it was sent, is never
  sent. -/
  unsent : ∀ id < world.made, ((world.calls id).all fun call => call.gaveUp && !call.sent) = true →
    ∀ later, id ∉ (world.after later).sends

/-- No connection fails while the server has its call, and no endpoint that was
given up on is forgotten while the server has a call of it. -/
def Answered (world : World) : Event → Prop
  | .on id event => event = .fail → id ∉ world.serving
  | .forgetUnresponsive => ∀ id ∈ world.serving, world.isPosted id = true
  | _ => True

instance (world : World) : DecidablePred world.Answered
  | .on id event => inferInstanceAs (Decidable (event = .fail → id ∉ world.serving))
  | .forgetUnresponsive =>
    inferInstanceAs
      (Decidable (∀ id ∈ world.serving, world.isPosted id = true))
  | .call _ | .finish _ | .interrupt | .stopArrives _ => isTrue trivial

/-- The server has one call at most; a stop that finds the call it was issued
for strikes that one alone, and none strikes a call sent earlier. -/
structure Alone (world : World) : Prop where
  single : world.serving.length ≤ 1
  own : ∀ id, some id ∈ world.stops → id ∈ world.serving → world.serving = [id]
  notEarlier : ∀ id hit, (some id, hit) ∈ world.struck → id ≤ hit

/-! ## The queue -/

/-- Every call before the bound is done, or the call `last` is not before
it. -/
def DoneAfter (world : World) (last : Option ℕ) (bound : ℕ) : Prop :=
  ∀ i < bound, world.isDone i = true ∨ ∃ p call, last = some p ∧ world.calls p = some call ∧ i ≤ p

structure Inv (world : World) : Prop where
  known : ∀ id call, world.calls id = some call → id < world.made
  behind : ∀ id call, world.calls id = some call → world.DoneAfter call.previous id
  tail : world.DoneAfter world.busy world.made
  left : ∀ id call, world.calls id = some call → call.phase ≠ .waiting →
    ∀ i < id, world.isDone i = true
  posted : ∀ id call, world.calls id = some call →
    (call.phase = .posted → call.sent = true) ∧ (call.sent = true → call.phase ≠ .waiting)
  sent : ∀ id, id ∈ world.sends ↔ ∃ call, world.calls id = some call ∧ call.sent = true
  inOrder : world.sends.Pairwise (· < ·)
  once : world.settled.Nodup
  settledKnown : ∀ id ∈ world.settled, id < world.made
  timed : ∀ id < world.made, id ∈ world.settled ∨
    ∃ call, world.calls id = some call ∧ call.timer = true ∧ call.phase.done = false

section Queue

variable {world : World} {id : ℕ} {call next : Call}

theorem initial_inv : initial.Inv where
  known := fun _ _ isCall => by cases isCall
  behind := fun _ _ isCall => by cases isCall
  tail := fun i isBefore => absurd isBefore (Nat.not_lt_zero i)
  left := fun _ _ isCall => by cases isCall
  posted := fun _ _ isCall => by cases isCall
  sent := by
    intro i
    simp [initial]
  inOrder := List.Pairwise.nil
  once := List.nodup_nil
  settledKnown := fun _ isSettled => by cases isSettled
  timed := fun i isBefore => absurd isBefore (Nat.not_lt_zero i)

theorem put_calls (world : World) (id i : ℕ) (call : Call) :
    (world.put id call).calls i =
      if i = id then some call else world.calls i := by
  simp only [put, Function.update_apply]

theorem isDone_put (found : world.calls id = some call)
    (forward : call.phase.done = true → next.phase.done = true) {i : ℕ}
    (isDone : world.isDone i = true) : (world.put id next).isDone i = true := by
  rw [World.isDone, put_calls]
  split
  · rename_i here
    rw [World.isDone, here, found, Option.all_some] at isDone
    exact forward isDone
  · exact isDone

theorem isDone_eq (found : world.calls id = some call) : world.isDone id = call.phase.done := by
  rw [World.isDone, found, Option.all_some]

theorem Inv.allDone (inv : world.Inv) {last : Option ℕ} {bound : ℕ}
    (after : world.DoneAfter last bound) (isDone : last.all world.isDone = true) :
    ∀ i < bound, world.isDone i = true := by
  intro i isBefore
  rcases after i isBefore with done | ⟨p, call, rfl, found, notAfter⟩
  · exact done
  · rw [Option.all_some] at isDone
    rcases Nat.eq_or_lt_of_le notAfter with rfl | before
    · exact isDone
    · refine inv.left p call found ?_ i before
      rw [World.isDone, found, Option.all_some] at isDone
      rintro isWaiting
      rw [isWaiting] at isDone
      cases isDone

theorem DoneAfter.put (found : world.calls id = some call)
    (forward : call.phase.done = true → next.phase.done = true)
    {last : Option ℕ} {bound : ℕ} (after : world.DoneAfter last bound) :
    (world.put id next).DoneAfter last bound := by
  intro i isBefore
  rcases after i isBefore with done | ⟨p, other, isLast, isCall, notAfter⟩
  · exact .inl (isDone_put found forward done)
  · refine .inr ⟨p, if p = id then next else other, isLast, ?_, notAfter⟩
    rw [put_calls, isCall]
    split <;> rfl

theorem Inv.settle (inv : world.Inv) (isKnown : id < world.made) : (world.settle id).Inv := by
  have members : ∀ i, i ∈ (world.settle id).settled ↔ i ∈ world.settled ∨ i = id := by
    intro i
    rw [World.settle]
    split
    · rename_i already
      exact ⟨.inl, fun either => either.elim (fun before => before) (fun here => here ▸ already)⟩
    · rw [List.mem_append, List.mem_singleton]
  refine { inv with once := ?_, settledKnown := ?_, timed := ?_ }
  · rw [World.settle]
    split
    · exact inv.once
    · rename_i new
      refine List.pairwise_append.mpr ⟨inv.once, List.pairwise_singleton _ _, ?_⟩
      rintro i isSettled last isLast rfl
      exact new (List.mem_singleton.mp isLast ▸ isSettled)
  · intro i isSettled
    rcases (members i).mp isSettled with before | rfl
    · exact inv.settledKnown i before
    · exact isKnown
  · intro i isBefore
    exact (inv.timed i isBefore).imp_left fun before => (members i).mpr (.inl before)

theorem forall_put {P : ℕ → Call → Prop} (here : P id next)
    (others : ∀ i other, world.calls i = some other → P i other) :
    ∀ i other, (world.put id next).calls i = some other → P i other := by
  intro i other isCall
  rw [put_calls] at isCall
  split at isCall
  · rename_i isHere
    cases isCall
    exact isHere ▸ here
  · exact others i other isCall

theorem Inv.goes (inv : world.Inv) (found : world.calls id = some call)
    (samePrevious : next.previous = call.previous)
    (forward : call.phase.done = true → next.phase.done = true)
    (left : next.phase ≠ .waiting → ∀ i < id, world.isDone i = true)
    (posted : (next.phase = .posted → next.sent = true) ∧
      (next.sent = true → next.phase ≠ .waiting))
    (timed : id ∈ world.settled ∨ (next.timer = true ∧ next.phase.done = false))
    {sends : List ℕ} (inOrder : sends.Pairwise (· < ·))
    (sent : ∀ i, i ∈ sends ↔
      if i = id then next.sent = true else i ∈ world.sends) :
    Inv { world.put id next with sends := sends } where
  known := forall_put (inv.known id call found) inv.known
  behind := forall_put (samePrevious ▸ (inv.behind id call found).put found forward)
    fun i other isCall => (inv.behind i other isCall).put found forward
  tail := inv.tail.put found forward
  left := forall_put
    (fun notWaiting i before => isDone_put found forward (left notWaiting i before))
    fun i other isCall notWaiting j before =>
      isDone_put found forward (inv.left i other isCall notWaiting j before)
  posted := forall_put posted inv.posted
  sent := by
    intro i
    refine (sent i).trans ?_
    dsimp only
    rw [put_calls]
    split
    · simp only [Option.some.injEq, exists_eq_left']
    · exact inv.sent i
  inOrder := inOrder
  once := inv.once
  settledKnown := inv.settledKnown
  timed := by
    intro i isBefore
    dsimp only
    rw [put_calls]
    split
    · rename_i here
      subst here
      exact timed.imp_right fun both => ⟨next, rfl, both⟩
    · exact inv.timed i isBefore

theorem Inv.put (inv : world.Inv) (found : world.calls id = some call)
    (samePrevious : next.previous = call.previous) (sameSent : next.sent = call.sent)
    (forward : call.phase.done = true → next.phase.done = true)
    (left : next.phase ≠ .waiting → ∀ i < id, world.isDone i = true)
    (posted : (next.phase = .posted → next.sent = true) ∧
      (next.sent = true → next.phase ≠ .waiting))
    (timed : id ∈ world.settled ∨ (next.timer = true ∧ next.phase.done = false)) :
    (world.put id next).Inv := by
  refine inv.goes found samePrevious forward left posted timed inv.inOrder ?_
  intro i
  split
  · rename_i here
    rw [inv.sent i, here, found, sameSent]
    simp only [Option.some.injEq, exists_eq_left']
  · exact Iff.rfl

theorem mem_settle (world : World) (id : ℕ) : id ∈ (world.settle id).settled := by
  rw [World.settle]
  split
  · assumption
  · exact List.mem_append_right _ List.mem_cons_self

theorem Inv.answer (inv : world.Inv) (found : world.calls id = some call)
    (allDone : ∀ i < id, world.isDone i = true) : (world.answer id call).Inv :=
  (inv.settle (inv.known id call found)).put found rfl rfl (fun _ => rfl) (fun _ => allDone)
    (Phase.posted_of_done rfl)
    (.inl (mem_settle world id))

theorem Inv.release (inv : world.Inv) (found : world.calls id = some call)
    (samePrevious : next.previous = call.previous)
    (samePhase : next.phase = call.phase) (sameSent : next.sent = call.sent) :
    (world.release id next).Inv := by
  have posted := inv.posted id call found
  have left := inv.left id call found
  rw [← samePhase] at posted left
  rw [← sameSent] at posted
  exact (inv.settle (inv.known id call found)).put found samePrevious sameSent
    (fun isDone => (congrArg Phase.done samePhase).trans isDone) left posted
    (.inl (mem_settle world id))

/-- The call whose slot is `call` has not settled, or its timer is set. -/
theorem Inv.timedAt (inv : world.Inv) (found : world.calls id = some call) :
    id ∈ world.settled ∨ (call.timer = true ∧ call.phase.done = false) := by
  refine (inv.timed id (inv.known id call found)).imp_right ?_
  rintro ⟨other, isCall, timed⟩
  rw [found, Option.some.injEq] at isCall
  exact isCall ▸ timed

theorem Inv.post (inv : world.Inv) (found : world.calls id = some call)
    (isWaiting : call.phase = .waiting) (allDone : ∀ i < id, world.isDone i = true) :
    (world.post id call).Inv := by
  have earlier : ∀ i ∈ world.sends, i < id := by
    intro i isSent
    obtain ⟨other, isCall, wasSent⟩ := (inv.sent i).mp isSent
    have isLeft := (inv.posted i other isCall).2 wasSent
    rcases Nat.lt_trichotomy i id with before | rfl | after
    · exact before
    · rw [found, Option.some.injEq] at isCall
      exact absurd (isCall ▸ isWaiting) isLeft
    · have isDone := inv.left i other isCall isLeft id after
      rw [isDone_eq found, isWaiting] at isDone
      cases isDone
  have goes := @Inv.goes world id call { call with phase := .posted, sent := true }
    inv found rfl (by rw [isWaiting]; exact fun isDone => isDone)
    (fun _ => allDone) ⟨fun _ => rfl, fun _ => nofun⟩
    ((inv.timedAt found).imp_right fun timed => ⟨timed.1, rfl⟩)
    (world.sends ++ [id])
    (List.pairwise_append.mpr ⟨inv.inOrder, List.pairwise_singleton _ _,
      fun i isSent last isLast => List.mem_singleton.mp isLast ▸ earlier i isSent⟩)
    (by
      intro i
      rw [List.mem_append, List.mem_singleton]
      split
      · rename_i here
        simp [here]
      · rename_i other
        simp [other])
  exact { goes with }

theorem Inv.retire (inv : world.Inv) (found : world.calls id = some call)
    (isOver : call.phase = .«over») : (world.act id call .retire).Inv := by
  have isLeft : call.phase ≠ .waiting := by
    rw [isOver]
    nofun
  have isSettled : id ∈ world.settled := by
    refine (inv.timedAt found).resolve_right fun timed => ?_
    rw [isOver] at timed
    cases timed.2
  have kept := @Inv.put world id call
    { call with phase := .retired, grace := call.grace - 1 } inv found rfl rfl (fun _ => rfl) (fun _ => inv.left id call found isLeft)
    (Phase.posted_of_done rfl) (.inl isSettled)
  refine { kept with tail := ?_ }
  have tail := kept.tail
  dsimp only [World.act]
  split
  · rename_i isTail
    refine fun i before => .inl (kept.allDone tail ?_ i before)
    rw [World.put, isTail, Option.all_some]
    exact isDone_eq ((put_calls world id id _).trans (if_pos rfl))
  · exact tail

variable {event : CallEvent}

section

variable (inv : world.Inv)
include inv

theorem Inv.act (found : world.calls id = some call) (ready : world.isReady id call event = true) :
    (world.act id call event).Inv := by
  have left := inv.left id call found
  have posted := inv.posted id call found
  have timed := inv.timedAt found
  have dead : ({ world with dead := true } : World).Inv := { inv with }
  have stops : (world.interruptFor id call).Inv := { inv with }
  cases event with
  | leave =>
    rw [isReady, Bool.and_eq_true, decide_eq_true_eq] at ready
    have allDone := inv.allDone (inv.behind id call found) ready.2
    rw [World.act]
    split
    · exact inv.answer found allDone
    · exact inv.post found ready.1 allDone
  | reply =>
    rw [isReady, Bool.and_eq_true, decide_eq_true_eq] at ready
    exact inv.answer found (left (by rw [ready.1]; nofun))
  | fail =>
    rw [isReady, decide_eq_true_eq] at ready
    exact inv.answer found (left (by rw [ready]; nofun))
  | timeout => exact inv.release found rfl rfl rfl
  | abort => exact stops.release found rfl rfl rfl
  | graceEnds =>
    dsimp only [World.act]
    split
    · rename_i isPosted
      exact (dead.settle (inv.known id call found)).put found rfl rfl
        (fun _ => rfl) (fun _ => left (by rw [isPosted]; nofun))
        (Phase.posted_of_done rfl) (.inl (mem_settle _ id))
    · exact dead.put found rfl rfl (fun isDone => isDone) left posted timed
  | retire => exact inv.retire found (of_decide_eq_true ready)
  | detach =>
    exact inv.put found rfl rfl (fun isDone => isDone) left posted
      (.inl (List.contains_iff_mem.mp ready))

theorem Inv.onCall (id : ℕ) (event : CallEvent) :
    (world.onCall id event).Inv := by
  rw [World.onCall]
  cases found : world.calls id with
  | none => exact inv
  | some call =>
    dsimp only
    split
    · rename_i ready
      exact inv.act found ready
    · exact inv

theorem Inv.free : world.calls world.made = none := by
  cases found : world.calls world.made with
  | none => rfl
  | some call => exact absurd (inv.known _ call found) (Nat.lt_irrefl _)

theorem Inv.refuse :
    Inv { world with
      made := world.made + 1
      settled := world.settled ++ [world.made] } := by
  refine
    { inv with
      known := ?_, tail := ?_, once := ?_, settledKnown := ?_, timed := ?_ }
  · exact fun i other isCall => Nat.lt_succ_of_lt (inv.known i other isCall)
  · intro i before
    rcases Nat.lt_succ_iff_lt_or_eq.mp before with earlier | rfl
    · exact inv.tail i earlier
    · left
      rw [isDone, inv.free]
      rfl
  · refine List.pairwise_append.mpr ⟨inv.once, List.pairwise_singleton _ _, ?_⟩
    intro i isSettled last isLast
    rw [List.mem_singleton.mp isLast]
    exact Nat.ne_of_lt (inv.settledKnown i isSettled)
  · intro i isSettled
    rcases List.mem_append.mp isSettled with before | new
    · exact Nat.lt_succ_of_lt (inv.settledKnown i before)
    · exact List.mem_singleton.mp new ▸ Nat.lt_succ_self _
  · intro i before
    rcases Nat.lt_succ_iff_lt_or_eq.mp before with earlier | rfl
    · exact (inv.timed i earlier).imp_left (List.mem_append_left _)
    · exact .inl (List.mem_append_right _ List.mem_cons_self)

theorem Inv.enqueue (isPrevious : call.previous = world.busy) (isWaiting : call.phase = .waiting)
    (unsent : call.sent = false) (timed : call.timer = true) :
    Inv { world.put world.made call with
      made := world.made + 1
      busy := some world.made } := by
  have others (i : ℕ) (isOther : i ≠ world.made) :
      (world.put world.made call).calls i = world.calls i := by
    rw [put_calls, if_neg isOther]
  have self : (world.put world.made call).calls world.made = some call := by
    rw [put_calls, if_pos rfl]
  have sameDone (i : ℕ) (before : i < world.made) :
      (world.put world.made call).isDone i = world.isDone i := by
    rw [isDone, others i (Nat.ne_of_lt before), isDone]
  have behind {last : Option ℕ} {bound : ℕ} (isBound : bound ≤ world.made)
      (after : world.DoneAfter last bound) :
      (world.put world.made call).DoneAfter last bound := by
    intro i before
    rcases after i before with done | ⟨p, other, isLast, isCall, notAfter⟩
    · exact .inl ((sameDone i (before.trans_le isBound)).trans done)
    · have isOther := Nat.ne_of_lt (inv.known p other isCall)
      exact .inr ⟨p, other, isLast, (others p isOther).trans isCall, notAfter⟩
  refine
    { known := ?_
      behind := ?_
      tail := ?_
      left := ?_
      posted := forall_put ?_ inv.posted
      sent := ?_
      inOrder := inv.inOrder
      once := inv.once
      settledKnown := fun i isSettled => Nat.lt_succ_of_lt (inv.settledKnown i isSettled)
      timed := ?_ }
  · exact forall_put (Nat.lt_succ_self _) fun i other isCall =>
      Nat.lt_succ_of_lt (inv.known i other isCall)
  · refine forall_put ?_ fun i other isCall =>
      behind (inv.known i other isCall).le (inv.behind i other isCall)
    rw [isPrevious]
    exact behind (Nat.le_refl _) inv.tail
  · intro i before
    exact .inr ⟨world.made, call, rfl, self, Nat.le_of_lt_succ before⟩
  · refine forall_put (fun isLeft => absurd isWaiting isLeft) ?_
    intro i other isCall isLeft j earlier
    exact (sameDone j (earlier.trans (inv.known i other isCall))).trans
      (inv.left i other isCall isLeft j earlier)
  · rw [isWaiting, unsent]
    exact ⟨nofun, nofun⟩
  · intro i
    refine (inv.sent i).trans ?_
    by_cases isNew : i = world.made
    · subst isNew
      simp [inv.free, self, unsent]
    · rw [others i isNew]
  · intro i before
    rcases Nat.lt_succ_iff_lt_or_eq.mp before with earlier | rfl
    · rw [others i (Nat.ne_of_lt earlier)]
      exact inv.timed i earlier
    · exact .inr ⟨call, self, timed, by rw [isWaiting]; rfl⟩

theorem Inv.step (event : Event) : (world.step event).Inv := by
  cases event with
  | call aborted =>
    rw [World.step, World.call]
    split
    · exact inv.refuse
    · exact inv.enqueue rfl rfl rfl rfl
  | on id event => exact inv.onCall id event
  | finish id | interrupt | forgetUnresponsive => exact { inv with }
  | stopArrives place =>
    rw [World.step]
    split
    · exact inv
    · exact { inv with }

end

theorem after_inv (events : List Event) : (initial.after events).Inv :=
  Runs.after_invariant World.step Inv (fun _ event inv => inv.step event) initial_inv events

/-! ## Calls given up on -/

/-- The call has no slot, or was given up on before it was sent. -/
def forgone (world : World) (id : ℕ) : Bool :=
  (world.calls id).all fun call => call.gaveUp && !call.sent

theorem act_calls (ready : world.isReady id call event = true) :
    (world.act id call event).made = world.made ∧
      ∃ next, (world.act id call event).calls = (world.put id next).calls ∧
        ((call.gaveUp && !call.sent) = true → (next.gaveUp && !next.sent) = true) := by
  have released (isForgone : (call.gaveUp && !call.sent) = true) : (true && !call.sent) = true := by
    rw [Bool.and_eq_true] at isForgone
    exact isForgone.2
  cases event with
  | leave =>
    rw [World.act]
    split
    · exact ⟨rfl, _, rfl, fun isForgone => isForgone⟩
    · rename_i goes
      refine ⟨rfl, _, rfl, fun isForgone => ?_⟩
      rw [Bool.and_eq_true] at isForgone
      exact absurd (.inl isForgone.1) goes
  | reply | fail | retire | detach => exact ⟨rfl, _, rfl, fun isForgone => isForgone⟩
  | timeout | abort => exact ⟨rfl, _, rfl, released⟩
  | graceEnds =>
    dsimp only [World.act]
    split
    · exact ⟨rfl, _, rfl, fun isForgone => isForgone⟩
    · exact ⟨rfl, _, rfl, fun isForgone => isForgone⟩

theorem forgone_onCall (other : ℕ) (event : CallEvent)
    (known : id < world.made) (isForgone : world.forgone id = true) :
    id < (world.onCall other event).made ∧ (world.onCall other event).forgone id = true := by
  rw [onCall]
  cases found : world.calls other with
  | none => exact ⟨known, isForgone⟩
  | some call =>
    dsimp only
    split
    · rename_i ready
      obtain ⟨made, next, calls, kept⟩ := act_calls ready
      refine ⟨made ▸ known, ?_⟩
      rw [forgone, calls, put_calls]
      split
      · rename_i here
        subst here
        rw [forgone, found] at isForgone
        exact kept isForgone
      · exact isForgone
    · exact ⟨known, isForgone⟩

theorem forgone_step (event : Event)
    (known : id < world.made) (isForgone : world.forgone id = true) :
    id < (world.step event).made ∧ (world.step event).forgone id = true := by
  cases event with
  | call aborted =>
    rw [step, World.call]
    split
    · exact ⟨Nat.lt_succ_of_lt known, isForgone⟩
    · refine ⟨Nat.lt_succ_of_lt known, ?_⟩
      rw [forgone, put_calls, if_neg (Nat.ne_of_lt known)]
      exact isForgone
  | on other event => exact forgone_onCall other event known isForgone
  | finish other | interrupt | forgetUnresponsive => exact ⟨known, isForgone⟩
  | stopArrives place =>
    rw [step]
    split
    · exact ⟨known, isForgone⟩
    · exact ⟨known, isForgone⟩

theorem Inv.unsent (inv : world.Inv) (isKnown : id < world.made)
    (isForgone : world.forgone id = true) (later : List Event) :
    id ∉ (world.after later).sends := by
  have holds : (id < (world.after later).made ∧
      (world.after later).forgone id = true) ∧ (world.after later).Inv :=
    Runs.after_invariant World.step
      (fun world : World => (id < world.made ∧ world.forgone id = true) ∧ world.Inv)
      (fun world event holds => ⟨forgone_step event holds.1.1 holds.1.2, holds.2.step event⟩)
      ⟨⟨isKnown, isForgone⟩, inv⟩ later
  intro isSent
  obtain ⟨call, found, wasSent⟩ := (holds.2.sent id).mp isSent
  have still := holds.1.2
  rw [forgone, found, Option.all_some, wasSent, Bool.not_true, Bool.and_false] at still
  cases still

theorem Inv.settles (inv : world.Inv) (isKnown : id < world.made) :
    id ∈ world.settled ∨ id ∈ (world.step (.on id .timeout)).settled := by
  rcases inv.timed id isKnown with isSettled | ⟨call, found, timer, _⟩
  · exact .inl isSettled
  · right
    rw [World.step, World.onCall, found]
    dsimp only
    rw [if_pos (by exact timer)]
    exact mem_settle world id

theorem Inv.serial (inv : world.Inv) : world.Serial where
  inOrder := inv.inOrder
  once := inv.once
  settles := fun _ isKnown => inv.settles isKnown
  unsent := fun _ isKnown isForgone => inv.unsent isKnown isForgone

/-! ## The calls at the server -/

structure Latest (world : World) : Prop where
  single : world.serving.length ≤ 1
  newest : ∀ served ∈ world.serving, served ∈ world.sends ∧ ∀ id ∈ world.sends, id ≤ served
  /-- A call that is answered here while the server has it was given up on. -/
  held : ∀ served ∈ world.serving, world.isPosted served = true ∨ world.dead = true
  issued : ∀ id, some id ∈ world.stops → id ∈ world.sends
  notEarlier : ∀ id hit, (some id, hit) ∈ world.struck → id ≤ hit

theorem isPosted_iff :
    world.isPosted id = true ↔ ∃ call, world.calls id = some call ∧ call.phase = .posted := by
  simp only [isPosted, Option.any_eq_true_iff_get, decide_eq_true_eq, Option.isSome_iff_exists]
  constructor
  · rintro ⟨⟨call, found⟩, isPosted⟩
    simp only [found, Option.get_some] at isPosted
    exact ⟨call, found, isPosted⟩
  · rintro ⟨call, found, isPosted⟩
    exact ⟨⟨call, found⟩, by simpa only [found, Option.get_some] using isPosted⟩

theorem Latest.put (latest : world.Latest) (found : world.calls id = some call)
    (kept : id ∈ world.serving → call.phase = .posted →
      next.phase = .posted ∨ world.dead = true) : (world.put id next).Latest := by
  refine { latest with held := ?_ }
  intro served isServed
  rcases latest.held served isServed with isPosted | isDead
  · obtain ⟨other, isCall, isPosted⟩ := isPosted_iff.mp isPosted
    by_cases here : served = id
    · subst here
      rw [found] at isCall
      cases isCall
      refine (kept isServed isPosted).imp_left fun same => ?_
      exact isPosted_iff.mpr ⟨next, (put_calls _ _ _ _).trans (if_pos rfl), same⟩
    · exact .inl (isPosted_iff.mpr
        ⟨other, ((put_calls _ _ _ _).trans (if_neg here)).trans isCall, isPosted⟩)
  · exact .inr isDead

section

variable (latest : world.Latest)
include latest

/-- A call is sent only while the server has none. -/
theorem Latest.post (inv : world.Inv) (found : world.calls id = some call)
    (isWaiting : call.phase = .waiting) (allDone : ∀ i < id, world.isDone i = true)
    (alive : world.dead ≠ true) :
    (world.post id call).Latest := by
  have isIdle : world.serving = [] := by
    rw [List.eq_nil_iff_forall_not_mem]
    intro served isServed
    obtain ⟨other, isCall, isPosted⟩ :=
      isPosted_iff.mp ((latest.held served isServed).resolve_right alive)
    rcases Nat.lt_trichotomy served id with before | rfl | after
    · have isDone := allDone served before
      rw [isDone_eq isCall, isPosted] at isDone
      cases isDone
    · rw [found, Option.some.injEq] at isCall
      rw [isCall, isPosted] at isWaiting
      cases isWaiting
    · have isDone := inv.left served other isCall (by rw [isPosted]; nofun) id after
      rw [isDone_eq found, isWaiting] at isDone
      cases isDone
  have inOrder := (inv.post found isWaiting allDone).inOrder
  exact
    { single := by
        rw [World.post, isIdle]
        exact Nat.le_refl 1
      newest := by
        intro served isServed
        rw [World.post, isIdle, List.nil_append, List.mem_singleton] at isServed
        subst isServed
        refine ⟨List.mem_append_right _ List.mem_cons_self, ?_⟩
        intro i isSent
        rcases List.mem_append.mp isSent with before | new
        · exact ((List.pairwise_append.mp inOrder).2.2 i before served List.mem_cons_self).le
        · exact (List.mem_singleton.mp new).le
      held := by
        intro served isServed
        rw [World.post, isIdle, List.nil_append, List.mem_singleton] at isServed
        subst isServed
        exact .inl (isPosted_iff.mpr ⟨_, (put_calls _ _ _ _).trans (if_pos rfl), rfl⟩)
      issued := fun i isIssued => List.mem_append_left _ (latest.issued i isIssued)
      notEarlier := latest.notEarlier }

theorem Latest.act (inv : world.Inv) (found : world.calls id = some call)
    (ready : world.isReady id call event = true) (answered : event = .fail → id ∉ world.serving) :
    (world.act id call event).Latest := by
  have settled : (world.settle id).Latest := { latest with }
  have dead : ({ world with dead := true } : World).Latest :=
    { latest with held := fun _ _ => .inr rfl }
  cases event with
  | leave =>
    rw [isReady, Bool.and_eq_true, decide_eq_true_eq] at ready
    rw [World.act]
    split
    · exact settled.put found fun _ isPosted => by
        rw [ready.1] at isPosted
        cases isPosted
    · rename_i goes
      exact latest.post inv found ready.1 (inv.allDone (inv.behind id call found) ready.2)
        fun isDead => goes (.inr isDead)
  | reply =>
    have isOver : id ∉ world.serving := by
      simpa [isReady] using And.right (by simpa [isReady] using ready)
    exact settled.put found fun isServed => absurd isServed isOver
  | fail => exact settled.put found fun isServed => absurd isServed (answered rfl)
  | timeout => exact settled.put found fun _ isPosted => .inl isPosted
  | abort =>
    have base : ((world.interruptFor id call).settle id).Latest := by
      refine { latest with issued := ?_ }
      intro i isIssued
      dsimp only [World.settle, interruptFor] at isIssued
      split at isIssued
      · rename_i wasSent
        rcases List.mem_append.mp isIssued with before | new
        · exact latest.issued i before
        · cases List.mem_singleton.mp new
          exact (inv.sent id).mpr ⟨call, found, wasSent⟩
      · exact latest.issued i isIssued
    exact base.put found fun _ isPosted => .inl isPosted
  | graceEnds =>
    have settled : (World.settle { world with dead := true } id).Latest :=
      { dead with }
    dsimp only [World.act]
    split
    · exact settled.put found fun _ _ => .inr rfl
    · exact dead.put found fun _ _ => .inr rfl
  | retire =>
    have base : ({ world with
        busy := if world.busy = some id then none else world.busy } :
          World).Latest := { latest with }
    rw [isReady, decide_eq_true_eq] at ready
    exact base.put found fun _ isPosted => by
      rw [ready] at isPosted
      cases isPosted
  | detach => exact latest.put found fun _ isPosted => .inl isPosted

theorem Latest.onCall (inv : world.Inv) (id : ℕ) (event : CallEvent)
    (answered : event = .fail → id ∉ world.serving) : (world.onCall id event).Latest := by
  rw [World.onCall]
  cases found : world.calls id with
  | none => exact latest
  | some call =>
    dsimp only
    split
    · rename_i ready
      exact latest.act inv found ready answered
    · exact latest

theorem Latest.made (inv : world.Inv) (aborted : Bool) :
    (world.call aborted).Latest := by
  rw [World.call]
  split
  · exact { latest with }
  · refine { latest with held := ?_ }
    intro served isServed
    refine (latest.held served isServed).imp_left fun isPosted => ?_
    obtain ⟨other, isCall, isPosted⟩ := isPosted_iff.mp isPosted
    exact isPosted_iff.mpr ⟨other, ((put_calls _ _ _ _).trans
      (if_neg (Nat.ne_of_lt (inv.known served other isCall)))).trans isCall,
      isPosted⟩

/-- A stop strikes what the server has: the call sent last. -/
theorem Latest.stopArrives (place : ℕ) :
    (world.step (.stopArrives place)).Latest := by
  rw [World.step]
  cases found : world.stops[place]? with
  | none => exact latest
  | some issuedFor =>
    refine { latest with issued := ?_, notEarlier := ?_ }
    · intro i isIssued
      exact latest.issued i (List.mem_of_mem_eraseIdx isIssued)
    · intro i hit isStruck
      rcases List.mem_append.mp isStruck with before | new
      · exact latest.notEarlier i hit before
      · obtain ⟨served, isServed, isHit⟩ := List.mem_map.mp new
        rw [Prod.mk.injEq] at isHit
        obtain ⟨rfl, rfl⟩ := isHit
        exact (latest.newest served isServed).2 i (latest.issued i (List.mem_of_getElem? found))

theorem Latest.step (inv : world.Inv) (event : Event) (answered : world.Answered event) :
    (world.step event).Latest := by
  cases event with
  | call aborted => exact latest.made inv aborted
  | finish id =>
    exact
      { single := List.length_erase_le.trans latest.single
        newest := fun served isServed => latest.newest served (List.mem_of_mem_erase isServed)
        held := fun served isServed => latest.held served (List.mem_of_mem_erase isServed)
        issued := latest.issued
        notEarlier := latest.notEarlier }
  | interrupt =>
    refine { latest with issued := ?_ }
    intro i isIssued
    rcases List.mem_append.mp isIssued with before | new
    · exact latest.issued i before
    · cases List.mem_singleton.mp new
  | stopArrives place => exact latest.stopArrives place
  | forgetUnresponsive =>
    exact { latest with
      held := fun served isServed => .inl (answered served isServed) }
  | on id event => exact latest.onCall inv id event answered

end

theorem after_latest (events : List Event)
    (answered : Runs.AllAllowed step Answered initial events) : (initial.after events).Latest := by
  have start : initial.Latest :=
    { single := Nat.zero_le 1
      newest := nofun
      held := nofun
      issued := nofun
      notEarlier := nofun }
  exact (Runs.after_of_allAllowed step
    (fun world event answered (both : world.Inv ∧ world.Latest) =>
      ⟨both.1.step event, both.2.step both.1 event answered⟩)
    ⟨initial_inv, start⟩ answered).2

theorem Latest.alone (latest : world.Latest) : world.Alone where
  single := latest.single
  own := by
    intro id _ isServed
    obtain ⟨served, isAll⟩ := List.length_eq_one_iff.mp
      (latest.single.antisymm (List.length_pos_of_mem isServed))
    rw [isAll, List.mem_singleton] at isServed
    rw [isAll, isServed]
  notEarlier := latest.notEarlier

end Queue

end World

end PiEmbodied.Infra.RpcClient
