import PiEmbodied.Runs

/-!
# The calls of an RPC server

Transport threads take a call through its admission, the reading of the stop
generation, the call lock and its body.  A `code.run` program calls primitives
in the server; one that does not return is abandoned, and runs on.
-/

namespace PiEmbodied.Services.Rpc

/-! ## Calls -/

inductive Method where
  | business
  | codeRun
  /-- A framework method under the lock (`session.close`), which no stop
  cancels. -/
  | session
deriving DecidableEq

/-- How far a thread has taken its call; `arrival` is the stop generation it
read. -/
inductive Phase where
  | admitted
  | queued (arrival : ℕ)
  | locked (arrival : ℕ)
  | running (arrival : ℕ)
  | «over» (started : Bool)
deriving DecidableEq

/-- `stopped` tells that a stop arrived before the call had started. -/
structure Call where
  method : Method
  phase : Phase
  stopped : Bool
deriving DecidableEq

def Phase.started : Phase → Bool
  | running _ => true
  | «over» started => started
  | _ => false

def Phase.holds : Phase → Bool
  | locked _ | running _ => true
  | _ => false

/-- A business call, or `code.run`, that a stop finds not started. -/
def Call.stop (call : Call) : Call :=
  { call with
    stopped := call.stopped ||
      (call.method ≠ .session && !call.phase.started) }

/-! ## The server -/

/-- The program of the `code.run` in progress. -/
inductive Program where
  | idle
  /-- The server waits for its next primitive call. -/
  | serving
  | calling
  /-- It is cancelled, or its primitive was abandoned. -/
  | cut
  /-- Its process is gone, and `code.run` has not returned. -/
  | «over»
deriving DecidableEq

structure World where
  calls : ℕ → Option Call
  arrived : ℕ
  lock : Option ℕ
  stopGeneration : ℕ
  activeGeneration : Option ℕ
  motionHalt : Bool
  program : Program
  /-- The abandoned primitives that still run. -/
  abandoned : ℕ
  /-- Those that returned, and whose halt is not lifted yet. -/
  returned : ℕ

inductive Event where
  /-- A call arrives, and passes its admission or is refused. -/
  | arrive (method : Method)
  | readGeneration (id : ℕ)
  | takeLock (id : ℕ)
  /-- The call is cancelled by a stop, or its body starts. -/
  | start (id : ℕ)
  | programStarts (id : ℕ)
  | primitiveStarts
  | primitiveReturns
  | abandon
  | programEnds
  | finish (id : ℕ)
  /-- A stop request, of a client or of a program's timeout. -/
  | stop
  | abandonedReturns
  /-- The watch of an abandoned primitive lifts the halt. -/
  | release
deriving DecidableEq

namespace World

def initial : World where
  calls := fun _ => none
  arrived := 0
  lock := none
  stopGeneration := 0
  activeGeneration := none
  motionHalt := false
  program := .idle
  abandoned := 0
  returned := 0

/-- `_exclusive_call_active`: a program runs, or a primitive that one
abandoned. -/
def exclusive (world : World) : Bool :=
  world.program = .serving || world.program = .calling ||
    world.program = .cut || world.abandoned ≠ 0

def stopRequested (world : World) : Bool :=
  world.motionHalt ||
    world.activeGeneration.any fun active => world.stopGeneration ≠ active

def requestStop (world : World) : World :=
  { world with
    stopGeneration := world.stopGeneration + 1
    calls := fun id => (world.calls id).map Call.stop }

def setCall (world : World) (id : ℕ) (call : Call) : World :=
  { world with calls := Function.update world.calls id (some call) }

def leave (world : World) (id : ℕ) (call : Call) (started : Bool) : World :=
  { world.setCall id { call with phase := .over started } with
    lock := none
    activeGeneration := none
    program := if call.method = .codeRun then .idle else world.program }

/-- `_admit`. -/
def arrive (world : World) (method : Method) : World :=
  if world.exclusive then world
  else
    { world.setCall world.arrived ⟨method, .admitted, false⟩ with
      arrived := world.arrived + 1 }

/-- The body of a call that has the lock starts, unless a stop came. -/
def startCall (world : World) (id : ℕ) (call : Call) (arrival : ℕ) : World :=
  if world.stopGeneration ≠ arrival ∧ call.method ≠ .session then
    { world.setCall id { call with phase := .over false } with lock := none }
  else
    { world.setCall id { call with phase := .running arrival } with
      activeGeneration := some arrival }

/-- `CodeRunner.run`, which refuses while an abandoned primitive runs. -/
def startProgram (world : World) (id : ℕ) (call : Call) : World :=
  if world.abandoned ≠ 0 then world.leave id call true
  else { world with program := .serving }

def stepCall (world : World) (id : ℕ) (call : Call) : Event → World
  | .readGeneration _ =>
    if call.phase = .admitted then
      world.setCall id { call with phase := .queued world.stopGeneration }
    else world
  | .takeLock _ =>
    match call.phase, world.lock with
    | .queued arrival, none =>
      { world.setCall id { call with phase := .locked arrival } with
        lock := some id }
    | _, _ => world
  | .start _ =>
    match call.phase with
    | .locked arrival => world.startCall id call arrival
    | _ => world
  | .programStarts _ =>
    match call.phase, call.method, world.program with
    | .running _, .codeRun, .idle => world.startProgram id call
    | _, _, _ => world
  | .finish _ =>
    match call.phase with
    | .running _ =>
      if call.method = .codeRun ∧ world.program ≠ .idle ∧
          world.program ≠ .over then
        world
      else world.leave id call true
    | _ => world
  | _ => world

def onCall (world : World) (id : ℕ) (event : Event) : World :=
  match world.calls id with
  | none => world
  | some call => world.stepCall id call event

def step (world : World) (event : Event) : World :=
  match event with
  | .arrive method => world.arrive method
  | .readGeneration id | .takeLock id | .start id | .programStarts id => world.onCall id event
  | .primitiveStarts =>
    if world.program = .serving then
      { world with
        program := if world.stopRequested then .cut else .calling }
    else world
  | .primitiveReturns =>
    if world.program = .calling then { world with program := .serving }
    else world
  | .abandon =>
    if world.program = .calling then
      ({ world with
        program := .cut
        abandoned := world.abandoned + 1
        motionHalt := true } : World).requestStop
    else world
  | .programEnds =>
    if world.program = .serving ∨ world.program = .cut then
      { world with program := .over }
    else world
  | .finish id => world.onCall id event
  | .stop => world.requestStop
  | .abandonedReturns =>
    if world.abandoned = 0 then world
    else
      { world with
        abandoned := world.abandoned - 1
        returned := world.returned + 1 }
  | .release =>
    if world.returned = 0 then world
    else
      ({ world with
        returned := world.returned - 1
        motionHalt := false } : World).requestStop

def after (world : World) (events : List Event) : World :=
  Runs.after step world events

end World

inductive Body where
  | business (id : ℕ)
  | primitive
  | abandoned (number : ℕ)
deriving DecidableEq

def World.Active (world : World) : Body → Prop
  | .business id =>
    ∃ call arrival, world.calls id = some call ∧
      call.method = .business ∧ call.phase = .running arrival
  | .primitive => world.program = .calling
  | .abandoned number => number < world.abandoned

/-- A program runs; its process is gone at `over`. -/
def World.ProgramRuns (world : World) : Prop :=
  world.program ≠ .idle ∧ world.program ≠ .over

def World.Stops (world : World) : Event → Prop
  | .stop => True
  | .abandon => world.program = .calling
  | .release => world.returned ≠ 0
  | _ => False

/-- No stop comes between a call's admission and its reading of the stop
generation. -/
def World.Apart (world : World) (event : Event) : Prop :=
  world.Stops event → ∀ id call, world.calls id = some call →
    call.method ≠ .session → call.phase ≠ .admitted

/-! ## Safe worlds -/

def Phase.Waits (phase : Phase) (arrival : ℕ) : Prop :=
  phase = .queued arrival ∨ phase = .locked arrival

/-- What holds of the call `id` in a world. -/
structure World.Fits (world : World) (id : ℕ) (call : Call) : Prop where
  known : id < world.arrived
  holder : call.phase.holds = true → world.lock = some id
  bounded : ∀ arrival, call.phase.Waits arrival → arrival ≤ world.stopGeneration
  /-- A call that no stop has cut off was admitted, or read the stop
  generation, with no abandoned primitive. -/
  fresh : call.method ≠ .session → call.phase = .admitted ∨ call.phase.Waits world.stopGeneration →
    world.abandoned = 0
  alone : call.method = .business → ∀ arrival, call.phase = .running arrival → world.abandoned = 0
  cutOff : call.stopped = true →
    call.method ≠ .session ∧
      ((∃ arrival, call.phase.Waits arrival ∧
        arrival < world.stopGeneration) ∨ call.phase = .over false)

structure World.Safe (world : World) : Prop where
  fits : ∀ id call, world.calls id = some call → world.Fits id call
  /-- The program is that of the `code.run` that holds the call lock. -/
  program : world.program ≠ .idle → ∃ id call arrival,
    world.calls id = some call ∧ call.method = .codeRun ∧ call.phase = .running arrival
  clear : world.program = .serving ∨ world.program = .calling → world.abandoned = 0
  single : world.abandoned ≤ 1

theorem Phase.not_waits_running (arrival other : ℕ) : ¬ (Phase.running arrival).Waits other := by
  rintro (isQueued | isLocked)
  · cases isQueued
  · cases isLocked

theorem Phase.not_waits_over (started : Bool) (other : ℕ) : ¬ (Phase.over started).Waits other := by
  rintro (isQueued | isLocked)
  · cases isQueued
  · cases isLocked

theorem World.initial_safe : World.initial.Safe where
  fits := by
    intro id call found
    cases found
  program := fun running => absurd rfl running
  clear := fun running => absurd running (by decide)
  single := by decide

namespace World

variable {world next : World} {id : ℕ} {call : Call}

theorem Safe.holder_unique (safe : world.Safe) {other : ℕ} {another : Call}
    (found : world.calls id = some call) (holds : call.phase.holds = true)
    (otherFound : world.calls other = some another) (otherHolds : another.phase.holds = true) :
    id = other := by
  have first := (safe.fits id call found).holder holds
  have second := (safe.fits other another otherFound).holder otherHolds
  exact Option.some.inj (first.symm.trans second)

variable {arrival : ℕ}

theorem Safe.program_of_running (safe : world.Safe) (found : world.calls id = some call)
    (running : call.phase = .running arrival) (programmed : world.program ≠ .idle) :
    call.method = .codeRun := by
  obtain ⟨other, another, its, otherFound, isRun, otherRunning⟩ := safe.program programmed
  have same : id = other :=
    safe.holder_unique found (by rw [running]; rfl) otherFound (by rw [otherRunning]; rfl)
  subst same
  rw [Option.some.inj (found.symm.trans otherFound)]
  exact isRun

theorem Fits.carry (fits : world.Fits id call) (arrived : world.arrived ≤ next.arrived)
    (lock : call.phase.holds = true → next.lock = some id)
    (generation : next.stopGeneration = world.stopGeneration)
    (abandoned : next.abandoned ≤ world.abandoned) :
    next.Fits id call where
  known := Nat.lt_of_lt_of_le fits.known arrived
  holder := lock
  bounded := by rw [generation]; exact fits.bounded
  fresh := by
    rw [generation]
    intro notSession isFresh
    have none := fits.fresh notSession isFresh
    omega
  alone := by
    intro business arrival running
    have none := fits.alone business arrival running
    omega
  cutOff := by rw [generation]; exact fits.cutOff

theorem Fits.of_begun (notAdmitted : call.phase ≠ .admitted)
    (notWaiting : ∀ arrival, ¬ call.phase.Waits arrival) (known : id < next.arrived)
    (holder : call.phase.holds = true → next.lock = some id)
    (alone : call.method = .business → ∀ arrival,
      call.phase = .running arrival → next.abandoned = 0)
    (cutOff : call.stopped = true → call.method ≠ .session ∧ call.phase = .over false) :
    next.Fits id call where
  known := known
  holder := holder
  bounded := fun arrival waits => absurd waits (notWaiting arrival)
  fresh := by
    rintro _ (isAdmitted | waits)
    · exact absurd isAdmitted notAdmitted
    · exact absurd waits (notWaiting _)
  alone := alone
  cutOff := fun isStopped => ⟨(cutOff isStopped).1, .inr (cutOff isStopped).2⟩

theorem Safe.put (safe : world.Safe)
    (calls : next.calls = Function.update world.calls id (some call)) (fits : next.Fits id call)
    (arrived : world.arrived ≤ next.arrived)
    (lock : ∀ other, other ≠ id → world.lock = some other →
      next.lock = some other)
    (generation : next.stopGeneration = world.stopGeneration)
    (abandoned : next.abandoned = world.abandoned)
    (program : next.program ≠ .idle → ∃ holder holding arrival,
      next.calls holder = some holding ∧ holding.method = .codeRun ∧
        holding.phase = .running arrival)
    (clear : next.program = .serving ∨ next.program = .calling →
      world.program = .serving ∨ world.program = .calling) :
    next.Safe where
  fits := by
    intro other another found
    rw [calls] at found
    by_cases isSame : other = id
    · subst isSame
      rw [Function.update_self] at found
      rw [← Option.some.inj found]
      exact fits
    · rw [Function.update_of_ne isSame] at found
      have before := safe.fits other another found
      exact before.carry arrived (fun holds => lock other isSame (before.holder holds)) generation
        (Nat.le_of_eq abandoned)
  program := program
  clear := by
    intro running
    rw [abandoned]
    exact safe.clear (clear running)
  single := by rw [abandoned]; exact safe.single

theorem Safe.program_update (safe : world.Safe) (found : world.calls id = some call) (phase : Phase)
    (notRunning : ∀ arrival, call.phase ≠ .running arrival) (programmed : world.program ≠ .idle) :
    ∃ holder holding arrival,
      Function.update world.calls id (some { call with phase := phase }) holder = some holding ∧
        holding.method = .codeRun ∧ holding.phase = .running arrival := by
  obtain ⟨holder, holding, arrival, isFound, isRun, running⟩ := safe.program programmed
  have different : holder ≠ id := by
    intro same
    subst same
    rw [Option.some.inj (found.symm.trans isFound)] at notRunning
    exact notRunning arrival running
  refine ⟨holder, holding, arrival, ?_, isRun, running⟩
  rw [Function.update_of_ne different]
  exact isFound

/-! ## The steps of a call -/

theorem Safe.arrive (safe : world.Safe) (method : Method) : (world.arrive method).Safe := by
  unfold World.arrive
  by_cases refused : world.exclusive = true
  · rw [if_pos refused]
    exact safe
  rw [if_neg refused]
  have noneAbandoned : world.abandoned = 0 := by
    simp only [exclusive, Bool.or_eq_true, decide_eq_true_eq, not_or, not_not] at refused
    exact refused.2
  have isNew : world.calls world.arrived = none := by
    cases found : world.calls world.arrived with
    | none => rfl
    | some call => exact absurd (safe.fits _ call found).known (lt_irrefl _)
  refine safe.put rfl ?_ (Nat.le_succ _) (fun _ _ held => held) rfl rfl ?_ (fun running => running)
  · exact
      { known := Nat.lt_succ_self _
        holder := fun holds => Bool.noConfusion holds
        bounded := by
          rintro arrival (isQueued | isLocked)
          · cases isQueued
          · cases isLocked
        fresh := fun _ _ => noneAbandoned
        alone := fun _ _ running => Phase.noConfusion running
        cutOff := fun isStopped => Bool.noConfusion isStopped }
  · intro programmed
    obtain ⟨holder, holding, arrival, found, isRun, running⟩ := safe.program programmed
    refine ⟨holder, holding, arrival, ?_, isRun, running⟩
    have different : holder ≠ world.arrived := by
      intro same
      rw [same, isNew] at found
      cases found
    exact (Function.update_of_ne different _ _).trans found

theorem Safe.readGeneration (safe : world.Safe) (found : world.calls id = some call)
    (isAdmitted : call.phase = .admitted) :
    (world.setCall id { call with phase := .queued world.stopGeneration }).Safe := by
  have before := safe.fits id call found
  refine safe.put rfl ?_ le_rfl (fun _ _ held => held) rfl rfl ?_ (fun running => running)
  · exact
      { known := before.known
        holder := fun holds => Bool.noConfusion holds
        bounded := by
          rintro arrival (isQueued | isLocked)
          · exact Nat.le_of_eq (Phase.queued.inj isQueued).symm
          · cases isLocked
        fresh := fun notSession _ => before.fresh notSession (.inl isAdmitted)
        alone := fun _ _ running => Phase.noConfusion running
        cutOff := by
          intro isStopped
          rcases (before.cutOff isStopped).2 with
            ⟨arrival, isQueued | isLocked, _⟩ | isOver
          · cases isAdmitted.symm.trans isQueued
          · cases isAdmitted.symm.trans isLocked
          · cases isAdmitted.symm.trans isOver }
  · exact safe.program_update found _ (fun arrival running =>
      Phase.noConfusion (isAdmitted.symm.trans running))

theorem Safe.takeLock (safe : world.Safe) (found : world.calls id = some call)
    (isQueued : call.phase = .queued arrival) (free : world.lock = none) :
    ({ world.setCall id { call with phase := .locked arrival } with
      lock := some id } : World).Safe := by
  have before := safe.fits id call found
  refine safe.put rfl ?_ le_rfl ?_ rfl rfl ?_ (fun running => running)
  · exact
      { known := before.known
        holder := fun _ => rfl
        bounded := by
          rintro other (otherQueued | otherLocked)
          · cases otherQueued
          · rw [← Phase.locked.inj otherLocked]
            exact before.bounded arrival (.inl isQueued)
        fresh := by
          rintro notSession (isAdmitted | otherQueued | otherLocked)
          · cases isAdmitted
          · cases otherQueued
          · have same : arrival = world.stopGeneration :=
              Phase.locked.inj otherLocked
            rw [same] at isQueued
            exact before.fresh notSession (.inr (.inl isQueued))
        alone := fun _ _ running => Phase.noConfusion running
        cutOff := by
          intro isStopped
          obtain ⟨notSession, cut⟩ := before.cutOff isStopped
          refine ⟨notSession, ?_⟩
          rcases cut with ⟨other, otherQueued | otherLocked, less⟩ | isOver
          · rw [← Phase.queued.inj (isQueued.symm.trans otherQueued)] at less
            exact .inl ⟨arrival, .inr rfl, less⟩
          · cases isQueued.symm.trans otherLocked
          · cases isQueued.symm.trans isOver }
  · intro other _ held
    rw [free] at held
    cases held
  · exact safe.program_update found _ (fun _ running =>
      Phase.noConfusion (isQueued.symm.trans running))

theorem Safe.startCall (safe : world.Safe) (found : world.calls id = some call)
    (isLocked : call.phase = .locked arrival) : (world.startCall id call arrival).Safe := by
  have before := safe.fits id call found
  have held : world.lock = some id := before.holder (by rw [isLocked]; rfl)
  have notHeld : ∀ other, other ≠ id → world.lock ≠ some other := by
    intro other different otherHeld
    exact different (Option.some.inj (otherHeld.symm.trans held))
  have keeps := fun phase =>
    safe.program_update found phase (fun _ running =>
      Phase.noConfusion (isLocked.symm.trans running))
  unfold World.startCall
  by_cases cancelled : world.stopGeneration ≠ arrival ∧ call.method ≠ .session
  · rw [if_pos cancelled]
    refine safe.put rfl ?_ le_rfl
      (fun other different otherHeld => absurd otherHeld (notHeld other different))
      rfl rfl (keeps _) (fun running => running)
    exact Fits.of_begun (fun same => Phase.noConfusion same)
      (Phase.not_waits_over false) before.known
      (fun holds => Bool.noConfusion holds)
      (fun _ _ running => Phase.noConfusion running)
      (fun _ => ⟨cancelled.2, rfl⟩)
  · rw [if_neg cancelled]
    have current : call.method ≠ .session → arrival = world.stopGeneration := by
      intro notSession
      by_contra different
      exact cancelled ⟨fun same => different same.symm, notSession⟩
    refine safe.put rfl ?_ le_rfl (fun _ _ otherHeld => otherHeld) rfl rfl
      (keeps _) (fun running => running)
    refine Fits.of_begun (fun same => Phase.noConfusion same)
      (Phase.not_waits_running arrival) before.known (fun _ => held) ?_ ?_
    · intro isBusiness _ _
      have notSession : call.method ≠ .session := by
        rw [isBusiness]
        decide
      rw [current notSession] at isLocked
      exact before.fresh notSession (.inr (.inr isLocked))
    · -- A stop has made the generation larger than the one it read.
      intro isStopped
      obtain ⟨notSession, cut⟩ := before.cutOff isStopped
      rcases cut with ⟨other, isQueued | otherLocked, less⟩ | isOver
      · cases isLocked.symm.trans isQueued
      · have same := Phase.locked.inj (isLocked.symm.trans otherLocked)
        have now := current notSession
        omega
      · cases isLocked.symm.trans isOver

theorem Safe.leave (safe : world.Safe) (found : world.calls id = some call)
    (isRunning : call.phase = .running arrival) : (world.leave id call true).Safe := by
  have before := safe.fits id call found
  have held : world.lock = some id := before.holder (by rw [isRunning]; rfl)
  have idle : (world.leave id call true).program = .idle := by
    by_cases isRun : call.method = .codeRun
    · exact if_pos isRun
    · refine (if_neg isRun).trans ?_
      by_contra programmed
      exact isRun (safe.program_of_running found isRunning programmed)
  refine safe.put rfl ?_ le_rfl ?_ rfl rfl (fun programmed => absurd idle programmed) ?_
  · refine Fits.of_begun (fun same => Phase.noConfusion same)
      (Phase.not_waits_over true) before.known
      (fun holds => Bool.noConfusion holds)
      (fun _ _ running => Phase.noConfusion running) ?_
    intro isStopped
    rcases (before.cutOff isStopped).2 with ⟨other, waits, _⟩ | isOver
    · rw [isRunning] at waits
      exact absurd waits (Phase.not_waits_running arrival other)
    · cases isRunning.symm.trans isOver
  · intro other different otherHeld
    exact absurd (Option.some.inj (otherHeld.symm.trans held)) different
  · rw [idle]
    rintro (running | running)
    · cases running
    · cases running

theorem Safe.programmed (safe : world.Safe) (program : Program)
    (holder : ∃ id call arrival,
      world.calls id = some call ∧ call.method = .codeRun ∧ call.phase = .running arrival)
    (clear : world.abandoned = 0 ∨ program ≠ .serving ∧ program ≠ .calling) :
    ({ world with program := program } : World).Safe where
  fits := fun id call found =>
    (safe.fits id call found).carry le_rfl (safe.fits id call found).holder rfl le_rfl
  program := fun _ => holder
  clear := by
    intro running
    rcases clear with none | notRunning
    · exact none
    · exact absurd running (not_or.mpr notRunning)
  single := safe.single

theorem Safe.stepCall (safe : world.Safe) (found : world.calls id = some call) (event : Event) :
    (world.stepCall id call event).Safe := by
  cases event with
  | readGeneration _ =>
    dsimp only [World.stepCall]
    split_ifs with isAdmitted
    · exact safe.readGeneration found isAdmitted
    · exact safe
  | takeLock _ =>
    dsimp only [World.stepCall]
    split
    · rename_i arrival isQueued free
      exact safe.takeLock found isQueued free
    · exact safe
  | start _ =>
    dsimp only [World.stepCall]
    split
    · rename_i arrival isLocked
      exact safe.startCall found isLocked
    · exact safe
  | programStarts _ =>
    dsimp only [World.stepCall]
    split
    · rename_i arrival isRunning isRun _
      unfold startProgram
      split_ifs with refused
      · exact safe.leave found isRunning
      · exact safe.programmed .serving ⟨id, call, arrival, found, isRun, isRunning⟩
          (.inl (not_not.mp refused))
    · exact safe
  | finish _ =>
    dsimp only [World.stepCall]
    split
    · rename_i arrival isRunning
      split_ifs with programmed
      · exact safe
      · exact safe.leave found isRunning
    · exact safe
  | _ => exact safe

theorem Safe.onCall (safe : world.Safe) (id : ℕ) (event : Event) :
    (world.onCall id event).Safe := by
  unfold World.onCall
  cases found : world.calls id with
  | none => exact safe
  | some call => exact safe.stepCall found event

/-! ## Stops -/

theorem Safe.requestStop (safe : world.Safe)
    (quiet : ∀ id call, world.calls id = some call →
      call.method ≠ .session → call.phase ≠ .admitted)
    (calls : next.calls = fun id => (world.calls id).map Call.stop)
    (arrived : next.arrived = world.arrived)
    (lock : next.lock = world.lock)
    (generation : next.stopGeneration = world.stopGeneration + 1)
    (alone : ∀ id call arrival, world.calls id = some call →
      call.method = .business → call.phase = .running arrival →
      next.abandoned = 0)
    (program : next.program ≠ .idle → world.program ≠ .idle)
    (clear : next.program = .serving ∨ next.program = .calling →
      next.abandoned = 0)
    (single : next.abandoned ≤ 1) :
    next.Safe where
  fits := by
    intro id stoppedCall found
    rw [calls, Option.map_eq_some_iff] at found
    obtain ⟨call, before, rfl⟩ := found
    have fits := safe.fits id call before
    exact
      { known := by rw [arrived]; exact fits.known
        holder := by rw [lock]; exact fits.holder
        bounded := by
          intro arrival waits
          have bounded := fits.bounded arrival waits
          omega
        fresh := by
          rintro notSession (isAdmitted | waits)
          · exact absurd isAdmitted (quiet id call before notSession)
          · have bounded := fits.bounded _ waits
            omega
        alone := fun isBusiness arrival running => alone id call arrival before isBusiness running
        cutOff := by
          intro isStopped
          have late : ∀ arrival, call.phase.Waits arrival → arrival < next.stopGeneration := by
            intro arrival waits
            have bounded := fits.bounded arrival waits
            omega
          by_cases already : call.stopped = true
          · obtain ⟨notSession, cut⟩ := fits.cutOff already
            refine ⟨notSession, ?_⟩
            rcases cut with ⟨arrival, waits, _⟩ | isOver
            · exact .inl ⟨arrival, waits, late arrival waits⟩
            · exact .inr isOver
          · simp only [Call.stop, already, Bool.false_or, Bool.and_eq_true,
              decide_eq_true_eq, Bool.not_eq_true'] at isStopped
            obtain ⟨notSession, notStarted⟩ := isStopped
            refine ⟨notSession, ?_⟩
            change (∃ arrival, call.phase.Waits arrival ∧ _) ∨ call.phase = _
            cases phase : call.phase with
            | admitted => exact absurd phase (quiet id call before notSession)
            | queued arrival => exact .inl ⟨arrival, .inl rfl, late arrival (.inl phase)⟩
            | locked arrival => exact .inl ⟨arrival, .inr rfl, late arrival (.inr phase)⟩
            | running arrival =>
              rw [phase] at notStarted
              cases notStarted
            | «over» started =>
              rw [phase] at notStarted
              cases notStarted
              exact .inr rfl }
  program := by
    intro programmed
    obtain ⟨id, call, arrival, found, isRun, running⟩ := safe.program (program programmed)
    refine ⟨id, call.stop, arrival, ?_, isRun, running⟩
    rw [calls]
    exact congrArg (Option.map Call.stop) found
  clear := clear
  single := single

theorem Safe.step (safe : world.Safe) {event : Event} (apart : world.Apart event) :
    (world.step event).Safe := by
  cases event with
  | arrive method => exact safe.arrive method
  | readGeneration id | takeLock id | start id | programStarts id | finish id =>
    exact safe.onCall id _
  | primitiveStarts =>
    dsimp only [World.step]
    split_ifs with serving stopped
    · exact safe.programmed .cut (safe.program (by rw [serving]; decide)) (.inr (by decide))
    · exact safe.programmed .calling (safe.program (by rw [serving]; decide))
        (.inl (safe.clear (.inl serving)))
    · exact safe
  | primitiveReturns =>
    dsimp only [World.step]
    split_ifs with calling
    · exact safe.programmed .serving (safe.program (by rw [calling]; decide))
        (.inl (safe.clear (.inr calling)))
    · exact safe
  | programEnds =>
    dsimp only [World.step]
    split_ifs with ends
    · have programmed : world.program ≠ .idle := by
        rcases ends with serving | cut
        · rw [serving]; decide
        · rw [cut]; decide
      exact safe.programmed .over (safe.program programmed) (.inr (by decide))
    · exact safe
  | abandon =>
    dsimp only [World.step]
    split_ifs with calling
    · have none := safe.clear (.inr calling)
      have programmed : world.program ≠ .idle := by
        rw [calling]
        decide
      refine safe.requestStop (apart calling) rfl rfl rfl rfl ?_
        (fun _ => programmed) ?_ (Nat.le_of_eq (congrArg (· + 1) none))
      · -- The call that runs is the program's, not a business call.
        intro id call arrival found isBusiness running
        have isRun := safe.program_of_running found running programmed
        cases isBusiness.symm.trans isRun
      · rintro (running | running)
        · cases running
        · cases running
    · exact safe
  | stop =>
    exact safe.requestStop (apart trivial) rfl rfl rfl rfl
      (fun id call arrival found isBusiness => (safe.fits id call found).alone isBusiness arrival)
      (fun programmed => programmed) safe.clear safe.single
  | release =>
    dsimp only [World.step]
    split_ifs with noneReturned
    · exact safe
    · exact safe.requestStop (apart noneReturned) rfl rfl rfl rfl
        (fun id call arrival found isBusiness => (safe.fits id call found).alone isBusiness arrival)
        (fun programmed => programmed) safe.clear safe.single
  | abandonedReturns =>
    dsimp only [World.step]
    split_ifs with none
    · exact safe
    · exact
        { fits := fun id call found =>
            (safe.fits id call found).carry le_rfl
              (safe.fits id call found).holder rfl (Nat.sub_le _ _)
          program := safe.program
          clear := by
            intro running
            have zero := safe.clear running
            exact absurd zero none
          single := le_trans (Nat.sub_le _ _) safe.single }

/-! ## One body -/

theorem Safe.program_of_business (safe : world.Safe) (active : world.Active (.business id)) :
    world.program = .idle ∧ world.abandoned = 0 := by
  obtain ⟨call, arrival, found, isBusiness, running⟩ := active
  refine ⟨?_, (safe.fits id call found).alone isBusiness arrival running⟩
  by_contra programmed
  have isRun := safe.program_of_running found running programmed
  cases isBusiness.symm.trans isRun

theorem Safe.one_active (safe : world.Safe) {first second : Body}
    (firstActive : world.Active first) (secondActive : world.Active second) : first = second := by
  have apart : ∀ id, world.Active (.business id) → ∀ body,
      world.Active body → body = .business id := by
    intro id active body bodyActive
    obtain ⟨idle, none⟩ := safe.program_of_business active
    cases body with
    | business other =>
      obtain ⟨call, arrival, found, _, running⟩ := active
      obtain ⟨another, its, otherFound, _, otherRunning⟩ := bodyActive
      have same : other = id :=
        safe.holder_unique otherFound (by rw [otherRunning]; rfl) found (by rw [running]; rfl)
      rw [same]
    | primitive =>
      have calling : world.program = .calling := bodyActive
      cases idle.symm.trans calling
    | abandoned number =>
      have some : number < world.abandoned := bodyActive
      omega
  cases first with
  | business id => exact (apart id firstActive second secondActive).symm
  | primitive =>
    cases second with
    | business id => exact apart id secondActive _ firstActive
    | primitive => rfl
    | abandoned number =>
      have none := safe.clear (.inr firstActive)
      have some : number < world.abandoned := secondActive
      omega
  | abandoned number =>
    have some : number < world.abandoned := firstActive
    cases second with
    | business id => exact apart id secondActive _ firstActive
    | primitive =>
      have none := safe.clear (.inr secondActive)
      omega
    | abandoned other =>
      have otherSome : other < world.abandoned := secondActive
      have single := safe.single
      have same : number = other := by omega
      rw [same]

theorem Safe.not_started (safe : world.Safe) (found : world.calls id = some call)
    (stopped : call.stopped = true) : call.phase.started = false := by
  rcases ((safe.fits id call found).cutOff stopped).2 with
    ⟨arrival, isQueued | isLocked, _⟩ | isOver
  · rw [isQueued]; rfl
  · rw [isLocked]; rfl
  · rw [isOver]; rfl

end World

/-- In a run whose stops all come apart from the admissions, one body touches
the env at a time, no business body runs beside a program or a primitive it
abandoned, and a call stopped before it had started never starts. -/
theorem one_body (events : List Event)
    (apart : Runs.AllAllowed World.step World.Apart World.initial events) :
    let world := World.initial.after events
    (∀ first second, world.Active first → world.Active second →
      first = second) ∧
    (∀ id, world.Active (.business id) → ¬ world.ProgramRuns ∧ world.abandoned = 0) ∧
    (∀ id call, world.calls id = some call → call.stopped = true → call.phase.started = false) := by
  intro world
  have safe : world.Safe :=
    Runs.after_of_allAllowed World.step (fun _ _ isApart before => before.step isApart)
      World.initial_safe apart
  refine ⟨fun _ _ => safe.one_active, ?_, fun _ _ => safe.not_started⟩
  intro id active
  obtain ⟨idle, none⟩ := safe.program_of_business active
  exact ⟨fun runs => runs.1 idle, none⟩

/-- A program abandons its primitive and ends; a business call is admitted
once the primitive has returned, and a stop finds it queued. -/
def orderlyRun : List Event :=
  [.arrive .codeRun, .readGeneration 0, .takeLock 0, .start 0,
    .programStarts 0, .primitiveStarts, .abandon, .programEnds, .finish 0,
    .abandonedReturns, .release, .arrive .business, .readGeneration 1, .stop,
    .takeLock 1, .start 1]

theorem orderlyRun_one_body :
    Runs.AllAllowed World.step World.Apart World.initial orderlyRun ∧
      ∀ call, (World.initial.after orderlyRun).calls 1 = some call →
        call.stopped = true → call.phase.started = false := by
  have apart : Runs.AllAllowed World.step World.Apart World.initial orderlyRun := by
    refine ⟨False.elim, False.elim, False.elim, False.elim, False.elim,
      False.elim, ?_, False.elim, False.elim, False.elim, ?_, False.elim,
      False.elim, ?_, False.elim, False.elim, trivial⟩
    · rintro _ (_ | _) call found _ isAdmitted
      · cases found
        cases isAdmitted
      · cases found
    · rintro _ (_ | _) call found _ isAdmitted
      · cases found
        cases isAdmitted
      · cases found
    · rintro _ (_ | _ | _) call found _ isAdmitted
      · cases found
        cases isAdmitted
      · cases found
        cases isAdmitted
      · cases found
  exact ⟨apart, (one_body orderlyRun apart).2.2 1⟩

/-- A business call that was admitted before a program starts reads the stop
generation after the program abandoned its primitive. -/
def lateRun : List Event :=
  [.arrive .codeRun, .arrive .business, .readGeneration 0, .takeLock 0,
    .start 0, .programStarts 0, .primitiveStarts, .abandon, .programEnds,
    .finish 0, .readGeneration 1, .takeLock 1, .start 1]

theorem late_call_beside_abandoned :
    ∃ events : List Event,
      let world := World.initial.after events
      world.Active (.business 1) ∧ world.Active (.abandoned 0) ∧
        ∃ call, world.calls 1 = some call ∧ call.stopped = true ∧ call.phase.started = true :=
  ⟨lateRun, ⟨_, _, rfl, rfl, rfl⟩, Nat.one_pos, _, rfl, rfl, rfl⟩

end PiEmbodied.Services.Rpc
