import PiEmbodied.Runs

/-!
# Operator takeover

The agent's robot calls pass a gate: they wait while the operator drives, and
a call decided before the operator acted is dropped.  The operator drives in
batches of steps, and by manual calls.
-/

namespace PiEmbodied.Capabilities.Gumi

/-! ## Who drives -/

inductive Mode where
  | agent
  | requested
  | human
deriving DecidableEq

structure Takeover where
  mode : Mode
  /-- Operator units since the agent's latest observation. -/
  driven : List String
  /-- Operator steps since boot. -/
  generation : ℕ
  /-- An operator batch is running. -/
  operating : Bool
  /-- The generation the agent's current decision rests on. -/
  observed : ℕ
  /-- The generation of the latest robot result or drop notice. -/
  informed : ℕ
  (busy handBack : Bool)
deriving DecidableEq

namespace Takeover

def start : Takeover where
  mode := .agent
  driven := []
  generation := 0
  operating := false
  observed := 0
  informed := 0
  busy := false
  handBack := false

def take (takeover : Takeover) : Takeover :=
  { takeover with
    handBack := false
    mode :=
      if takeover.mode = .agent then
        if takeover.busy then .requested else .human
      else takeover.mode }

def release (takeover : Takeover) : Takeover :=
  if takeover.operating then { takeover with handBack := true }
  else { takeover with mode := .agent }

def begin_ (takeover : Takeover) : Takeover :=
  { takeover with operating := true }

def end_ (takeover : Takeover) : Takeover :=
  { takeover with
    operating := false
    mode := if takeover.handBack then .agent else takeover.mode
    handBack := false }

def human (takeover : Takeover) : Bool :=
  takeover.mode = .human

def humanStep (takeover : Takeover) (units : List String) : Takeover :=
  { takeover with
    generation := takeover.generation + 1
    driven := takeover.driven ++ units }

def seen (takeover : Takeover) : Takeover :=
  { takeover with informed := takeover.generation, driven := [] }

def decide (takeover : Takeover) : Takeover :=
  { takeover with observed := takeover.informed }

/-- The condition of the loop of `gate`. -/
def holds (takeover : Takeover) : Bool :=
  takeover.mode ≠ .agent || takeover.operating

def stale (takeover : Takeover) : Bool :=
  takeover.generation ≠ takeover.observed

/-- `gate`, past its loop. -/
def pass (takeover : Takeover) : Takeover :=
  if takeover.stale then takeover.seen else { takeover with busy := true }

def done (takeover : Takeover) : Takeover :=
  { takeover with
    busy := false
    mode := if takeover.mode = .requested then .human else takeover.mode }

end Takeover

/-- Robot tools run one at a time; a call ends with `tool_execution_end`. -/
inductive Call where
  /-- In the gate; `woken` once its promise is resolved. -/
  | waiting (woken : Bool)
  /-- Past the gate, until it ends. -/
  | running
  /-- Dropped as stale, or aborted in the gate. -/
  | blocked
deriving DecidableEq

/-- How a step ran; `moved` tells whether it moved the robot. -/
inductive Outcome where
  | threw (moved : Bool)
  /-- `looks`, where every acting arm's unit only looks; `ran`, the units that
  the result says ran. -/
  | returned (looks : Bool) (ran : Option ℕ) (moved halted : Bool)
deriving DecidableEq

namespace Outcome

def moved : Outcome → Bool
  | threw moved | returned _ _ moved _ => moved

/-- `moved` of the batch: whether the step counts. -/
def counts : Outcome → Bool
  | threw _ => false
  | returned looks ran _ _ => ran ≠ some 0 && !looks

def breaks : Outcome → Bool
  | threw _ => true
  | returned _ _ _ halted => halted

/-- A step that moved the robot returns, and its result says so. -/
def Told : Outcome → Prop
  | threw moved => moved = false
  | returned looks ran moved _ => moved = true → looks = false ∧ ran ≠ some 0

end Outcome

inductive Batch where
  /-- Steps, with whether the next one runs. -/
  | steps (goesOn : Bool)
  /-- A manual call of a robot tool. -/
  | manual
deriving DecidableEq

/-! ## Runs -/

/-- `moved` counts the operator steps that moved the robot, `told` those
before the latest robot result or drop notice, and `basis` the ones told of
when the latest model request started. -/
structure World where
  takeover : Takeover
  /-- The agent is in no run. -/
  idle : Bool
  call : Option Call
  aborted : Bool
  batch : Option Batch
  (moved told basis : ℕ)
deriving DecidableEq

inductive Event where
  | runStarts
  /-- A model request starts. -/
  | request
  /-- A robot call comes to the gate. -/
  | callStarts
  /-- The loop of the gate goes on. -/
  | gateChecks
  | abort
  /-- A robot call that passed has a result, or fails with one. -/
  | result
  | callEnds
  | runEnds
  /-- A session starts or ends. -/
  | session
  | take
  | release
  | batchBegins
  | stepRefused
  | batchStep (units : List String) (outcome : Outcome)
  | batchEnds
  | manualBegins
  /-- A manual call returns, or fails; `moved` as for a step. -/
  | manualEnds (label : String) (fails moved : Bool)
  | look
deriving DecidableEq

namespace World

def start : World where
  takeover := .start
  idle := true
  call := none
  aborted := false
  batch := none
  moved := 0
  told := 0
  basis := 0

def wake (world : World) : World :=
  match world.call with
  | some (.waiting _) => { world with call := some (.waiting true) }
  | _ => world

/-- The body of `gate`: the call waits on, is aborted, dropped, or passes. -/
def gate (world : World) : World :=
  if world.takeover.holds then
    if world.aborted then { world with call := some .blocked }
    else { world with call := some (.waiting false) }
  else
    { world with
      takeover := world.takeover.pass
      call := some (if world.takeover.stale then .blocked else .running)
      told := if world.takeover.stale then world.moved else world.told }

def release (world : World) : World :=
  wake { world with takeover := world.takeover.release }

def mayOperate (world : World) : Bool :=
  (world.idle || world.takeover.human) && !world.takeover.operating

def operate (world : World) (units : List String) (counts moved : Bool) :
    World :=
  { world with
    takeover :=
      if counts then world.takeover.humanStep units else world.takeover
    moved := if moved then world.moved + 1 else world.moved }

def beginBatch (world : World) (batch : Batch) : World :=
  if world.mayOperate then
    { world with takeover := world.takeover.begin_, batch := some batch }
  else world

def endBatch (world : World) : World :=
  wake { world with takeover := world.takeover.end_, batch := none }

def step (world : World) : Event → World
  | .runStarts =>
    if world.idle then { world with idle := false, aborted := false }
    else world
  | .request =>
    if world.idle || world.call.isSome then world
    else
      { world with
        takeover := world.takeover.decide
        basis := world.told }
  | .callStarts =>
    if world.idle || world.call.isSome then world else world.gate
  | .gateChecks =>
    if world.call = some (.waiting true) then world.gate else world
  | .abort => if world.idle then world else wake { world with aborted := true }
  | .result =>
    if world.call = some .running then
      { world with
        takeover := world.takeover.seen
        told := world.moved }
    else world
  | .callEnds =>
    if world.call = some .running ∨ world.call = some .blocked then
      { world with takeover := world.takeover.done, call := none }
    else world
  | .runEnds =>
    if world.call.isSome then world
    else { world with idle := true }.release
  | .session => world.release
  | .take => { world with takeover := world.takeover.take }
  | .release => world.release
  | .batchBegins => world.beginBatch (.steps true)
  | .stepRefused =>
    if world.batch = some (.steps true) then
      { world with batch := some (.steps false) }
    else world
  | .batchStep units outcome =>
    if world.batch = some (.steps true) then
      { world.operate units outcome.counts outcome.moved with
        batch := some (.steps !outcome.breaks) }
    else world
  | .batchEnds =>
    if world.batch = some (.steps true) ∨
        world.batch = some (.steps false) then
      world.endBatch
    else world
  | .manualBegins => world.beginBatch .manual
  | .manualEnds label fails moved =>
    if world.batch = some .manual then
      (world.operate [label] (!fails) moved).endBatch
    else world
  | .look => world

def after (world : World) (events : List Event) : World :=
  Runs.after step world events

end World

/-- Every operator step and manual call that moves the robot tells so. -/
def Event.Told : Event → Prop
  | batchStep _ outcome => outcome.Told
  | manualEnds _ fails moved => fails = true → moved = false
  | _ => True

/-! ## What holds between the events -/

namespace World

/-- The call past the gate is the one that makes the agent busy; the operator
acts beside none. -/
structure Held (world : World) : Prop where
  busy : world.takeover.busy = true ↔ world.call = some .running
  human : world.takeover.mode = .human → world.takeover.busy = false
  operating : world.takeover.operating = true → world.takeover.busy = false
  idle : world.idle = true → world.call = none
  batch : world.batch.isSome = true ↔ world.takeover.operating = true
  waiting : world.call = some (.waiting false) → world.takeover.holds = true

theorem held_start : start.Held where
  busy := by decide
  human := by decide
  operating := by decide
  idle := by decide
  batch := by decide
  waiting := by decide

variable {world : World}

theorem held_wake (busy : world.takeover.busy = true ↔ world.call = some .running)
    (human : world.takeover.mode = .human → world.takeover.busy = false)
    (operating : world.takeover.operating = true → world.takeover.busy = false)
    (idle : world.idle = true → world.call = none)
    (batch : world.batch.isSome = true ↔ world.takeover.operating = true) : world.wake.Held := by
  unfold wake
  split
  case h_1 woken isWaiting =>
    refine ⟨?_, human, operating, ?_, batch, by simp⟩
    · rw [busy, isWaiting]
      simp
    · intro isIdle
      rw [idle isIdle] at isWaiting
      cases isWaiting
  case h_2 notWaiting =>
    exact ⟨busy, human, operating, idle, batch, fun isWaiting =>
      absurd isWaiting (notWaiting false)⟩

section Steps

variable {world : World}

section

variable (held : world.Held)
include held

theorem Held.not_busy (notRunning : world.call ≠ some .running) :
    world.takeover.busy = false := by
  by_contra isBusy
  exact notRunning (held.busy.mp (by simpa using isBusy))

theorem Held.gate (notRunning : world.call ≠ some .running) (notIdle : world.idle = false) :
    world.gate.Held := by
  have notBusy := held.not_busy notRunning
  have blocked : ∀ call : Call, call ≠ .running →
      (call = .waiting false → world.takeover.holds = true) →
      ({ world with call := some call } : World).Held := by
    intro call notPassed waits
    refine ⟨?_, held.human, held.operating, ?_, held.batch, ?_⟩
    · dsimp only
      rw [notBusy]
      simpa using notPassed
    · intro isIdle
      rw [show world.idle = true from isIdle] at notIdle
      cases notIdle
    · intro isWaiting
      exact waits (Option.some.inj isWaiting)
  unfold World.gate
  by_cases holds : world.takeover.holds = true
  · rw [if_pos holds]
    split_ifs
    · exact blocked .blocked (by simp) (by simp)
    · exact blocked (.waiting false) (by simp) fun _ => holds
  · rw [if_neg holds]
    have isFree : world.takeover.mode = .agent ∧ world.takeover.operating = false := by
      simpa [Takeover.holds] using holds
    obtain ⟨isAgent, notOperating⟩ := isFree
    unfold Takeover.pass
    by_cases isStale : world.takeover.stale = true
    · simp only [if_pos isStale]
      refine ⟨?_, held.human, held.operating, ?_, held.batch, by simp⟩
      · simp [Takeover.seen, notBusy]
      · simp [notIdle]
    · simp only [if_neg isStale]
      refine ⟨by simp, ?_, ?_, ?_, held.batch, by simp⟩
      · simp [isAgent]
      · simp [notOperating]
      · simp [notIdle]

theorem Held.release : world.release.Held := by
  unfold World.release Takeover.release
  by_cases isOperating : world.takeover.operating = true
  · rw [if_pos isOperating]
    exact held_wake held.busy held.human held.operating held.idle held.batch
  · rw [if_neg isOperating]
    exact held_wake held.busy (by simp) held.operating held.idle held.batch

theorem Held.operate (units : List String) (counts moved : Bool) :
    (world.operate units counts moved).Held := by
  unfold World.operate
  cases counts with
  | false | true =>
    exact ⟨held.busy, held.human, held.operating, held.idle, held.batch, held.waiting⟩

theorem Held.beginBatch (batch : Batch) : (world.beginBatch batch).Held := by
  unfold World.beginBatch
  by_cases mayOperate : world.mayOperate = true
  · rw [if_pos mayOperate]
    have notRunning : world.takeover.busy = false := by
      simp only [World.mayOperate, Bool.and_eq_true, Bool.or_eq_true] at mayOperate
      rcases mayOperate.1 with isIdle | isHuman
      · refine held.not_busy ?_
        rw [held.idle isIdle]
        simp
      · exact held.human (by simpa [Takeover.human] using isHuman)
    refine ⟨held.busy, held.human, fun _ => notRunning, held.idle, ?_, ?_⟩
    · simp [Takeover.begin_]
    · intro _
      simp [Takeover.holds, Takeover.begin_]
  · rw [if_neg mayOperate]
    exact held

theorem Held.endBatch : world.endBatch.Held := by
  unfold World.endBatch Takeover.end_
  refine held_wake held.busy ?_ (by simp) held.idle (by simp)
  intro isHuman
  refine held.human ?_
  dsimp only at isHuman
  split_ifs at isHuman
  exact isHuman

theorem Held.withBatch {batch : Batch} (isRunning : world.batch.isSome = true) :
    ({ world with batch := some batch } : World).Held :=
  ⟨held.busy, held.human, held.operating, held.idle,
    by simpa using held.batch.mp isRunning, held.waiting⟩

theorem Held.step (event : Event) : (world.step event).Held := by
  cases event with
  | runStarts =>
    dsimp only [World.step]
    split_ifs
    · exact ⟨held.busy, held.human, held.operating, by simp, held.batch, held.waiting⟩
    · exact held
  | request =>
    dsimp only [World.step]
    split_ifs
    · exact held
    · exact ⟨held.busy, held.human, held.operating, held.idle, held.batch, held.waiting⟩
  | callStarts =>
    dsimp only [World.step]
    by_cases isOut : (world.idle || world.call.isSome) = true
    · rw [if_pos isOut]
      exact held
    · rw [if_neg isOut]
      have isFree : world.idle = false ∧ world.call = none := by simpa using isOut
      exact held.gate (by rw [isFree.2]; simp) isFree.1
  | gateChecks =>
    dsimp only [World.step]
    by_cases isWoken : world.call = some (.waiting true)
    · rw [if_pos isWoken]
      refine held.gate (by rw [isWoken]; simp) ?_
      by_contra isIdle
      rw [held.idle (by simpa using isIdle)] at isWoken
      cases isWoken
    · rw [if_neg isWoken]
      exact held
  | abort =>
    dsimp only [World.step]
    split_ifs
    · exact held
    · exact held_wake held.busy held.human held.operating held.idle held.batch
  | result =>
    dsimp only [World.step]
    split_ifs
    · exact ⟨held.busy, held.human, held.operating, held.idle, held.batch, held.waiting⟩
    · exact held
  | callEnds =>
    dsimp only [World.step]
    split_ifs
    · refine ⟨by simp [Takeover.done], ?_, ?_, by simp, held.batch, by simp⟩
      · simp [Takeover.done]
      · simp [Takeover.done]
    · exact held
  | runEnds =>
    dsimp only [World.step]
    by_cases isCalling : world.call.isSome = true
    · rw [if_pos isCalling]
      exact held
    · rw [if_neg isCalling]
      refine Held.release ⟨held.busy, held.human, held.operating, ?_, held.batch, held.waiting⟩
      simpa using isCalling
  | session | release => exact held.release
  | take =>
    refine ⟨held.busy, ?_, held.operating, held.idle, held.batch, ?_⟩
    · simp only [World.step, Takeover.take]
      split_ifs with isAgent isBusy
      · simp
      · simpa using isBusy
      · exact held.human
    · intro isWaiting
      have holds := held.waiting isWaiting
      simp only [World.step, Takeover.take, Takeover.holds] at holds ⊢
      split_ifs with isAgent
      · simp
      · simp
      · exact holds
  | batchBegins | manualBegins => exact held.beginBatch _
  | stepRefused =>
    dsimp only [World.step]
    split_ifs with isRunning
    · exact held.withBatch (by rw [isRunning]; rfl)
    · exact held
  | batchStep units outcome =>
    dsimp only [World.step]
    split_ifs with isRunning
    · refine (held.operate units outcome.counts outcome.moved).withBatch ?_
      simp [World.operate, isRunning]
    · exact held
  | batchEnds =>
    dsimp only [World.step]
    split_ifs
    · exact held.endBatch
    · exact held
  | manualEnds label fails moved =>
    dsimp only [World.step]
    split_ifs
    · exact (held.operate [label] (!fails) moved).endBatch
    · exact held
  | look => exact held

end

end Steps

theorem held_after (events : List Event) : (start.after events).Held :=
  Runs.after_invariant step Held (fun _ event held => held.step event) held_start events

/-! ## What the agent knows -/

/-- Every motion is a generation of its own, so that the agent was told of
every motion where it was informed of the latest generation. -/
structure Informed (world : World) : Prop where
  informed_le : world.takeover.informed ≤ world.takeover.generation
  observed_le : world.takeover.observed ≤ world.takeover.generation
  told : world.takeover.informed = world.takeover.generation → world.told = world.moved
  basis : world.takeover.observed = world.takeover.generation → world.basis = world.moved

theorem informed_start : start.Informed where
  informed_le := le_refl _
  observed_le := le_refl _
  told := fun _ => rfl
  basis := fun _ => rfl

section

variable (informed : world.Informed)
include informed

theorem Informed.of_same {next : World}
    (generation : next.takeover.generation = world.takeover.generation)
    (latest : next.takeover.informed = world.takeover.informed)
    (observed : next.takeover.observed = world.takeover.observed) (moved : next.moved = world.moved)
    (told : next.told = world.told) (basis : next.basis = world.basis) : next.Informed := by
  refine ⟨?_, ?_, ?_, ?_⟩
  · rw [latest, generation]
    exact informed.informed_le
  · rw [observed, generation]
    exact informed.observed_le
  · rw [latest, generation, told, moved]
    exact informed.told
  · rw [observed, generation, basis, moved]
    exact informed.basis

theorem Informed.wake : world.wake.Informed := by
  unfold World.wake
  split
  · exact informed.of_same rfl rfl rfl rfl rfl rfl
  · exact informed

theorem Informed.release : world.release.Informed := by
  refine Informed.wake ?_
  unfold Takeover.release
  split_ifs
  · exact informed.of_same rfl rfl rfl rfl rfl rfl
  · exact informed.of_same rfl rfl rfl rfl rfl rfl

theorem Informed.endBatch : world.endBatch.Informed :=
  Informed.wake (informed.of_same rfl rfl rfl rfl rfl rfl)

theorem Informed.beginBatch (batch : Batch) :
    (world.beginBatch batch).Informed := by
  unfold World.beginBatch
  split_ifs
  · exact informed.of_same rfl rfl rfl rfl rfl rfl
  · exact informed

theorem Informed.seen (call : Option Call) :
    ({ world with
        takeover := world.takeover.seen
        call
        told := world.moved } : World).Informed :=
  ⟨le_refl _, informed.observed_le, fun _ => rfl, informed.basis⟩

theorem Informed.gate : world.gate.Informed := by
  unfold World.gate Takeover.pass
  split_ifs
  · exact informed.of_same rfl rfl rfl rfl rfl rfl
  · exact informed.of_same rfl rfl rfl rfl rfl rfl
  · exact informed.seen _
  · exact informed.of_same rfl rfl rfl rfl rfl rfl

/-- A step that counts makes every decision stale; one that does not has not
moved the robot. -/
theorem Informed.operate (units : List String) {counts moved : Bool}
    (isTold : moved = true → counts = true) : (world.operate units counts moved).Informed := by
  unfold World.operate
  cases counts with
  | false =>
    have notMoved : moved = false := by
      by_contra isMoved
      cases isTold (by simpa using isMoved)
    subst notMoved
    exact informed.of_same rfl rfl rfl rfl rfl rfl
  | true =>
    have fewerInformed := informed.informed_le
    have fewerObserved := informed.observed_le
    refine ⟨?_, ?_, ?_, ?_⟩
    · exact fewerInformed.trans (Nat.le_succ _)
    · exact fewerObserved.trans (Nat.le_succ _)
    · intro isLatest
      simp only [if_true, Takeover.humanStep] at isLatest
      omega
    · intro isLatest
      simp only [if_true, Takeover.humanStep] at isLatest
      omega

end

theorem counts_of_told {outcome : Outcome} (isTold : outcome.Told)
    (isMoved : outcome.moved = true) : outcome.counts = true := by
  cases outcome with
  | threw moved =>
    rw [show moved = true from isMoved] at isTold
    cases isTold
  | returned looks ran moved halted =>
    obtain ⟨notLook, hasRun⟩ := isTold isMoved
    simp [Outcome.counts, notLook, hasRun]

theorem Informed.step (informed : world.Informed) (event : Event) (isTold : event.Told) :
    (world.step event).Informed := by
  cases event with
  | runStarts | callEnds | stepRefused =>
    dsimp only [World.step]
    split_ifs
    · exact informed.of_same rfl rfl rfl rfl rfl rfl
    · exact informed
  | request =>
    dsimp only [World.step]
    split_ifs
    · exact informed
    · exact ⟨informed.informed_le, informed.informed_le, informed.told, informed.told⟩
  | callStarts =>
    dsimp only [World.step]
    split_ifs
    · exact informed
    · exact informed.gate
  | gateChecks =>
    dsimp only [World.step]
    split_ifs
    · exact informed.gate
    · exact informed
  | abort =>
    dsimp only [World.step]
    split_ifs
    · exact informed
    · exact Informed.wake (informed.of_same rfl rfl rfl rfl rfl rfl)
  | result =>
    dsimp only [World.step]
    split_ifs
    · exact informed.seen world.call
    · exact informed
  | runEnds =>
    dsimp only [World.step]
    by_cases isCalling : world.call.isSome = true
    · rw [if_pos isCalling]
      exact informed
    · rw [if_neg isCalling]
      exact Informed.release (informed.of_same rfl rfl rfl rfl rfl rfl)
  | session | release => exact informed.release
  | take => exact informed.of_same rfl rfl rfl rfl rfl rfl
  | batchBegins | manualBegins => exact informed.beginBatch _
  | batchStep units outcome =>
    dsimp only [World.step]
    split_ifs
    · have operated := informed.operate units (counts_of_told isTold)
      exact operated.of_same rfl rfl rfl rfl rfl rfl
    · exact informed
  | batchEnds =>
    dsimp only [World.step]
    split_ifs
    · exact informed.endBatch
    · exact informed
  | manualEnds label fails moved =>
    dsimp only [World.step]
    split_ifs
    · refine Informed.endBatch (informed.operate [label] ?_)
      intro isMoved
      by_contra isFailing
      rw [isTold (by simpa using isFailing)] at isMoved
      cases isMoved
    · exact informed
  | look => exact informed

theorem informed_after {events : List Event} (areTold : ∀ event ∈ events, event.Told) :
    (start.after events).Informed :=
  Runs.after_preserves step Event.Told Informed
    (fun _ event isTold informed => informed.step event isTold)
    informed_start areTold

/-! ## Calls that pass -/

def Passes (world : World) (event : Event) : Prop :=
  world.call ≠ some .running ∧ (world.step event).call = some .running

theorem call_gate (isRunning : world.gate.call = some .running) : world.takeover.stale = false := by
  unfold World.gate at isRunning
  split_ifs at isRunning with _ _ isStale
  · cases isRunning
  · cases isRunning
  · cases isRunning
  · simpa using isStale

theorem call_wake (isRunning : world.wake.call = some .running) : world.call = some .running := by
  unfold World.wake at isRunning
  split at isRunning
  · cases isRunning
  · exact isRunning

theorem fresh_of_passes {event : Event} (passes : world.Passes event) :
    world.takeover.stale = false := by
  obtain ⟨notRunning, isRunning⟩ := passes
  cases event with
  | callStarts =>
    dsimp only [World.step] at isRunning
    split_ifs at isRunning
    · exact absurd isRunning notRunning
    · exact call_gate isRunning
  | gateChecks =>
    dsimp only [World.step] at isRunning
    split_ifs at isRunning
    · exact call_gate isRunning
    · exact absurd isRunning notRunning
  | runStarts | request | result | stepRefused =>
    dsimp only [World.step] at isRunning
    split_ifs at isRunning
    · exact absurd isRunning notRunning
    · exact absurd isRunning notRunning
  | abort | runEnds =>
    dsimp only [World.step] at isRunning
    split_ifs at isRunning
    · exact absurd isRunning notRunning
    · exact absurd (call_wake isRunning) notRunning
  | callEnds =>
    dsimp only [World.step] at isRunning
    split_ifs at isRunning
    exact absurd isRunning notRunning
  | session | release => exact absurd (call_wake isRunning) notRunning
  | take | look => exact absurd isRunning notRunning
  | batchBegins | manualBegins =>
    dsimp only [World.step, World.beginBatch] at isRunning
    split_ifs at isRunning
    · exact absurd isRunning notRunning
    · exact absurd isRunning notRunning
  | batchStep units outcome =>
    have same : (world.step (.batchStep units outcome)).call =
        world.call := by
      dsimp only [World.step]
      split_ifs
      · rfl
      · rfl
    rw [same] at isRunning
    exact absurd isRunning notRunning
  | batchEnds | manualEnds label fails moved =>
    dsimp only [World.step] at isRunning
    split_ifs at isRunning
    · exact absurd (call_wake isRunning) notRunning
    · exact absurd isRunning notRunning

theorem gate_leaves (isFree : world.takeover.holds = false) (woken : Bool) :
    world.gate.call ≠ some (.waiting woken) := by
  unfold World.gate
  rw [if_neg (by simp [isFree])]
  dsimp only
  split_ifs
  · simp
  · simp

end World

end PiEmbodied.Capabilities.Gumi
