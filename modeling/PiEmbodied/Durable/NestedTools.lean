import PiEmbodied.Ascending
import PiEmbodied.Runs

/-!
# The slots of nested tool calls

`pi.live` shows the calls of the current tool round, and the calls that running
tools make.  The latter are listed in the order their tasks were created in;
their slots go when the call above them settles.
-/

namespace PiEmbodied.Durable.NestedTools

variable {J : Type}

/-! ## The live state -/

inductive Status where
  | pending
  | running
  | done
deriving DecidableEq

structure SlotProgress (J : Type) where
  (callId name : String)
  status : Status
  output : Option String
  (droppedBytes droppedLines : Option ℕ)
  details : Option J
  diagnostics : Option (List J)

structure ToolSlot (J : Type) extends SlotProgress J where
  (taskId entry : Option ℕ)

structure NestedToolSlot (J : Type) extends SlotProgress J where
  parentCallId : String
  (parentTaskId taskId : ℕ)
  arguments : J
  summary : Option J

/-- The fields of `pi.live` that show tool calls. -/
structure LiveState (J : Type) where
  tools : Option (List (ToolSlot J))
  nestedTools : Option (List (NestedToolSlot J))

def clearProgress (slot : SlotProgress J) : SlotProgress J :=
  { slot with
    output := none
    droppedBytes := none
    droppedLines := none
    details := none
    diagnostics := none }

def finishSlot (slot : SlotProgress J) : SlotProgress J :=
  clearProgress { slot with status := .done }

/-- What a progress commit writes: the retained output, and of the details and
diagnostics what is new. -/
structure Reported (J : Type) where
  text : String
  (droppedBytes droppedLines : ℕ)
  details : Option J
  added : List J

def publish (reported : Reported J) (slot : SlotProgress J) : SlotProgress J :=
  { slot with
    output :=
      if slot.output.getD "" ≠ reported.text then some reported.text
      else slot.output
    droppedBytes :=
      if 0 < reported.droppedBytes then some reported.droppedBytes
      else slot.droppedBytes
    droppedLines :=
      if 0 < reported.droppedLines then some reported.droppedLines
      else slot.droppedLines
    details := reported.details.or slot.details
    diagnostics :=
      if reported.added.isEmpty then slot.diagnostics
      else some (slot.diagnostics.getD [] ++ reported.added) }

inductive Place where
  | tool (index : ℕ)
  | nested (index : ℕ)
deriving DecidableEq

namespace LiveState

def nested (live : LiveState J) : List (NestedToolSlot J) :=
  live.nestedTools.getD []

def toolSlot (live : LiveState J) (taskId : ℕ) : Option Place :=
  match (live.tools.getD []).findIdx? (·.taskId = some taskId),
      live.nestedTools with
  | some index, _ => some (.tool index)
  | none, none => none
  | none, some nested =>
    (Ascending.search (·.taskId) nested taskId 0 (nested.length - 1)).map .nested

def Holds (live : LiveState J) (taskId : ℕ) : Place → Prop
  | .tool index => ∃ slot, (live.tools.getD [])[index]? = some slot ∧ slot.taskId = some taskId
  | .nested index => ∃ slot, live.nested[index]? = some slot ∧ slot.taskId = taskId

/-- Writes to the slot of a task, where `pi.live` still lists it. -/
def write (live : LiveState J) (taskId : ℕ) (progress : SlotProgress J → SlotProgress J)
    (entry : Option ℕ) (arguments summary : Option J) : LiveState J :=
  match live.toolSlot taskId with
  | none => live
  | some (.tool index) =>
    { live with
      tools := live.tools.map fun tools => tools.modify index fun slot =>
        { slot with
          toSlotProgress := progress slot.toSlotProgress
          entry := entry.or slot.entry } }
  | some (.nested index) =>
    { live with
      nestedTools := live.nestedTools.map fun nested =>
        nested.modify index fun slot =>
          { slot with
            toSlotProgress := progress slot.toSlotProgress
            arguments := arguments.getD slot.arguments
            summary := summary.or slot.summary } }

/-- The splices run from the end, so each leaves the indices still to be
visited. -/
def removeNestedSlots (live : LiveState J) (taskId : ℕ) : LiveState J :=
  match live.nestedTools with
  | none => live
  | some nested =>
    let kept := Ascending.without (·.taskId) (·.parentTaskId) taskId nested
    { live with nestedTools := if kept.isEmpty then none else some kept }

end LiveState

/-! ## The tool tasks -/

inductive Phase where
  | running
  /-- Its attempt starts no nested call any more. -/
  | ended
  /-- Its outcome waits for the work it owns; `cleanup` tells that the scheduler
  decided the outcome. -/
  | completing (cleanup : Bool)
  | terminal
deriving DecidableEq

/-- A tool task: of the model where it has no parent.  `madeNested` is the memo
of its nested calls. -/
structure ToolTask where
  parent : Option ℕ
  madeNested : Bool
  phase : Phase
deriving DecidableEq

def ToolTask.over (task : ToolTask) : Bool :=
  task.phase = .completing false || task.phase = .terminal

/-- One conversation.  Ids ascend in the order of creation, over records of all
kinds. -/
structure World (J : Type) where
  next : ℕ
  tasks : ℕ → Option ToolTask
  live : LiveState J

inductive TaskEvent (J : Type) where
  | memo
  | startNestedCall (callId parentCallId name : String) (arguments : J)
  /-- The intent is recorded; the slot shows the arguments if they changed. -/
  | start (changed : Option J)
  | progress (reported : Reported J)
  | clear
  | end_
  /-- A new attempt, after a restart. -/
  | rerun
  /-- `held`: the task owns other live work. -/
  | settle (held : Bool) (entry : ℕ) (summary : J)
  | fault (held : Bool)
  /-- The last work that an outcome waits for is over. -/
  | complete

inductive Event (J : Type) where
  /-- A record of another kind takes an id. -/
  | mint
  /-- A round: its slots in call order, and which calls start now. -/
  | startToolRound (calls : List (ToolSlot J × Bool))
  /-- The next call of a sequential round. -/
  | startNext (callId : String)
  | on (id : ℕ) (event : TaskEvent J)
  /-- The generation ends its run, or hands it to the next one. -/
  | endRound

namespace World

def initial : World J where
  next := 0
  tasks := fun _ => none
  live := ⟨none, none⟩

def childrenTerminal (world : World J) (id : ℕ) : Bool :=
  (List.range world.next).all fun child => (world.tasks child).all fun task =>
    task.parent ≠ some id || task.phase = .terminal

def idle (world : World J) : Bool :=
  (List.range world.next).all fun id => (world.tasks id).all fun task => task.phase = .terminal

def setTask (world : World J) (id : ℕ) (task : ToolTask) : World J :=
  { world with tasks := Function.update world.tasks id (some task) }

def createToolTasks (world : World J) (count : ℕ) : World J :=
  { world with
    next := world.next + count
    tasks := fun id =>
      if world.next ≤ id ∧ id < world.next + count then
        some ⟨none, false, .running⟩
      else world.tasks id }

def slotsFrom : ℕ → List (ToolSlot J × Bool) → List (ToolSlot J)
  | _, [] => []
  | next, (slot, true) :: rest => { slot with taskId := some next } :: slotsFrom (next + 1) rest
  | next, (slot, false) :: rest => { slot with taskId := none } :: slotsFrom next rest

def startToolRound (world : World J) (calls : List (ToolSlot J × Bool)) :
    World J :=
  { world.createToolTasks (calls.countP (·.2)) with
    live := { world.live with tools := some (slotsFrom world.next calls) } }

def startNext (world : World J) (callId : String) : World J :=
  { world.createToolTasks 1 with
    live := { world.live with
      tools := world.live.tools.map fun tools =>
        tools.modify
          (tools.findIdx fun slot => slot.callId = callId ∧ slot.taskId = none)
          fun slot => { slot with taskId := some world.next } } }

def startNestedCall (world : World J) (id : ℕ)
    (callId parentCallId name : String) (arguments : J) : World J :=
  { world.setTask world.next ⟨some id, false, .running⟩ with
    next := world.next + 1
    live := { world.live with
      nestedTools := some (world.live.nested ++
        [{ callId, name, status := .pending, output := none
           droppedBytes := none, droppedLines := none, details := none
           diagnostics := none, parentCallId, parentTaskId := id
           taskId := world.next, arguments, summary := none }]) } }

def write (world : World J) (id : ℕ) (progress : SlotProgress J → SlotProgress J) (entry : Option ℕ)
    (arguments summary : Option J) : World J :=
  { world with live := world.live.write id progress entry arguments summary }

def removeNestedSlots (world : World J) (id : ℕ) : World J :=
  { world with live := world.live.removeNestedSlots id }

def settle (world : World J) (id : ℕ) (task : ToolTask) (held : Bool)
    (entry : ℕ) (summary : J) : World J :=
  let world := world.write id finishSlot (if task.parent = none then some entry else none) none
    (if task.parent = none then none else some summary)
  let world := if task.madeNested then world.removeNestedSlots id else world
  world.setTask id { task with phase := if held then .completing false else .terminal }

/-- `settleSchedulerOutcome`, with the outcome. -/
def settleOutcome (world : World J) (id : ℕ) (task : ToolTask) : World J :=
  ((world.write id finishSlot none none none).removeNestedSlots id).setTask id
    { task with phase := .terminal }

def onTask (world : World J) (id : ℕ) (task : ToolTask) : TaskEvent J → World J
  | .memo =>
    if task.phase = .running then
      world.setTask id { task with madeNested := true }
    else world
  | .startNestedCall callId parentCallId name arguments =>
    if task.phase = .running ∧ task.madeNested then
      world.startNestedCall id callId parentCallId name arguments
    else world
  | .start changed =>
    world.write id (fun slot => { slot with status := .running }) none changed none
  | .progress reported => world.write id (publish reported) none none none
  | .clear => world.write id clearProgress none none none
  | .end_ =>
    if task.phase = .running then world.setTask id { task with phase := .ended }
    else world
  | .rerun =>
    if task.phase = .ended then world.setTask id { task with phase := .running }
    else world
  | .settle held entry summary =>
    if task.phase = .ended ∧ world.childrenTerminal id then
      world.settle id task held entry summary
    else world
  | .fault held =>
    if task.phase = .running ∨ task.phase = .ended then
      if held ∨ ¬ world.childrenTerminal id then
        world.setTask id { task with phase := .completing true }
      else world.settleOutcome id task
    else world
  | .complete =>
    if world.childrenTerminal id then
      match task.phase with
      | .completing true => world.settleOutcome id task
      | .completing false => world.setTask id { task with phase := .terminal }
      | _ => world
    else world

def step (world : World J) : Event J → World J
  | .mint => { world with next := world.next + 1 }
  | .startToolRound calls => world.startToolRound calls
  | .startNext callId => world.startNext callId
  | .on id event =>
    match world.tasks id with
    | none => world
    | some task => world.onTask id task event
  | .endRound =>
    if world.idle then { world with live := ⟨none, none⟩ } else world

def after (world : World J) (events : List (Event J)) : World J :=
  Runs.after step world events

/-- `child` is a nested call of `parent`. -/
def Calls (world : World J) (parent child : ℕ) : Prop :=
  ∃ task, world.tasks child = some task ∧ task.parent = some parent

def Lists (world : World J) (id : ℕ) : Prop :=
  ∃ slot ∈ world.live.nested, slot.taskId = id

/-- The event settles the call: with a result, or with the scheduler's
outcome. -/
def Settles (world : World J) (id : ℕ) (task : ToolTask) : TaskEvent J → Prop
  | .settle _ _ _ => task.phase = .ended ∧ world.childrenTerminal id = true
  | .fault held =>
    (task.phase = .running ∨ task.phase = .ended) ∧ held = false ∧ world.childrenTerminal id = true
  | .complete => task.phase = .completing true ∧ world.childrenTerminal id = true
  | _ => False

structure Kept (world : World J) : Prop where
  ascending : (world.live.nested.map (·.taskId)).Pairwise (· < ·)
  parentsFirst : ∀ (i j : ℕ) (child parent : NestedToolSlot J),
    world.live.nested[i]? = some child → world.live.nested[j]? = some parent →
    parent.taskId = child.parentTaskId → j < i
  found : ∀ id, (world.live.toolSlot id).isSome = true ↔
    (∃ slot ∈ world.live.tools.getD [], slot.taskId = some id) ∨ world.Lists id
  isSlot : ∀ id place, world.live.toolSlot id = some place → world.live.Holds id place
  settles : ∀ id task event, world.tasks id = some task → world.Settles id task event → ∀ other,
    (world.step (.on id event)).Lists other ↔
      world.Lists other ∧ ¬ Relation.TransGen world.Calls id other

def pair (slot : NestedToolSlot J) : ℕ × ℕ :=
  (slot.taskId, slot.parentTaskId)

def pairs (world : World J) : List (ℕ × ℕ) :=
  world.live.nested.map pair

theorem pairs_write (world : World J) (id : ℕ) (progress : SlotProgress J → SlotProgress J)
    (entry : Option ℕ) (arguments summary : Option J) :
    (world.write id progress entry arguments summary).pairs = world.pairs := by
  simp only [pairs, write, LiveState.write, LiveState.nested]
  split
  · rfl
  · rfl
  · cases world.live.nestedTools with
    | none => rfl
    | some nested =>
      simp only [Option.map_some, Option.getD_some]
      apply List.ext_getElem?
      intro i
      rw [List.getElem?_map, List.getElem?_map, List.getElem?_modify]
      cases nested[i]? with
      | none => rfl
      | some slot =>
        simp only [Option.map_some]
        split <;> rfl

theorem pairs_removeNestedSlots (world : World J) (id : ℕ) :
    (world.removeNestedSlots id).pairs = Ascending.without Prod.fst Prod.snd id world.pairs := by
  obtain ⟨next, tasks, shown, nestedTools⟩ := world
  cases nestedTools with
  | none => rfl
  | some nested =>
    simp only [pairs, removeNestedSlots, LiveState.removeNestedSlots,
      LiveState.nested, Option.getD_some]
    rw [Ascending.without_map]
    split
    · rename_i isEmpty
      rw [List.isEmpty_iff] at isEmpty
      exact (congrArg (List.map pair) isEmpty).symm
    · rfl

/-! ## The invariant -/

structure Inv (next : ℕ) (tasks : ℕ → Option ToolTask) (pairs : List (ℕ × ℕ)) :
    Prop where
  known : ∀ id task, tasks id = some task → id < next
  parents : ∀ id task, tasks id = some task → ∀ parent,
    task.parent = some parent → parent < id ∧
      ∃ above, tasks parent = some above ∧ above.madeNested = true ∧
        (above.over = true → task.phase = .terminal)
  ascending : pairs.Pairwise fun left right => left.1 < right.1
  slots : ∀ slot ∈ pairs, ∃ task, tasks slot.1 = some task ∧ task.parent = some slot.2
  listed : ∀ id task, tasks id = some task → task.parent ≠ none →
    task.phase ≠ .terminal → ∃ slot ∈ pairs, slot.1 = id
  closed : Ascending.Closed Prod.fst Prod.snd
    (fun parent child => ∃ task, tasks child = some task ∧ task.parent = some parent) pairs

section Invariant

variable {next id : ℕ} {tasks : ℕ → Option ToolTask} {pairs : List (ℕ × ℕ)}
  {task changed : ToolTask}

theorem initial_inv : Inv 0 (fun _ => none) [] where
  known := fun _ _ isTask => by cases isTask
  parents := fun _ _ isTask => by cases isTask
  ascending := List.Pairwise.nil
  slots := fun _ member => by cases member
  listed := fun _ _ isTask => by cases isTask
  closed := fun _ member => by cases member

def Childless (tasks : ℕ → Option ToolTask) (id : ℕ) : Prop :=
  ∀ child task, tasks child = some task → task.parent = some id → task.phase = .terminal

theorem Inv.setTask (inv : Inv next tasks pairs) (found : tasks id = some task)
    (sameParent : changed.parent = task.parent)
    (made : task.madeNested = true → changed.madeNested = true)
    (terminal : task.phase = .terminal → changed.phase = .terminal)
    (isDone : changed.over = true → Childless tasks id) :
    Inv next (Function.update tasks id (some changed)) pairs := by
  have back {other : ℕ} {current : ToolTask}
      (isTask : Function.update tasks id (some changed) other = some current) :
      ∃ before, tasks other = some before ∧ current.parent = before.parent ∧
        (before.phase = .terminal → current.phase = .terminal) := by
    rw [Function.update_apply] at isTask
    split at isTask
    · rename_i here
      cases isTask
      exact ⟨task, here ▸ found, sameParent, terminal⟩
    · exact ⟨current, isTask, rfl, fun isTerminal => isTerminal⟩
  have forth {other : ℕ} {before : ToolTask} (isTask : tasks other = some before) :
      ∃ current, Function.update tasks id (some changed) other = some current ∧
        current.parent = before.parent ∧
        (before.madeNested = true → current.madeNested = true) ∧
        (current.over = true → before.over = true ∨ Childless tasks other) := by
    rw [Function.update_apply]
    split
    · rename_i here
      subst here
      rw [found, Option.some.injEq] at isTask
      subst isTask
      exact ⟨changed, rfl, sameParent, made, fun isOver => .inr (isDone isOver)⟩
    · exact ⟨before, isTask, rfl, fun isMade => isMade, .inl⟩
  refine
    { known := ?_
      parents := ?_
      ascending := inv.ascending
      slots := ?_
      listed := ?_
      closed := ?_ }
  · intro other current isTask
    obtain ⟨before, wasTask, _⟩ := back isTask
    exact inv.known other before wasTask
  · intro other current isTask parent isParent
    obtain ⟨before, wasTask, same, stays⟩ := back isTask
    rw [same] at isParent
    obtain ⟨isBefore, above, isAbove, isMade, done⟩ :=
      inv.parents other before wasTask parent isParent
    obtain ⟨now, isNow, _, madeNow, overNow⟩ := forth isAbove
    refine ⟨isBefore, now, isNow, madeNow isMade, fun isOver => stays ?_⟩
    rcases overNow isOver with wasOver | childless
    · exact done wasOver
    · exact childless other before wasTask isParent
  · intro slot member
    obtain ⟨before, wasTask, isParent⟩ := inv.slots slot member
    obtain ⟨now, isNow, same, _⟩ := forth wasTask
    exact ⟨now, isNow, same.trans isParent⟩
  · intro other current isTask isNested isLive
    obtain ⟨before, wasTask, same, stays⟩ := back isTask
    exact inv.listed other before wasTask (same ▸ isNested) fun isTerminal =>
      isLive (stays isTerminal)
  · intro slot member
    refine (inv.closed slot member).imp_left ?_
    rintro rootless above ⟨current, isTask, isParent⟩
    obtain ⟨before, wasTask, same, _⟩ := back isTask
    exact rootless above ⟨before, wasTask, same ▸ isParent⟩

variable {below : ℕ}

section

variable (inv : Inv next tasks pairs)
include inv

theorem Inv.terminalBelow (childless : Childless tasks id)
    (path : Relation.TransGen
      (fun parent child => ∃ task, tasks child = some task ∧ task.parent = some parent) id below) :
    ∀ task, tasks below = some task → task.phase = .terminal := by
  induction path with
  | single call =>
    rintro task isTask
    obtain ⟨other, isOther, isParent⟩ := call
    rw [isTask, Option.some.injEq] at isOther
    exact childless _ task isTask (isOther ▸ isParent)
  | tail _ call isTerminal =>
    rintro task isTask
    obtain ⟨other, isOther, isParent⟩ := call
    rw [isTask, Option.some.injEq] at isOther
    subst isOther
    obtain ⟨_, above, isAbove, _, done⟩ := inv.parents _ task isTask _ isParent
    apply done
    rw [ToolTask.over, isTerminal above isAbove]
    rfl

theorem Inv.before : ∀ slot ∈ pairs, slot.2 < slot.1 := by
  intro slot member
  obtain ⟨task, isTask, isParent⟩ := inv.slots slot member
  exact (inv.parents slot.1 task isTask slot.2 isParent).1

/-- Of the listed calls, those below a task are removed. -/
theorem Inv.mem_without {slot : ℕ × ℕ} :
    slot ∈ Ascending.without Prod.fst Prod.snd id pairs ↔
      slot ∈ pairs ∧ ¬ Relation.TransGen
        (fun parent child => ∃ task, tasks child = some task ∧
          task.parent = some parent) id slot.1 := by
  rw [Ascending.mem_without_iff inv.ascending inv.before]
  refine and_congr_right fun member => not_congr ?_
  refine Ascending.transGen_edge_iff ?_ inv.closed member
  intro other isOther above
  obtain ⟨task, isTask, isParent⟩ := inv.slots other isOther
  constructor
  · rintro ⟨same, isSame, isAbove⟩
    rw [isTask, Option.some.injEq] at isSame
    rw [← isSame, isParent, Option.some.injEq] at isAbove
    exact isAbove.symm
  · rintro rfl
    exact ⟨task, isTask, isParent⟩

theorem Inv.without (childless : Childless tasks id) :
    Inv next tasks (Ascending.without Prod.fst Prod.snd id pairs) := by
  refine
    { inv with
      ascending := inv.ascending.filter _
      slots := fun slot member => inv.slots slot (List.mem_filter.mp member).1
      listed := ?_
      closed := inv.closed.without inv.ascending inv.before }
  intro other current isTask isNested isLive
  obtain ⟨slot, member, rfl⟩ := inv.listed other current isTask isNested isLive
  refine ⟨slot, inv.mem_without.mpr ⟨member, fun path => isLive ?_⟩, rfl⟩
  exact inv.terminalBelow childless path current isTask

theorem Inv.without_of_not_made (found : tasks id = some task) (notMade : task.madeNested = false) :
    ¬ Relation.TransGen
      (fun parent child => ∃ task, tasks child = some task ∧
        task.parent = some parent) id below := by
  intro path
  obtain ⟨child, ⟨call, isCall, isParent⟩, _⟩ := Relation.TransGen.head'_iff.mp path
  obtain ⟨_, above, isAbove, isMade, _⟩ := inv.parents child call isCall id isParent
  rw [found, Option.some.injEq] at isAbove
  rw [← isAbove, notMade] at isMade
  cases isMade

theorem Inv.create (count : ℕ) :
    Inv (next + count)
      (fun id => if next ≤ id ∧ id < next + count then
        some ⟨none, false, .running⟩ else tasks id) pairs := by
  have forth {other : ℕ} {before : ToolTask} (isTask : tasks other = some before) :
      (if next ≤ other ∧ other < next + count then
        some (ToolTask.mk none false .running) else tasks other) = some before := by
    have isKnown := inv.known other before isTask
    rw [if_neg (by omega), isTask]
  have back {other : ℕ} {current : ToolTask}
      (isTask : (if next ≤ other ∧ other < next + count then
        some (ToolTask.mk none false .running) else tasks other) = some current)
      (isNested : current.parent ≠ none) : tasks other = some current := by
    split at isTask
    · cases isTask
      exact absurd rfl isNested
    · exact isTask
  refine
    { known := ?_
      parents := ?_
      ascending := inv.ascending
      slots := ?_
      listed := ?_
      closed := ?_ }
  · intro other current isTask
    split at isTask
    · rename_i isNew
      exact isNew.2
    · exact (inv.known other current isTask).trans_le (Nat.le_add_right _ _)
  · intro other current isTask parent isParent
    obtain ⟨isBefore, above, isAbove, rest⟩ := inv.parents other current
      (back isTask (isParent ▸ Option.some_ne_none parent)) parent isParent
    exact ⟨isBefore, above, forth isAbove, rest⟩
  · intro slot member
    obtain ⟨before, isTask, isParent⟩ := inv.slots slot member
    exact ⟨before, forth isTask, isParent⟩
  · intro other current isTask isNested
    exact inv.listed other current (back isTask isNested) isNested
  · intro slot member
    refine (inv.closed slot member).imp_left ?_
    rintro rootless above ⟨current, isTask, isParent⟩
    exact rootless above ⟨current, back isTask (isParent ▸ Option.some_ne_none above), isParent⟩

theorem Inv.admit (found : tasks id = some task) (isRunning : task.phase = .running)
    (isMade : task.madeNested = true) :
    Inv (next + 1) (Function.update tasks next (some ⟨some id, false, .running⟩))
      (pairs ++ [(next, id)]) := by
  have forth {other : ℕ} {before : ToolTask} (isTask : tasks other = some before) :
      Function.update tasks next (some ⟨some id, false, .running⟩) other =
        some before := by
    rw [Function.update_of_ne (inv.known other before isTask).ne, isTask]
  have back {other : ℕ} {current : ToolTask}
      (isTask : Function.update tasks next (some ⟨some id, false, .running⟩) other = some current) :
      (other = next ∧ current = ⟨some id, false, .running⟩) ∨ tasks other = some current := by
    rw [Function.update_apply] at isTask
    split at isTask
    · rename_i here
      exact .inl ⟨here, (Option.some.inj isTask).symm⟩
    · exact .inr isTask
  have rootless {above : ℕ} (isOld : above < next)
      (noCall : ∀ parent, ¬ ∃ task, tasks above = some task ∧
        task.parent = some parent) (parent : ℕ) :
      ¬ ∃ task, Function.update tasks next
        (some ⟨some id, false, .running⟩) above = some task ∧ task.parent = some parent := by
    rw [Function.update_of_ne isOld.ne]
    exact noCall parent
  refine
    { known := ?_
      parents := ?_
      ascending := ?_
      slots := ?_
      listed := ?_
      closed := ?_ }
  · intro other current isTask
    rcases back isTask with ⟨rfl, _⟩ | old
    · exact Nat.lt_succ_self _
    · exact Nat.lt_succ_of_lt (inv.known other current old)
  · intro other current isTask parent isParent
    rcases back isTask with ⟨rfl, rfl⟩ | old
    · cases isParent
      refine ⟨inv.known id task found, task, forth found, isMade, ?_⟩
      rw [ToolTask.over, isRunning]
      nofun
    · obtain ⟨isBefore, above, isAbove, rest⟩ :=
        inv.parents other current old parent isParent
      exact ⟨isBefore, above, forth isAbove, rest⟩
  · refine List.pairwise_append.mpr ⟨inv.ascending, List.pairwise_singleton _ _, ?_⟩
    intro slot member last isLast
    obtain ⟨before, isTask, _⟩ := inv.slots slot member
    rw [List.mem_singleton.mp isLast]
    exact inv.known slot.1 before isTask
  · intro slot member
    rcases List.mem_append.mp member with old | new
    · obtain ⟨before, isTask, isParent⟩ := inv.slots slot old
      exact ⟨before, forth isTask, isParent⟩
    · rw [List.mem_singleton.mp new]
      exact ⟨_, Function.update_self .., rfl⟩
  · intro other current isTask isNested isLive
    rcases back isTask with ⟨rfl, _⟩ | old
    · exact ⟨_, List.mem_append_right _ List.mem_cons_self, rfl⟩
    · obtain ⟨slot, member, isSlot⟩ :=
        inv.listed other current old isNested isLive
      exact ⟨slot, List.mem_append_left _ member, isSlot⟩
  · intro slot member
    rcases List.mem_append.mp member with old | new
    · obtain ⟨before, isTask, _⟩ := inv.slots slot old
      have isOld := (inv.before slot old).trans (inv.known slot.1 before isTask)
      refine (inv.closed slot old).imp (rootless isOld) ?_
      rintro ⟨other, isOther, isAbove⟩
      exact ⟨other, List.mem_append_left _ isOther, isAbove⟩
    · rw [List.mem_singleton.mp new]
      cases isParent : task.parent with
      | none =>
        left
        refine rootless (inv.known id task found) ?_
        rintro parent ⟨other, isTask, isAbove⟩
        rw [found, Option.some.injEq] at isTask
        rw [← isTask, isParent] at isAbove
        cases isAbove
      | some parent =>
        right
        obtain ⟨slot, isSlot, isHere⟩ := inv.listed id task found
          (isParent ▸ Option.some_ne_none parent) (by rw [isRunning]; nofun)
        exact ⟨slot, List.mem_append_left _ isSlot, isHere⟩

end

end Invariant

/-! ## The steps -/

section Steps

variable {world : World J} {id : ℕ} {task : ToolTask}

def Sound (world : World J) : Prop :=
  Inv world.next world.tasks world.pairs

section

variable (sound : world.Sound)
include sound

theorem Sound.childless (isOver : world.childrenTerminal id = true) :
    Childless world.tasks id := by
  intro child task isTask isParent
  rw [childrenTerminal, List.all_eq_true] at isOver
  have isTerminal := isOver child (List.mem_range.mpr (sound.known child task isTask))
  rw [isTask, Option.all_some, isParent] at isTerminal
  simpa using isTerminal

theorem Sound.write (progress : SlotProgress J → SlotProgress J) (entry : Option ℕ)
    (arguments summary : Option J) :
    (world.write id progress entry arguments summary).Sound := by
  rw [Sound, pairs_write]
  exact sound

theorem Sound.removeNestedSlots (childless : Childless world.tasks id) :
    (world.removeNestedSlots id).Sound := by
  rw [Sound, pairs_removeNestedSlots]
  exact Inv.without sound childless

theorem Sound.settleOutcome (found : world.tasks id = some task)
    (childless : Childless world.tasks id) : (world.settleOutcome id task).Sound :=
  Inv.setTask ((sound.write _ none none none).removeNestedSlots childless)
    found rfl (fun isMade => isMade) (fun _ => rfl) fun _ => childless

theorem Sound.settle (found : world.tasks id = some task) (childless : Childless world.tasks id)
    (notOver : task.phase = .ended) (held : Bool) (entry : ℕ) (summary : J) :
    (world.settle id task held entry summary).Sound := by
  have terminal {phase : Phase} (isTerminal : task.phase = .terminal) : phase = .terminal := by
    rw [notOver] at isTerminal
    cases isTerminal
  rw [World.settle]
  split
  · exact Inv.setTask ((sound.write _ _ _ _).removeNestedSlots childless)
      found rfl (fun isMade => isMade) terminal fun _ => childless
  · exact Inv.setTask (sound.write _ _ _ _) found rfl (fun isMade => isMade)
      terminal fun _ => childless

theorem Sound.onTask (found : world.tasks id = some task) (event : TaskEvent J) :
    (world.onTask id task event).Sound := by
  have goes {changed : ToolTask} (sameParent : changed.parent = task.parent)
      (made : task.madeNested = true → changed.madeNested = true)
      (terminal : task.phase = .terminal → changed.phase = .terminal)
      (isDone : changed.over = true → Childless world.tasks id) :
      (world.setTask id changed).Sound :=
    Inv.setTask sound found sameParent made terminal isDone
  cases event with
  | memo =>
    rw [World.onTask]
    split
    · rename_i isRunning
      refine goes rfl (fun _ => rfl) (fun isTerminal => isTerminal) ?_
      simp only [ToolTask.over, isRunning]
      nofun
    · exact sound
  | startNestedCall callId parentCallId name arguments =>
    rw [World.onTask]
    split
    · rename_i admits
      have admitted := Inv.admit sound found admits.1 admits.2
      simpa only [Sound, pairs, World.startNestedCall, World.setTask,
        LiveState.nested, Option.getD_some, List.map_append, List.map_cons,
        List.map_nil, pair] using admitted
    · exact sound
  | start changed | progress reported | clear => exact sound.write _ _ _ _
  | end_ =>
    rw [World.onTask]
    split
    · rename_i isRunning
      exact goes rfl (fun isMade => isMade)
        (fun isTerminal => by rw [isRunning] at isTerminal; cases isTerminal)
        nofun
    · exact sound
  | rerun =>
    rw [World.onTask]
    split
    · rename_i isEnded
      exact goes rfl (fun isMade => isMade)
        (fun isTerminal => by rw [isEnded] at isTerminal; cases isTerminal)
        nofun
    · exact sound
  | settle held entry summary =>
    rw [World.onTask]
    split
    · rename_i settles
      exact sound.settle found (sound.childless settles.2) settles.1 _ _ _
    · exact sound
  | fault held =>
    rw [World.onTask]
    split_ifs with isLive isHeld
    · exact goes rfl (fun isMade => isMade)
        (fun isTerminal => by rw [isTerminal] at isLive; rcases isLive with h | h <;> cases h)
        nofun
    · rw [not_or, not_not] at isHeld
      exact sound.settleOutcome found (sound.childless isHeld.2)
    · exact sound
  | complete =>
    rw [World.onTask]
    split
    · rename_i isOver
      split
      · exact sound.settleOutcome found (sound.childless isOver)
      · exact goes rfl (fun isMade => isMade) (fun _ => rfl) fun _ => sound.childless isOver
      · exact sound
    · exact sound

theorem Sound.step (event : Event J) : (world.step event).Sound := by
  cases event with
  | mint =>
    exact { sound with
      known := fun other task isTask => Nat.lt_succ_of_lt (sound.known other task isTask) }
  | startToolRound calls => exact Inv.create sound _
  | startNext callId => exact Inv.create sound 1
  | on id event =>
    rw [World.step]
    cases found : world.tasks id with
    | none => exact sound
    | some task => exact sound.onTask found event
  | endRound =>
    rw [World.step]
    split
    · rename_i isIdle
      rw [idle, List.all_eq_true] at isIdle
      refine { sound with
        ascending := List.Pairwise.nil
        slots := fun _ member => by cases member
        listed := fun other task isTask _ isLive => absurd ?_ isLive
        closed := fun _ member => by cases member }
      have isTerminal := isIdle other (List.mem_range.mpr (sound.known other task isTask))
      rwa [isTask, Option.all_some, decide_eq_true_eq] at isTerminal
    · exact sound

theorem Sound.ascendingSlots :
    world.live.nested.Pairwise fun left right => left.taskId < right.taskId := by
  have ascending := Inv.ascending sound
  rwa [pairs, List.pairwise_map] at ascending

/-- The search goes through the calls of the model, then the nested ones. -/
theorem Sound.found (id : ℕ) :
    (world.live.toolSlot id).isSome = true ↔
      (∃ slot ∈ world.live.tools.getD [], slot.taskId = some id) ∨
        world.Lists id := by
  have ascending := sound.ascendingSlots
  rw [Lists]
  rw [LiveState.nested] at ascending ⊢
  rw [LiveState.toolSlot]
  cases isFirst : (world.live.tools.getD []).findIdx? (·.taskId = some id) with
  | some index =>
    obtain ⟨inside, isSlot, _⟩ := List.findIdx?_eq_some_iff_getElem.mp isFirst
    exact iff_of_true rfl (.inl ⟨_, List.getElem_mem inside, of_decide_eq_true isSlot⟩)
  | none =>
    have notShown : ¬ ∃ slot ∈ world.live.tools.getD [], slot.taskId = some id := by
      rintro ⟨slot, member, isSlot⟩
      have isOther := List.findIdx?_eq_none_iff.mp isFirst slot member
      exact of_decide_eq_false isOther isSlot
    rw [or_iff_right notShown]
    cases isNested : world.live.nestedTools with
    | none => simp
    | some nested =>
      rw [isNested] at ascending
      exact (Option.isSome_map ..).symm ▸ Ascending.search_isSome_iff ascending

end

theorem isSlot (id : ℕ) {place : Place} (found : world.live.toolSlot id = some place) :
    world.live.Holds id place := by
  rw [LiveState.toolSlot] at found
  split at found
  · rename_i index isFirst
    obtain ⟨inside, isSlot, _⟩ := List.findIdx?_eq_some_iff_getElem.mp isFirst
    cases found
    exact ⟨_, List.getElem?_eq_getElem inside, of_decide_eq_true isSlot⟩
  · cases found
  · rename_i nested _ isNested
    obtain ⟨index, isFound, rfl⟩ := Option.map_eq_some_iff.mp found
    obtain ⟨slot, isAt, isSlot⟩ := Ascending.key_of_search isFound
    refine ⟨slot, ?_, isSlot⟩
    rw [LiveState.nested, isNested]
    exact isAt

theorem lists_iff (id : ℕ) : world.Lists id ↔ ∃ parent, (id, parent) ∈ world.pairs := by
  constructor
  · rintro ⟨slot, member, rfl⟩
    exact ⟨slot.parentTaskId, List.mem_map.mpr ⟨slot, member, rfl⟩⟩
  · rintro ⟨parent, member⟩
    obtain ⟨slot, isSlot, same⟩ := List.mem_map.mp member
    exact ⟨slot, isSlot, congrArg Prod.fst same⟩

section

variable (sound : world.Sound)
include sound

theorem Sound.lists_without {next : World J}
    (removed : next.pairs = Ascending.without Prod.fst Prod.snd id world.pairs) (other : ℕ) :
    next.Lists other ↔ world.Lists other ∧ ¬ Relation.TransGen world.Calls id other := by
  rw [lists_iff, lists_iff, removed]
  constructor
  · rintro ⟨parent, member⟩
    have kept := (Inv.mem_without sound).mp member
    exact ⟨⟨parent, kept.1⟩, kept.2⟩
  · rintro ⟨⟨parent, member⟩, notBelow⟩
    exact ⟨parent, (Inv.mem_without sound).mpr ⟨member, notBelow⟩⟩

theorem Sound.lists_settleOutcome (task : ToolTask) (other : ℕ) :
    (world.settleOutcome id task).Lists other ↔
      world.Lists other ∧ ¬ Relation.TransGen world.Calls id other :=
  sound.lists_without ((pairs_removeNestedSlots _ id).trans
    (congrArg _ (pairs_write world id finishSlot none none none))) other

theorem Sound.lists_settle (found : world.tasks id = some task) (held : Bool) (entry : ℕ)
    (summary : J) (other : ℕ) :
    (world.settle id task held entry summary).Lists other ↔
      world.Lists other ∧ ¬ Relation.TransGen world.Calls id other := by
  cases isMade : task.madeNested with
  | true =>
    refine sound.lists_without ?_ other
    rw [World.settle, if_pos isMade]
    exact (pairs_removeNestedSlots _ id).trans
      (congrArg _ (pairs_write world id finishSlot _ none _))
  | false =>
    have nothing : ¬ Relation.TransGen world.Calls id other :=
      Inv.without_of_not_made sound found isMade
    rw [and_iff_left nothing, lists_iff, lists_iff, World.settle, isMade]
    refine exists_congr fun parent => ?_
    exact iff_of_eq (congrArg ((other, parent) ∈ ·) (pairs_write world id finishSlot _ none _))

theorem Sound.kept : world.Kept where
  ascending := List.pairwise_map.mpr sound.ascendingSlots
  parentsFirst := by
    intro i j child parent isChild isParent same
    have before := Inv.before sound (pair child)
      (List.mem_map.mpr ⟨child, List.mem_of_getElem? isChild, rfl⟩)
    exact Ascending.lt_of_key_lt sound.ascendingSlots isParent isChild (same ▸ before)
  found := sound.found
  isSlot := fun id _ found => isSlot id found
  settles := by
    intro id task event found settles other
    rw [World.step, found]
    cases event with
    | settle held entry summary =>
      dsimp only [World.onTask]
      rw [if_pos (by exact settles)]
      exact sound.lists_settle found held entry summary other
    | fault held =>
      obtain ⟨isLive, notHeld, isOver⟩ := settles
      dsimp only [World.onTask]
      rw [if_pos isLive, if_neg (by simp [notHeld, isOver])]
      exact sound.lists_settleOutcome task other
    | complete =>
      obtain ⟨isCompleting, isOver⟩ := settles
      dsimp only [World.onTask]
      rw [if_pos isOver, isCompleting]
      exact sound.lists_settleOutcome task other
    | memo | startNestedCall | start | progress | clear | end_ | rerun => cases settles

end

/-- In every run the listed calls ascend, a call after the one it was made by;
the search finds what is listed, and a call that settles takes with it the
slots of its transitive nested calls and no other. -/
theorem nestedTools_kept (events : List (Event J)) : (initial.after events : World J).Kept := by
  have start : (initial : World J).Sound := initial_inv
  exact Sound.kept (Runs.after_invariant step Sound
    (fun _ event sound => sound.step event) start events)

end Steps

end World

end PiEmbodied.Durable.NestedTools
