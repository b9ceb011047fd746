import PiEmbodied.Coding
import PiEmbodied.Forest

/-!
# Task records and the transactions that write them

Tasks and conversations form one ownership tree.  A transaction creates tasks
and conversations below what is there, and replaces the records of live tasks.
Their IDs come from one ascending sequence.
-/

namespace PiEmbodied.Durable.Tasks

open Function (comp_apply update_of_ne update_self)

/-! ## Records -/

structure TaskOutcomeError (J : Type) where
  message : String
  detail : Option J
deriving DecidableEq

inductive TaskOutcome (J : Type) where
  | completed (result : J)
  | failed (error : TaskOutcomeError J) (result : Option J)
  | aborted (reason : Option String) (result : Option J)
  | orphaned (reason : String)
  | faulted (error : TaskOutcomeError J)
deriving DecidableEq

inductive JoinPolicy where
  | failFast
  | allSettled
deriving DecidableEq

inductive TaskState (J : Type) where
  | pending (checkpoint : J)
  | running (checkpoint : J)
  | waiting (checkpoint : J) (on : List ℕ) (policy : JoinPolicy)
  | completing (outcome : TaskOutcome J)
  | terminal (outcome : TaskOutcome J)
deriving DecidableEq

inductive AbortReason where
  | restart
deriving DecidableEq

structure TaskNode where
  conversationId : ℕ
  owner : Option ℕ
  background : Bool
deriving DecidableEq

structure TaskRecord (J : Type) extends TaskNode where
  id : ℕ
  abortRequested : Bool
  abortReason : Option AbortReason
  abandonOnRestart : Bool
  state : TaskState J
deriving DecidableEq

variable {J : Type}

namespace TaskState

def isTerminal : TaskState J → Bool
  | terminal _ => true
  | _ => false

def isCompleting : TaskState J → Bool
  | completing _ => true
  | _ => false

def isPending : TaskState J → Bool
  | pending _ => true
  | _ => false

def isWaiting : TaskState J → Bool
  | waiting _ _ _ => true
  | _ => false

def isRunning : TaskState J → Bool
  | running _ => true
  | _ => false

def waitsOn : TaskState J → List ℕ
  | waiting _ on _ => on
  | _ => []

def outcome : TaskState J → Option (TaskOutcome J)
  | completing outcome | terminal outcome => some outcome
  | _ => none

end TaskState

namespace TaskOutcome

def isCompleted : TaskOutcome J → Bool
  | completed _ => true
  | _ => false

def isScheduler : TaskOutcome J → Bool
  | orphaned _ | faulted _ => true
  | _ => false

end TaskOutcome

namespace TaskRecord

def live (record : TaskRecord J) : Bool := !record.state.isTerminal

/-- Whether the record holds or ends with an outcome other than `completed`. -/
def failedOutcome (record : TaskRecord J) : Bool :=
  match record.state.outcome with
  | some outcome => !outcome.isCompleted
  | none => false

def cancellationIntent (record : TaskRecord J) : Bool :=
  record.live && (record.abortRequested || record.failedOutcome)

def withState (record : TaskRecord J) (state : TaskState J) : TaskRecord J :=
  { record with state }

/-- An abort mark; one without a reason replaces `restart`. -/
def withAbortMark (record : TaskRecord J) (reason : Option AbortReason) :
    TaskRecord J :=
  { record with abortRequested := true, abortReason := reason }

variable (record : TaskRecord J) (state : TaskState J) (reason : Option AbortReason)

@[simp]
theorem withState_toTaskNode :
    (record.withState state).toTaskNode = record.toTaskNode := rfl

@[simp]
theorem withState_id :
    (record.withState state).id = record.id := rfl

@[simp]
theorem withState_state :
    (record.withState state).state = state := rfl

@[simp]
theorem withState_abortRequested :
    (record.withState state).abortRequested = record.abortRequested := rfl

@[simp]
theorem withAbortMark_toTaskNode :
    (record.withAbortMark reason).toTaskNode = record.toTaskNode := rfl

@[simp]
theorem withAbortMark_id :
    (record.withAbortMark reason).id = record.id := rfl

@[simp]
theorem withAbortMark_state :
    (record.withAbortMark reason).state = record.state := rfl

@[simp]
theorem withAbortMark_abortRequested :
    (record.withAbortMark reason).abortRequested = true := rfl

theorem live_eq_true {record : TaskRecord J} :
    record.live = true ↔ record.state.isTerminal = false := by
  simp [live]

end TaskRecord

/-! ## The ownership tree -/

inductive Node where
  | task (id : ℕ)
  | conversation (id : ℕ)
deriving DecidableEq

namespace Node

def number : Node → ℕ
  | task id | conversation id => id

@[simp]
theorem number_task (id : ℕ) : (task id).number = id := rfl

@[simp]
theorem number_conversation (id : ℕ) : (conversation id).number = id := rfl

end Node

def parentNode (node : TaskNode) : Node :=
  match node.owner with
  | some owner => .task owner
  | none => .conversation node.conversationId

/-- The committed records; `minted` is the next ID. -/
structure Store (J : Type) where
  tasks : ℕ → Option (TaskRecord J)
  /-- The owner task of each conversation, none where it is ownerless. -/
  conversations : ℕ → Option (Option ℕ)
  minted : ℕ

def rootConversationId : ℕ := 1

namespace Store

def empty : Store J where
  tasks := fun _ => none
  conversations := fun _ => none
  minted := 2

/-- The node above a node; none where the node does not exist, and where it is
an ownerless conversation. -/
def above (store : Store J) : Node → Option Node
  | .task id => (store.tasks id).map fun record => parentNode record.toTaskNode
  | .conversation id => (store.conversations id).join.map .task

def Above (store : Store J) (above node : Node) : Prop :=
  store.above node = some above

/-- Ordinary traversal goes below conversations and tasks in the foreground. -/
def Foreground (store : Store J) : Node → Prop
  | .task id => ∃ record, store.tasks id = some record ∧ record.background = false
  | .conversation _ => True

def Ordinary (store : Store J) (start : Node) (id : ℕ) : Prop :=
  Forest.Reached store.Above store.Foreground start (.task id)

def OwnedLive (store : Store J) (start : Node) (id : ℕ) : Prop :=
  store.Ordinary start id ∧
    ∃ record, store.tasks id = some record ∧ record.live = true ∧ record.background = false

structure Sound (store : Store J) : Prop where
  named : ∀ id record, store.tasks id = some record → record.id = id
  taskMinted : ∀ id record, store.tasks id = some record → id < store.minted
  conversationMinted : ∀ id owner, store.conversations id = some owner → id < store.minted
  lives : ∀ id record, store.tasks id = some record →
    (store.conversations record.conversationId).isSome = true ∧ record.conversationId < id
  owned : ∀ id record owner, store.tasks id = some record →
    record.owner = some owner →
      owner < id ∧ record.background = false ∧
        ∃ above, store.tasks owner = some above ∧ above.conversationId = record.conversationId
  ownedConversation : ∀ id owner, store.conversations id = some (some owner) →
    owner < id ∧ (store.tasks owner).isSome = true
  reserved : rootConversationId < store.minted

/-- A later store: the ownership fields of a record never change. -/
structure Extends (store later : Store J) : Prop where
  tasks : ∀ id record, store.tasks id = some record →
    ∃ next, later.tasks id = some next ∧ next.toTaskNode = record.toTaskNode
  conversations : ∀ id owner, store.conversations id = some owner →
    later.conversations id = some owner
  minted : store.minted ≤ later.minted

theorem Extends.above {store later : Store J} (extended : store.Extends later)
    {node up : Node} (isAbove : store.above node = some up) : later.above node = some up := by
  cases node with
  | task id =>
    obtain ⟨record, isRecord, isUp⟩ := Option.map_eq_some_iff.mp isAbove
    obtain ⟨next, isNext, sameNode⟩ := extended.tasks id record isRecord
    simp only [Store.above, isNext, Option.map_some, sameNode, isUp]
  | conversation id =>
    obtain ⟨owner, isOwner, isUp⟩ := Option.map_eq_some_iff.mp isAbove
    have isSome : store.conversations id = some (some owner) := Option.join_eq_some_iff.mp isOwner
    simp only [Store.above, extended.conversations id _ isSome,
      Option.join_some, Option.map_some, isUp]

namespace Sound

variable {store : Store J}

theorem above_lt (sound : store.Sound) {node up : Node}
    (isAbove : store.above node = some up) : up.number < node.number := by
  cases node with
  | task id =>
    obtain ⟨record, isRecord, rfl⟩ := Option.map_eq_some_iff.mp isAbove
    unfold parentNode
    split
    case h_1 owner isOwner => exact (sound.owned id record owner isRecord isOwner).1
    case h_2 => exact (sound.lives id record isRecord).2
  | conversation id =>
    obtain ⟨owner, isOwner, rfl⟩ := Option.map_eq_some_iff.mp isAbove
    exact (sound.ownedConversation id owner (Option.join_eq_some_iff.mp isOwner)).1

theorem addTask (sound : store.Sound) {record : TaskRecord J} (isNew : record.id = store.minted)
    (hasConversation : (store.conversations record.conversationId).isSome = true)
    (hasOwner : ∀ owner, record.owner = some owner →
      record.background = false ∧
        ∃ above, store.tasks owner = some above ∧ above.conversationId = record.conversationId) :
    Sound
      { tasks := Function.update store.tasks record.id (some record)
        conversations := store.conversations
        minted := store.minted + 1 : Store J } := by
  have others : ∀ id task, store.tasks id = some task → id ≠ record.id := by
    intro id task isTask same
    have := sound.taskMinted id task isTask
    omega
  have cases : ∀ id task,
      Function.update store.tasks record.id (some record) id = some task →
        (id = record.id ∧ task = record) ∨ store.tasks id = some task := by
    intro id task isTask
    by_cases same : id = record.id
    · subst same
      rw [update_self] at isTask
      exact .inl ⟨rfl, (Option.some.inj isTask).symm⟩
    · exact .inr (by rwa [update_of_ne same] at isTask)
  have keeps : ∀ id task, store.tasks id = some task →
      Function.update store.tasks record.id (some record) id = some task := by
    intro id task isTask
    rw [update_of_ne (others id task isTask), isTask]
  refine ⟨?_, ?_, ?_, ?_, ?_, ?_, ?_⟩
  · intro id task isTask
    rcases cases id task isTask with ⟨same, rfl⟩ | old
    · exact same.symm
    · exact sound.named id task old
  · intro id task isTask
    rcases cases id task isTask with ⟨same, rfl⟩ | old
    · rw [same, isNew]
      exact Nat.lt_succ_self _
    · exact Nat.lt_succ_of_lt (sound.taskMinted id task old)
  · intro id owner isOwner
    exact Nat.lt_succ_of_lt (sound.conversationMinted id owner isOwner)
  · intro id task isTask
    rcases cases id task isTask with ⟨same, rfl⟩ | old
    · obtain ⟨owner, isOwner⟩ := Option.isSome_iff_exists.mp hasConversation
      refine ⟨hasConversation, ?_⟩
      rw [same, isNew]
      exact sound.conversationMinted _ owner isOwner
    · exact sound.lives id task old
  · intro id task owner isTask isOwner
    rcases cases id task isTask with ⟨same, rfl⟩ | old
    · obtain ⟨foreground, above, isAbove, sameConversation⟩ :=
        hasOwner owner isOwner
      refine ⟨?_, foreground, above, keeps owner above isAbove, sameConversation⟩
      rw [same, isNew]
      exact sound.taskMinted owner above isAbove
    · obtain ⟨less, foreground, above, isAbove, sameConversation⟩ :=
        sound.owned id task owner old isOwner
      exact ⟨less, foreground, above, keeps owner above isAbove, sameConversation⟩
  · intro id owner isOwner
    obtain ⟨less, isSome⟩ := sound.ownedConversation id owner isOwner
    obtain ⟨task, isTask⟩ := Option.isSome_iff_exists.mp isSome
    exact ⟨less, by simp only [keeps owner task isTask, Option.isSome_some]⟩
  · exact Nat.lt_succ_of_lt sound.reserved

theorem addConversation (sound : store.Sound) {id minted : ℕ} {owner : Option ℕ}
    (isNew : store.conversations id = none) (isMinted : id < minted) (grows : store.minted ≤ minted)
    (hasOwner : ∀ task, owner = some task → task < id ∧ (store.tasks task).isSome = true) :
    Sound
      { tasks := store.tasks
        conversations := Function.update store.conversations id (some owner)
        minted : Store J } := by
  have cases : ∀ other above,
      Function.update store.conversations id (some owner) other = some above →
        (other = id ∧ above = owner) ∨ store.conversations other = some above := by
    intro other above isAbove
    by_cases same : other = id
    · subst same
      rw [update_self] at isAbove
      exact .inl ⟨rfl, (Option.some.inj isAbove).symm⟩
    · exact .inr (by rwa [update_of_ne same] at isAbove)
  refine ⟨sound.named, ?_, ?_, ?_, sound.owned, ?_, ?_⟩
  · intro other record isRecord
    exact (sound.taskMinted other record isRecord).trans_le grows
  · intro other above isAbove
    rcases cases other above isAbove with ⟨same, _⟩ | old
    · rw [same]
      exact isMinted
    · exact (sound.conversationMinted other above old).trans_le grows
  · intro other record isRecord
    obtain ⟨isSome, less⟩ := sound.lives other record isRecord
    refine ⟨?_, less⟩
    by_cases same : record.conversationId = id
    · simp [same]
    · simpa [update_of_ne same] using isSome
  · intro other task isOwner
    rcases cases other (some task) isOwner with ⟨same, isTask⟩ | old
    · rw [same]
      exact hasOwner task isTask.symm
    · exact sound.ownedConversation other task old
  · exact sound.reserved.trans_le grows

theorem setTask (sound : store.Sound) {record old : TaskRecord J}
    (isOld : store.tasks record.id = some old) (sameNode : record.toTaskNode = old.toTaskNode) :
    Sound
      { store with
        tasks := Function.update store.tasks record.id (some record) } := by
  have cases : ∀ id task,
      Function.update store.tasks record.id (some record) id = some task →
        ∃ before, store.tasks id = some before ∧
          task.toTaskNode = before.toTaskNode ∧ task.id = id := by
    intro id task isTask
    by_cases same : id = record.id
    · subst same
      rw [update_self] at isTask
      cases isTask
      exact ⟨old, isOld, sameNode, rfl⟩
    · rw [update_of_ne same] at isTask
      exact ⟨task, isTask, rfl, sound.named id task isTask⟩
  have keeps : ∀ id task, store.tasks id = some task →
      ∃ after, Function.update store.tasks record.id (some record) id =
          some after ∧ after.toTaskNode = task.toTaskNode := by
    intro id task isTask
    by_cases same : id = record.id
    · subst same
      rw [isOld] at isTask
      cases isTask
      exact ⟨record, update_self .., sameNode⟩
    · exact ⟨task, by rw [update_of_ne same, isTask], rfl⟩
  refine ⟨?_, ?_, sound.conversationMinted, ?_, ?_, ?_, sound.reserved⟩
  · intro id task isTask
    obtain ⟨_, _, _, isNamed⟩ := cases id task isTask
    exact isNamed
  · intro id task isTask
    obtain ⟨before, isBefore, _⟩ := cases id task isTask
    exact sound.taskMinted id before isBefore
  · intro id task isTask
    obtain ⟨before, isBefore, same, _⟩ := cases id task isTask
    rw [same]
    exact sound.lives id before isBefore
  · intro id task owner isTask isOwner
    obtain ⟨before, isBefore, same, _⟩ := cases id task isTask
    rw [same] at isOwner ⊢
    obtain ⟨less, foreground, above, isAbove, sameConversation⟩ :=
      sound.owned id before owner isBefore isOwner
    obtain ⟨after, isAfter, sameAfter⟩ := keeps owner above isAbove
    exact ⟨less, foreground, after, isAfter, by rw [sameAfter, sameConversation]⟩
  · intro id owner isOwner
    obtain ⟨less, isSome⟩ := sound.ownedConversation id owner isOwner
    obtain ⟨task, isTask⟩ := Option.isSome_iff_exists.mp isSome
    obtain ⟨after, isAfter, _⟩ := keeps owner task isTask
    exact ⟨less, by simp only [isAfter, Option.isSome_some]⟩

end Sound

end Store

/-! ## Transactions -/

inductive TaskOwnership where
  | conversation
  | task (taskId : ℕ)
deriving DecidableEq

structure TaskOptions where
  ownership : TaskOwnership
  conversationId : Option ℕ
  background : Option Bool
  abandonOnRestart : Bool
deriving DecidableEq

inductive WriteKind where
  | create
  | replace
deriving DecidableEq

structure Write (J : Type) where
  kind : WriteKind
  record : TaskRecord J
deriving DecidableEq

/-- The staged records; `touched` tells of writes to other tables and to
documents. -/
structure Transaction (J : Type) where
  tasksById : List (Write J)
  conversations : List (ℕ × Option ℕ)
  touched : Bool
  minted : ℕ

namespace Transaction

def start (store : Store J) : Transaction J where
  tasksById := []
  conversations := []
  touched := false
  minted := store.minted

def write (tx : Transaction J) (id : ℕ) : Option (Write J) :=
  tx.tasksById.find? fun write => write.record.id = id

def candidate (tx : Transaction J) (id : ℕ) : Option (TaskRecord J) :=
  (tx.write id).map Write.record

/-- Latest candidate task record, falling back to committed state. -/
def currentTask (store : Store J) (tx : Transaction J) (id : ℕ) : Option (TaskRecord J) :=
  (tx.candidate id).or (store.tasks id)

def currentConversation (store : Store J) (tx : Transaction J) (id : ℕ) : Option (Option ℕ) :=
  (tx.conversations.lookup id).or (store.conversations id)

def taskOwner (store : Store J) (options : TaskOptions) (tx : Transaction J) :
    Except String (Option (TaskRecord J)) :=
  match options.ownership with
  | .conversation => .ok none
  | .task taskId =>
    match tx.currentTask store taskId with
    | none => .error s!"Task owner {taskId} does not exist"
    | some owner =>
      if options.background = some true then
        .error "A child task cannot be background"
      else if options.conversationId ≠ none ∧
          options.conversationId ≠ some owner.conversationId then
        .error s!"A child task lives in its owner's conversation {
          owner.conversationId}"
      else .ok (some owner)

/-- `scope` is the conversation the commit is bound to, `checkpoint` the
initial one of the task's definition. -/
def createTask (store : Store J) (scope : Option ℕ)
    (options : TaskOptions) (checkpoint : J) (tx : Transaction J) :
    Except String (Transaction J) :=
  taskOwner store options tx >>= fun owner =>
    match ((owner.map fun owner => owner.conversationId).or
        options.conversationId).or scope with
    | none => .error "Tx.createTask() requires options.conversationId"
    | some conversationId =>
      if (tx.currentConversation store conversationId).isNone then
        .error s!"Conversation {conversationId} does not exist"
      else
        .ok
          { tx with
            tasksById := tx.tasksById ++
              [{ kind := .create
                 record :=
                  { conversationId
                    owner := owner.map fun owner => owner.id
                    background := options.background.getD false
                    id := tx.minted
                    abortRequested := false
                    abortReason := none
                    abandonOnRestart := options.abandonOnRestart
                    state := .pending checkpoint } }]
            minted := tx.minted + 1 }

/-- `createConversation` and `forkConversation`, with their owner task. -/
def createConversation (store : Store J) (owner : Option ℕ) (tx : Transaction J) :
    Except String (Transaction J) :=
  match owner with
  | none => .ok staged
  | some taskId =>
    if (tx.currentTask store taskId).isNone then
      .error s!"Conversation owner task {taskId} does not exist"
    else .ok staged
where
  staged : Transaction J :=
    { tx with
      conversations := tx.conversations ++ [(tx.minted, owner)]
      minted := tx.minted + 1 }

/-- The root conversation has a reserved ID; it is created once. -/
def createRootConversation (store : Store J) (tx : Transaction J) :
    Transaction J :=
  if (tx.currentConversation store rootConversationId).isSome then tx
  else
    { tx with
      conversations := tx.conversations ++ [(rootConversationId, none)] }

/-- An ID is minted for a record of another table or a document. -/
def touch (tx : Transaction J) : Transaction J :=
  { tx with touched := true, minted := tx.minted + 1 }

def setTask (tx : Transaction J) (value : TaskRecord J) : Except String (Transaction J) :=
  match tx.write value.id with
  | none => .ok { tx with tasksById := tx.tasksById ++ [⟨.replace, value⟩] }
  | some write =>
    if write.record.state.isTerminal then
      .error s!"Task {value.id} already has a terminal candidate"
    else if write.record.conversationId ≠ value.conversationId then
      .error s!"Task {value.id} cannot change conversations"
    else
      .ok
        { tx with
          tasksById := tx.tasksById.map fun write =>
            if write.record.id = value.id then
              { write with record := value }
            else write }

/-- New owned work needs a live owner, judged on its final candidate. -/
def validateOwner (store : Store J) (tx : Transaction J) (what : String)
    (taskId : ℕ) : Except String Unit :=
  match tx.currentTask store taskId with
  | none => .error s!"{what} {taskId} does not exist"
  | some task =>
    if task.state.isTerminal then .error s!"{what} {taskId} is terminal"
    else if task.state.isCompleting then
      .error s!"{what} {taskId} is completing"
    else if task.abortRequested then
      .error s!"{what} {taskId} is abort-marked"
    else .ok ()

def owners (tx : Transaction J) : List (String × ℕ) :=
  (tx.conversations.filterMap fun (_, owner) =>
    owner.map fun taskId => ("Conversation owner task", taskId)) ++
  tx.tasksById.filterMap fun write =>
    match write.kind with
    | .create => write.record.owner.map fun taskId => ("Task owner", taskId)
    | .replace => none

def validateReplaced (store : Store J) (record : TaskRecord J) :
    Except String Unit :=
  match store.tasks record.id with
  | none => .error s!"Task {record.id} does not exist"
  | some committed =>
    if committed.state.isTerminal then
      .error s!"Task {record.id} is already terminal"
    else if committed.conversationId ≠ record.conversationId then
      .error s!"Task {record.id} cannot change conversations"
    else .ok ()

/-- `#assemble`, as far as it checks tasks. -/
def assemble (store : Store J) (tx : Transaction J) : Except String Unit :=
  (tx.owners.forM fun (what, taskId) => validateOwner store tx what taskId) >>=
    fun _ =>
      tx.tasksById.forM fun write =>
        match write.kind with
        | .create => .ok ()
        | .replace => validateReplaced store write.record

def applied (store : Store J) (tx : Transaction J) : Store J where
  tasks := tx.currentTask store
  conversations := tx.currentConversation store
  minted := tx.minted

/-! ## What is staged -/

theorem write_append (tx : Transaction J) (staged : Write J) (id : ℕ) :
    write { tx with tasksById := tx.tasksById ++ [staged] } id =
      (tx.write id).or (if staged.record.id = id then some staged else none) := by
  simp only [write, List.find?_append, List.find?_singleton, decide_eq_true_eq]

theorem currentTask_append (store : Store J) (tx : Transaction J) (staged : Write J) (minted : ℕ)
    (isFresh : tx.write staged.record.id = none) :
    currentTask store { tx with tasksById := tx.tasksById ++ [staged], minted } =
      Function.update (tx.currentTask store) staged.record.id (some staged.record) := by
  funext id
  have isWrite := write_append tx staged id
  simp only [currentTask, candidate, write] at isWrite isFresh ⊢
  rw [isWrite]
  by_cases same : id = staged.record.id
  · subst same
    simp [isFresh]
  · rw [update_of_ne same, if_neg (Ne.symm same), Option.or_none]
    rfl

theorem currentConversation_append (store : Store J) (tx : Transaction J) (id minted : ℕ)
    (owner : Option ℕ) (isFresh : tx.conversations.lookup id = none) :
    currentConversation store
        { tx with
          conversations := tx.conversations ++ [(id, owner)], minted } =
      Function.update (tx.currentConversation store) id (some owner) := by
  funext other
  simp only [currentConversation, List.lookup_append]
  by_cases same : other = id
  · subst same
    simp [isFresh, List.lookup]
  · have notFound : ([(id, owner)] : List (ℕ × Option ℕ)).lookup other = none := by
      simp [List.lookup, beq_eq_false_iff_ne.mpr same]
    rw [update_of_ne same, notFound, Option.or_none]
    rfl

variable {tx : Transaction J} {id : ℕ} {staged : Write J}

theorem write_id (isStaged : tx.write id = some staged) : staged.record.id = id := by
  simpa using List.find?_some isStaged

theorem write_mem (isStaged : tx.write id = some staged) : staged ∈ tx.tasksById :=
  List.mem_of_find?_eq_some isStaged

variable {store : Store J}

theorem currentTask_of_write (isStaged : tx.write id = some staged) :
    tx.currentTask store id = some staged.record := by
  simp [currentTask, candidate, isStaged]

theorem currentTask_of_unstaged (notStaged : tx.write id = none) :
    tx.currentTask store id = store.tasks id := by
  simp [currentTask, candidate, notStaged]

theorem nodup_append (nodup : (tx.tasksById.map fun write => write.record.id).Nodup)
    (isNew : tx.write staged.record.id = none) :
    ((tx.tasksById ++ [staged]).map fun write => write.record.id).Nodup := by
  rw [List.map_append, List.nodup_append]
  refine ⟨nodup, List.nodup_singleton _, ?_⟩
  rintro other member _ isLast rfl
  obtain ⟨before, isBefore, rfl⟩ := List.mem_map.mp member
  have same : before.record.id = staged.record.id := by simpa using isLast
  have := List.find?_eq_none.mp isNew before isBefore
  simp [same] at this

theorem currentTask_setTask {store : Store J} {tx next : Transaction J} {value : TaskRecord J}
    (isSet : tx.setTask value = .ok next) :
    next.currentTask store = Function.update (tx.currentTask store) value.id (some value) := by
  unfold setTask at isSet
  split at isSet
  case h_1 notStaged =>
    cases isSet
    exact currentTask_append store tx ⟨.replace, value⟩ tx.minted notStaged
  case h_2 staged isStaged =>
    split_ifs at isSet
    cases isSet
    funext id
    have isFound :
        (tx.tasksById.map fun write : Write J =>
            if write.record.id = value.id then { write with record := value }
            else write).find? (fun write => decide (write.record.id = id)) =
          (tx.write id).map fun write =>
            if write.record.id = value.id then { write with record := value }
            else write := by
      rw [List.find?_map, write]
      congr 2
      funext write
      simp only [comp_apply]
      split_ifs with same
      · simp [same]
      · rfl
    unfold currentTask candidate
    conv_lhs => unfold write
    rw [isFound]
    by_cases same : id = value.id
    · subst same
      simp [isStaged, write_id isStaged]
    · rw [update_of_ne same]
      cases isOther : tx.write id with
      | none => rfl
      | some other =>
        have notValue : other.record.id ≠ value.id := by
          rw [write_id isOther]
          exact same
        simp [notValue]

structure Sound (store : Store J) (tx : Transaction J) : Prop where
  nodup : (tx.tasksById.map fun write => write.record.id).Nodup
  created : ∀ write ∈ tx.tasksById, write.kind = .create →
    store.tasks write.record.id = none ∧ write.record.abortRequested = false ∧
      ∃ checkpoint, write.record.state = .pending checkpoint
  replaced : ∀ write ∈ tx.tasksById, write.kind = .replace →
    ∃ committed, store.tasks write.record.id = some committed ∧ committed.live = true ∧
      write.record.toTaskNode = committed.toTaskNode
  conversationsNodup : (tx.conversations.map Prod.fst).Nodup
  fresh : ∀ staged ∈ tx.conversations, store.conversations staged.1 = none
  minted : store.minted ≤ tx.minted
  forest : (tx.applied store).Sound

theorem start_sound (sound : store.Sound) : (start store).Sound store where
  nodup := List.nodup_nil
  created := by simp [start]
  replaced := by simp [start]
  conversationsNodup := List.nodup_nil
  fresh := by simp [start]
  minted := le_refl _
  forest := sound

namespace Sound

variable {store : Store J} {tx next : Transaction J}

theorem extended (sound : tx.Sound store) : store.Extends (tx.applied store) where
  tasks := by
    intro id record isRecord
    cases isStaged : tx.write id with
    | none =>
      refine ⟨record, ?_, rfl⟩
      exact (currentTask_of_unstaged isStaged).trans isRecord
    | some staged =>
      refine ⟨staged.record, currentTask_of_write isStaged, ?_⟩
      have isNamed := write_id isStaged
      cases isKind : staged.kind with
      | create =>
        have isNone := (sound.created staged (write_mem isStaged) isKind).1
        rw [isNamed, isRecord] at isNone
        cases isNone
      | replace =>
        obtain ⟨committed, isCommitted, _, sameNode⟩ :=
          sound.replaced staged (write_mem isStaged) isKind
        rw [isNamed, isRecord] at isCommitted
        cases isCommitted
        exact sameNode
  conversations := by
    intro id owner isOwner
    have notStaged : tx.conversations.lookup id = none := by
      rw [List.lookup_eq_none_iff]
      intro staged member
      have isNone := sound.fresh staged member
      simp only [bne_iff_ne, ne_eq]
      rintro rfl
      rw [isOwner] at isNone
      cases isNone
    simp only [applied, currentConversation, notStaged, Option.none_or, isOwner]
  minted := sound.minted

variable {id : ℕ}

theorem write_eq_none (sound : tx.Sound store) (isFresh : tx.minted ≤ id) : tx.write id = none := by
  cases isStaged : tx.write id with
  | none => rfl
  | some staged =>
    have := sound.forest.taskMinted id staged.record
      (currentTask_of_write isStaged)
    simp only [applied] at this
    omega

theorem tasks_eq_none (sound : tx.Sound store) (isFresh : tx.minted ≤ id) :
    store.tasks id = none := by
  cases isTask : store.tasks id with
  | none => rfl
  | some record =>
    obtain ⟨staged, isStaged, _⟩ := sound.extended.tasks id record isTask
    have := sound.forest.taskMinted id staged isStaged
    simp only [applied] at this
    omega

theorem touch (sound : tx.Sound store) : tx.touch.Sound store :=
  { sound with
    minted := Nat.le_succ_of_le sound.minted
    forest :=
      { named := sound.forest.named
        taskMinted := fun id record isRecord =>
          Nat.lt_succ_of_lt (sound.forest.taskMinted id record isRecord)
        conversationMinted := fun id owner isOwner =>
          Nat.lt_succ_of_lt (sound.forest.conversationMinted id owner isOwner)
        lives := sound.forest.lives
        owned := sound.forest.owned
        ownedConversation := sound.forest.ownedConversation
        reserved := Nat.lt_succ_of_lt sound.forest.reserved } }

variable {owner : Option ℕ}

theorem stageConversation (sound : tx.Sound store) {minted : ℕ}
    (isNew : tx.currentConversation store id = none) (isMinted : id < minted)
    (grows : tx.minted ≤ minted)
    (hasOwner : ∀ task, owner = some task → task < id ∧ (tx.currentTask store task).isSome = true) :
    Sound store
      { tx with
        conversations := tx.conversations ++ [(id, owner)]
        minted } := by
  obtain ⟨notStaged, notCommitted⟩ := Option.or_eq_none_iff.mp isNew
  refine ⟨sound.nodup, sound.created, sound.replaced, ?_, ?_, sound.minted.trans grows, ?_⟩
  · rw [List.map_append, List.nodup_append]
    refine ⟨sound.conversationsNodup, List.nodup_singleton _, ?_⟩
    rintro other member _ isLast rfl
    obtain ⟨staged, isStaged, rfl⟩ := List.mem_map.mp member
    have same : staged.1 = id := by simpa using isLast
    have := List.lookup_eq_none_iff.mp notStaged staged isStaged
    simp [same] at this
  · intro staged member
    rcases List.mem_append.mp member with old | new
    · exact sound.fresh staged old
    · rw [List.mem_singleton.mp new]
      exact notCommitted
  · have isApplied := currentConversation_append store tx id minted owner notStaged
    have forest := sound.forest.addConversation isNew isMinted grows hasOwner
    rw [applied] at forest ⊢
    rw [isApplied]
    exact forest

theorem createConversation (sound : tx.Sound store)
    (isCreated : tx.createConversation store owner = .ok next) : next.Sound store := by
  have isNew : tx.currentConversation store tx.minted = none := by
    cases isOwner : tx.currentConversation store tx.minted with
    | none => rfl
    | some owner =>
      exact absurd (sound.forest.conversationMinted tx.minted owner isOwner) (Nat.lt_irrefl _)
  have staged : (Transaction.createConversation.staged owner tx).Sound
      store ∨ ∃ task, owner = some task ∧ tx.currentTask store task = none := by
    cases owner with
    | none =>
      exact .inl (sound.stageConversation isNew (Nat.lt_succ_self _) (Nat.le_succ _) (by simp))
    | some taskId =>
      cases isTask : tx.currentTask store taskId with
      | none => exact .inr ⟨taskId, rfl, isTask⟩
      | some task =>
        refine .inl (sound.stageConversation isNew (Nat.lt_succ_self _) (Nat.le_succ _) ?_)
        rintro other isOther
        cases isOther
        exact ⟨sound.forest.taskMinted taskId task isTask, by rw [isTask, Option.isSome_some]⟩
  unfold Transaction.createConversation at isCreated
  split at isCreated
  case h_1 =>
    cases isCreated
    rcases staged with staged | ⟨_, isSome, _⟩
    · exact staged
    · cases isSome
  case h_2 taskId =>
    split_ifs at isCreated with isMissing
    cases isCreated
    rcases staged with staged | ⟨task, isSome, isNone⟩
    · exact staged
    · cases isSome
      simp [isNone] at isMissing

theorem createRootConversation (sound : tx.Sound store) :
    (tx.createRootConversation store).Sound store := by
  unfold Transaction.createRootConversation
  split_ifs with exists_
  · exact sound
  · refine sound.stageConversation (by simpa using exists_)
      sound.forest.reserved (le_refl _) (by simp)

variable {options : TaskOptions}

theorem taskOwner_eq_some (sound : tx.Sound store) {owner : TaskRecord J}
    (isOwner : tx.taskOwner store options = .ok (some owner)) :
    tx.currentTask store owner.id = some owner ∧ options.background.getD false = false := by
  unfold Transaction.taskOwner at isOwner
  split at isOwner
  case h_1 => cases isOwner
  case h_2 taskId isTask =>
    split at isOwner
    case h_1 => cases isOwner
    case h_2 found isFound =>
      split_ifs at isOwner with isBackground
      cases isOwner
      have isNamed : owner.id = taskId := sound.forest.named taskId owner isFound
      refine ⟨by rw [isNamed, isFound], ?_⟩
      cases isGiven : options.background with
      | none => rfl
      | some background =>
        cases background with
        | true => exact absurd isGiven isBackground
        | false => rfl

theorem createTask (sound : tx.Sound store) {scope : Option ℕ} {checkpoint : J}
    (isCreated : tx.createTask store scope options checkpoint = .ok next) : next.Sound store := by
  unfold Transaction.createTask at isCreated
  obtain ⟨owner, isOwner, isCreated⟩ := Coding.bind_eq_ok.mp isCreated
  split at isCreated
  case h_1 => cases isCreated
  case h_2 conversationId isConversation =>
    split_ifs at isCreated with isMissing
    cases isCreated
    have isNew := sound.write_eq_none (le_refl tx.minted)
    refine ⟨?_, ?_, ?_, sound.conversationsNodup, sound.fresh, Nat.le_succ_of_le sound.minted, ?_⟩
    · exact nodup_append sound.nodup isNew
    · intro staged member isCreate
      rcases List.mem_append.mp member with old | new
      · exact sound.created staged old isCreate
      · rw [List.mem_singleton.mp new]
        exact ⟨sound.tasks_eq_none (le_refl _), rfl, checkpoint, rfl⟩
    · intro staged member isReplace
      rcases List.mem_append.mp member with old | new
      · exact sound.replaced staged old isReplace
      · rw [List.mem_singleton.mp new] at isReplace
        cases isReplace
    · rw [applied, currentTask_append store tx _ _ isNew]
      refine sound.forest.addTask rfl ?_ ?_
      · exact Option.isSome_iff_ne_none.mpr (by simpa [applied] using isMissing)
      · intro ownerId isOwnerId
        obtain ⟨task, isTask, rfl⟩ := Option.map_eq_some_iff.mp isOwnerId
        cases isTask
        obtain ⟨isFound, foreground⟩ := sound.taskOwner_eq_some isOwner
        refine ⟨foreground, task, isFound, ?_⟩
        simpa using isConversation

theorem setTask (sound : tx.Sound store) {value committed : TaskRecord J}
    (isCommitted : store.tasks value.id = some committed) (isLive : committed.live = true)
    (sameNode : value.toTaskNode = committed.toTaskNode)
    (isSet : tx.setTask value = .ok next) : next.Sound store := by
  have isApplied : next.currentTask store =
      Function.update (tx.currentTask store) value.id (some value) :=
    currentTask_setTask isSet
  obtain ⟨current, isCurrent, currentNode⟩ := sound.extended.tasks value.id committed isCommitted
  have forest : (next.applied store).Sound := by
    have isForest := sound.forest.setTask isCurrent (sameNode.trans currentNode.symm)
    have rest : next.conversations = tx.conversations ∧
        next.minted = tx.minted := by
      unfold Transaction.setTask at isSet
      split at isSet
      case h_1 => cases isSet; exact ⟨rfl, rfl⟩
      case h_2 => split_ifs at isSet; cases isSet; exact ⟨rfl, rfl⟩
    have sameStore : next.applied store =
        { tx.applied store with
          tasks := Function.update (tx.applied store).tasks value.id
            (some value) } := by
      simp only [applied, isApplied, rest.2, Store.mk.injEq, true_and, and_true]
      funext id
      simp only [currentConversation, rest.1]
    rw [sameStore]
    exact isForest
  unfold Transaction.setTask at isSet
  split at isSet
  case h_1 notStaged =>
    cases isSet
    refine ⟨?_, ?_, ?_, sound.conversationsNodup, sound.fresh, sound.minted, forest⟩
    · exact nodup_append sound.nodup notStaged
    · intro staged member isCreate
      rcases List.mem_append.mp member with old | new
      · exact sound.created staged old isCreate
      · rw [List.mem_singleton.mp new] at isCreate
        cases isCreate
    · intro staged member isReplace
      rcases List.mem_append.mp member with old | new
      · exact sound.replaced staged old isReplace
      · rw [List.mem_singleton.mp new]
        exact ⟨committed, isCommitted, isLive, sameNode⟩
  case h_2 first isFirst =>
    split_ifs at isSet
    cases isSet
    have sameIds : (tx.tasksById.map fun write : Write J =>
        if write.record.id = value.id then { write with record := value }
        else write).map (fun write => write.record.id) =
          tx.tasksById.map fun write => write.record.id := by
      rw [List.map_map]
      refine List.map_congr_left fun staged _ => ?_
      simp only [comp_apply]
      split_ifs with same
      · exact same.symm
      · rfl
    refine ⟨by rw [sameIds]; exact sound.nodup, ?_, ?_,
      sound.conversationsNodup, sound.fresh, sound.minted, forest⟩
    · intro staged member isCreate
      obtain ⟨before, isBefore, rfl⟩ := List.mem_map.mp member
      split_ifs at isCreate ⊢ with same
      · have isNone := (sound.created before isBefore isCreate).1
        rw [same, isCommitted] at isNone
        cases isNone
      · exact sound.created before isBefore isCreate
    · intro staged member isReplace
      obtain ⟨before, isBefore, rfl⟩ := List.mem_map.mp member
      split_ifs at isReplace ⊢ with same
      · exact ⟨committed, isCommitted, isLive, sameNode⟩
      · exact sound.replaced before isBefore isReplace

end Sound

/-! ## The operations of a commit callback -/

inductive Change (J : Type) where
  | state (state : TaskState J)
  | abortMark (reason : Option AbortReason)
deriving DecidableEq

def Change.on : Change J → TaskRecord J → TaskRecord J
  | .state value, record => record.withState value
  | .abortMark reason, record => record.withAbortMark reason

inductive Operation (J : Type) where
  | createTask (scope : Option ℕ) (options : TaskOptions) (checkpoint : J)
  | createConversation (owner : Option ℕ)
  | createRootConversation
  /-- A write to another table, or to a document. -/
  | touch
  /-- The latest record of a live task is replaced. -/
  | setTask (id : ℕ) (change : Change J)
deriving DecidableEq

def operate (store : Store J) (tx : Transaction J) : Operation J → Except String (Transaction J)
  | .createTask scope options checkpoint => tx.createTask store scope options checkpoint
  | .createConversation owner => tx.createConversation store owner
  | .createRootConversation => .ok (tx.createRootConversation store)
  | .touch => .ok tx.touch
  | .setTask id change =>
    match store.tasks id, tx.currentTask store id with
    | some committed, some current =>
      if committed.live then tx.setTask (change.on current)
      else .error s!"Task {id} is already terminal"
    | _, _ => .error s!"Task {id} does not exist"

def stage (store : Store J) (tx : Transaction J)
    (operations : List (Operation J)) : Except String (Transaction J) :=
  operations.foldlM (operate store) tx

variable (change : Change J) (record : TaskRecord J)

@[simp]
theorem Change.on_toTaskNode :
    (change.on record).toTaskNode = record.toTaskNode := by
  cases change <;> rfl

@[simp]
theorem Change.on_id :
    (change.on record).id = record.id := by
  cases change <;> rfl

variable {next : Transaction J}

theorem operate_sound {operation : Operation J} (sound : tx.Sound store)
    (isNext : tx.operate store operation = .ok next) : next.Sound store := by
  cases operation with
  | createTask scope options checkpoint => exact sound.createTask isNext
  | createConversation owner => exact sound.createConversation isNext
  | createRootConversation =>
    cases isNext
    exact sound.createRootConversation
  | touch =>
    cases isNext
    exact sound.touch
  | setTask id change =>
    dsimp only [operate] at isNext
    split at isNext
    case h_1 committed current isCommitted isCurrent =>
      split_ifs at isNext with isLive
      have isNamed : current.id = id := sound.forest.named id current isCurrent
      obtain ⟨found, isFound, sameNode⟩ := sound.extended.tasks id committed isCommitted
      have sameRecord : current = found := Option.some.inj (isCurrent.symm.trans isFound)
      refine sound.setTask ?_ isLive ?_ isNext
      · rw [Change.on_id, isNamed]
        exact isCommitted
      · rw [Change.on_toTaskNode, sameRecord]
        exact sameNode
    case h_2 => cases isNext

theorem stage_sound {operations : List (Operation J)} (sound : tx.Sound store)
    (isNext : tx.stage store operations = .ok next) : next.Sound store :=
  Coding.foldlM_keeps (fun _ _ _ _ sound => operate_sound sound) sound isNext

end Transaction

end PiEmbodied.Durable.Tasks
