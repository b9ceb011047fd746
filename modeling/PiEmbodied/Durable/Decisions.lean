import PiEmbodied.Durable.Overlays

/-!
# What the scheduler decides

Every callback on the Session line stages a lawful commit: a record moves on as
its state allows, a task ends only in a commit that leaves it no live ordinary
owned work, a wait is on tasks that do not wait for the waiter, and the Harness
cleanup goes with the end of the outcomes the scheduler wrote.
-/

namespace PiEmbodied.Durable.Scheduler

open Tasks
open Function (update_of_ne update_self)

variable {J : Type}

/-! ## The wait-for graph -/

/-- A task waits for the live tasks its wait names, unless it is abort-marked,
and for its live ordinary owned work. -/
def WaitsFor (store : Store J) (id other : ℕ) : Prop :=
  ∃ record, store.tasks id = some record ∧ record.live = true ∧
    ((record.abortRequested = false ∧ other ∈ record.state.waitsOn ∧
        ∃ member, store.tasks other = some member ∧ member.live = true) ∨
      store.OwnedLive (.task id) other)

def Admits (store later : Store J) (id other : ℕ) : Prop :=
  ∃ member, later.tasks other = some member ∧
    (member.live = false ∨ member.owner = some id ∨
      ¬ Relation.ReflTransGen (WaitsFor store) other id)

/-- How a commit may replace the record of a live task; only the task that
commits for itself waits for more than before. -/
structure Moves (own : Option ℕ) (store later : Store J) (old new : TaskRecord J) :
    Prop where
  marks : old.abortRequested = true → new.abortRequested = true
  held : ∀ outcome, old.state = .completing outcome →
    new.state = .completing outcome ∨ new.state = .terminal outcome
  remarks : old.state.isCompleting = true → new.state.isCompleting = true →
    (old.abortRequested = false ∧ new.abortRequested = true) ∨
      (old.abortReason.isSome = true ∧ new.abortReason = none)
  waits : ∀ other ∈ new.state.waitsOn,
    other ∈ old.state.waitsOn ∨ (own = some new.id ∧ Admits store later new.id other)

structure Lawful (own : Option ℕ) (store : Store J) (tx : Transaction J) :
    Prop where
  sound : tx.Sound store
  moves : ∀ id old new, store.tasks id = some old →
    tx.candidate id = some new → Moves own store (tx.applied store) old new
  drained : ∀ id new, tx.candidate id = some new → new.live = false →
    ∀ other, ¬ (tx.applied store).OwnedLive (.task id) other

/-- The cleanups of a commit go with the outcomes that the scheduler wrote;
the outcomes a task commits for itself do their own settlement. -/
structure Cleans (own : Option ℕ) (commit : Commit J) : Prop where
  nodup : commit.settled.Nodup
  quiet : own.isSome = true → commit.settled = []
  ended : ∀ id ∈ commit.settled, ∃ record outcome,
    commit.tx.candidate id = some record ∧
      record.state = .terminal outcome ∧ outcome.isScheduler = true
  cleaned : ∀ id record outcome, commit.tx.candidate id = some record →
    record.state = .terminal outcome → outcome.isScheduler = true →
      own ≠ some id → id ∈ commit.settled

/-! ## The trees before and after a commit -/

section Trees

variable {store : Store J} {tx : Transaction J} {node : Node}

theorem foreground_applied (staged : tx.Sound store) (isForeground : store.Foreground node) :
    (tx.applied store).Foreground node := by
  cases node with
  | conversation id => trivial
  | task id =>
    obtain ⟨record, isRecord, foreground⟩ := isForeground
    obtain ⟨next, isNext, sameNode⟩ := staged.extended.tasks id record isRecord
    exact ⟨next, isNext, by rw [sameNode]; exact foreground⟩

variable {id : ℕ}

theorem ordinary_applied (staged : tx.Sound store) {start : Node}
    (ordinary : store.Ordinary start id) : (tx.applied store).Ordinary start id :=
  ordinary.mono (fun _ _ isAbove => staged.extended.above isAbove)
    fun _ isForeground => foreground_applied staged isForeground

theorem above_of_applied (sound : store.Sound) (staged : tx.Sound store) {up : Node}
    (isAbove : (tx.applied store).Above up node) (isStored : Index.Stored store node) :
    store.Above up node ∧ Index.Stored store up := by
  cases node with
  | task id =>
    obtain ⟨record, isRecord⟩ := Option.isSome_iff_exists.mp isStored
    have isUp : store.above (.task id) = some (parentNode record.toTaskNode) := by
      simp [Store.above, isRecord]
    have same : parentNode record.toTaskNode = up :=
      Option.some.inj ((staged.extended.above isUp).symm.trans isAbove)
    rw [← same]
    exact ⟨isUp, Index.stored_parentNode sound isRecord⟩
  | conversation id =>
    obtain ⟨owner, isOwner⟩ := Option.isSome_iff_exists.mp isStored
    have isLater := staged.extended.conversations id owner isOwner
    simp only [Store.Above, Store.above, isLater, Option.join_some] at isAbove
    obtain ⟨task, rfl, rfl⟩ := Option.map_eq_some_iff.mp isAbove
    exact ⟨by simp [Store.Above, Store.above, isOwner], (sound.ownedConversation id task isOwner).2⟩

theorem foreground_of_applied (staged : tx.Sound store)
    (isForeground : (tx.applied store).Foreground node)
    (isStored : Index.Stored store node) : store.Foreground node := by
  cases node with
  | conversation id => trivial
  | task id =>
    obtain ⟨record, isRecord⟩ := Option.isSome_iff_exists.mp isStored
    obtain ⟨next, isNext, sameNode⟩ := staged.extended.tasks id record isRecord
    obtain ⟨found, isFound, foreground⟩ := isForeground
    rw [isNext] at isFound
    cases isFound
    exact ⟨record, isRecord, by rw [← sameNode]; exact foreground⟩

theorem ordinary_of_applied (sound : store.Sound) (staged : tx.Sound store) {start : Node}
    (ordinary : (tx.applied store).Ordinary start id)
    (isStored : (store.tasks id).isSome = true) : store.Ordinary start id := by
  have general : ∀ node, Forest.Reached (tx.applied store).Above
      (tx.applied store).Foreground start node → Index.Stored store node →
        Forest.Reached store.Above store.Foreground start node := by
    intro node reached
    induction reached with
    | first isChild =>
      exact fun isStored => .first (above_of_applied sound staged isChild isStored).1
    | next _ isForeground isChild ih =>
      intro isStored
      obtain ⟨isAbove, upStored⟩ := above_of_applied sound staged isChild isStored
      exact .next (ih upStored) (foreground_of_applied staged isForeground upStored) isAbove
  exact general (.task id) ordinary isStored

variable {record : TaskRecord J}

theorem staged_cases (staged : tx.Sound store) (isStaged : tx.candidate id = some record) :
    (store.tasks id = none ∧ record.abortRequested = false ∧
        ∃ checkpoint, record.state = .pending checkpoint) ∨
      ∃ committed, store.tasks id = some committed ∧ committed.live = true ∧
        record.toTaskNode = committed.toTaskNode := by
  obtain ⟨write, isWrite, rfl⟩ := Option.map_eq_some_iff.mp isStaged
  have isNamed := Transaction.write_id isWrite
  have member := Transaction.write_mem isWrite
  cases isKind : write.kind with
  | create =>
    rw [← isNamed]
    exact .inl (staged.created write member isKind)
  | replace =>
    rw [← isNamed]
    exact .inr (staged.replaced write member isKind)

theorem record_cases (staged : tx.Sound store) {old new : TaskRecord J}
    (isOld : store.tasks id = some old) (isNew : (tx.applied store).tasks id = some new) :
    (tx.candidate id = none ∧ new = old) ∨ (tx.candidate id = some new ∧ old.live = true) := by
  cases isStaged : tx.candidate id with
  | none =>
    rw [Index.Views.task_of_unstaged isStaged, isOld] at isNew
    cases isNew
    exact .inl ⟨rfl, rfl⟩
  | some record =>
    rw [Index.Views.task_of_candidate isStaged] at isNew
    cases isNew
    rcases staged_cases staged isStaged with ⟨isNone, _⟩ |
        ⟨committed, isCommitted, wasLive, _⟩
    · rw [isOld] at isNone
      cases isNone
    · rw [isOld] at isCommitted
      cases isCommitted
      exact .inr ⟨rfl, wasLive⟩

theorem new_record (staged : tx.Sound store) (isNone : store.tasks id = none)
    (isNew : (tx.applied store).tasks id = some record) :
    record.abortRequested = false ∧ ∃ checkpoint, record.state = .pending checkpoint := by
  cases isStaged : tx.candidate id with
  | none =>
    rw [Index.Views.task_of_unstaged isStaged, isNone] at isNew
    cases isNew
  | some found =>
    rw [Index.Views.task_of_candidate isStaged] at isNew
    cases isNew
    rcases staged_cases staged isStaged with ⟨_, isPending⟩ |
        ⟨committed, isCommitted, _⟩
    · exact isPending
    · rw [isNone] at isCommitted
      cases isCommitted

end Trees

/-! ## Staged records -/

variable {tx next : Transaction J} {value : TaskRecord J}

theorem setTask_candidate (isSet : tx.setTask value = .ok next) :
    next.candidate = Function.update tx.candidate value.id (some value) := by
  have isCurrent := @Transaction.currentTask_setTask J .empty tx next value isSet
  funext id
  have here := congrFun isCurrent id
  simpa [Transaction.currentTask, Store.empty, Function.update_apply] using here

theorem setTask_kept (isSet : tx.setTask value = .ok next) :
    next.conversations = tx.conversations ∧ next.minted = tx.minted ∧
      ((∀ write ∈ tx.tasksById, write.kind = .replace) →
        ∀ write ∈ next.tasksById, write.kind = .replace) ∧
      ∀ record, tx.candidate value.id = some record → record.live = true := by
  unfold Transaction.setTask at isSet
  split at isSet
  case h_1 notStaged =>
    cases isSet
    refine ⟨rfl, rfl, fun replaces write member => ?_, ?_⟩
    · rcases List.mem_append.mp member with old | new
      · exact replaces write old
      · rw [List.mem_singleton.mp new]
    · intro record isStaged
      simp [Transaction.candidate, notStaged] at isStaged
  case h_2 staged isStaged =>
    split_ifs at isSet with isTerminal
    cases isSet
    refine ⟨rfl, rfl, fun replaces write member => ?_, ?_⟩
    · obtain ⟨before, isBefore, rfl⟩ := List.mem_map.mp member
      split_ifs
      · exact replaces before isBefore
      · exact replaces before isBefore
    · intro record isRecord
      simp only [Transaction.candidate, isStaged, Option.map_some] at isRecord
      cases isRecord
      simpa [TaskRecord.live] using isTerminal

theorem ownedLive_mono {store later : Store J} (above : ∀ node, later.above node = store.above node)
    (nodes : ∀ id record, later.tasks id = some record →
      ∃ before, store.tasks id = some before ∧ before.toTaskNode = record.toTaskNode ∧
        (record.live = true → before.live = true))
    {start : Node} {id : ℕ} (owned : later.OwnedLive start id) : store.OwnedLive start id := by
  obtain ⟨reached, record, isRecord, isLive, foreground⟩ := owned
  refine ⟨reached.mono ?_ ?_, ?_⟩
  · intro up node isAbove
    unfold Store.Above at isAbove ⊢
    rw [← above]
    exact isAbove
  · intro node isForeground
    cases node with
    | conversation id => trivial
    | task other =>
      obtain ⟨task, isTask, inForeground⟩ := isForeground
      obtain ⟨before, isBefore, sameNode, _⟩ := nodes other task isTask
      exact ⟨before, isBefore, by rw [sameNode]; exact inForeground⟩
  · obtain ⟨before, isBefore, sameNode, wasLive⟩ := nodes id record isRecord
    exact ⟨before, isBefore, wasLive isLive, by rw [sameNode]; exact foreground⟩

section SetTask

variable {own : Option ℕ} {store : Store J} {tx next : Transaction J}
  {value old : TaskRecord J}

theorem current_of_setTask (staged : tx.Sound store) (isOld : store.tasks value.id = some old)
    (wasLive : old.live = true) (isSet : tx.setTask value = .ok next) :
    ∃ current, (tx.applied store).tasks value.id = some current ∧
      current.toTaskNode = old.toTaskNode ∧ current.live = true := by
  obtain ⟨_, _, _, candidateLive⟩ := setTask_kept isSet
  obtain ⟨current, isBefore, currentNode⟩ := staged.extended.tasks value.id old isOld
  refine ⟨current, isBefore, currentNode, ?_⟩
  cases isStaged : tx.candidate value.id with
  | some record =>
    have same : current = record := Option.some.inj
      (isBefore.symm.trans (Index.Views.task_of_candidate isStaged))
    rw [same]
    exact candidateLive record isStaged
  | none =>
    rw [Index.Views.task_of_unstaged isStaged, isOld] at isBefore
    cases isBefore
    exact wasLive

theorem ownedLive_of_setTask (staged : tx.Sound store) (isOld : store.tasks value.id = some old)
    (wasLive : old.live = true) (sameNode : value.toTaskNode = old.toTaskNode)
    (isSet : tx.setTask value = .ok next) {start : Node} {id : ℕ}
    (owned : (next.applied store).OwnedLive start id) : (tx.applied store).OwnedLive start id := by
  have isCurrent : (next.applied store).tasks =
      Function.update (tx.applied store).tasks value.id (some value) :=
    Transaction.currentTask_setTask isSet
  obtain ⟨sameConversations, _⟩ := setTask_kept isSet
  obtain ⟨current, isBefore, currentNode, currentLive⟩ :=
    current_of_setTask staged isOld wasLive isSet
  refine ownedLive_mono ?_ ?_ owned
  · intro node
    cases node with
    | conversation conversation =>
      simp only [Store.above, Transaction.applied,
        Transaction.currentConversation, sameConversations]
    | task task =>
      simp only [Store.above, isCurrent]
      by_cases same : task = value.id
      · subst same
        rw [update_self, isBefore]
        simp only [Option.map_some, sameNode, currentNode]
      · rw [update_of_ne same]
  · intro task record isRecord
    rw [isCurrent] at isRecord
    by_cases same : task = value.id
    · subst same
      rw [update_self] at isRecord
      cases isRecord
      exact ⟨current, isBefore, currentNode.trans sameNode.symm, fun _ => currentLive⟩
    · rw [update_of_ne same] at isRecord
      exact ⟨record, isRecord, rfl, fun isLive => isLive⟩

/-- A record that is replaced moves on; the members of other waits stay as
they are, or end. -/
theorem admits_of_setTask (staged : tx.Sound store) (isOld : store.tasks value.id = some old)
    (wasLive : old.live = true) (sameNode : value.toTaskNode = old.toTaskNode)
    (isSet : tx.setTask value = .ok next) {id other : ℕ}
    (admits : Admits store (tx.applied store) id other) :
    Admits store (next.applied store) id other := by
  have isCurrent : (next.applied store).tasks =
      Function.update (tx.applied store).tasks value.id (some value) :=
    Transaction.currentTask_setTask isSet
  obtain ⟨member, isMember, admitted⟩ := admits
  by_cases same : other = value.id
  · subst same
    refine ⟨value, by rw [isCurrent, update_self], ?_⟩
    obtain ⟨current, isBefore, currentNode, currentLive⟩ :=
      current_of_setTask staged isOld wasLive isSet
    rw [isMember] at isBefore
    cases isBefore
    have sameOwner : value.owner = member.owner := by rw [sameNode, currentNode]
    rcases admitted with isEnded | isOwned | noWay
    · rw [isEnded] at currentLive
      cases currentLive
    · exact .inr (.inl (sameOwner.trans isOwned))
    · exact .inr (.inr noWay)
  · exact ⟨member, by rw [isCurrent, update_of_ne same, isMember], admitted⟩

theorem Lawful.setTask (lawful : Lawful own store tx) (isOld : store.tasks value.id = some old)
    (wasLive : old.live = true) (sameNode : value.toTaskNode = old.toTaskNode)
    (moves : Moves own store (tx.applied store) old value)
    (drained : value.live = false → ∀ other, ¬ (tx.applied store).OwnedLive (.task value.id) other)
    (isSet : tx.setTask value = .ok next) : Lawful own store next := by
  have isCandidate := setTask_candidate isSet
  have later : ∀ {before after : TaskRecord J},
      Moves own store (tx.applied store) before after →
        Moves own store (next.applied store) before after := by
    intro before after isMove
    exact ⟨isMove.marks, isMove.held, isMove.remarks, fun other member =>
      (isMove.waits other member).imp_right fun ⟨isOwn, admits⟩ =>
        ⟨isOwn, admits_of_setTask lawful.sound isOld wasLive sameNode isSet admits⟩⟩
  refine ⟨lawful.sound.setTask isOld wasLive sameNode isSet, ?_, ?_⟩
  · intro id before after isBefore isAfter
    rw [isCandidate] at isAfter
    by_cases same : id = value.id
    · subst same
      rw [update_self] at isAfter
      cases isAfter
      rw [isOld] at isBefore
      cases isBefore
      exact later moves
    · rw [update_of_ne same] at isAfter
      exact later (lawful.moves id before after isBefore isAfter)
  · intro id after isAfter isEnded other owned
    have was := ownedLive_of_setTask lawful.sound isOld wasLive sameNode isSet owned
    rw [isCandidate] at isAfter
    by_cases same : id = value.id
    · subst same
      rw [update_self] at isAfter
      cases isAfter
      exact drained isEnded other was
    · rw [update_of_ne same] at isAfter
      exact lawful.drained id after isAfter isEnded other was

end SetTask

/-! ## Cleanups -/

namespace Cleans

variable {own : Option ℕ} {commit next : Commit J} {value : TaskRecord J}

theorem start (store : Store J) : Cleans own (Commit.start store) where
  nodup := List.nodup_nil
  quiet := fun _ => rfl
  ended := fun id member => by cases member
  cleaned := fun id record outcome isStaged => by
    simp [Commit.start, Transaction.start, Transaction.candidate, Transaction.write] at isStaged

theorem not_mem_settled (cleans : Cleans own commit) {tx : Transaction J}
    (isSet : commit.tx.setTask value = .ok tx) : value.id ∉ commit.settled := by
  intro member
  obtain ⟨record, outcome, isStaged, isTerminal, _⟩ := cleans.ended value.id member
  have isLive := (setTask_kept isSet).2.2.2 record isStaged
  simp [TaskRecord.live, isTerminal, TaskState.isTerminal] at isLive

theorem setTask (cleans : Cleans own commit)
    (quiet : ∀ outcome, value.state = .terminal outcome →
      outcome.isScheduler = true → own = some value.id)
    (isSet : commit.setTask value = .ok next) : Cleans own next := by
  unfold Commit.setTask at isSet
  obtain ⟨tx, isTx, rfl⟩ := Coding.map_eq_ok.mp isSet
  have isCandidate := setTask_candidate isTx
  refine ⟨cleans.nodup, cleans.quiet, fun id member => ?_, ?_⟩
  · have different : id ≠ value.id := by
      rintro rfl
      exact cleans.not_mem_settled isTx member
    dsimp only
    rw [isCandidate, update_of_ne different]
    exact cleans.ended id member
  · intro id record outcome isStaged isTerminal isScheduler notOwn
    dsimp only at isStaged
    rw [isCandidate] at isStaged
    by_cases same : id = value.id
    · subst same
      rw [update_self] at isStaged
      cases isStaged
      exact absurd (quiet outcome isTerminal isScheduler) notOwn
    · rw [update_of_ne same] at isStaged
      exact cleans.cleaned id record outcome isStaged isTerminal isScheduler notOwn

theorem endTask (cleans : Cleans none commit) {record : TaskRecord J}
    {outcome : TaskOutcome J} (isTerminal : value.state = .terminal outcome)
    (isScheduler : outcome.isScheduler = true) (isNamed : record.id = value.id)
    (isSet : commit.setTask value = .ok next) : Cleans none (next.settleOutcome record) := by
  unfold Commit.setTask at isSet
  obtain ⟨tx, isTx, rfl⟩ := Coding.map_eq_ok.mp isSet
  have isCandidate := setTask_candidate isTx
  have isNew := cleans.not_mem_settled isTx
  refine ⟨?_, by simp, fun id member => ?_, ?_⟩
  · simp only [Commit.settleOutcome, isNamed]
    refine List.nodup_append.mpr
      ⟨cleans.nodup, List.nodup_singleton _, fun other member last isLast => ?_⟩
    rintro rfl
    rw [List.mem_singleton.mp isLast] at member
    exact isNew member
  · simp only [Commit.settleOutcome, isNamed, List.mem_append, List.mem_singleton] at member ⊢
    rw [isCandidate]
    by_cases same : id = value.id
    · subst same
      exact ⟨value, outcome, update_self .., isTerminal, isScheduler⟩
    · rw [update_of_ne same]
      exact cleans.ended id (member.resolve_right same)
  · intro id other otherOutcome isStaged isEnd isOther notOwn
    simp only [Commit.settleOutcome, isNamed, List.mem_append, List.mem_singleton] at isStaged ⊢
    by_cases same : id = value.id
    · exact .inr same
    · rw [isCandidate, update_of_ne same] at isStaged
      exact .inl (cleans.cleaned id other otherOutcome isStaged isEnd isOther notOwn)

end Cleans

end PiEmbodied.Durable.Scheduler
