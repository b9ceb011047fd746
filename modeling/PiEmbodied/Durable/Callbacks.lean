import PiEmbodied.Durable.WaitCycles

/-!
# Every callback decides lawfully

One rule for each way a callback replaces a record, one lemma for each
callback, and from them what any event does to the store.
-/

namespace PiEmbodied.Durable.Scheduler

open Tasks

variable {J : Type}

/-! ## How records move -/

namespace Moves

variable {own : Option ℕ} {store later : Store J} {old : TaskRecord J}

theorem mark {reason : Option AbortReason}
    (isNew : old.abortRequested = false ∨ (old.abortReason.isSome = true ∧ reason = none)) :
    Moves own store later old (old.withAbortMark reason) where
  marks := fun _ => rfl
  held := fun outcome isHeld => .inl (by simpa using isHeld)
  remarks := fun _ _ => isNew.imp (fun notMarked => ⟨notMarked, rfl⟩)
    fun ⟨isRestart, isRequest⟩ => ⟨isRestart, isRequest⟩
  waits := fun _ member => .inl (by simpa using member)

theorem goesOn {state : TaskState J} (holdsNone : old.state.isCompleting = false)
    (noWait : state.waitsOn = []) :
    Moves own store later old (old.withState state) where
  marks := fun isMarked => isMarked
  held := by
    intro outcome isHeld
    rw [isHeld] at holdsNone
    cases holdsNone
  remarks := by
    intro isHolding
    rw [holdsNone] at isHolding
    cases isHolding
  waits := by
    intro other member
    rw [TaskRecord.withState_state, noWait] at member
    cases member

theorem finish {record : TaskRecord J} {outcome : TaskOutcome J}
    (moves : Moves own store later old record) (isHeld : record.state = .completing outcome) :
    Moves own store later old (record.withState (.terminal outcome)) where
  marks := moves.marks
  held := by
    intro before isBefore
    rcases moves.held before isBefore with same | ended
    · rw [isHeld] at same
      cases same
      exact .inr rfl
    · rw [isHeld] at ended
      cases ended
  remarks := fun _ isCompleting => by cases isCompleting
  waits := fun other member => by cases member

theorem refl (holdsNone : old.state.isCompleting = false) : Moves own store later old old where
  marks := fun isMarked => isMarked
  held := fun outcome isHeld => .inl isHeld
  remarks := by
    intro isHolding
    rw [holdsNone] at isHolding
    cases isHolding
  waits := fun _ member => .inl member

end Moves

/-! ## Commits that replace records -/

structure Replaces (store : Store J) (mayEnd : Prop) (commit : Commit J) :
    Prop where
  lawful : Lawful none store commit.tx
  cleans : Cleans none commit
  replaces : ∀ write ∈ commit.tx.tasksById, write.kind = .replace
  ends : ∀ id record, commit.tx.candidate id = some record → record.live = false → mayEnd

namespace Replaces

variable {store : Store J} {mayEnd : Prop} {commit next : Commit J}
  {value old : TaskRecord J}

theorem start (sound : store.Sound) : Replaces store mayEnd (.start store) where
  lawful := by
    refine ⟨Transaction.start_sound sound, ?_, ?_⟩
    · intro id old new _ isStaged
      simp [Commit.start, Transaction.start, Transaction.candidate, Transaction.write] at isStaged
    · intro id new isStaged
      simp [Commit.start, Transaction.start, Transaction.candidate, Transaction.write] at isStaged
  cleans := .start store
  replaces := fun write member => by cases member
  ends := by
    intro id record isStaged
    simp [Commit.start, Transaction.start, Transaction.candidate, Transaction.write] at isStaged

theorem weaken {wider : Prop} (replaces : Replaces store mayEnd commit)
    (widens : mayEnd → wider) : Replaces store wider commit :=
  ⟨replaces.lawful, replaces.cleans, replaces.replaces,
    fun id record isStaged isEnded => widens (replaces.ends id record isStaged isEnded)⟩

theorem setTask (replaces : Replaces store mayEnd commit)
    (isOld : store.tasks value.id = some old) (wasLive : old.live = true)
    (sameNode : value.toTaskNode = old.toTaskNode)
    (moves : Moves none store (commit.tx.applied store) old value)
    (isLive : value.live = true) (isSet : commit.setTask value = .ok next) :
    Replaces store mayEnd next := by
  have cleans : Cleans none next := by
    refine replaces.cleans.setTask ?_ isSet
    intro outcome isTerminal
    simp [TaskRecord.live, isTerminal, TaskState.isTerminal] at isLive
  unfold Commit.setTask at isSet
  obtain ⟨tx, isTx, rfl⟩ := Coding.map_eq_ok.mp isSet
  refine ⟨replaces.lawful.setTask isOld wasLive sameNode moves ?_ isTx, cleans,
    (setTask_kept isTx).2.2.1 replaces.replaces, ?_⟩
  · intro isEnded
    rw [isLive] at isEnded
    cases isEnded
  · intro id record isStaged isEnded
    rw [setTask_candidate isTx] at isStaged
    by_cases same : id = value.id
    · subst same
      rw [Function.update_self] at isStaged
      cases isStaged
      rw [isLive] at isEnded
      cases isEnded
    · rw [Function.update_of_ne same] at isStaged
      exact replaces.ends id record isStaged isEnded

theorem endTask (replaces : Replaces store mayEnd commit)
    (isOld : store.tasks value.id = some old) (wasLive : old.live = true)
    (sameNode : value.toTaskNode = old.toTaskNode)
    (moves : Moves none store (commit.tx.applied store) old value)
    (drained : ∀ other, ¬ (commit.tx.applied store).OwnedLive (.task value.id) other)
    (isAllowed : mayEnd) (isSet : commit.tx.setTask value = .ok next.tx)
    (cleans : Cleans none next) : Replaces store mayEnd next :=
  ⟨replaces.lawful.setTask isOld wasLive sameNode moves (fun _ => drained)
      isSet, cleans, (setTask_kept isSet).2.2.1 replaces.replaces,
    fun _ _ _ _ => isAllowed⟩

section

variable (replaces : Replaces store mayEnd commit)
include replaces

theorem touch :
    Replaces store mayEnd { commit with tx := commit.tx.touch } where
  lawful := by
    refine ⟨replaces.lawful.sound.touch, ?_, ?_⟩
    · intro id old new isOld isStaged
      have moves := replaces.lawful.moves id old new isOld isStaged
      exact ⟨moves.marks, moves.held, moves.remarks, moves.waits⟩
    · intro id new isStaged isEnded other owned
      refine replaces.lawful.drained id new isStaged isEnded other ?_
      exact ownedLive_mono (fun node => by cases node <;> rfl)
        (fun task record isRecord => ⟨record, isRecord, rfl, fun isLive => isLive⟩) owned
  cleans := ⟨replaces.cleans.nodup, replaces.cleans.quiet,
    replaces.cleans.ended, replaces.cleans.cleaned⟩
  replaces := replaces.replaces
  ends := replaces.ends

theorem touches (ids : List ℕ) :
    Replaces store mayEnd { commit with tx := ids.foldl (fun tx _ => tx.touch) commit.tx } := by
  induction ids generalizing commit with
  | nil => exact replaces
  | cons id rest ih => exact ih replaces.touch

theorem chains (index : Index J) :
    index.ChainsOnHand commit.tx := by
  intro write member isCreate
  rw [replaces.replaces write member] at isCreate
  cases isCreate

end

end Replaces

/-! ## Outcomes that wait for owned work -/

namespace TaskScheduler

section Outcomes

variable {scheduler : TaskScheduler J} {store : Store J} {commit : Commit J}

theorem gripped_of_ownedLive (views : scheduler.index.Views store commit.tx)
    (chains : scheduler.index.ChainsOnHand commit.tx) {start : Node} {id : ℕ}
    (owned : (commit.tx.applied store).OwnedLive start id) :
    scheduler.index.Gripped store commit.tx (.task id) := by
  obtain ⟨_, record, isRecord, isLive, _⟩ := owned
  cases isStaged : commit.tx.candidate id with
  | some staged => exact views.gripped_of_candidate chains isStaged
  | none =>
    rw [Index.Views.task_of_unstaged isStaged] at isRecord
    exact views.gripped_of_live (views.live_of_store isRecord isLive)

theorem hasOwnedLive_eq_false (views : scheduler.index.Views store commit.tx)
    (chains : scheduler.index.ChainsOnHand commit.tx) {done : List ℕ} {id : ℕ}
    (drained : ∀ other ∈ done, ∀ below, ¬ (commit.tx.applied store).OwnedLive (.task other) below)
    (isFalse : scheduler.hasOwnedLive commit done id = false) (other : ℕ) :
    ¬ (commit.tx.applied store).OwnedLive (.task id) other := by
  intro owned
  have noneFound : scheduler.index.ownedLive
      { overlay := some commit.tx, enter := fun below => below ∉ done }
      commit.tx.minted (.task id) = [] := by
    simpa [hasOwnedLive] using isFalse
  rcases @Index.Views.ownedLive_or_cut J scheduler.index store commit.tx views
      { overlay := some commit.tx, enter := fun below => below ∉ done } rfl _
      (views.grips chains rfl) (.task id) other owned
      (gripped_of_ownedLive views chains owned) with
    isFound | ⟨cut, isCut, _, _, below⟩
  · rw [noneFound] at isFound
    cases isFound
  · exact drained cut (by simpa using isCut) other below

theorem terminate_replaces {mayEnd : Prop} {record : TaskRecord J} {outcome : TaskOutcome J}
    (serves : scheduler.index.Serves store) (sound : store.Sound)
    (replaces : Replaces store mayEnd commit) (isAllowed : mayEnd)
    (isRecord : store.tasks record.id = some record) (isLive : record.live = true)
    (holdsNone : record.state.isCompleting = false) (isScheduler : outcome.isScheduler = true) :
    scheduler.Loaded (terminate store record outcome scheduler commit).scheduler ∧
      (terminate store record outcome scheduler commit).scheduler.index.Serves store ∧
      (terminate store record outcome scheduler commit).scheduler.index.unloaded = [] ∧
      ∀ next, (terminate store record outcome scheduler commit).staged =
        .ok next → Replaces store mayEnd next := by
  obtain ⟨loaded, isServing, isLoaded⟩ := @loadScopes_loaded J scheduler store
    [] serves sound (by simp)
  have views : (scheduler.loadScopes store []).index.Views store commit.tx :=
    ⟨isServing, sound, replaces.lawful.sound, isLoaded⟩
  dsimp only [terminate]
  split_ifs with isOwning
  · refine ⟨loaded, isServing, isLoaded, fun next isSet => ?_⟩
    exact @Replaces.setTask J store mayEnd commit next
      (record.withState (.completing outcome)) record replaces isRecord isLive
      rfl (.goesOn holdsNone rfl) rfl isSet
  · refine ⟨loaded, isServing, isLoaded, fun next isEnd => ?_⟩
    have drained := hasOwnedLive_eq_false views (replaces.chains _) (by simp)
      (Bool.not_eq_true _ ▸ isOwning)
    obtain ⟨set, isSet, rfl⟩ := Coding.map_eq_ok.mp isEnd
    have cleans := @Cleans.endTask J commit set
      (record.withState (.terminal outcome)) replaces.cleans record outcome rfl
      isScheduler rfl isSet
    obtain ⟨tx, isTx, rfl⟩ := Coding.map_eq_ok.mp isSet
    exact @Replaces.endTask J store mayEnd commit _
      (record.withState (.terminal outcome)) record replaces isRecord isLive
      rfl (.goesOn holdsNone rfl) drained isAllowed isTx cleans

end Outcomes

/-! ## Finalization -/

section Finalize

variable {scheduler : TaskScheduler J} {store : Store J} {mayEnd : Prop}

/-- What the rounds keep: the tasks that are done have no live owned work. -/
structure Drains (store : Store J) (mayEnd : Prop) (round : Round J) :
    Prop where
  replaces : Replaces store mayEnd round.commit
  drained : ∀ id ∈ round.done, ∀ other, ¬ (round.commit.tx.applied store).OwnedLive (.task id) other

variable {commit : Commit J} {id : ℕ}

theorem old_of_record (serves : scheduler.index.Serves store) (sound : store.Sound)
    (replaces : Replaces store mayEnd commit) {record : TaskRecord J}
    (isShown : scheduler.index.record (some commit.tx) id = some record) :
    record.id = id ∧ ∃ old, store.tasks id = some old ∧ old.live = true ∧
      record.toTaskNode = old.toTaskNode ∧
      (record.state.isCompleting = true →
        ∀ outcome, record.state = .completing outcome →
          Moves none store (commit.tx.applied store) old
            (record.withState (.terminal outcome))) := by
  rcases Option.or_eq_some_iff.mp isShown with isStaged | ⟨_, isLive⟩
  · replace isStaged : commit.tx.candidate id = some record := isStaged
    obtain ⟨write, isWrite, rfl⟩ := Option.map_eq_some_iff.mp isStaged
    have isNamed := Transaction.write_id isWrite
    have member := Transaction.write_mem isWrite
    obtain ⟨old, isOld, wasLive, sameNode⟩ :=
      replaces.lawful.sound.replaced write member (replaces.replaces write member)
    rw [isNamed] at isOld
    refine ⟨isNamed, old, isOld, wasLive, sameNode, fun _ outcome isHeld => ?_⟩
    exact (replaces.lawful.moves id old _ isOld isStaged).finish isHeld
  · have isRecord := serves.mirrors id
    rw [isLive] at isRecord
    obtain ⟨isStored, wasLive⟩ := Option.filter_eq_some_iff.mp isRecord.symm
    refine ⟨sound.named id record isStored, record, isStored, wasLive, rfl,
      fun _ outcome isHeld => ?_⟩
    refine ⟨fun isMarked => isMarked, fun before isBefore => ?_, ?_, ?_⟩
    · rw [isHeld] at isBefore
      cases isBefore
      exact .inr rfl
    · intro _ isCompleting
      cases isCompleting
    · intro other member
      cases member

variable {round next : Round J}

section

variable (serves : scheduler.index.Serves store)
include serves

theorem finalizeTask_drains (sound : store.Sound) (isLoaded : scheduler.index.unloaded = [])
    (isAllowed : mayEnd) (drains : Drains store mayEnd round)
    (isNext : scheduler.finalizeTask round id = .ok next) :
    Drains store mayEnd next := by
  have replaces := drains.replaces
  unfold finalizeTask at isNext
  split at isNext
  case h_1 =>
    cases isNext
    exact drains
  case h_2 record isShown =>
    split at isNext
    case h_2 =>
      cases isNext
      exact drains
    case h_1 outcome isHeld =>
      by_cases isDone : id ∈ round.done
      · rw [if_pos isDone] at isNext
        cases isNext
        exact drains
      rw [if_neg isDone] at isNext
      by_cases isOwning : scheduler.hasOwnedLive round.commit round.done id = true
      · rw [if_pos isOwning] at isNext
        cases isNext
        exact drains
      · rw [if_neg isOwning] at isNext
        obtain ⟨isNamed, old, isOld, wasLive, sameNode, moves⟩ :=
          old_of_record serves sound replaces isShown
        have ended := hasOwnedLive_eq_false ⟨serves, sound, replaces.lawful.sound, isLoaded⟩
          (replaces.chains _) drains.drained (by simpa using isOwning)
        obtain ⟨set, isSet, rfl⟩ := Coding.map_eq_ok.mp isNext
        have isTx := isSet
        obtain ⟨tx, isTx, isSame⟩ := Coding.map_eq_ok.mp isTx
        have sameTx : set.tx = tx := by rw [← isSame]
        rw [← sameTx] at isTx
        rw [← isNamed] at isOld
        have isMove := moves (by rw [isHeld]; rfl) outcome isHeld
        have isDrained : ∀ other ∈ round.done ++ [id], ∀ below,
            ¬ (set.tx.applied store).OwnedLive (.task other) below := by
          intro other member below owned
          have was := @ownedLive_of_setTask J store round.commit.tx set.tx
            (record.withState (.terminal outcome)) old replaces.lawful.sound
            isOld wasLive sameNode isTx _ _ owned
          rcases List.mem_append.mp member with old | new
          · exact drains.drained other old below was
          · rw [List.mem_singleton.mp new] at was
            exact ended below was
        have finished : ∀ commit : Commit J, commit.tx = set.tx →
            Cleans none commit → Replaces store mayEnd commit := by
          intro commit same cleans
          refine @Replaces.endTask J store mayEnd round.commit commit
            (record.withState (.terminal outcome)) old replaces isOld wasLive
            sameNode isMove ?_ isAllowed (by rw [same]; exact isTx) cleans
          rw [TaskRecord.withState_id, isNamed]
          exact ended
        refine ⟨?_, ?_⟩
        · dsimp only
          split_ifs with isScheduler
          · exact finished _ rfl (@Cleans.endTask J round.commit set
              (record.withState (.terminal outcome)) replaces.cleans record
              outcome rfl isScheduler rfl isSet)
          · refine finished _ rfl (replaces.cleans.setTask ?_ isSet)
            intro other isTerminal isOther
            cases isTerminal
            exact absurd isOther isScheduler
        · dsimp only
          intro other member below
          split_ifs
          · exact isDrained other member below
          · exact isDrained other member below

theorem finalizeTasks_drain (sound : store.Sound) (isLoaded : scheduler.index.unloaded = [])
    (isAllowed : mayEnd) {ids : List ℕ} (drains : Drains store mayEnd round)
    (isNext : ids.foldlM scheduler.finalizeTask round = .ok next) : Drains store mayEnd next :=
  Coding.foldlM_keeps
    (fun _ _ _ _ drains => finalizeTask_drains serves sound isLoaded isAllowed drains) drains isNext

theorem finalizeRounds_replaces (sound : store.Sound) (isLoaded : scheduler.index.unloaded = [])
    (isAllowed : mayEnd) {rounds : ℕ} {round done : List ℕ} {next : Commit J}
    (replaces : Replaces store mayEnd commit)
    (drained : ∀ id ∈ done, ∀ other, ¬ (commit.tx.applied store).OwnedLive (.task id) other)
    (isNext : scheduler.finalizeRounds rounds round done commit = .ok next) :
    Replaces store mayEnd next := by
  induction rounds generalizing round done commit with
  | zero =>
    cases isNext
    exact replaces
  | succ rounds ih =>
    unfold finalizeRounds at isNext
    split_ifs at isNext
    · cases isNext
      exact replaces
    · obtain ⟨result, isResult, isNext⟩ := Coding.bind_eq_ok.mp isNext
      have drains := finalizeTasks_drain serves sound isLoaded isAllowed
        ⟨replaces, drained⟩ isResult
      exact ih drains.replaces drains.drained isNext

end

end Finalize

/-! ## Marks -/

section Marks

variable {scheduler : TaskScheduler J} {store : Store J} {mayEnd : Prop}

/-- A record that a new mark, or one that replaces `restart`, may go to. -/
def Markable (index : Index J) (record : TaskRecord J) (reason : Option AbortReason) :
    Prop :=
  index.live record.id = some record ∧
    (record.abortRequested = false ∨ (record.abortReason.isSome = true ∧ reason = none))

variable {record : TaskRecord J} {commit next : Commit J} {reason : Option AbortReason}

theorem markTask_replaces (serves : scheduler.index.Serves store)
    (replaces : Replaces store mayEnd commit) (markable : Markable scheduler.index record reason)
    (isSet : commit.setTask (record.withAbortMark reason) = .ok next) :
    Replaces store mayEnd next := by
  obtain ⟨isLive, isNew⟩ := markable
  have isRecord := serves.mirrors record.id
  rw [isLive] at isRecord
  obtain ⟨isStored, wasLive⟩ := Option.filter_eq_some_iff.mp isRecord.symm
  exact @Replaces.setTask J store mayEnd commit next
    (record.withAbortMark reason) record replaces isStored wasLive rfl
    (.mark isNew) wasLive isSet

variable {marks : List (TaskRecord J × Option AbortReason)}

theorem markTasks_replaces (serves : scheduler.index.Serves store)
    (markable : ∀ mark ∈ marks, Markable scheduler.index mark.1 mark.2)
    (replaces : Replaces store mayEnd commit)
    (isNext : marks.foldlM (fun commit mark => commit.setTask (mark.1.withAbortMark mark.2))
      commit = .ok next) : Replaces store mayEnd next :=
  Coding.foldlM_keeps
    (fun mark member _ _ replaces => markTask_replaces serves replaces (markable mark member))
    replaces isNext

def Marks (index : Index J) (marks : List (TaskRecord J × Option AbortReason)) :
    Prop :=
  ∀ mark ∈ marks, Markable index mark.1 mark.2

variable {index : Index J}

theorem addMark_marks {index : Index J} {marks : List (TaskRecord J × Option AbortReason)}
    {record : TaskRecord J} {reason : Option AbortReason}
    (isMarks : Marks index marks) (isLive : index.live record.id = some record) :
    Marks index (addMark marks record reason) := by
  unfold addMark
  split_ifs with _ isMarked
  · exact isMarks
  · exact isMarks
  · intro mark member
    rcases List.mem_append.mp member with old | new
    · exact isMarks mark (List.mem_filter.mp old).1
    · rw [List.mem_singleton.mp new]
      refine ⟨isLive, ?_⟩
      cases isRequested : record.abortRequested with
      | false => exact .inl rfl
      | true =>
        refine .inr ?_
        simp only [isRequested, Bool.true_and, Bool.or_eq_true, not_or,
          Option.isNone_iff_eq_none, Bool.not_eq_true,
          Option.isSome_eq_false_iff] at isMarked
        exact ⟨Option.isSome_iff_ne_none.mpr isMarked.1, isMarked.2⟩

theorem live_of_walkDown {options : Index.WalkOptions J} (noOverlay : options.overlay = none)
    {depth : ℕ} {start : Node} {reach : Index.Reach J}
    (member : reach ∈ index.walkDown options depth start) (isLive : reach.live = some record) :
    index.live reach.id = some record := by
  obtain ⟨node, _, isReach⟩ := List.mem_filterMap.mp member
  cases node with
  | conversation id => cases isReach
  | task id =>
    obtain ⟨fields, _, rfl⟩ := Option.map_eq_some_iff.mp isReach
    obtain ⟨isShown, _⟩ := Option.filter_eq_some_iff.mp isLive
    simpa [Index.record, noOverlay] using isShown

variable {id : ℕ}

section

variable (serves : scheduler.index.Serves store)
include serves

theorem live_named (sound : store.Sound) (isLive : scheduler.index.live id = some record) :
    record.id = id ∧ store.tasks id = some record ∧ record.live = true := by
  have isRecord := serves.mirrors id
  rw [isLive] at isRecord
  obtain ⟨isStored, wasLive⟩ := Option.filter_eq_some_iff.mp isRecord.symm
  exact ⟨sound.named id record isStored, isStored, wasLive⟩

theorem cascadeMarks_marks (sound : store.Sound) (isMarks : Marks scheduler.index marks) :
    Marks scheduler.index (scheduler.cascadeMarks store marks id) := by
  unfold cascadeMarks
  split
  case h_1 => exact isMarks
  case h_2 owner _ =>
    dsimp only
    refine List.foldlRecOn _ _ isMarks fun marks isMarks reach member => ?_
    split
    case h_1 => exact isMarks
    case h_2 record isReached =>
      by_cases isBackground : reach.node.background = true
      · rw [if_pos isBackground]
        exact isMarks
      · rw [if_neg isBackground]
        have isLive := live_of_walkDown rfl member isReached
        refine addMark_marks isMarks ?_
        rw [(live_named serves sound isLive).1, isLive]

theorem failFastMarks_marks (sound : store.Sound) (isMarks : Marks scheduler.index marks) :
    Marks scheduler.index (scheduler.failFastMarks store marks id) := by
  unfold failFastMarks
  split
  case h_1 => exact isMarks
  case h_2 waiter _ =>
    split_ifs
    · refine List.foldlRecOn _ _ isMarks fun marks isMarks member _ => ?_
      split
      case h_1 => exact isMarks
      case h_2 record isFound =>
        obtain ⟨isLive, _⟩ := Option.filter_eq_some_iff.mp isFound
        refine addMark_marks isMarks ?_
        rw [(live_named serves sound isLive).1, isLive]
    · exact isMarks

end

end Marks

/-! ## The callbacks -/

/-- What a callback leaves: indexes that serve the store, and a lawful
commit, with no task unloaded where it ends one. -/
structure Decides (own : Option ℕ) (store : Store J) (body : Body J) :
    Prop where
  serves : body.scheduler.index.Serves store
  lawful : ∀ commit, body.staged = .ok commit → Lawful own store commit.tx
  cleans : ∀ commit, body.staged = .ok commit → Cleans own commit
  ends : ∀ commit, body.staged = .ok commit →
    ∀ id record, commit.tx.candidate id = some record →
      record.live = false → body.scheduler.index.unloaded = []

theorem decides_of_replaces {store : Store J} {body : Body J}
    (serves : body.scheduler.index.Serves store)
    (replaces : ∀ commit, body.staged = .ok commit →
      Replaces store (body.scheduler.index.unloaded = []) commit) :
    Decides none store body where
  serves := serves
  lawful := fun commit isStaged => (replaces commit isStaged).lawful
  cleans := fun commit isStaged => (replaces commit isStaged).cleans
  ends := fun commit isStaged => (replaces commit isStaged).ends

section Callbacks

variable {scheduler : TaskScheduler J} {store : Store J}

theorem reconcile_decides (serves : scheduler.index.Serves store) (sound : store.Sound)
    {cascade : Bool} {checks queued : List ℕ}
    (areThere : ∀ id ∈ queued, (store.conversations id).isSome = true) :
    Decides none store (reconcile store cascade checks queued scheduler (.start store)) := by
  unfold reconcile
  by_cases isClosing : scheduler.closing = true
  · rw [if_pos isClosing]
    refine decides_of_replaces serves fun commit isStaged => ?_
    cases isStaged
    exact .start sound
  · rw [if_neg isClosing]
    dsimp only
    set inputs := if cascade then queued else [] with isInputs
    have inputsThere : ∀ id ∈ inputs, (store.conversations id).isSome = true := by
      intro id member
      rw [isInputs] at member
      split_ifs at member
      · exact areThere id member
      · cases member
    obtain ⟨_, isServing, isLoaded⟩ := loadScopes_loaded serves sound inputsThere
    set loaded := scheduler.loadScopes store inputs with isLoadedScopes
    have isMarks : Marks loaded.index
        (checks.foldl (loaded.failFastMarks store)
          (loaded.intent.foldl (loaded.cascadeMarks store) [])) := by
      refine List.foldlRecOn _ _ ?_ fun marks isMarks id _ =>
        failFastMarks_marks isServing sound isMarks
      refine List.foldlRecOn _ _ ?_ fun marks isMarks id _ =>
        cascadeMarks_marks isServing sound isMarks
      intro mark member
      cases member
    split
    case h_1 => exact ⟨isServing, by simp, by simp, by simp⟩
    case h_2 marked isMarked =>
      have replaces : Replaces store (loaded.index.unloaded = []) marked :=
        markTasks_replaces isServing isMarks (.start sound) isMarked
      refine decides_of_replaces isServing fun commit isStaged => ?_
      exact finalizeRounds_replaces isServing sound isLoaded isLoaded
        (replaces.touches _) (by simp) isStaged

variable {commit : Commit J}

theorem markAbandoned_replaces (serves : scheduler.index.Serves store) (sound : store.Sound)
    {mayEnd : Prop} (isMarked : scheduler.markAbandoned (.start store) = .ok commit) :
    Replaces store mayEnd commit := by
  refine Coding.foldlM_keeps (fun id _ start middle replaces isMiddle => ?_) (.start sound) isMarked
  split at isMiddle
  case h_1 =>
    cases isMiddle
    exact replaces
  case h_2 record isFound =>
    obtain ⟨isLive, notMarked⟩ := Option.filter_eq_some_iff.mp isFound
    refine markTask_replaces serves replaces ⟨?_, .inl ?_⟩ isMiddle
    · rw [(live_named serves sound isLive).1, isLive]
    · simpa using notMarked

structure Reserves (store : Store J) (body : Body J) : Prop where
  serves : body.scheduler.index.Serves store
  loaded : body.scheduler.index.unloaded = []
  replaces : ∀ commit, body.staged = .ok commit → Replaces store True commit

variable {id : ℕ}

theorem reserveTask_reserves {resolve : TaskRecord J → Resolution J}
    (serves : scheduler.index.Serves store) (sound : store.Sound)
    (isLoaded : scheduler.index.unloaded = []) (replaces : Replaces store True commit) :
    Reserves store (reserveTask store resolve id scheduler commit) := by
  have unchanged : ∀ later : TaskScheduler J, later.index = scheduler.index →
      Reserves store ⟨later, .ok commit⟩ := by
    intro later same
    refine ⟨by rw [same]; exact serves, by rw [same]; exact isLoaded, ?_⟩
    intro next isNext
    cases isNext
    exact replaces
  unfold reserveTask
  split
  case h_1 => exact unchanged _ rfl
  case h_2 record isFound =>
    obtain ⟨isLive, isFree⟩ := Option.filter_eq_some_iff.mp isFound
    obtain ⟨isNamed, isStored, wasLive⟩ := live_named serves sound isLive
    have holdsNone : record.state.isCompleting = false := by
      simp only [Bool.and_eq_true, Bool.not_eq_true'] at isFree
      exact isFree.1
    rw [← isNamed] at isStored
    dsimp only
    by_cases isWaiting : (!(scheduler.waitingOn store record).isEmpty) = true
    · rw [if_pos isWaiting]
      exact unchanged _ rfl
    rw [if_neg isWaiting]
    by_cases isBelow : (if record.abortRequested = true then Mode.abort
          else Mode.run) = Mode.run ∧ record.background = false ∧
        scheduler.belowCancelled (parentNode record.toTaskNode) = true
    · rw [if_pos isBelow]
      exact unchanged _ (scheduleReconcile_index _)
    rw [if_neg isBelow]
    split
    case h_1 reason _ =>
      by_cases isRequest : (if record.abortRequested = true then Mode.abort
          else Mode.run) = Mode.abort ∧ record.abortReason = none
      · rw [if_pos isRequest]
        obtain ⟨_, isServing, isLoaded, isReplacing⟩ :=
          @terminate_replaces J scheduler store commit True record
            (.orphaned reason) serves sound replaces trivial isStored wasLive
            holdsNone rfl
        exact ⟨isServing, isLoaded, isReplacing⟩
      · rw [if_neg isRequest]
        exact unchanged _ rfl
    case h_2 migrated _ =>
      refine ⟨serves, isLoaded, fun next isNext => ?_⟩
      dsimp only at isNext
      split at isNext
      case h_1 =>
        cases isNext
        exact replaces
      case h_2 found _ =>
        by_cases isRunning : (migrated.isNone && record.state.isRunning) = true
        · rw [if_pos isRunning] at isNext
          cases isNext
          exact replaces
        · rw [if_neg isRunning] at isNext
          exact @Replaces.setTask J store True commit next
            (record.withState (.running found)) record replaces isStored
            wasLive rfl (.goesOn holdsNone rfl) rfl isNext

theorem reserve_decides (serves : scheduler.index.Serves store) (sound : store.Sound)
    {resolve : TaskRecord J → Resolution J} :
    Decides none store (reserve store resolve scheduler (.start store)) := by
  unfold reserve
  split_ifs with isPaused isAbandoned
  · refine decides_of_replaces serves fun commit isStaged => ?_
    cases isStaged
    exact .start sound
  · exact decides_of_replaces serves fun commit isStaged =>
      markAbandoned_replaces serves sound isStaged
  · obtain ⟨_, isServing, isLoaded⟩ := @loadScopes_loaded J scheduler store []
      serves sound (by simp)
    dsimp only
    have reserves : Reserves store
        ((scheduler.loadScopes store []).runnable.foldl
          (fun body id => body.andThen (reserveTask store resolve id))
          ⟨scheduler.loadScopes store [], .ok (.start store)⟩) := by
      refine List.foldlRecOn _ _ ?_ fun body reserves id _ => ?_
      · refine ⟨isServing, isLoaded, fun commit isStaged => ?_⟩
        cases isStaged
        exact .start sound
      · unfold Body.andThen
        split
        case h_1 => exact reserves
        case h_2 commit isStaged =>
          exact reserveTask_reserves reserves.serves sound reserves.loaded
            (reserves.replaces commit isStaged)
    exact decides_of_replaces reserves.serves fun commit isStaged =>
      (reserves.replaces commit isStaged).weaken fun _ => reserves.loaded

theorem abort_decides (serves : scheduler.index.Serves store) (sound : store.Sound)
    {keepRestart : Bool} {blocked : Option String} :
    Decides none store (abort store id keepRestart blocked scheduler (.start store)) := by
  have nothing : Decides none store ⟨scheduler, .ok (.start store)⟩ :=
    decides_of_replaces serves fun commit isStaged => by
      cases isStaged
      exact .start sound
  unfold abort
  split
  case h_1 => exact ⟨serves, by simp, by simp, by simp⟩
  case h_2 current isRecord =>
    have isNamed := sound.named id current isRecord
    by_cases isTerminal : current.state.isTerminal = true
    · rw [if_pos isTerminal]
      exact nothing
    rw [if_neg isTerminal]
    have isLive : current.live = true := by simpa [TaskRecord.live] using isTerminal
    by_cases isKept : keepRestart = true ∧ current.abortReason = some .restart
    · rw [if_pos isKept]
      exact nothing
    rw [if_neg isKept]
    dsimp only
    set idle := (scheduler.invocations id).isNone && !current.state.isCompleting
      with isIdle
    obtain ⟨loaded, isLoading, isServing, isLoaded⟩ :
        ∃ loaded : TaskScheduler J, loaded =
            (if idle then scheduler.loadScopes store [] else scheduler) ∧
          loaded.index.Serves store ∧
          (idle = true → loaded.index.unloaded = []) := by
      obtain ⟨_, isServing, isLoaded⟩ := @loadScopes_loaded J scheduler store
        [] serves sound (by simp)
      refine ⟨_, rfl, ?_, ?_⟩
      · split_ifs
        · exact isServing
        · exact serves
      · intro isTrue
        rw [if_pos isTrue]
        exact isLoaded
    rw [← isLoading]
    split
    case h_1 reason isBlocked =>
      have isFree : idle = true := by
        by_contra notIdle
        simp [notIdle] at isBlocked
      have holdsNone : current.state.isCompleting = false := by
        rw [isIdle] at isFree
        simp only [Bool.and_eq_true, Bool.not_eq_true'] at isFree
        exact isFree.2
      rw [← isNamed] at isRecord
      obtain ⟨_, isDone, nowLoaded, isReplacing⟩ :=
        @terminate_replaces J loaded store (.start store) True current
          (.orphaned reason) isServing sound (.start sound) trivial isRecord
          isLive holdsNone rfl
      exact decides_of_replaces isDone fun commit isStaged =>
        (isReplacing commit isStaged).weaken fun _ => nowLoaded
    case h_2 =>
      refine decides_of_replaces isServing fun commit isStaged => ?_
      dsimp only at isStaged
      split_ifs at isStaged with isNew
      · refine markTask_replaces isServing (.start sound) ⟨?_, ?_⟩ isStaged
        · rw [isNamed]
          have mirrored := isServing.mirrors id
          rw [isRecord] at mirrored
          rw [mirrored, Option.filter_some, if_pos isLive]
        · simp only [Bool.or_eq_true, Bool.not_eq_true'] at isNew
          exact isNew.imp_right fun isRestart => ⟨isRestart, rfl⟩
      · cases isStaged
        exact .start sound

theorem abortConversation_decides (serves : scheduler.index.Serves store) (sound : store.Sound)
    {background : Bool} {queued : List ℕ}
    (areThere : ∀ id ∈ queued, (store.conversations id).isSome = true) :
    Decides none store (abortConversation store id background queued scheduler (.start store)) := by
  obtain ⟨_, isServing, _⟩ := loadScopes_loaded serves sound areThere
  refine decides_of_replaces isServing fun commit isStaged => ?_
  obtain ⟨marked, isMarked, rfl⟩ := Coding.map_eq_ok.mp isStaged
  refine Replaces.touches ?_ _
  refine Coding.foldlM_keeps (fun reach isReach start middle replaces isMiddle => ?_)
    (.start sound) isMarked
  split at isMiddle
  case h_1 =>
    cases isMiddle
    exact replaces
  case h_2 record isReached =>
    split_ifs at isMiddle with _ isNew
    · cases isMiddle
      exact replaces
    · have isLive := live_of_walkDown rfl isReach isReached
      refine markTask_replaces isServing replaces ⟨?_, ?_⟩ isMiddle
      · rw [(live_named isServing sound isLive).1, isLive]
      · simp only [Bool.or_eq_true, Bool.not_eq_true'] at isNew
        exact isNew.imp_right fun isRestart => ⟨isRestart, rfl⟩
    · cases isMiddle
      exact replaces

theorem endInvocation_index (scheduler : TaskScheduler J) (id : ℕ) :
    (scheduler.endInvocation id).index = scheduler.index := by
  unfold endInvocation
  split_ifs <;> rfl

theorem decide_index (scheduler : TaskScheduler J) (current : TaskRecord J) (mode : Mode)
    (decision : Decision) : (scheduler.decide current mode decision).1.index = scheduler.index := by
  unfold decide
  split
  · rfl
  · split_ifs
    · rfl
    · exact scheduleReconcile_index _
    · rfl

theorem stepInvocation_decides
    (serves : scheduler.index.Serves store) (sound : store.Sound) {id : ℕ}
    {mode : Mode} {decision : Decision} :
    Decides none store (stepInvocation store id mode decision scheduler (.start store)) := by
  have nothing : ∀ later : TaskScheduler J, later.index = scheduler.index →
      Decides none store ⟨later, .ok (.start store)⟩ := by
    intro later same
    refine decides_of_replaces (by rw [same]; exact serves) ?_
    intro commit isStaged
    cases isStaged
    exact .start sound
  unfold stepInvocation
  split
  case h_1 => exact nothing _ (endInvocation_index scheduler id)
  case h_2 current isFound =>
    obtain ⟨isLive, isRunning⟩ := Option.filter_eq_some_iff.mp isFound
    obtain ⟨isNamed, isStored, wasLive⟩ := live_named serves sound isLive
    rw [← isNamed] at isStored
    have holdsNone : current.state.isCompleting = false := by
      cases isState : current.state <;> simp [isState, TaskState.isRunning,
        TaskState.isCompleting] at isRunning ⊢
    have sameIndex := decide_index scheduler current mode decision
    have endIndex : ((scheduler.decide current mode
        decision).1.endInvocation id).index = scheduler.index :=
      (endInvocation_index _ _).trans sameIndex
    dsimp only
    split
    case h_1 => exact nothing _ sameIndex
    case h_2 => exact nothing _ endIndex
    case h_3 =>
      refine decides_of_replaces (by rw [endIndex]; exact serves) ?_
      intro commit isStaged
      dsimp only at isStaged
      split at isStaged
      case h_1 checkpoint _ =>
        exact @Replaces.setTask J store _ (.start store) commit
          (current.withState (.pending checkpoint)) current (.start sound)
          isStored wasLive rfl (.goesOn holdsNone rfl) rfl isStaged
      case h_2 =>
        cases isStaged
        exact .start sound
    case h_4 message _ =>
      obtain ⟨_, isServing, isLoaded, isReplacing⟩ :=
        @terminate_replaces J ((scheduler.decide current mode
          decision).1.endInvocation id) store (.start store) True current
          (.faulted ⟨message, none⟩) (by rw [endIndex]; exact serves) sound
          (.start sound) trivial isStored wasLive holdsNone rfl
      exact decides_of_replaces isServing fun commit isStaged =>
        (isReplacing commit isStaged).weaken fun _ => isLoaded

theorem restart_decides (serves : scheduler.index.Serves store) (sound : store.Sound) :
    Decides none store ⟨scheduler, restart store (.start store)⟩ := by
  refine decides_of_replaces serves fun commit isStaged =>
    Coding.foldlM_keeps (fun record isLive start middle replaces isMiddle => ?_)
      (.start sound) isStaged
  obtain ⟨isStored, wasLive⟩ := (Index.mem_liveRecords sound).mp isLive
  split at isMiddle
  case h_1 checkpoint isRunning =>
    exact @Replaces.setTask J store _ start middle
      (record.withState (.pending checkpoint)) record replaces isStored
      wasLive rfl (.goesOn (by rw [isRunning]; rfl) rfl) rfl isMiddle
  case h_2 =>
    cases isMiddle
    exact replaces

/-! ### Commits that create work -/

structure Creates (store : Store J) (commit : Commit J) : Prop where
  sound : commit.tx.Sound store
  creates : ∀ write ∈ commit.tx.tasksById, write.kind = .create
  settled : commit.settled = []

variable {creations : List (Creation J)} {scope : Option ℕ}

theorem stageCreations_creates (sound : store.Sound)
    (isStaged : stageCreations store scope creations (.start store) =
      .ok commit) : Creates store commit := by
  obtain ⟨tx, isTx, rfl⟩ := Coding.map_eq_ok.mp isStaged
  refine ⟨Transaction.stage_sound (Transaction.start_sound sound) isTx, ?_, rfl⟩
  have fold : ∀ (creations : List (Creation J)) (start last : Transaction J),
      (∀ write ∈ start.tasksById, write.kind = .create) →
      start.stage store (creations.map (Creation.operation scope)) =
        .ok last → ∀ write ∈ last.tasksById, write.kind = .create := by
    intro creations
    induction creations with
    | nil =>
      intro start last creates isNext
      cases isNext
      exact creates
    | cons creation rest ih =>
      intro start last creates isNext
      rw [Transaction.stage, List.map_cons, List.foldlM_cons] at isNext
      obtain ⟨middle, isMiddle, isNext⟩ := Coding.bind_eq_ok.mp isNext
      refine ih middle last ?_ isNext
      cases creation with
      | createTask options checkpoint =>
        obtain ⟨owner, _, isCreated⟩ := Coding.bind_eq_ok.mp isMiddle
        split at isCreated
        case h_1 => cases isCreated
        case h_2 =>
          split_ifs at isCreated
          cases isCreated
          intro write member
          rcases List.mem_append.mp member with old | new
          · exact creates write old
          · rw [List.mem_singleton.mp new]
      | createConversation owner =>
        cases owner with
        | none =>
          cases isMiddle
          exact creates
        | some taskId =>
          dsimp only [Creation.operation, Transaction.operate,
            Transaction.createConversation] at isMiddle
          split_ifs at isMiddle
          cases isMiddle
          exact creates
      | createRootConversation =>
        cases isMiddle
        dsimp only [Transaction.createRootConversation]
        split_ifs
        · exact creates
        · exact creates
      | queueInput conversation | touch =>
        cases isMiddle
        exact creates
  exact fold creations _ tx (by simp [Commit.start, Transaction.start]) isTx

namespace Creates

variable {commit next : Commit J}

theorem candidate (creates : Creates store commit) {id : ℕ} {record : TaskRecord J}
    (isStaged : commit.tx.candidate id = some record) :
    store.tasks id = none ∧ ∃ checkpoint, record.state = .pending checkpoint := by
  obtain ⟨write, isWrite, rfl⟩ := Option.map_eq_some_iff.mp isStaged
  have member := Transaction.write_mem isWrite
  obtain ⟨isNone, _, isPending⟩ := creates.sound.created write member (creates.creates write member)
  rw [Transaction.write_id isWrite] at isNone
  exact ⟨isNone, isPending⟩

theorem lawful (creates : Creates store commit) (own : Option ℕ) : Lawful own store commit.tx where
  sound := creates.sound
  moves := by
    intro id old new isOld isStaged
    rw [(creates.candidate isStaged).1] at isOld
    cases isOld
  drained := by
    intro id new isStaged isEnded
    obtain ⟨_, checkpoint, isPending⟩ := creates.candidate isStaged
    simp [TaskRecord.live, isPending, TaskState.isTerminal] at isEnded

theorem cleans (creates : Creates store commit) (own : Option ℕ) : Cleans own commit where
  nodup := by
    rw [creates.settled]
    exact List.nodup_nil
  quiet := fun _ => creates.settled
  ended := by
    rw [creates.settled]
    simp
  cleaned := by
    intro id record outcome isStaged isTerminal
    obtain ⟨_, checkpoint, isPending⟩ := creates.candidate isStaged
    rw [isPending] at isTerminal
    cases isTerminal

theorem decides (creates : Creates store commit) (own : Option ℕ)
    (serves : scheduler.index.Serves store) :
    Decides own store ⟨scheduler, .ok commit⟩ where
  serves := serves
  lawful := by
    rintro _ ⟨⟩
    exact creates.lawful own
  cleans := by
    rintro _ ⟨⟩
    exact creates.cleans own
  ends := by
    rintro _ ⟨⟩ id record isStaged isEnded
    obtain ⟨_, checkpoint, isPending⟩ := creates.candidate isStaged
    simp [TaskRecord.live, isPending, TaskState.isTerminal] at isEnded

theorem setTask_decides {later : TaskScheduler J} (creates : Creates store commit)
    (serves : later.index.Serves store) {current : TaskRecord J}
    {state : TaskState J} (isStored : store.tasks current.id = some current)
    (wasLive : current.live = true) (holdsNone : current.state.isCompleting = false)
    (waits : ∀ other ∈ state.waitsOn, Admits store (commit.tx.applied store) current.id other)
    (drained : state.isTerminal = true → later.index.unloaded = [] ∧
      ∀ other, ¬ (commit.tx.applied store).OwnedLive (.task current.id) other) :
    Decides (some current.id) store ⟨later, commit.setTask (current.withState state)⟩ where
  serves := serves
  lawful := by
    intro next isSet
    obtain ⟨tx, isTx, rfl⟩ := Coding.map_eq_ok.mp isSet
    refine @Lawful.setTask J (some current.id) store commit.tx tx
      (current.withState state) current (creates.lawful _) isStored wasLive rfl ⟨fun isMarked => isMarked,
        ?_, ?_, fun other member => .inr ⟨rfl, waits other member⟩⟩ ?_ isTx
    · intro outcome isHeld
      rw [isHeld] at holdsNone
      cases holdsNone
    · intro isHolding
      rw [holdsNone] at isHolding
      cases isHolding
    · intro isEnded
      exact (drained (by simpa [TaskRecord.live] using isEnded)).2
  cleans := fun next isSet =>
    @Cleans.setTask J (some current.id) commit next (current.withState state)
      (creates.cleans (some current.id)) (fun _ _ _ => rfl) isSet
  ends := by
    intro next isSet id record isStaged isEnded
    obtain ⟨tx, isTx, rfl⟩ := Coding.map_eq_ok.mp isSet
    replace isStaged : tx.candidate id = some record := isStaged
    rw [setTask_candidate isTx, show (current.withState state).id = current.id from rfl] at isStaged
    by_cases same : id = current.id
    · subst same
      rw [Function.update_self] at isStaged
      cases isStaged
      exact (drained (by simpa [TaskRecord.live] using isEnded)).1
    · rw [Function.update_of_ne same] at isStaged
      obtain ⟨_, checkpoint, isPending⟩ := creates.candidate isStaged
      simp [TaskRecord.live, isPending, TaskState.isTerminal] at isEnded

end Creates

theorem hasNode_of_staged {tx : Transaction J} (staged : tx.Sound store) {write : Write J}
    (member : write ∈ tx.tasksById) :
    State.hasNode store (some tx) (parentNode write.record.toTaskNode) =
      true := by
  have isStored := Index.stored_parentNode staged.forest (applied_task_of_mem staged member)
  cases isParent : parentNode write.record.toTaskNode with
  | task owner =>
    rw [isParent] at isStored
    replace isStored : (tx.currentTask store owner).isSome = true := isStored
    simpa [State.hasNode, Transaction.currentTask] using isStored
  | conversation conversation =>
    rw [isParent] at isStored
    replace isStored : (tx.currentConversation store conversation).isSome =
      true := isStored
    simpa [State.hasNode, Transaction.currentConversation] using isStored

variable {mode : Mode}

section

variable (serves : scheduler.index.Serves store)
include serves

theorem commitState_decides (sound : store.Sound) (named : NamesStored store)
    (creates : Creates store commit) {current : TaskRecord J}
    (isStored : store.tasks current.id = some current) (isRunning : current.state.isRunning = true)
    (next : NextTaskState J) :
    Decides (some current.id) store (commitState store mode current next scheduler commit) := by
  have wasLive : current.live = true := by
    cases isState : current.state <;> simp [isState, TaskRecord.live,
      TaskState.isRunning, TaskState.isTerminal] at isRunning ⊢
  have holdsNone : current.state.isCompleting = false := by
    cases isState : current.state <;> simp [isState, TaskState.isRunning,
      TaskState.isCompleting] at isRunning ⊢
  cases next with
  | running checkpoint =>
    exact creates.setTask_decides serves isStored wasLive holdsNone
      (by simp [TaskState.waitsOn]) (by simp [TaskState.isTerminal])
  | waiting checkpoint on policy =>
    dsimp only [commitState]
    obtain ⟨_, isServing⟩ := @validateWait_loaded J scheduler store commit
      mode current.id on policy serves sound
    unfold Body.andThen
    split
    case h_1 error isError =>
      refine ⟨isServing, ?_, ?_, ?_⟩
      all_goals
        intro later isLater
        rw [isError] at isLater
        cases isLater
    case h_2 later isLater =>
      obtain ⟨rfl, admits⟩ := validateWait_admits serves sound named
        creates.sound creates.creates isLater
      exact creates.setTask_decides isServing isStored wasLive holdsNone
        (fun other member => admits other member)
        (by simp [TaskState.isTerminal])
  | terminal outcome =>
    dsimp only [commitState]
    obtain ⟨_, isServing, isLoaded⟩ := @loadScopes_loaded J scheduler store
      [] serves sound (by simp)
    have staged : Index.OverlaySound store (some commit.tx) := by
      rintro _ ⟨⟩
      exact creates.sound
    obtain ⟨loads, chainsServe, onHand⟩ := @loadChains_loaded J store (some commit.tx) sound staged
      ((commit.tx.tasksById.map Write.record).map fun record => parentNode record.toTaskNode)
      (by
        intro start member
        obtain ⟨record, isRecord, rfl⟩ := List.mem_map.mp member
        obtain ⟨write, isWrite, rfl⟩ := List.mem_map.mp isRecord
        exact hasNode_of_staged creates.sound isWrite)
      (scheduler.loadScopes store []) isServing
    rw [List.foldl_map] at loads chainsServe
    simp only [List.foldl_map] at onHand loads chainsServe ⊢
    have noneUnloaded := loads.widens.unloaded_eq_nil isLoaded
    refine creates.setTask_decides chainsServe isStored wasLive holdsNone ?_ ?_
    · intro other member
      split_ifs at member
      · cases member
      · cases member
    · intro isTerminal
      refine ⟨noneUnloaded, ?_⟩
      refine @hasOwnedLive_eq_false J _ store commit
        ⟨chainsServe, sound, creates.sound, noneUnloaded⟩ ?_ [] current.id
        (by simp) ?_
      · intro write member _
        exact onHand _ (List.mem_map.mpr ⟨write.record, List.mem_map_of_mem member, rfl⟩)
      · by_contra isOwning
        rw [if_pos (by simpa using isOwning)] at isTerminal
        cases isTerminal

theorem runtimeCommit_decides (sound : store.Sound) (named : NamesStored store)
    {next : Option (NextTaskState J)} :
    Decides (some id) store
      (runtimeCommit store id mode creations next scheduler (.start store)) := by
  have fails : ∀ error : String, Decides (some id) store (⟨scheduler, .error error⟩ : Body J) :=
    fun error => ⟨serves, by simp, by simp, by simp⟩
  unfold runtimeCommit gated
  split_ifs
  · exact fails _
  · split
    case h_1 => exact fails _
    case h_2 current isLive =>
      obtain ⟨isNamed, isStored, wasLive⟩ := live_named serves sound isLive
      split_ifs with notRunning
      · exact fails _
      · exact fails _
      · dsimp only
        split
        case h_1 => exact fails _
        case h_2 commit isStaged =>
          have creates := stageCreations_creates sound isStaged
          split
          case h_1 => exact creates.decides (some id) serves
          case h_2 state =>
            subst isNamed
            exact commitState_decides serves sound named creates isStored
              (by simpa using notRunning) state

theorem memo_decides (sound : store.Sound) :
    Decides none store (memo id mode scheduler (.start store)) := by
  have fails : ∀ error : String, Decides none store (⟨scheduler, .error error⟩ : Body J) :=
    fun error => ⟨serves, by simp, by simp, by simp⟩
  unfold memo gated
  split_ifs
  · exact fails _
  · split
    case h_1 => exact fails _
    case h_2 current isLive =>
      obtain ⟨isNamed, isStored, wasLive⟩ := live_named serves sound isLive
      split_ifs with notRunning
      · exact fails _
      · exact fails _
      · refine decides_of_replaces serves fun commit isSet => ?_
        rw [← isNamed] at isStored
        have isRunning : current.state.isRunning = true := by simpa using notRunning
        have holdsNone : current.state.isCompleting = false := by
          cases isState : current.state <;> simp [isState,
            TaskState.isRunning, TaskState.isCompleting] at isRunning ⊢
        exact @Replaces.setTask J store _ (.start store) commit current current
          (.start sound) isStored wasLive rfl (.refl holdsNone) wasLive isSet

theorem hostCommit_decides (sound : store.Sound) :
    Decides none store ⟨scheduler, stageCreations store scope creations (.start store)⟩ where
  serves := serves
  lawful := fun _ isStaged => (stageCreations_creates sound isStaged).lawful none
  cleans := fun _ isStaged => (stageCreations_creates sound isStaged).cleans none
  ends := fun commit isStaged =>
    ((stageCreations_creates sound isStaged).decides none serves).ends commit
      rfl

end

end Callbacks

end TaskScheduler

end PiEmbodied.Durable.Scheduler
