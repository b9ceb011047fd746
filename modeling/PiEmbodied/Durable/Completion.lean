import PiEmbodied.Durable.WaitFor

/-!
# Structured completion

A task ends in a commit that leaves it no live ordinary owned work, with the
outcome it held, once.  The commit that makes an outcome of the scheduler
terminal runs its Harness cleanup.
-/

namespace PiEmbodied.Durable.Scheduler

open Tasks

variable {J : Type}

namespace World

def Ends (world next : World J) (id : ℕ) (outcome : TaskOutcome J) : Prop :=
  (∀ old, world.store.tasks id = some old → old.live = true) ∧
    ∃ new, next.store.tasks id = some new ∧ new.state = .terminal outcome

def Holds (world : World J) (id : ℕ) (outcome : TaskOutcome J) : Prop :=
  ∃ record, world.store.tasks id = some record ∧
    (record.state = .completing outcome ∨ record.state = .terminal outcome)

section Commits

variable {own : Option ℕ} {store : Store J} {tx : Transaction J} {outcome : TaskOutcome J}

theorem live_of_terminal {record : TaskRecord J} (isTerminal : record.state = .terminal outcome) :
    record.live = false := by
  simp [TaskRecord.live, isTerminal, TaskState.isTerminal]

variable {id : ℕ}

theorem candidate_of_ends {new : TaskRecord J}
    (wasLive : ∀ old, store.tasks id = some old → old.live = true)
    (isNew : (tx.applied store).tasks id = some new)
    (isEnded : new.live = false) : tx.candidate id = some new := by
  cases isStaged : tx.candidate id with
  | none =>
    rw [Index.Views.task_of_unstaged isStaged] at isNew
    rw [wasLive new isNew] at isEnded
    cases isEnded
  | some record =>
    rwa [Index.Views.task_of_candidate isStaged] at isNew

variable {old : TaskRecord J}

theorem terminal_stays (lawful : Lawful own store tx) (isOld : store.tasks id = some old)
    (isEnded : old.live = false) : (tx.applied store).tasks id = some old := by
  obtain ⟨new, isNew, _⟩ := lawful.sound.extended.tasks id old isOld
  rcases record_cases lawful.sound isOld isNew with ⟨_, rfl⟩ | ⟨_, wasLive⟩
  · exact isNew
  · rw [isEnded] at wasLive
    cases wasLive

theorem held_stays (lawful : Lawful own store tx) (isOld : store.tasks id = some old)
    (isHeld : old.state = .completing outcome) :
    ∃ new, (tx.applied store).tasks id = some new ∧
      (new.state = .completing outcome ∨ new.state = .terminal outcome) := by
  obtain ⟨new, isNew, _⟩ := lawful.sound.extended.tasks id old isOld
  refine ⟨new, isNew, ?_⟩
  rcases record_cases lawful.sound isOld isNew with ⟨_, rfl⟩ | ⟨isStaged, _⟩
  · exact Or.inl isHeld
  · exact (lawful.moves id old new isOld isStaged).held outcome isHeld

end Commits

section Steps

variable {world : World J} (good : world.Good) (event : Event J)

include good

variable {id : ℕ}

theorem Good.terminal_step {old : TaskRecord J} (isOld : world.store.tasks id = some old)
    (isEnded : old.live = false) : (world.step event).store.tasks id = some old := by
  cases (good.step_settles event).goes with
  | nothing store _ =>
    rw [store]
    exact isOld
  | commits commit lawful _ store _ =>
    rw [store]
    exact terminal_stays lawful isOld isEnded

variable {outcome : TaskOutcome J}

theorem Good.holds_step (holds : world.Holds id outcome) : (world.step event).Holds id outcome := by
  obtain ⟨record, isRecord, isHeld | isTerminal⟩ := holds
  · cases (good.step_settles event).goes with
    | nothing store _ =>
      refine ⟨record, ?_, Or.inl isHeld⟩
      rw [store]
      exact isRecord
    | commits commit lawful _ store _ =>
      unfold Holds
      rw [store]
      exact held_stays lawful isRecord isHeld
  · exact ⟨record, good.terminal_step event isRecord (live_of_terminal isTerminal),
      Or.inr isTerminal⟩

theorem Good.ends_drained (ends : world.Ends (world.step event) id outcome) (other : ℕ) :
    ¬ (world.step event).store.OwnedLive (.task id) other := by
  obtain ⟨wasLive, new, isNew, isTerminal⟩ := ends
  cases (good.step_settles event).goes with
  | nothing store _ =>
    rw [store] at isNew
    have isLive := wasLive new isNew
    rw [live_of_terminal isTerminal] at isLive
    cases isLive
  | commits commit lawful _ store _ =>
    rw [store] at isNew ⊢
    have isEnded := live_of_terminal isTerminal
    exact lawful.drained id new (candidate_of_ends wasLive isNew isEnded) isEnded other

theorem Good.cleans_step :
    ∃ settled, (world.step event).cleaned = world.cleaned ++ settled ∧ settled.Nodup ∧
      ∀ id, id ∈ settled ↔
        ∃ outcome, world.Ends (world.step event) id outcome ∧
          outcome.isScheduler = true ∧ event.own ≠ some id := by
  cases (good.step_settles event).goes with
  | nothing store cleaned =>
    refine ⟨[], by simpa using cleaned, List.nodup_nil, fun id => ?_⟩
    refine ⟨fun member => (by cases member), ?_⟩
    rintro ⟨outcome, ⟨wasLive, new, isNew, isTerminal⟩, _⟩
    rw [store] at isNew
    have isLive := wasLive new isNew
    rw [live_of_terminal isTerminal] at isLive
    cases isLive
  | commits commit lawful cleans store cleaned =>
    refine ⟨commit.settled, cleaned, cleans.nodup, fun id => ⟨?_, ?_⟩⟩
    · intro member
      obtain ⟨new, outcome, isStaged, isTerminal, isScheduler⟩ := cleans.ended id member
      refine ⟨outcome, ⟨?_, new, ?_, isTerminal⟩, isScheduler, ?_⟩
      · intro old isOld
        rcases staged_cases lawful.sound isStaged with ⟨isNone, _⟩ |
            ⟨committed, isCommitted, wasLive, _⟩
        · rw [isOld] at isNone
          cases isNone
        · rw [isOld] at isCommitted
          cases isCommitted
          exact wasLive
      · rw [store]
        exact Index.Views.task_of_candidate isStaged
      · intro isOwn
        rw [cleans.quiet (by rw [isOwn]; rfl)] at member
        cases member
    · rintro ⟨outcome, ⟨wasLive, new, isNew, isTerminal⟩, isScheduler, notOwn⟩
      rw [store] at isNew
      exact cleans.cleaned id new outcome
        (candidate_of_ends wasLive isNew (live_of_terminal isTerminal))
        isTerminal isScheduler notOwn

end Steps

/-- What was cleaned up has ended, so that it is cleaned up once. -/
structure Cleaned (world : World J) : Prop where
  good : world.Good
  nodup : world.cleaned.Nodup
  ended : ∀ id ∈ world.cleaned, ∃ record, world.store.tasks id = some record ∧ record.live = false

variable {world : World J}

theorem Cleaned.step (cleaned : world.Cleaned) (event : Event J) : (world.step event).Cleaned := by
  obtain ⟨settled, isCleaned, nodup, isSettled⟩ := cleaned.good.cleans_step event
  refine ⟨cleaned.good.step event, ?_, ?_⟩
  · rw [isCleaned]
    refine List.nodup_append.mpr ⟨cleaned.nodup, nodup, ?_⟩
    rintro id before _ new rfl
    obtain ⟨outcome, ⟨wasLive, _⟩, _⟩ := (isSettled id).mp new
    obtain ⟨record, isRecord, isEnded⟩ := cleaned.ended id before
    rw [wasLive record isRecord] at isEnded
    cases isEnded
  · intro id member
    rw [isCleaned] at member
    rcases List.mem_append.mp member with before | new
    · obtain ⟨record, isRecord, isEnded⟩ := cleaned.ended id before
      exact ⟨record, cleaned.good.terminal_step event isRecord isEnded, isEnded⟩
    · obtain ⟨outcome, ⟨_, record, isRecord, isTerminal⟩, _⟩ :=
        (isSettled id).mp new
      exact ⟨record, isRecord, live_of_terminal isTerminal⟩

theorem cleaned_initial : (World.initial : World J).Cleaned where
  good := good_initial
  nodup := List.nodup_nil
  ended := fun id member => by cases member

theorem cleaned_after (events : List (Event J)) :
    ((World.initial : World J).after events).Cleaned :=
  Runs.after_invariant step Cleaned
    (fun _ event cleaned => cleaned.step event) cleaned_initial events

/-- Later in the run nothing changes for a task that ended, and a held outcome
stays. -/
theorem settled_after (good : world.Good) (events : List (Event J)) :
    (∀ id record, world.store.tasks id = some record → record.live = false →
      (world.after events).store.tasks id = some record) ∧
    ∀ id outcome, world.Holds id outcome → (world.after events).Holds id outcome := by
  induction events generalizing world with
  | nil => exact ⟨fun _ _ isRecord _ => isRecord, fun _ _ holds => holds⟩
  | cons event rest ih =>
    obtain ⟨terminal, held⟩ := ih (good.step event)
    exact ⟨fun id record isRecord isEnded =>
        terminal id record (good.terminal_step event isRecord isEnded) isEnded,
      fun id outcome holds => held id outcome (good.holds_step event holds)⟩

end World

/-- In every run: a task ends without live ordinary owned work, its outcome
stays once it holds, it ends once, and the cleanups of an event are those of
the scheduler's outcomes it makes terminal, each run once. -/
theorem structured_completion (events : List (World.Event J)) (event : World.Event J)
    (later : List (World.Event J)) :
    let world := (World.initial : World J).after events
    let next := world.step event
    let last := next.after later
    (∀ id outcome, world.Ends next id outcome → ∀ other, ¬ next.store.OwnedLive (.task id) other) ∧
    (∀ id outcome, next.Holds id outcome → last.Holds id outcome) ∧
    (∀ id record, next.store.tasks id = some record → record.live = false →
      last.store.tasks id = some record) ∧
    (∃ settled, next.cleaned = world.cleaned ++ settled ∧
      ∀ id, id ∈ settled ↔ ∃ outcome, world.Ends next id outcome ∧
        outcome.isScheduler = true ∧ event.own ≠ some id) ∧
    next.cleaned.Nodup := by
  intro world next last
  have cleaned := World.cleaned_after events
  have stepped := cleaned.step event
  obtain ⟨terminal, held⟩ := World.settled_after stepped.good later
  obtain ⟨settled, isCleaned, _, isSettled⟩ := cleaned.good.cleans_step event
  exact ⟨fun id outcome ends => cleaned.good.ends_drained event ends, held,
    terminal, ⟨settled, isCleaned, isSettled⟩, stepped.nodup⟩

/-- A task may commit `faulted` for itself; no cleanup runs then. -/
theorem own_fault_not_cleaned :
    let world := (World.initial : World Unit).after
      [.resume,
        .hostCommit none
          [.createRootConversation, .createTask ⟨.conversation, some 1, none, false⟩ ()] true,
        .reserve (fun _ => .ready none) true]
    let next := world.step (.runtimeCommit 2 [] (some (.terminal (.faulted ⟨"broken", none⟩))) true)
    world.Ends next 2 (.faulted ⟨"broken", none⟩) ∧
      (TaskOutcome.faulted ⟨"broken", none⟩ : TaskOutcome Unit).isScheduler = true ∧
      next.cleaned = [] := by
  refine ⟨⟨?_, ?_⟩, rfl, rfl⟩
  · intro old isOld
    cases isOld
    rfl
  · exact ⟨_, rfl, rfl⟩

end PiEmbodied.Durable.Scheduler
