import PiEmbodied.Durable.Callbacks

/-!
# What each event does

An event stores one lawful commit, or none, and the indexes serve what is
stored.  The invariants of whole runs follow from it.
-/

namespace PiEmbodied.Durable.Scheduler

open Tasks
open TaskScheduler (NamesStored Decides)

variable {J : Type}

/-! ## The listener and the indexes -/

namespace TaskScheduler

variable (scheduler : TaskScheduler J) (id : ℕ) (record : TaskRecord J)

theorem release_index (node : TaskNode) (depth : ℕ) :
    (scheduler.release node depth).index = scheduler.index := by
  unfold release
  split
  · rfl
  · split_ifs
    · rfl
    · rfl
    · rfl

theorem track_index :
    (scheduler.track record).index = scheduler.index.track record := by
  have forgotten : (scheduler.forgetWait
      (scheduler.index.live record.id)).index = scheduler.index := by
    unfold forgetWait
    split
    · rfl
    · rfl
  unfold track
  by_cases isTerminal : record.state.isTerminal = true
  · rw [if_pos isTerminal]
    unfold trackEnded Index.track
    rw [if_pos isTerminal]
    dsimp only
    rw [release_index, forgotten]
  · rw [if_neg isTerminal]
    unfold trackLive rememberWait
    dsimp only
    rw [forgotten]
    split
    · rfl
    · rfl

theorem observeTask_index :
    (scheduler.observeTask record).index = scheduler.index.track record := by
  rw [← track_index]
  unfold observeTask
  dsimp only
  split_ifs <;> simp only [scheduleReconcile_index]

theorem foldl_index {α : Type} {step : TaskScheduler J → α → TaskScheduler J}
    (same : ∀ scheduler item, (step scheduler item).index = scheduler.index)
    (items : List α) (scheduler : TaskScheduler J) :
    (items.foldl step scheduler).index = scheduler.index := by
  induction items generalizing scheduler with
  | nil => rfl
  | cons item rest ih => rw [List.foldl_cons, ih, same]

theorem observeTasks_index (records : List (TaskRecord J)) (scheduler : TaskScheduler J) :
    (records.foldl observeTask scheduler).index = records.foldl Index.track scheduler.index :=
  (List.foldl_hom TaskScheduler.index fun _ _ => (observeTask_index _ _).symm).symm

theorem observeFailed_index :
    (scheduler.observeFailed id).index = scheduler.index := by
  unfold observeFailed
  refine foldl_index (fun later waiter => ?_) (scheduler.waiters id) scheduler
  split_ifs
  · rw [scheduleReconcile_index]
  · rfl

theorem observeInput_index :
    (scheduler.observeInput id).index = scheduler.index := by
  unfold observeInput
  split_ifs
  · rfl
  · rfl
  · rfl

theorem observeNew_index :
    (scheduler.observeNew record).index = scheduler.index := by
  unfold observeNew
  split_ifs
  · exact scheduleReconcile_index scheduler
  · rfl
  · rfl

theorem observe_index (commit : Commit J) :
    (scheduler.observe commit).index = scheduler.index.observe commit.tx := by
  unfold observe Index.observe
  dsimp only
  congr 1
  rw [← observeTasks_index (commit.tx.tasksById.map Write.record)
    { scheduler with
      index := commit.tx.conversations.foldl Index.observeEdge
        scheduler.index }]
  split_ifs
  · rw [scheduleReconcile_index, foldl_index observeNew_index, foldl_index observeInput_index,
      foldl_index fun scheduler record => observeFailed_index scheduler _]
  · rw [foldl_index observeNew_index, foldl_index observeInput_index,
      foldl_index fun scheduler record => observeFailed_index scheduler _]

theorem opened_index (store : Store J) : (opened store).index = Index.opened store :=
  (List.foldl_hom TaskScheduler.index fun _ _ => (track_index _ _).symm).symm

theorem unreserve_index (before scheduler : TaskScheduler J) (ids : List ℕ) :
    (before.unreserve scheduler ids).index = scheduler.index := by
  unfold unreserve
  refine foldl_index (fun later id => ?_) ids scheduler
  split_ifs
  · rfl
  · rfl

theorem forgetAbandoned_index :
    scheduler.forgetAbandoned.index = scheduler.index := by
  unfold forgetAbandoned
  split_ifs
  · rfl
  · rfl

end TaskScheduler

/-! ## What a commit leaves -/

theorem Lawful.named {own : Option ℕ} {store : Store J} {tx : Transaction J}
    (lawful : Lawful own store tx) (named : NamesStored store) :
    NamesStored (tx.applied store) := by
  have stays : ∀ other, (store.tasks other).isSome = true →
      ((tx.applied store).tasks other).isSome = true := by
    intro other isSome
    obtain ⟨record, isRecord⟩ := Option.isSome_iff_exists.mp isSome
    obtain ⟨next, isNext, _⟩ := lawful.sound.extended.tasks other record isRecord
    rw [isNext]
    rfl
  intro id record isRecord other member
  cases isOld : store.tasks id with
  | none =>
    obtain ⟨_, checkpoint, isPending⟩ := new_record lawful.sound isOld isRecord
    rw [isPending] at member
    cases member
  | some old =>
    rcases record_cases lawful.sound isOld isRecord with ⟨_, rfl⟩ |
        ⟨isStaged, _⟩
    · exact stays other (named id record isOld other member)
    · rcases (lawful.moves id old record isOld isStaged).waits other member
        with before | ⟨_, found, isFound, _⟩
      · exact stays other (named id old isOld other before)
      · rw [isFound]
        rfl

namespace World

def Event.own : Event J → Option ℕ
  | .runtimeCommit id _ _ _ => some id
  | _ => none

/-- The state between the events: the indexes serve a sound store. -/
structure Good (world : World J) : Prop where
  sound : world.store.Sound
  serves : world.scheduler.index.Serves world.store
  named : NamesStored world.store

inductive Goes (own : Option ℕ) (world next : World J) : Prop
  | nothing (store : next.store = world.store)
      (cleaned : next.cleaned = world.cleaned)
  | commits (commit : Commit J) (lawful : Lawful own world.store commit.tx)
      (cleans : Cleans own commit)
      (store : next.store = commit.tx.applied world.store)
      (cleaned : next.cleaned = world.cleaned ++ commit.settled)

variable {own : Option ℕ} {world : World J}

/-- What `#runCommit` leaves. -/
structure Settles (own : Option ℕ) (world next : World J) : Prop where
  goes : world.Goes own next
  serves : next.scheduler.index.Serves next.store

theorem settle_goes (accepted : Bool) {body : Body J} (decides : Decides own world.store body) :
    world.Settles own (world.settle accepted body).1 := by
  have failed : world.Settles own (world.withScheduler body.scheduler) :=
    ⟨.nothing rfl rfl, decides.serves⟩
  unfold settle
  split
  case h_1 => exact failed
  case h_2 commit isStaged =>
    split
    case h_1 => exact failed
    case h_2 =>
      split_ifs
      · exact failed
      · refine ⟨.commits commit (decides.lawful commit isStaged)
          (decides.cleans commit isStaged) rfl rfl, ?_⟩
        dsimp only
        rw [TaskScheduler.observe_index]
        exact decides.serves.observe (decides.lawful commit isStaged).sound
      · exact ⟨.nothing rfl rfl, decides.serves⟩

theorem Settles.withScheduler {next : World J} (settles : world.Settles own next)
    {later : TaskScheduler J} (same : later.index = next.scheduler.index) :
    world.Settles own (next.withScheduler later) where
  goes := by
    cases settles.goes with
    | nothing store cleaned => exact .nothing store cleaned
    | commits commit lawful cleans store cleaned =>
      exact .commits commit lawful cleans store cleaned
  serves := by
    have serves := settles.serves
    rwa [← same] at serves

theorem Settles.ownCommit (accepted : Bool) {body : Body J}
    (decides : Decides own world.store body) :
    world.Settles own (world.ownCommit accepted body) := by
  have settles := settle_goes accepted decides
  unfold World.ownCommit
  split
  case h_1 next isSettled =>
    rwa [isSettled] at settles
  case h_2 next isSettled =>
    rw [isSettled] at settles
    exact settles.withScheduler rfl

theorem queuedIn_stored (world : World J) (queued : List ℕ) :
    ∀ id ∈ world.queuedIn queued, (world.store.conversations id).isSome = true := by
  intro id member
  exact (List.mem_filter.mp member).2

theorem callback_eq (world : World J) (change : TaskScheduler J → Commit J → Body J) :
    world.callback change = change world.scheduler (.start world.store) := rfl

variable (good : world.Good)

include good

theorem Good.quiet {next : World J} (store : next.store = world.store)
    (cleaned : next.cleaned = world.cleaned) (same : next.scheduler.index = world.scheduler.index) :
    world.Settles own next where
  goes := .nothing store cleaned
  serves := by
    rw [same, store]
    exact good.serves

variable (id : ℕ) (accepted : Bool) (event : Event J)

theorem Good.reopen_settles : world.Settles none (world.reopen accepted) := by
  have serves : (TaskScheduler.opened world.store).index.Serves
      world.store := by
    rw [TaskScheduler.opened_index]
    exact Index.Serves.opened good.sound
  have settles := @settle_goes J none
    { world with
      scheduler := TaskScheduler.opened world.store
      reconciling := [] }
    accepted _ (TaskScheduler.restart_decides serves good.sound)
  replace settles : world.Settles none _ := ⟨by
    cases settles.goes with
    | nothing store cleaned => exact .nothing store cleaned
    | commits commit lawful cleans store cleaned =>
      exact .commits commit lawful cleans store cleaned, settles.serves⟩
  unfold reopen
  dsimp only
  split
  case h_1 next isSettled =>
    rw [isSettled] at settles
    exact settles.withScheduler rfl
  case h_2 next isSettled =>
    rw [isSettled] at settles
    exact settles.withScheduler (TaskScheduler.scheduleReconcile_index _)

theorem Good.reconcile_settles (queued : List ℕ) (accepted : Bool) :
    world.Settles none (world.reconcile queued accepted) := by
  unfold reconcile
  split
  case h_1 => exact good.quiet rfl rfl rfl
  case h_2 pass rest isFirst =>
    have settles := @Settles.ownCommit J none { world with reconciling := rest } accepted _
      (@TaskScheduler.reconcile_decides J world.scheduler world.store
        good.serves good.sound pass.cascade pass.checks
        (world.queuedIn queued) (queuedIn_stored world queued))
    refine ⟨?_, settles.serves⟩
    cases settles.goes with
    | nothing store cleaned => exact .nothing store cleaned
    | commits commit lawful cleans store cleaned =>
      exact .commits commit lawful cleans store cleaned

theorem Good.reserve_settles
    (resolve : TaskRecord J → TaskScheduler.Resolution J) (accepted : Bool) :
    world.Settles none (world.reserve resolve accepted) := by
  have settles := settle_goes accepted
    (@TaskScheduler.reserve_decides J world.scheduler world.store good.serves good.sound resolve)
  unfold reserve
  dsimp only
  split
  case h_1 next isSettled =>
    rw [callback_eq] at isSettled
    rw [isSettled] at settles
    exact settles.withScheduler (TaskScheduler.forgetAbandoned_index _)
  case h_2 next isSettled =>
    rw [callback_eq] at isSettled
    rw [isSettled] at settles
    exact settles.withScheduler (TaskScheduler.unreserve_index _ _ _)

theorem Good.stepInvocation_settles (decision : TaskScheduler.Decision) (accepted : Bool) :
    world.Settles none (world.stepInvocation id decision accepted) := by
  unfold stepInvocation
  split
  case h_1 => exact good.quiet rfl rfl rfl
  case h_2 mode _ =>
    have settles := settle_goes accepted
      (@TaskScheduler.stepInvocation_decides J world.scheduler world.store
        good.serves good.sound id mode decision)
    dsimp only
    split
    case h_1 next isSettled =>
      rw [callback_eq] at isSettled
      rwa [isSettled] at settles
    case h_2 next isSettled =>
      rw [callback_eq] at isSettled
      rw [isSettled] at settles
      exact settles.withScheduler (TaskScheduler.endInvocation_index next.scheduler id)

theorem Good.gated_settles {change : Mode → TaskScheduler J → Commit J → Body J}
    (decides : ∀ mode, Decides own world.store (change mode world.scheduler (.start world.store))) :
    world.Settles own (world.gated id accepted change) := by
  unfold gated
  split
  case h_1 => exact good.quiet rfl rfl rfl
  case h_2 mode _ => exact settle_goes accepted (decides mode)

theorem Good.step_settles : world.Settles event.own (world.step event) := by
  cases event with
  | reopen accepted => exact good.reopen_settles accepted
  | resume | close => exact good.quiet rfl rfl rfl
  | reconcileStarts =>
    unfold step reconcileStarts
    dsimp only
    split_ifs
    · exact good.quiet rfl rfl rfl
    · exact good.quiet rfl rfl rfl
  | reconcile queued accepted => exact good.reconcile_settles queued accepted
  | reserve resolve accepted => exact good.reserve_settles resolve accepted
  | stepInvocation id decision accepted => exact good.stepInvocation_settles id decision accepted
  | endInvocation id =>
    exact good.quiet rfl rfl (TaskScheduler.endInvocation_index world.scheduler id)
  | runtimeCommit id creations next accepted =>
    exact good.gated_settles id accepted fun mode =>
      TaskScheduler.runtimeCommit_decides good.serves good.sound good.named
  | memo id accepted =>
    exact good.gated_settles id accepted fun mode =>
      TaskScheduler.memo_decides good.serves good.sound
  | abort id keepRestart blocked accepted =>
    exact settle_goes accepted (TaskScheduler.abort_decides good.serves good.sound)
  | abortConversation id background queued accepted =>
    exact settle_goes accepted
      (TaskScheduler.abortConversation_decides good.serves good.sound
        (queuedIn_stored world queued))
  | hostCommit scope creations accepted =>
    exact settle_goes accepted (TaskScheduler.hostCommit_decides good.serves good.sound)
  | inspect =>
    refine ⟨.nothing rfl rfl, ?_⟩
    exact (@TaskScheduler.loadScopes_loaded J world.scheduler world.store []
      good.serves good.sound (by simp)).2.1
  | waitForIdle => exact good.quiet rfl rfl (TaskScheduler.scheduleReconcile_index _)
  | sweep => exact ⟨.nothing rfl rfl, good.serves.sweep⟩

theorem Good.step : (world.step event).Good := by
  have settles := good.step_settles event
  refine ⟨?_, settles.serves, ?_⟩
  · cases settles.goes with
    | nothing store _ =>
      rw [store]
      exact good.sound
    | commits commit lawful _ store _ =>
      rw [store]
      exact lawful.sound.forest
  · cases settles.goes with
    | nothing store _ =>
      rw [store]
      exact good.named
    | commits commit lawful _ store _ =>
      rw [store]
      exact lawful.named good.named

omit good

theorem good_initial : (World.initial : World J).Good := by
  have sound : (Store.empty : Store J).Sound := State.empty_sound
  refine ⟨sound, ?_, ?_⟩
  · replace served := Index.Serves.opened sound
    rwa [← TaskScheduler.opened_index] at served
  · intro id record isRecord
    cases isRecord

end World

end PiEmbodied.Durable.Scheduler
