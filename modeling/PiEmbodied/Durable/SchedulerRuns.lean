import PiEmbodied.Durable.Scheduling

/-!
# Runs of the task scheduler

The Session line runs one callback at a time and stores what it staged.  Its
callers are the scheduler itself, the invocations of its tasks, and the host.
A crash, or a close, leaves the store; a new scheduler opens it.
-/

namespace PiEmbodied.Durable.Scheduler

open Tasks

variable {J : Type}

/-! ## The Session line -/

/-- A reconcile pass that has started, and waits for the line. -/
structure Pass where
  cascade : Bool
  checks : List ℕ

/-- `cleaned` tells of the Harness cleanups that were stored. -/
structure World (J : Type) where
  store : Store J
  scheduler : TaskScheduler J
  reconciling : List Pass
  cleaned : List ℕ

inductive Settlement where
  | stored
  | rejected
deriving DecidableEq

def Commit.start (store : Store J) : Commit J where
  tx := .start store
  queued := []
  settled := []

def Commit.writes (commit : Commit J) : Bool :=
  !commit.tx.tasksById.isEmpty || !commit.tx.conversations.isEmpty ||
    commit.tx.touched

namespace TaskScheduler

def start (scheduler : TaskScheduler J) (store : Store J) : Body J :=
  ⟨scheduler, .ok (.start store)⟩

def sealed (scheduler : TaskScheduler J) : TaskScheduler J :=
  { scheduler with closing := true }

def resume (scheduler : TaskScheduler J) : TaskScheduler J :=
  { scheduler with enabled := true }

/-- A rejected reservation pass frees the tasks it reserved. -/
def unreserve (before scheduler : TaskScheduler J) (ids : List ℕ) :
    TaskScheduler J :=
  ids.foldl
    (fun scheduler id =>
      if (before.invocations id).isNone &&
          (scheduler.invocations id).isSome then
        { scheduler with
          invocations := Function.update scheduler.invocations id none
          runnable := insertLast scheduler.runnable id }
      else scheduler)
    scheduler

/-- Once a pass marked the abandoned tasks, it is done with them. -/
def forgetAbandoned (scheduler : TaskScheduler J) : TaskScheduler J :=
  if !scheduler.enabled || scheduler.closing then scheduler
  else { scheduler with abandoned := [] }

end TaskScheduler

namespace World

def withScheduler (world : World J) (scheduler : TaskScheduler J) : World J :=
  { world with scheduler }

/-- `#runCommit`: what a callback staged is checked, stored and published.
With `accepted` unset, storing it fails, and so does the Session. -/
def settle (world : World J) (accepted : Bool) (body : Body J) : World J × Settlement :=
  match body.staged with
  | .error _ => (world.withScheduler body.scheduler, .rejected)
  | .ok commit =>
    match commit.tx.assemble world.store with
    | .error _ => (world.withScheduler body.scheduler, .rejected)
    | .ok _ =>
      if !commit.writes then
        (world.withScheduler body.scheduler, .stored)
      else if accepted then
        ({ world with
            store := commit.tx.applied world.store
            scheduler := body.scheduler.observe commit
            cleaned := world.cleaned ++ commit.settled }, .stored)
      else (world.withScheduler body.scheduler.sealed, .rejected)

/-- A commit of the host, or of an invocation: its caller sees an error. -/
def commit (world : World J) (accepted : Bool) (body : Body J) : World J :=
  (world.settle accepted body).1

/-- One of the scheduler's own commits: an error fails the Session. -/
def ownCommit (world : World J) (accepted : Bool) (body : Body J) : World J :=
  match world.settle accepted body with
  | (next, .stored) => next
  | (next, .rejected) => next.withScheduler next.scheduler.sealed

def queuedIn (world : World J) (queued : List ℕ) : List ℕ :=
  queued.filter fun id => (world.store.conversations id).isSome

def callback (world : World J) (callback : TaskScheduler J → Commit J → Body J) : Body J :=
  (world.scheduler.start world.store).andThen callback

end World

/-! ## Events -/

/-- What happens next; `accepted` is what Storage does with a commit. -/
inductive World.Event (J : Type) where
  /-- A new Harness opens the store. -/
  | reopen (accepted : Bool)
  | resume
  | close
  /-- The microtask of a scheduled reconcile pass runs. -/
  | reconcileStarts
  | reconcile (queued : List ℕ) (accepted : Bool)
  | reserve (resolve : TaskRecord J → TaskScheduler.Resolution J)
    (accepted : Bool)
  | stepInvocation (id : ℕ) (decision : TaskScheduler.Decision)
    (accepted : Bool)
  /-- The code of an invocation is done. -/
  | endInvocation (id : ℕ)
  | runtimeCommit (id : ℕ) (creations : List (TaskScheduler.Creation J))
    (next : Option (TaskScheduler.NextTaskState J)) (accepted : Bool)
  | memo (id : ℕ) (accepted : Bool)
  | abort (id : ℕ) (keepRestart : Bool) (blocked : Option String)
    (accepted : Bool)
  | abortConversation (id : ℕ) (background : Bool) (queued : List ℕ)
    (accepted : Bool)
  /-- A commit of the host, or of a conversation handle. -/
  | hostCommit (scope : Option ℕ)
    (creations : List (TaskScheduler.Creation J)) (accepted : Bool)
  | inspect
  | waitForIdle
  | sweep

namespace World

/-- `open`: the reconcile pass it schedules derives what a crash left. -/
def reopen (world : World J) (accepted : Bool) : World J :=
  let opened := TaskScheduler.opened world.store
  let next :=
    { world with scheduler := opened, reconciling := [] }.settle accepted
      ⟨opened, TaskScheduler.restart world.store (.start world.store)⟩
  match next with
  | (next, .rejected) => next.withScheduler next.scheduler.sealed
  | (next, .stored) =>
    next.withScheduler
      ({ next.scheduler with cascadePending := true }).scheduleReconcile

def reconcileStarts (world : World J) : World J :=
  if world.scheduler.reconcileScheduled then
    { world with
      scheduler :=
        { world.scheduler with
          reconcileScheduled := false
          cascadePending := false
          failFastChecks := [] }
      reconciling := world.reconciling ++
        [⟨world.scheduler.cascadePending, world.scheduler.failFastChecks⟩] }
  else world

def reconcile (world : World J) (queued : List ℕ) (accepted : Bool) : World J :=
  match world.reconciling with
  | [] => world
  | pass :: rest =>
    ({ world with reconciling := rest }).ownCommit accepted
      (world.callback
        (TaskScheduler.reconcile world.store pass.cascade pass.checks (world.queuedIn queued)))

def reserve (world : World J)
    (resolve : TaskRecord J → TaskScheduler.Resolution J) (accepted : Bool) :
    World J :=
  let body := world.callback (TaskScheduler.reserve world.store resolve)
  match world.settle accepted body with
  | (next, .stored) => next.withScheduler next.scheduler.forgetAbandoned
  | (next, .rejected) =>
    next.withScheduler
      (world.scheduler.unreserve next.scheduler world.scheduler.runnable).sealed

def stepInvocation (world : World J) (id : ℕ)
    (decision : TaskScheduler.Decision) (accepted : Bool) : World J :=
  match world.scheduler.invocations id with
  | none => world
  | some mode =>
    let body := world.callback (TaskScheduler.stepInvocation world.store id mode decision)
    match world.settle accepted body with
    | (next, .stored) => next
    | (next, .rejected) => next.withScheduler (next.scheduler.endInvocation id).sealed

def gated (world : World J) (id : ℕ) (accepted : Bool)
    (change : Mode → TaskScheduler J → Commit J → Body J) :
    World J :=
  match world.scheduler.invocations id with
  | none => world
  | some mode => world.commit accepted (world.callback (change mode))

def step (world : World J) : Event J → World J
  | .reopen accepted => world.reopen accepted
  | .resume => world.withScheduler world.scheduler.resume
  | .close => world.withScheduler world.scheduler.sealed
  | .reconcileStarts => world.reconcileStarts
  | .reconcile queued accepted => world.reconcile queued accepted
  | .reserve resolve accepted => world.reserve resolve accepted
  | .stepInvocation id decision accepted => world.stepInvocation id decision accepted
  | .endInvocation id => world.withScheduler (world.scheduler.endInvocation id)
  | .runtimeCommit id creations next accepted =>
    world.gated id accepted fun mode =>
      TaskScheduler.runtimeCommit world.store id mode creations next
  | .memo id accepted => world.gated id accepted fun mode => TaskScheduler.memo id mode
  | .abort id keepRestart blocked accepted =>
    world.commit accepted (world.callback (TaskScheduler.abort world.store id keepRestart blocked))
  | .abortConversation id background queued accepted =>
    world.commit accepted
      (world.callback
        (TaskScheduler.abortConversation world.store id background (world.queuedIn queued)))
  | .hostCommit scope creations accepted =>
    world.commit accepted
      (world.callback fun scheduler commit =>
        ⟨scheduler, TaskScheduler.stageCreations world.store scope creations commit⟩)
  | .inspect => world.withScheduler (world.scheduler.loadScopes world.store [])
  | .waitForIdle => world.withScheduler world.scheduler.scheduleReconcile
  | .sweep =>
    world.withScheduler
      { world.scheduler with index := world.scheduler.index.sweep }

def initial : World J where
  store := .empty
  scheduler := .opened .empty
  reconciling := []
  cleaned := []

def after (world : World J) (events : List (Event J)) : World J :=
  Runs.after step world events

end World

end PiEmbodied.Durable.Scheduler
