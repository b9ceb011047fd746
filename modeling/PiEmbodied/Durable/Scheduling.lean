import PiEmbodied.Durable.OwnershipRuns

/-!
# The operations of the task scheduler

Every task transition is decided and written by one callback on the Session
line.  The candidate sets hold the tasks each pass looks at; the commit
listener brings them in line with the records a commit wrote.
-/

namespace PiEmbodied.Durable.Scheduler

open Tasks
open Tasks.Transaction (Operation)

variable {J : Type}

/-! ## The scheduler -/

inductive Mode where
  | run
  | abort
deriving DecidableEq

structure TaskScheduler (J : Type) where
  index : Index J
  /-- Live tasks with cancellation intent. -/
  intent : List ℕ
  /-- Live tasks that are not `completing`; ones found waiting leave it. -/
  runnable : List ℕ
  /-- `completing` tasks the next finalize pass checks. -/
  finalizeChecks : List ℕ
  /-- Live waiting tasks by each task in their `on`. -/
  waiters : ℕ → List ℕ
  /-- `failFast` waiters the next reconcile checks. -/
  failFastChecks : List ℕ
  /-- Live tasks with `abandonOnRestart` found at open. -/
  abandoned : List ℕ
  invocations : ℕ → Option Mode
  (reconcileScheduled cascadePending enabled closing : Bool)

namespace Index

/-- `#nearestLiveAbove`: the live task that ended ordinary work held. -/
def nearestLiveAbove (index : Index J) (overlay : Option (Overlay J)) :
    ℕ → TaskNode → Option (TaskRecord J)
  | 0, _ => none
  | steps + 1, node =>
    if node.background then none
    else
      let owner :=
        match node.owner with
        | some owner => some owner
        | none => (index.edge overlay node.conversationId).join
      match owner with
      | none => none
      | some owner =>
        match index.record overlay owner with
        | some record =>
          if record.live then some record
          else nearestLiveAbove index overlay steps record.toTaskNode
        | none =>
          match index.settled owner with
          | none => none
          | some above => nearestLiveAbove index overlay steps above

/-- `#cancellingOwner`: the nearest live owner whose cancellation intent
reaches a node. -/
def cancellingOwner (index : Index J) : ℕ → Node → Option (TaskRecord J)
  | 0, _ => none
  | steps + 1, .conversation id =>
    match index.edges id with
    | some (some owner) => cancellingOwner index steps (.task owner)
    | _ => none
  | steps + 1, .task id =>
    match index.node id with
    | none => none
    | some node =>
      match (index.live id).filter TaskRecord.cancellationIntent with
      | some record => some record
      | none =>
        if node.background then none
        else cancellingOwner index steps (parentNode node)

end Index

/-- What a callback staged, with the conversations of the inputs it queued and
the outcomes it ran the Harness cleanup of. -/
structure Commit (J : Type) where
  tx : Transaction J
  (queued settled : List ℕ)

namespace TaskScheduler

def scheduleReconcile (scheduler : TaskScheduler J) : TaskScheduler J :=
  if scheduler.reconcileScheduled || scheduler.closing then scheduler
  else { scheduler with reconcileScheduled := true }

def belowCancelled (scheduler : TaskScheduler J) (start : Node) : Bool :=
  !scheduler.intent.isEmpty && (scheduler.index.cancellingOwner (start.number + 1) start).isSome

/-! ## What a committed record changes -/

/-- `#release`: the nearest live task above ended ordinary work may be free. -/
def release (scheduler : TaskScheduler J) (node : TaskNode) (depth : ℕ) :
    TaskScheduler J :=
  match scheduler.index.nearestLiveAbove none depth node with
  | none => scheduler
  | some above =>
    if above.state.isCompleting then
      { scheduler with
        finalizeChecks := insertLast scheduler.finalizeChecks above.id }
    else if above.abortRequested then
      { scheduler with runnable := insertLast scheduler.runnable above.id }
    else scheduler

/-- A task no longer waits on what its previous record named. -/
def forgetWait (scheduler : TaskScheduler J) (record : Option (TaskRecord J)) :
    TaskScheduler J :=
  match record with
  | none => scheduler
  | some record =>
    { scheduler with
      waiters := record.state.waitsOn.foldl
        (fun waiters on => Function.update waiters on (without (waiters on) record.id))
        scheduler.waiters }

def rememberWait (scheduler : TaskScheduler J) (record : TaskRecord J) :
    TaskScheduler J :=
  { scheduler with
    waiters := record.state.waitsOn.foldl
      (fun waiters on => Function.update waiters on (insertLast (waiters on) record.id))
      scheduler.waiters }

/-- `#track` of a terminal record. -/
def trackEnded (scheduler : TaskScheduler J) (record : TaskRecord J) :
    TaskScheduler J :=
  let ended : TaskScheduler J :=
    { scheduler with
      index := scheduler.index.withEnded record
      intent := without scheduler.intent record.id
      runnable := without scheduler.runnable record.id
      finalizeChecks := without scheduler.finalizeChecks record.id }
  let released := ended.release record.toTaskNode (record.id + 1)
  { released with
    runnable := (released.waiters record.id).foldl insertLast released.runnable
    index := (released.index.relist (.task record.id)).dropIfUnneeded (.task record.id) }

/-- `#track` of a record that is not terminal. -/
def trackLive (scheduler : TaskScheduler J) (record : TaskRecord J) :
    TaskScheduler J :=
  let lives : TaskScheduler J :=
    { scheduler with
      index := scheduler.index.track record
      intent :=
        if record.cancellationIntent then
          insertLast scheduler.intent record.id
        else without scheduler.intent record.id }
  (if record.state.isCompleting then
    { lives with
      runnable := without lives.runnable record.id
      finalizeChecks := insertLast lives.finalizeChecks record.id }
  else
    { lives with
      runnable := insertLast lives.runnable record.id }).rememberWait record

/-- `#track`: the sets are brought in line with a committed record. -/
def track (scheduler : TaskScheduler J) (record : TaskRecord J) : TaskScheduler J :=
  let forgotten := scheduler.forgetWait (scheduler.index.live record.id)
  if record.state.isTerminal then forgotten.trackEnded record
  else forgotten.trackLive record

/-- A live task that waits with `failFast`. -/
def waitsFailFast (record : TaskRecord J) : Bool :=
  match record.state with
  | .waiting _ _ .failFast => true
  | _ => false

/-- The body of the loop of `#observe` over the records a commit wrote. -/
def observeTask (scheduler : TaskScheduler J) (record : TaskRecord J) :
    TaskScheduler J :=
  let previous := scheduler.index.live record.id
  let tracked := scheduler.track record
  if record.state.isTerminal then
    { tracked with
      failFastChecks := without tracked.failFastChecks record.id
    }.scheduleReconcile
  else
    let marked : TaskScheduler J :=
      if record.abortRequested &&
          !(previous.any fun previous => previous.abortRequested) then
        { tracked with cascadePending := true }
      else tracked
    let upgraded : TaskScheduler J :=
      if (previous.any fun previous => previous.abortReason.isSome) &&
          record.abortReason.isNone then
        { marked with cascadePending := true }
      else marked
    let held : TaskScheduler J :=
      if record.state.isCompleting &&
          !(previous.any fun previous => previous.state.isCompleting) then
        (if record.cancellationIntent then
          { upgraded with cascadePending := true }
        else upgraded).scheduleReconcile
      else upgraded
    if waitsFailFast record &&
        !(previous.any fun previous => previous.state.isWaiting) then
      { held with
        failFastChecks := insertLast held.failFastChecks record.id
      }.scheduleReconcile
    else held

/-- The `failFast` waiters of a task that failed are checked. -/
def observeFailed (scheduler : TaskScheduler J) (id : ℕ) : TaskScheduler J :=
  (scheduler.waiters id).foldl
    (fun scheduler waiter =>
      if (scheduler.index.live waiter).any waitsFailFast then
        { scheduler with
          failFastChecks := insertLast scheduler.failFastChecks waiter
        }.scheduleReconcile
      else scheduler)
    scheduler

/-- A queued input below a cancelled owner is withdrawn, even after its
cascade. -/
def observeInput (scheduler : TaskScheduler J) (conversation : ℕ) :
    TaskScheduler J :=
  if scheduler.intent.isEmpty then scheduler
  else if !scheduler.index.known (.conversation conversation) ||
      scheduler.belowCancelled (.conversation conversation) then
    { scheduler with cascadePending := true }
  else scheduler

def observeNew (scheduler : TaskScheduler J) (record : TaskRecord J) :
    TaskScheduler J :=
  if record.id ∈ scheduler.index.unloaded then scheduler.scheduleReconcile
  else if !record.background && !record.abortRequested &&
      scheduler.belowCancelled (parentNode record.toTaskNode) then
    { scheduler with cascadePending := true }
  else scheduler

/-- `#observe`, the commit listener. -/
def observe (scheduler : TaskScheduler J) (commit : Commit J) :
    TaskScheduler J :=
  let records := commit.tx.tasksById.map Write.record
  let before := scheduler.index.live
  let edges : TaskScheduler J :=
    { scheduler with
      index := commit.tx.conversations.foldl Index.observeEdge scheduler.index }
  let tracked := records.foldl observeTask edges
  let failed := records.filter fun record =>
    record.failedOutcome && !((before record.id).any TaskRecord.failedOutcome)
  let checked := failed.foldl (fun scheduler record => scheduler.observeFailed record.id) tracked
  let inputs := commit.queued.foldl observeInput checked
  let updated := records.filter fun record => record.live && (before record.id).isNone
  let new := updated.foldl observeNew inputs
  let cascading := if new.cascadePending then new.scheduleReconcile else new
  { cascading with index := cascading.index.sweep }

/-- A loaded node can reveal a cancelling owner: the next reconcile derives
marks again. -/
def loadChain (scheduler : TaskScheduler J) (store : Store J)
    (overlay : Option (Overlay J)) (start : Node) : TaskScheduler J :=
  let load := scheduler.index.loadChain store overlay start
  let loaded : TaskScheduler J := { scheduler with index := load.finish }
  if load.reveals then loaded.scheduleReconcile else loaded

/-- `#loadScopes`; `queued` are the conversations with queued inputs. -/
def loadScopes (scheduler : TaskScheduler J) (store : Store J)
    (queued : List ℕ) : TaskScheduler J :=
  let loaded := scheduler.index.unloaded.foldl
    (fun scheduler id =>
      if id ∈ scheduler.index.unloaded then
        scheduler.loadChain store none (.task id)
      else scheduler)
    scheduler
  queued.foldl
    (fun scheduler id => scheduler.loadChain store none (.conversation id))
    loaded

end TaskScheduler

/-- A callback in progress: what it did to the scheduler stays when it
throws. -/
structure Body (J : Type) where
  scheduler : TaskScheduler J
  staged : Except String (Commit J)

def Commit.setTask (commit : Commit J) (record : TaskRecord J) : Except String (Commit J) :=
  (commit.tx.setTask record).map fun tx => { commit with tx }

/-- `#settleOutcome`, the Harness cleanup of an outcome. -/
def Commit.settleOutcome (commit : Commit J) (record : TaskRecord J) :
    Commit J :=
  { commit with settled := commit.settled ++ [record.id] }

def Body.andThen (body : Body J) (next : TaskScheduler J → Commit J → Body J) : Body J :=
  match body.staged with
  | .error _ => body
  | .ok commit => next body.scheduler commit

namespace TaskScheduler

/-- `#hasOwnedLive` in a commit, not entering the tasks in `done`. -/
def hasOwnedLive (scheduler : TaskScheduler J) (commit : Commit J)
    (done : List ℕ) (id : ℕ) : Bool :=
  !(scheduler.index.ownedLive { overlay := some commit.tx, enter := fun id => id ∉ done }
      commit.tx.minted (.task id)).isEmpty

/-- `#waitingOn`, on committed records. -/
def waitingOn (scheduler : TaskScheduler J) (store : Store J) (record : TaskRecord J) : List ℕ :=
  if record.abortRequested then
    scheduler.index.ownedLive {} store.minted (.task record.id)
  else
    record.state.waitsOn.filter fun id => (scheduler.index.live id).isSome

/-- `#terminate`: an outcome the scheduler decided holds while ordinary owned
work is live. -/
def terminate (store : Store J) (record : TaskRecord J)
    (outcome : TaskOutcome J) (scheduler : TaskScheduler J) (commit : Commit J) :
    Body J :=
  let loaded := scheduler.loadScopes store []
  if loaded.hasOwnedLive commit [] record.id then
    ⟨loaded, commit.setTask (record.withState (.completing outcome))⟩
  else
    ⟨loaded, (commit.setTask (record.withState (.terminal outcome))).map
      fun commit => commit.settleOutcome record⟩

/-! ## Waits -/

/-- `#waitCycle` in progress: the task each reached one was reached from, the
tasks whose subtrees were walked, and the tasks to visit. -/
structure Search where
  via : List (ℕ × Option ℕ)
  (walked pending : List ℕ)

namespace Search

def reach (search : Search) (id : ℕ) (from_ : Option ℕ) : Search :=
  if (search.via.lookup id).isSome then search
  else
    { search with
      via := search.via ++ [(id, from_)]
      pending := search.pending ++ [id] }

def reachAll (search : Search) (ids : List ℕ) (from_ : Option ℕ) : Search :=
  ids.foldl (fun search id => search.reach id from_) search

/-- The steps from a member of `on` to a task it reaches. -/
def path (search : Search) : ℕ → ℕ → List ℕ
  | 0, end_ => [end_]
  | steps + 1, end_ =>
    match search.via.lookup end_ with
    | some (some before) => search.path steps before ++ [end_]
    | _ => [end_]

end Search

/-- The body of the loop of `#waitCycle`, once a task is taken. -/
def visit (scheduler : TaskScheduler J) (tx : Transaction J) (search : Search) (id : ℕ) : Search :=
  match scheduler.index.record (some tx) id with
  | none => search
  | some record =>
    if record.state.isTerminal then search
    else
      let waits :=
        if record.abortRequested then search
        else search.reachAll record.state.waitsOn (some id)
      if id ∈ waits.walked then waits
      else
        let walked := waits.walked ++ [id]
        let found := scheduler.index.ownedLive
          { overlay := some tx, enter := fun below => below ∉ walked }
          tx.minted (.task id)
        { waits.reachAll found (some id) with walked := walked ++ found }

/-- The loop of `#waitCycle`; no task is visited twice, so that as many steps
as there are IDs do. -/
def searchFrom (scheduler : TaskScheduler J) (tx : Transaction J)
    (task : ℕ) : ℕ → Search → Option (List ℕ)
  | 0, _ => none
  | steps + 1, search =>
    match search.pending.getLast? with
    | none => none
    | some id =>
      let taken : Search := { search with pending := search.pending.dropLast }
      if id = task then some (search.path tx.minted id)
      else
        searchFrom scheduler tx task steps (scheduler.visit tx taken id)

/-- `#waitCycle`, once the chains are loaded. -/
def waitCycle (scheduler : TaskScheduler J) (tx : Transaction J)
    (task : ℕ) (on : List ℕ) : Option (List ℕ) :=
  searchFrom scheduler tx task (tx.minted + 1)
    (({ via := [], walked := [], pending := [] } : Search).reachAll on none)

/-- The body of the loop over the members of a wait: a live child already
holds the waiter, and a terminal task has no edges. -/
def waitTarget (store : Store J) (tx : Transaction J) (current : ℕ)
    (policy : JoinPolicy) (targets : List ℕ) (id : ℕ) :
    Except String (List ℕ) :=
  match tx.currentTask store id with
  | none => .error s!"Task {id} does not exist"
  | some member =>
    if policy = .failFast ∧ member.owner ≠ some current then
      .error s!"Task {current} can wait failFast only on tasks it owns; {
        id} is not one"
    else if member.live && member.owner ≠ some current then
      .ok (targets ++ [id])
    else .ok targets

def waitTargets (store : Store J) (tx : Transaction J) (current : ℕ)
    (policy : JoinPolicy) (on : List ℕ) : Except String (List ℕ) :=
  on.foldlM (waitTarget store tx current policy) []

def validateWait (store : Store J) (mode : Mode) (current : ℕ)
    (on : List ℕ) (policy : JoinPolicy) (scheduler : TaskScheduler J)
    (commit : Commit J) : Body J :=
  match mode with
  | .abort => ⟨scheduler, .error s!"Abort handler of task {current} cannot wait"⟩
  | .run =>
    match waitTargets store commit.tx current policy on with
    | .error error => ⟨scheduler, .error error⟩
    | .ok [] => ⟨scheduler, .ok commit⟩
    | .ok targets =>
      let loaded := scheduler.loadScopes store []
      match loaded.waitCycle commit.tx current targets with
      | none => ⟨loaded, .ok commit⟩
      | some cycle =>
        ⟨loaded,
          .error s!"Task {current} cannot wait on {
            cycle.headD 0}: {current :: cycle} is a wait cycle"⟩

/-! ## Runtime commits -/

inductive NextTaskState (J : Type) where
  | running (checkpoint : J)
  | waiting (checkpoint : J) (on : List ℕ) (policy : JoinPolicy)
  | terminal (outcome : TaskOutcome J)

/-- `#commitState`: a terminal state holds while ordinary owned work is live,
work that the same commit creates included. -/
def commitState (store : Store J) (mode : Mode) (current : TaskRecord J)
    (next : NextTaskState J) (scheduler : TaskScheduler J) (commit : Commit J) : Body J :=
  match next with
  | .running checkpoint => ⟨scheduler, commit.setTask (current.withState (.running checkpoint))⟩
  | .waiting checkpoint on policy =>
    (validateWait store mode current.id on policy scheduler commit).andThen
      fun scheduler commit =>
        ⟨scheduler,
          commit.setTask
            (current.withState (.waiting checkpoint on policy))⟩
  | .terminal outcome =>
    let loaded := scheduler.loadScopes store []
    let chains := (commit.tx.tasksById.map Write.record).foldl
      (fun scheduler record =>
        scheduler.loadChain store (some commit.tx) (parentNode record.toTaskNode))
      loaded
    ⟨chains,
      commit.setTask
        (current.withState
          (if chains.hasOwnedLive commit [] current.id then
            .completing outcome
          else .terminal outcome))⟩

/-- What a change does: it creates work, queues inputs and writes other tables
and documents. -/
inductive Creation (J : Type) where
  | createTask (options : TaskOptions) (checkpoint : J)
  | createConversation (owner : Option ℕ)
  | createRootConversation
  | queueInput (conversation : ℕ)
  | touch

namespace Creation

def operation (scope : Option ℕ) : Creation J → Operation J
  | createTask options checkpoint => .createTask scope options checkpoint
  | createConversation owner => .createConversation owner
  | createRootConversation => .createRootConversation
  | queueInput _ | touch => .touch

def queued : Creation J → Option ℕ
  | queueInput conversation => some conversation
  | _ => none

end Creation

def stageCreations (store : Store J) (scope : Option ℕ)
    (creations : List (Creation J)) (commit : Commit J) :
    Except String (Commit J) :=
  (commit.tx.stage store (creations.map (Creation.operation scope))).map
    fun tx =>
      { commit with
        tx
        queued := commit.queued ++ creations.filterMap Creation.queued }

/-- `#gated`: a commit of the running task of an invocation. -/
def gated (id : ℕ) (mode : Mode) (scheduler : TaskScheduler J)
    (change : TaskRecord J → Body J) : Body J :=
  if scheduler.closing then ⟨scheduler, .error "Session is closed"⟩
  else
    match scheduler.index.live id with
    | none => ⟨scheduler, .error s!"Task {id} is terminal"⟩
    | some current =>
      if !current.state.isRunning then
        ⟨scheduler, .error s!"Task {id} is not running"⟩
      else if mode = .run ∧ current.abortRequested = true then
        ⟨scheduler, .error s!"Task {id} has a durable abort mark"⟩
      else change current

/-- `runtime.commit`. -/
def runtimeCommit (store : Store J) (id : ℕ) (mode : Mode)
    (creations : List (Creation J)) (next : Option (NextTaskState J))
    (scheduler : TaskScheduler J) (commit : Commit J) : Body J :=
  scheduler.gated id mode fun current =>
    match stageCreations store (some current.conversationId) creations
        commit with
    | .error error => ⟨scheduler, .error error⟩
    | .ok commit =>
      match next with
      | none => ⟨scheduler, .ok commit⟩
      | some next => commitState store mode current next scheduler commit

/-- `runtime.memo` with a candidate: the record is written again. -/
def memo (id : ℕ) (mode : Mode) (scheduler : TaskScheduler J) (commit : Commit J) : Body J :=
  scheduler.gated id mode fun current => ⟨scheduler, commit.setTask current⟩

/-- `#end`: the task of an invocation is free. -/
def endInvocation (scheduler : TaskScheduler J) (id : ℕ) : TaskScheduler J :=
  if (scheduler.invocations id).isNone then scheduler
  else
    { scheduler with
      invocations := Function.update scheduler.invocations id none
      runnable :=
        if (scheduler.index.live id).isSome then
          insertLast scheduler.runnable id
        else scheduler.runnable }

/-- What the code of an invocation and its definition ask the step for. -/
inductive Decision where
  | goOn
  | stop
  | fault (message : String)
  /-- Back to `pending`, for a replacement definition. -/
  | handOver
deriving DecidableEq

/-- `#decide`: an abort mark and an owner's cancellation intent come first. -/
def decide (scheduler : TaskScheduler J) (current : TaskRecord J)
    (mode : Mode) (decision : Decision) : TaskScheduler J × Decision :=
  match mode with
  | .abort => (scheduler, decision)
  | .run =>
    if current.abortRequested then (scheduler, .stop)
    else if !current.background &&
        scheduler.belowCancelled (parentNode current.toTaskNode) then
      ({ scheduler with cascadePending := true }.scheduleReconcile, .stop)
    else (scheduler, decision)

/-- `#step`: one decision on the line. -/
def stepInvocation (store : Store J) (id : ℕ) (mode : Mode)
    (decision : Decision) (scheduler : TaskScheduler J) (commit : Commit J) : Body J :=
  match (scheduler.index.live id).filter
      fun record => record.state.isRunning && !scheduler.closing with
  | none => ⟨scheduler.endInvocation id, .ok commit⟩
  | some current =>
    let (decided, decision) := scheduler.decide current mode decision
    match decision with
    | .goOn => ⟨decided, .ok commit⟩
    | .stop => ⟨decided.endInvocation id, .ok commit⟩
    | .handOver =>
      ⟨decided.endInvocation id,
        match current.state with
        | .running checkpoint => commit.setTask (current.withState (.pending checkpoint))
        | _ => .ok commit⟩
    | .fault message =>
      terminate store current (.faulted ⟨message, none⟩) (decided.endInvocation id) commit

/-- What a registry snapshot makes of a record; a migration replaces its
checkpoint. -/
inductive Resolution (J : Type) where
  | ready (migrated : Option J)
  | blocked (reason : String)

def checkpoint : TaskState J → Option J
  | .pending checkpoint | .running checkpoint | .waiting checkpoint _ _ => some checkpoint
  | _ => none

def unrunnable (scheduler : TaskScheduler J) (id : ℕ) : TaskScheduler J :=
  { scheduler with runnable := without scheduler.runnable id }

def createInvocation (scheduler : TaskScheduler J) (id : ℕ) (mode : Mode) :
    TaskScheduler J :=
  { scheduler with
    invocations := Function.update scheduler.invocations id (some mode) }

/-- The body of the loop of `#reserve`. -/
def reserveTask (store : Store J) (resolve : TaskRecord J → Resolution J)
    (id : ℕ) (scheduler : TaskScheduler J) (commit : Commit J) : Body J :=
  match (scheduler.index.live id).filter
      fun record => !record.state.isCompleting && (scheduler.invocations id).isNone with
  | none => ⟨scheduler.unrunnable id, .ok commit⟩
  | some record =>
    let mode := if record.abortRequested then Mode.abort else Mode.run
    if !(scheduler.waitingOn store record).isEmpty then
      ⟨scheduler.unrunnable id, .ok commit⟩
    else if mode = .run ∧ record.background = false ∧
        scheduler.belowCancelled (parentNode record.toTaskNode) = true then
      ⟨{ scheduler with cascadePending := true }.scheduleReconcile, .ok commit⟩
    else
      match resolve record with
      | .blocked reason =>
        if mode = .abort ∧ record.abortReason = none then
          terminate store record (.orphaned reason) scheduler commit
        else ⟨scheduler, .ok commit⟩
      | .ready migrated =>
        ⟨(scheduler.unrunnable id).createInvocation id mode,
          match migrated.or (checkpoint record.state) with
          | none => .ok commit
          | some checkpoint =>
            if migrated.isNone && record.state.isRunning then .ok commit
            else
              commit.setTask (record.withState (.running checkpoint))⟩

/-- The abandoned tasks are abort-marked first, and nothing else. -/
def markAbandoned (scheduler : TaskScheduler J) (commit : Commit J) : Except String (Commit J) :=
  scheduler.abandoned.foldlM
    (fun commit id =>
      match (scheduler.index.live id).filter
          fun record => !record.abortRequested with
      | none => .ok commit
      | some record => commit.setTask (record.withAbortMark (some .restart)))
    commit

/-- The callback of `#reserve`. -/
def reserve (store : Store J) (resolve : TaskRecord J → Resolution J)
    (scheduler : TaskScheduler J) (commit : Commit J) : Body J :=
  if !scheduler.enabled || scheduler.closing then ⟨scheduler, .ok commit⟩
  else if !scheduler.abandoned.isEmpty then
    ⟨scheduler, scheduler.markAbandoned commit⟩
  else
    let loaded := scheduler.loadScopes store []
    loaded.runnable.foldl
      (fun body id => body.andThen (reserveTask store resolve id))
      ⟨loaded, .ok commit⟩

/-! ## Reconciliation -/

/-- One candidate of the loop of `#finalize`, in a round. -/
structure Round (J : Type) where
  commit : Commit J
  (done next : List ℕ)

def finalizeTask (scheduler : TaskScheduler J) (round : Round J) (id : ℕ) :
    Except String (Round J) :=
  match scheduler.index.record (some round.commit.tx) id with
  | none => .ok round
  | some record =>
    match record.state with
    | .completing outcome =>
      if id ∈ round.done then .ok round
      else if scheduler.hasOwnedLive round.commit round.done id then
        .ok round
      else
        (round.commit.setTask (record.withState (.terminal outcome))).map
          fun commit =>
            { commit :=
                if outcome.isScheduler then commit.settleOutcome record
                else commit
              done := round.done ++ [id]
              next :=
                match scheduler.index.nearestLiveAbove (some commit.tx)
                    (id + 1) record.toTaskNode with
                | none => round.next
                | some above =>
                  if above.state.isCompleting then
                    insertLast round.next above.id
                  else round.next }
    | _ => .ok round

/-- The rounds of `#finalize`: each one ends tasks, so that as many rounds as
there are IDs do. -/
def finalizeRounds (scheduler : TaskScheduler J) :
    ℕ → List ℕ → List ℕ → Commit J → Except String (Commit J)
  | 0, _, _, commit => .ok commit
  | rounds + 1, round, done, commit =>
    if round.isEmpty then .ok commit
    else
      round.foldlM scheduler.finalizeTask { commit, done, next := [] } >>= fun result =>
        finalizeRounds scheduler rounds result.next result.done result.commit

/-- `#finalize`: the terminal record of every `completing` task without live
ordinary owned work. -/
def finalize (scheduler : TaskScheduler J) (commit : Commit J) : Body J :=
  ⟨{ scheduler with finalizeChecks := [] },
    scheduler.finalizeRounds (commit.tx.minted + 1) scheduler.finalizeChecks [] commit⟩

/-- A mark of a reconcile pass; a request wins over `restart`. -/
def addMark (marks : List (TaskRecord J × Option AbortReason))
    (record : TaskRecord J) (reason : Option AbortReason) :
    List (TaskRecord J × Option AbortReason) :=
  if marks.any fun mark => mark.1.id = record.id && mark.2.isNone then marks
  else if record.abortRequested &&
      (record.abortReason.isNone || reason.isSome) then marks
  else marks.filter (fun mark => mark.1.id ≠ record.id) ++ [(record, reason)]

def cascadeMarks (scheduler : TaskScheduler J) (store : Store J)
    (marks : List (TaskRecord J × Option AbortReason)) (id : ℕ) :
    List (TaskRecord J × Option AbortReason) :=
  match scheduler.index.live id with
  | none => marks
  | some owner =>
    let reason :=
      if owner.abortReason = some .restart ∧ owner.failedOutcome = false then
        some AbortReason.restart
      else none
    (scheduler.index.walkDown { enter := fun below => below ∉ scheduler.intent } store.minted
        (.task id)).foldl
      (fun marks reached =>
        match reached.live with
        | none => marks
        | some record =>
          if reached.node.background then marks
          else addMark marks record reason)
      marks

/-- The marks of a failed `failFast` wait, for every other live member. -/
def failFastMarks (scheduler : TaskScheduler J) (store : Store J)
    (marks : List (TaskRecord J × Option AbortReason)) (id : ℕ) :
    List (TaskRecord J × Option AbortReason) :=
  match scheduler.index.live id with
  | none => marks
  | some waiter =>
    if waiter.state.waitsOn.any fun member =>
        ((scheduler.index.live member).or (store.tasks member)).any TaskRecord.failedOutcome then
      waiter.state.waitsOn.foldl
        (fun marks member =>
          match (scheduler.index.live member).filter
              fun record => !record.failedOutcome with
          | none => marks
          | some record => addMark marks record none)
        marks
    else marks

/-- The callback of `#reconcile`; `queued` are the conversations with queued
inputs. -/
def reconcile (store : Store J) (cascade : Bool) (checks queued : List ℕ)
    (scheduler : TaskScheduler J) (commit : Commit J) : Body J :=
  if scheduler.closing then ⟨scheduler, .ok commit⟩
  else
    let loaded := scheduler.loadScopes store (if cascade then queued else [])
    let marks := checks.foldl (loaded.failFastMarks store)
      (loaded.intent.foldl (loaded.cascadeMarks store) [])
    let withdrawn := (if cascade then queued else []).filter fun id =>
      loaded.belowCancelled (.conversation id)
    match marks.foldlM
        (fun commit mark => commit.setTask (mark.1.withAbortMark mark.2))
        commit with
    | .error error => ⟨loaded, .error error⟩
    | .ok marked =>
      loaded.finalize
        { marked with
          tx := withdrawn.foldl (fun tx _ => tx.touch) marked.tx }

/-- The callback of `abort`; `blocked` is why no definition can take the task,
if none can. -/
def abort (store : Store J) (id : ℕ) (keepRestart : Bool)
    (blocked : Option String) (scheduler : TaskScheduler J) (commit : Commit J) : Body J :=
  match store.tasks id with
  | none => ⟨scheduler, .error s!"Task {id} does not exist"⟩
  | some current =>
    if current.state.isTerminal then ⟨scheduler, .ok commit⟩
    else if keepRestart ∧ current.abortReason = some .restart then
      ⟨scheduler, .ok commit⟩
    else
      let idle := (scheduler.invocations id).isNone && !current.state.isCompleting
      let loaded :=
        if idle then scheduler.loadScopes store [] else scheduler
      match (if idle && (loaded.index.ownedLive {} store.minted
          (.task id)).isEmpty then blocked else none) with
      | some reason => terminate store current (.orphaned reason) loaded commit
      | none =>
        ⟨loaded,
          if !current.abortRequested || current.abortReason.isSome then
            commit.setTask (current.withAbortMark none)
          else .ok commit⟩

/-- The callback of `abortConversation`. -/
def abortConversation (store : Store J) (id : ℕ) (background : Bool)
    (queued : List ℕ) (scheduler : TaskScheduler J) (commit : Commit J) :
    Body J :=
  let loaded := scheduler.loadScopes store queued
  let reached := loaded.index.walkDown { crossBackground := background }
    store.minted (.conversation id)
  ⟨loaded,
    (reached.foldlM
      (fun (commit : Commit J) (reach : Index.Reach J) =>
        match reach.live with
        | none => Except.ok commit
        | some live =>
          if reach.node.background && !background then .ok commit
          else if !live.abortRequested || live.abortReason.isSome then
            commit.setTask (live.withAbortMark none)
          else .ok commit)
      commit).map fun (commit : Commit J) =>
        { commit with tx := queued.foldl (fun tx _ => tx.touch) commit.tx }⟩

def opened (store : Store J) : TaskScheduler J :=
  let start : TaskScheduler J :=
    { index := .empty
      intent := []
      runnable := []
      finalizeChecks := []
      waiters := fun _ => []
      failFastChecks := []
      abandoned := []
      invocations := fun _ => none
      reconcileScheduled := false
      cascadePending := false
      enabled := false
      closing := false }
  let tracked := (liveRecords store).foldl track start
  { tracked with
    abandoned := ((liveRecords store).filter fun record =>
      record.abandonOnRestart).map fun record => record.id
    failFastChecks := ((liveRecords store).filter waitsFailFast).map
      fun record => record.id }

/-- The callback of `open`: surviving running tasks become pending. -/
def restart (store : Store J) (commit : Commit J) : Except String (Commit J) :=
  (liveRecords store).foldlM
    (fun commit record =>
      match record.state with
      | .running checkpoint => commit.setTask (record.withState (.pending checkpoint))
      | _ => .ok commit)
    commit

end TaskScheduler

end PiEmbodied.Durable.Scheduler
