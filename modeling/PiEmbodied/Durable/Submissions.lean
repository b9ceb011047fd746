import PiEmbodied.Coding
import PiEmbodied.Picks
import PiEmbodied.Runs

/-!
# Submissions of a conversation

An input or a write is admitted at once, or queued in the inbox until a
boundary of a run places it.  A run answers the inputs placed for it.
-/

namespace PiEmbodied.Durable.Submissions

/-! ## Entries -/

inductive Message (J : Type) where
  | user (content : J) (timestamp : ℕ)
  | other (value : J)
deriving DecidableEq

inductive Target where
  | self
  | entry (id : ℕ)
deriving DecidableEq

structure EntryDraft (J : Type) where
  kind : String
  data : Option J
  model : Option (List (Message J))
  head : Option Target
  edits : Option J
deriving DecidableEq

structure EntryRecord (J : Type) where
  id : ℕ
  kind : String
  data : Option J
  model : Option (List (Message J))
  head : Option ℕ
  edits : Option J
deriving DecidableEq

/-- The entry an input is placed as, instead of `pi.user`. -/
structure InputEntry (J : Type) where
  kind : String
  data : Option J
deriving DecidableEq

/-! ## Submissions -/

inductive SubmissionType where
  | input
  | write
deriving DecidableEq

inductive Status where
  | queued
  | placed
  | done
  | unanswered
deriving DecidableEq

def Status.settled : Status → Bool
  | .queued | .placed => false
  | .done | .unanswered => true

structure SubmissionRecord (J : Type) where
  id : ℕ
  requestId : Option String
  type : SubmissionType
  status : Status
  (entry answer : Option ℕ)
  reason : Option String
  detail : Option J
deriving DecidableEq

inductive SubmissionChange (J : Type) where
  | placed (entry : ℕ)
  | done (answer : ℕ)
  | unanswered (reason : String) (detail : Option J)
deriving DecidableEq

inductive Mode where
  | steer
  | followUp
deriving DecidableEq

inductive InboxItem (J : Type) where
  | input (id : ℕ) (mode : Mode) (content : J) (entry : Option (InputEntry J))
  | write (id : ℕ) (entry : EntryDraft J)
deriving DecidableEq

def InboxItem.id {J : Type} : InboxItem J → ℕ
  | .input id _ _ _ | .write id _ => id

def InboxItem.mode {J : Type} : InboxItem J → Option Mode
  | .input _ mode _ _ => some mode
  | .write _ _ => none

def InboxItem.type {J : Type} : InboxItem J → SubmissionType
  | .input _ _ _ _ => .input
  | .write _ _ => .write

inductive QueueMode where
  | all
  | oneAtATime
deriving DecidableEq

structure QueueModes where
  (steeringMode followUpMode : QueueMode)
deriving DecidableEq

inductive WhenBusy where
  | steer
  | followUp
  | reject
deriving DecidableEq

inductive Body (J : Type) where
  | input (content : J) (whenBusy : Option WhenBusy) (entry : Option (InputEntry J))
  | write (entry : EntryDraft J)
deriving DecidableEq

def Body.type {J : Type} : Body J → SubmissionType
  | .input _ _ _ => .input
  | .write _ => .write

structure SubmissionDraft (J : Type) where
  requestId : Option String
  body : Body J
deriving DecidableEq

structure Run where
  taskId : ℕ
  inputs : List ℕ
deriving DecidableEq

/-- `inherited` is the head marker that the parents of a fork leave to it,
`generations` the generations that may still commit. -/
structure Conversation (J : Type) where
  records : ℕ → Option (SubmissionRecord J)
  requests : String → Option ℕ
  inbox : List (InboxItem J)
  run : Option Run
  generations : List ℕ
  entries : List (EntryRecord J)
  inherited : Option ℕ

def Conversation.fresh {J : Type} (inherited : Option ℕ) : Conversation J where
  records := fun _ => none
  requests := fun _ => none
  inbox := []
  run := none
  generations := []
  entries := []
  inherited := inherited

/-- A commit on one conversation; `next` is the next ID to mint. -/
structure Tx (J : Type) where
  next : ℕ
  conversation : Conversation J

inductive Failure where
  | notQueued (id : ℕ)
  | notPlaced (id : ℕ)
  | missing (id : ℕ)
  | inputKind (kind : String)
  | otherType (requestId : String) (type : SubmissionType)
  | busy
  | ended (task : ℕ)
deriving DecidableEq

variable {J : Type}

/-! ## Table writes -/

/-- Placement turns a queued input `placed` and a queued write `done`; a settled
record stays. -/
def applySubmissionChange (current : SubmissionRecord J) :
    SubmissionChange J → Except Failure (SubmissionRecord J)
  | change =>
    if current.status.settled = true then .ok current
    else
      match change with
      | .placed entry =>
        if current.status ≠ .queued then .error (.notQueued current.id)
        else
          .ok
            { current with
              status := if current.type = .input then .placed else .done
              entry := some entry }
      | .done answer =>
        if current.status ≠ .placed then .error (.notPlaced current.id)
        else .ok { current with status := .done, answer := some answer }
      | .unanswered reason detail =>
        .ok
          { current with
            status := .unanswered
            reason := some reason
            detail := detail }

namespace Tx

variable (tx : Tx J)

abbrev submission (id : ℕ) : Option (SubmissionRecord J) :=
  tx.conversation.records id

def put (id : ℕ) (record : SubmissionRecord J) : Tx J :=
  { tx with
    conversation :=
      { tx.conversation with
        records := Function.update tx.conversation.records id (some record) } }

/-- `settleSubmission` and `placeSubmission` -/
def change (id : ℕ) (change : SubmissionChange J) : Except Failure (Tx J) :=
  match tx.submission id with
  | none => .error (.missing id)
  | some current => (applySubmissionChange current change).map (tx.put id)

def setInbox (items : List (InboxItem J)) : Tx J :=
  { tx with conversation := { tx.conversation with inbox := items } }

def record (draft : EntryDraft J) : EntryRecord J where
  id := tx.next
  kind := draft.kind
  data := draft.data
  model := draft.model
  head :=
    draft.head.map fun
      | .self => tx.next
      | .entry id => id
  edits := draft.edits

def appendEntry (draft : EntryDraft J) : Tx J where
  next := tx.next + 1
  conversation :=
    { tx.conversation with
      entries := tx.conversation.entries ++ [tx.record draft] }

/-- `create` gets its ID. -/
def createSubmission (create : SubmissionRecord J) : Tx J where
  next := tx.next + 1
  conversation :=
    { tx.conversation with
      records :=
        Function.update tx.conversation.records tx.next (some { create with id := tx.next })
      requests :=
        match create.requestId with
        | none => tx.conversation.requests
        | some requestId => Function.update tx.conversation.requests requestId (some tx.next) }

def createGeneration : Tx J where
  next := tx.next + 1
  conversation :=
    { tx.conversation with
      generations := tx.conversation.generations ++ [tx.next] }

def pushItem (item : InboxItem J) : Tx J :=
  tx.setInbox (tx.conversation.inbox ++ [item])

def endGeneration (task : ℕ) : Tx J :=
  { tx with
    conversation :=
      { tx.conversation with
        generations := tx.conversation.generations.erase task } }

def setRun (run : Option Run) : Tx J :=
  { tx with conversation := { tx.conversation with run := run } }

def startRun (inputs : List ℕ) : Tx J :=
  tx.createGeneration.setRun (some ⟨tx.next, inputs⟩)

/-- `handOver` to a generation created for it. -/
def handOver (from_ : ℕ) : Tx J :=
  tx.createGeneration.setRun
    (tx.conversation.run.map fun run =>
      if run.taskId = from_ then { run with taskId := tx.next } else run)

def endRun (task : ℕ) (settlement : SubmissionChange J) : Except Failure (Tx J) :=
  match tx.conversation.run with
  | none => .ok tx
  | some run =>
    if run.taskId = task then
      (run.inputs.foldlM (fun (tx : Tx J) id => tx.change id settlement) tx).map
        fun tx => tx.setRun none
    else .ok tx

end Tx

/-! ## Boundaries -/

def latestHeadMarker (conversation : Conversation J) : Option ℕ :=
  (conversation.entries.reverse.findSome? EntryRecord.head).or
    conversation.inherited

def hasQueuedReset (items : List (InboxItem J)) : Bool :=
  items.any fun item =>
    match item with
    | .input _ _ _ _ => false
    | .write _ entry => entry.head = some .self

def isStale (head : Option ℕ) (entry : EntryDraft J) : Bool :=
  match entry.head, head with
  | some (.entry target), some head => target < head
  | _, _ => false

def isDisplayOnly (entry : EntryDraft J) : Bool :=
  entry.model.isNone && entry.head.isNone && entry.edits.isNone

/-- The draft of an input's entry: `pi.user`, or the input's own. -/
def inputDraft (content : J) (entry : Option (InputEntry J)) (now : ℕ) : EntryDraft J where
  kind :=
    match entry with
    | none => "pi.user"
    | some entry => entry.kind
  data := entry.bind InputEntry.data
  model := some [.user content now]
  head := none
  edits := none

inductive At where
  | postTools
  | final
deriving DecidableEq

/-- The positions of the items of a mode that a queue mode selects. -/
def pick (items : List (InboxItem J)) (mode : Mode) (queueMode : QueueMode) :
    List ℕ :=
  let indexes :=
    (List.range items.length).filter fun index => items[index]?.bind InboxItem.mode = some mode
  match queueMode with
  | .all => indexes
  | .oneAtATime => indexes.take 1

def writePositions (items : List (InboxItem J)) : List ℕ :=
  (List.range items.length).filter fun index => items[index]?.map InboxItem.type = some .write

def userPositions (items : List (InboxItem J)) (modes : QueueModes) (final : Bool) : List ℕ :=
  (pick items .steer modes.steeringMode ++ (if final then pick items .followUp modes.followUpMode
    else [])).insertionSort (· ≤ ·)

/-- One iteration over the selected writes, with the newest head. -/
def placeWrite (state : Tx J × Option ℕ) : InboxItem J → Except Failure (Tx J × Option ℕ)
  | .input _ _ _ _ => .ok state
  | .write id draft =>
    if isStale state.2 draft then
      (state.1.change id (.unanswered "stale" none)).map fun tx => (tx, state.2)
    else
      ((state.1.appendEntry draft).change id (.placed state.1.next)).map
        fun tx =>
          (tx,
            match draft.head with
            | none => state.2
            | some .self => some state.1.next
            | some (.entry head) => some head)

def placeUser (now : ℕ) (tx : Tx J) : InboxItem J → Except Failure (Tx J)
  | .input id _ content entry =>
    (tx.appendEntry (inputDraft content entry now)).change id (.placed tx.next)
  | .write _ _ => .ok tx

/-- The placed inputs, in ID order, and whether a reset was selected. -/
structure BoundaryResult where
  users : List ℕ
  reset : Bool
deriving DecidableEq

/-- `applyBoundary`, with the head that `prepareBoundary` read. -/
def applyBoundary (tx : Tx J) (head : Option ℕ) (modes : QueueModes) (at_ : At)
    (now : ℕ) : Except Failure (Tx J × BoundaryResult) :=
  let items := tx.conversation.inbox
  let reset := hasQueuedReset items
  let final := decide (at_ = .final) || reset
  let writes := writePositions items
  let users := userPositions items modes final
  (Picks.taken items writes).foldlM placeWrite (tx, head) >>= fun written =>
    (Picks.taken items users).foldlM (placeUser now) written.1 >>= fun tx =>
      .ok
        (tx.setInbox (Picks.left items ((writes ++ users).insertionSort (· ≥ ·))),
          ⟨(Picks.taken items users).map InboxItem.id, reset⟩)

/-! ## Admission -/

def checkInputEntry : Body J → Except Failure Unit
  | .input _ _ (some entry) =>
    if entry.kind = "" ∨ entry.kind.startsWith "pi." = true then
      .error (.inputKind entry.kind)
    else .ok ()
  | _ => .ok ()

def bare (draft : SubmissionDraft J) (status : Status) : SubmissionRecord J where
  id := 0
  requestId := draft.requestId
  type := draft.body.type
  status := status
  entry := none
  answer := none
  reason := none
  detail := none

def itemOf (id : ℕ) : Body J → InboxItem J
  | .write entry => .write id entry
  | .input content whenBusy entry =>
    .input id (if whenBusy = some .steer then .steer else .followUp) content
      entry

def enqueue (tx : Tx J) (draft : SubmissionDraft J) : Tx J :=
  (tx.createSubmission (bare draft .queued)).pushItem (itemOf tx.next draft.body)

def writeNow (tx : Tx J) (draft : SubmissionDraft J) (entry : EntryDraft J) :
    Tx J :=
  (tx.appendEntry entry).createSubmission { bare draft .done with entry := some tx.next }

/-- The submission's ID, with the commit; a known request has its own. -/
def admitSubmission (tx : Tx J) (draft : SubmissionDraft J) (now : ℕ)
    (modes : QueueModes) : Except Failure (ℕ × Tx J) :=
  checkInputEntry draft.body >>= fun _ =>
    match draft.requestId.bind fun requestId =>
      (tx.conversation.requests requestId).bind tx.conversation.records with
    | some existing =>
      if existing.type ≠ draft.body.type then
        .error (.otherType (draft.requestId.getD "") existing.type)
      else .ok (existing.id, tx)
    | none =>
      match draft.body with
      | .write entry =>
        if isDisplayOnly entry && !hasQueuedReset tx.conversation.inbox then
          .ok (tx.next + 1, writeNow tx draft entry)
        else if tx.conversation.run.isSome then
          .ok (tx.next, enqueue tx draft)
        else if tx.conversation.inbox ≠ [] then
          queued
        else if isStale (latestHeadMarker tx.conversation) entry then
          .ok
            (tx.next,
              tx.createSubmission
                { bare draft .unanswered with reason := some "stale" })
        else .ok (tx.next + 1, writeNow tx draft entry)
      | .input content whenBusy entry =>
        if tx.conversation.run.isSome then
          if whenBusy = some .reject then .error .busy
          else .ok (tx.next, enqueue tx draft)
        else if tx.conversation.inbox ≠ [] then queued
        else
          .ok
            (tx.next + 1,
              ((tx.appendEntry (inputDraft content entry now)
                ).createSubmission { bare draft .placed with entry := some tx.next }
                ).startRun [tx.next + 1])
where
  /-- An idle conversation with queued items runs a final boundary. -/
  queued : Except Failure (ℕ × Tx J) :=
    (applyBoundary (enqueue tx draft) (latestHeadMarker tx.conversation) modes
      .final now).map fun (after, result) =>
        (tx.next,
          if result.users = [] then after else after.startRun result.users)

/-- `Submissions.abort`: a queued submission settles and leaves the inbox. -/
def withdraw (tx : Tx J) (id : ℕ) : Except Failure (Tx J) :=
  match tx.submission id with
  | none => .ok tx
  | some record =>
    if record.status = .queued then
      (tx.change id (.unanswered "aborted" none)).map fun tx =>
        tx.setInbox
          (tx.conversation.inbox.eraseIdx (tx.conversation.inbox.findIdx fun item => item.id = id))
    else .ok tx

/-- One iteration of `withdrawQueuedInputs`. -/
def withdrawAt (tx : Tx J) (index : ℕ) : Except Failure (Tx J) :=
  match tx.conversation.inbox[index]? with
  | some (.input id _ _ _) =>
    (tx.change id (.unanswered "aborted" none)).map fun tx =>
      tx.setInbox (tx.conversation.inbox.eraseIdx index)
  | _ => .ok tx

/-- `withdrawQueuedInputs`, from the last item to the first. -/
def withdrawQueuedInputs (tx : Tx J) : Except Failure (Tx J) :=
  (List.range tx.conversation.inbox.length).reverse.foldlM withdrawAt tx

/-! ## Runs that end -/

def assistantDraft (message : J) : EntryDraft J where
  kind := "pi.assistant"
  data := none
  model := some [.other message]
  head := none
  edits := none

def resetDraft (handoff : J) (now : ℕ) : EntryDraft J where
  kind := "pi.reset"
  data := none
  model := some [.user handoff now]
  head := some .self
  edits := none

/-- The run ends with a settlement, and placed inputs start the next. -/
def endAndStart (tx : Tx J) (task : ℕ) (settlement : SubmissionChange J)
    (users : List ℕ) : Except Failure (Tx J) :=
  (tx.endRun task settlement).map fun tx =>
    (if users = [] then tx else tx.startRun users).endGeneration task

/-- `answer`: a final answer, with the first continuation of a hook. -/
def answer (tx : Tx J) (task : ℕ) (message : J) (continuation : Option J)
    (now : ℕ) (modes : QueueModes) : Except Failure (Tx J) :=
  if task ∉ tx.conversation.generations then .error (.ended task)
  else
    applyBoundary (tx.appendEntry (assistantDraft message))
        (latestHeadMarker tx.conversation) modes .final now >>=
      fun (after, result) =>
        match continuation with
        | some content =>
          if result.users = [] ∧ result.reset = false then
            .ok
              (((after.appendEntry (inputDraft content none now)).handOver task).endGeneration task)
          else endAndStart after task (.done tx.next) result.users
        | none => endAndStart after task (.done tx.next) result.users

/-- `finishToolRound`, with what the controls of the round ask for. -/
def finishToolRound (tx : Tx J) (task assistant : ℕ) (terminate : Bool)
    (handoff : Option J) (now : ℕ) (modes : QueueModes) :
    Except Failure (Tx J) :=
  if task ∉ tx.conversation.generations then .error (.ended task)
  else
    match handoff with
    | some text =>
      applyBoundary (tx.appendEntry (resetDraft text now)) (some tx.next) modes .final now >>=
        fun (after, result) => endAndStart after task (.done assistant) result.users
    | none =>
      if terminate then
        applyBoundary tx (latestHeadMarker tx.conversation) modes .final now >>=
          fun (after, result) => endAndStart after task (.done assistant) result.users
      else
        applyBoundary tx (latestHeadMarker tx.conversation) modes .postTools now >>=
          fun (after, result) =>
            if result.reset then
              endAndStart after task (.unanswered "reset" none) result.users
            else
              .ok
                (((after.setRun
                  (after.conversation.run.map fun run =>
                    if run.taskId = task then
                      { run with inputs := run.inputs ++ result.users }
                    else run)).handOver task).endGeneration task)

/-- A run that ends without a boundary: its generation is aborted or fails, or
the scheduler faults or orphans it; `left` are the entries it leaves. -/
def dropRun (tx : Tx J) (task : ℕ) (left : List (EntryDraft J))
    (reason : String) (detail : Option J) : Except Failure (Tx J) :=
  if task ∉ tx.conversation.generations then .error (.ended task)
  else
    endAndStart (left.foldl Tx.appendEntry tx) task (.unanswered reason detail) []

structure Session (J : Type) where
  next : ℕ
  conversations : ℕ → Conversation J

/-- `inherited` are the head markers that forked conversations begin with. -/
def Session.initial (inherited : ℕ → Option ℕ) : Session J where
  next := 0
  conversations := fun id => .fresh (inherited id)

inductive Event (J : Type) where
  | submit (conversation : ℕ) (draft : SubmissionDraft J) (now : ℕ)
      (modes : QueueModes)
  | withdraw (conversation id : ℕ)
  | withdrawInputs (conversation : ℕ)
  | answer (conversation task : ℕ) (message : J) (continuation : Option J)
      (now : ℕ) (modes : QueueModes)
  | finishToolRound (conversation task assistant : ℕ) (terminate : Bool)
      (handoff : Option J) (now : ℕ) (modes : QueueModes)
  | dropRun (conversation task : ℕ) (left : List (EntryDraft J))
      (reason : String) (detail : Option J)
  /-- The harness appends an entry of its own. -/
  | append (conversation : ℕ) (draft : EntryDraft J)
  /-- An ID is minted for a record of another table. -/
  | mint

namespace Session

def commit (session : Session J) (conversation : ℕ)
    (body : Tx J → Except Failure (Tx J)) : Session J :=
  match body ⟨session.next, session.conversations conversation⟩ with
  | .error _ => session
  | .ok tx => ⟨tx.next, Function.update session.conversations conversation tx.conversation⟩

def step (session : Session J) : Event J → Session J
  | .submit conversation draft now modes =>
    session.commit conversation fun tx => (admitSubmission tx draft now modes).map Prod.snd
  | .withdraw conversation id => session.commit conversation fun tx => Submissions.withdraw tx id
  | .withdrawInputs conversation => session.commit conversation withdrawQueuedInputs
  | .answer conversation task message continuation now modes =>
    session.commit conversation fun tx => Submissions.answer tx task message continuation now modes
  | .finishToolRound conversation task assistant terminate handoff now modes =>
    session.commit conversation fun tx =>
      Submissions.finishToolRound tx task assistant terminate handoff now modes
  | .dropRun conversation task left reason detail =>
    session.commit conversation fun tx => Submissions.dropRun tx task left reason detail
  | .append conversation draft => session.commit conversation fun tx => .ok (tx.appendEntry draft)
  | .mint => { session with next := session.next + 1 }

abbrev after (session : Session J) (events : List (Event J)) : Session J :=
  Runs.after step session events

end Session

end PiEmbodied.Durable.Submissions
