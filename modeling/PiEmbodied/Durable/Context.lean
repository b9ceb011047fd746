import PiEmbodied.Entries

/-!
# Conversation context

The model context of a conversation, derived from the entries between a head
marker and a tail, and the reads that extend an earlier range.
-/

namespace PiEmbodied.Durable.Context

/-! ## Messages -/

inductive Role where
  | system
  | user
  | assistant
  | toolResult
  deriving DecidableEq

inductive StopReason where
  | pending
  | stop
  | length
  | toolUse
  | error
  | aborted
  | deferred
  deriving DecidableEq

def EXCLUDED_STOP_REASONS : List StopReason := [.aborted, .error, .deferred]

/-- A part of an assistant message; what the context does not read is opaque. -/
inductive Content (β : Type) where
  | toolCall (id name : String) (body : β)
  | other (body : β)
  deriving DecidableEq

inductive ResultContent (β : Type) where
  | given (body : β)
  | text (text reason : String)
  deriving DecidableEq

inductive Message (β : Type) where
  | system (body : β)
  | user (body : β)
  | assistant (content : List (Content β)) (stopReason : StopReason)
      (timestamp : ℕ) (body : β)
  | toolResult (toolCallId toolName : String) (content : ResultContent β)
      (isError : Bool) (timestamp : ℕ)
  deriving DecidableEq

variable {β : Type}

namespace Message

def role : Message β → Role
  | .system _ => .system
  | .user _ => .user
  | .assistant _ _ _ _ => .assistant
  | .toolResult _ _ _ _ _ => .toolResult

def calls : Message β → List (String × String)
  | .assistant content _ _ _ =>
    content.filterMap fun part =>
      match part with
      | .toolCall id name _ => some (id, name)
      | .other _ => none
  | _ => []

def timestamp : Message β → ℕ
  | .assistant _ _ timestamp _ | .toolResult _ _ _ _ timestamp => timestamp
  | _ => 0

def included : Message β → Bool
  | .assistant _ stopReason _ _ => decide (stopReason ∉ EXCLUDED_STOP_REASONS)
  | _ => true

def isResultOf (callId : String) : Message β → Bool
  | .toolResult toolCallId _ _ _ _ => decide (toolCallId = callId)
  | _ => false

end Message

inductive EditAction (β : Type) where
  | omit
  | replace (messages : List (Message β))
  deriving DecidableEq

structure ContextEdit (β : Type) where
  target : ℕ
  action : EditAction β
  deriving DecidableEq

structure EntryRecord (β : Type) where
  id : ℕ
  kind : String
  model : Option (List (Message β)) := none
  head : Option ℕ := none
  edits : Option (List (ContextEdit β)) := none
  deriving DecidableEq

/-- Where a message object lies.  Scans copy entries, so two message objects of
one range are the same object exactly if they lie in the same place. -/
inductive Place where
  | model (entry index : ℕ)
  | edit (entry edit index : ℕ)
  | missing
  deriving DecidableEq

structure Located (β : Type) where
  place : Place
  message : Message β
  deriving DecidableEq

def Located.role (located : Located β) : Role := located.message.role

def locate (place : ℕ → Place) (messages : List (Message β)) : List (Located β) :=
  messages.mapIdx fun index message => ⟨place index, message⟩

/-- An edit that wins for its target, with the messages it puts there. -/
inductive Winner (β : Type) where
  | omit
  | replace (messages : List (Located β))
  deriving DecidableEq

def EntryRecord.ownMessages (entry : EntryRecord β) : List (Located β) :=
  locate (.model entry.id) (entry.model.getD [])

def EntryRecord.winners (entry : EntryRecord β) : List (ℕ × Winner β) :=
  (entry.edits.getD []).mapIdx fun index edit =>
    (edit.target,
      match edit.action with
      | .omit => .omit
      | .replace messages => .replace (locate (.edit entry.id index) messages))

structure Page (β : Type) where
  items : List (EntryRecord β)
  next : Option ℕ
  deriving DecidableEq

def within (minEntryId maxEntryId : Option ℤ) (entry : EntryRecord β) : Bool :=
  decide (∀ bound ∈ minEntryId, bound ≤ (entry.id : ℤ)) &&
    decide (∀ bound ∈ maxEntryId, (entry.id : ℤ) ≤ bound)

/-- The visible range, newest first, at most `limit` entries. -/
def scanEntries (history : List (EntryRecord β)) (minEntryId maxEntryId : Option ℤ)
    (limit : ℕ) (cursor : Option ℕ) : Page β :=
  let maxEntryId : Option ℤ :=
    match cursor with
    | none => maxEntryId
    | some after => some (min (maxEntryId.getD after) ((after : ℤ) - 1))
  let visible := (history.filter (within minEntryId maxEntryId)).reverse
  let items := visible.take limit
  { items := items
    next :=
      if visible.length ≤ limit then none
      else items.getLast?.map EntryRecord.id }

def findLatestHeadMarker (history : List (EntryRecord β)) (atOrBefore : ℕ) :
    Option (EntryRecord β) :=
  (history.filter fun entry => entry.head.isSome && decide (entry.id ≤ atOrBefore)).getLast?

def SCAN_PAGE_SIZE : ℕ := 256

/-- The pages of a scan; every page but the last has entries. -/
def scanPages (history : List (EntryRecord β)) (minEntryId maxEntryId : Option ℤ) :
    ℕ → Option ℕ → List (EntryRecord β)
  | 0, _ => []
  | steps + 1, cursor =>
    let page := scanEntries history minEntryId maxEntryId SCAN_PAGE_SIZE cursor
    match page.next with
    | none => page.items
    | some next => page.items ++ scanPages history minEntryId maxEntryId steps (some next)

def scanRange (history : List (EntryRecord β))
    (range : Option ℤ × Option ℤ) : List (EntryRecord β) :=
  (scanPages history range.1 range.2 (history.length + 1) none).reverse

structure ContextBounds (β : Type) where
  head : Option (EntryRecord β)
  tail : ℕ
  deriving DecidableEq

inductive ContextError where
  | notVisible (entry : ℕ)
  deriving DecidableEq

def captureContextBounds (history : List (EntryRecord β)) (at_ : Option ℕ) :
    Except ContextError (Option (ContextBounds β)) :=
  match at_ with
  | none =>
    match (scanEntries history none none 1 none).items.head? with
    | none => .ok none
    | some newest => .ok (some ⟨findLatestHeadMarker history newest.id, newest.id⟩)
  | some at_ =>
    if (history.find? fun entry => entry.id = at_).isNone then
      .error (.notVisible at_)
    else .ok (some ⟨findLatestHeadMarker history at_, at_⟩)

/-- From the head marker's head, or transcript start, through the tail. -/
def rangeQuery (bounds : ContextBounds β) : Option ℤ × Option ℤ :=
  ((bounds.head.bind EntryRecord.head).map fun head : ℕ => (head : ℤ), some bounds.tail)

/-! ## Deriving -/

inductive Baseline (β : Type) where
  /-- A later entry may be one. -/
  | undecided
  /-- The range cannot have one. -/
  | never
  | message (message : Located β)
  deriving DecidableEq

def Baseline.getD : Baseline β → Baseline β → Baseline β
  | .undecided, later => later
  | decided, _ => decided

structure ContextView (β : Type) where
  head : Option (EntryRecord β)
  entries : List (EntryRecord β)
  contributions : List (List (Located β))
  messages : List (Located β)
  deriving DecidableEq

structure ContextRange (β : Type) where
  bounds : ContextBounds β
  entries : List (EntryRecord β)
  view : ContextView β
  edited : List ℕ
  (settled open_ : List (Located β))
  baseline : Baseline β
  deriving DecidableEq

def emptyView : ContextView β := ⟨none, [], [], []⟩

/-- The head marker followed by the range's non-head entries, or the whole range
without a marker. -/
def selectActive (head : Option (EntryRecord β))
    (range : List (EntryRecord β)) : List (EntryRecord β) :=
  match head with
  | none => range
  | some head => head :: range.filter fun entry => entry.head.isNone

/-- One active entry's model messages after its edit and excluded stop
reasons. -/
def contribute (entry : EntryRecord β) (edit : Option (Winner β)) : List (Located β) :=
  match edit with
  | some .omit => []
  | some (.replace messages) => messages.filter fun located => located.message.included
  | none => entry.ownMessages.filter fun located => located.message.included

def MISSING_RESULT_TEXT : String :=
  "Tool result unavailable: history ends before this call completed."

def missingResult (call : String × String) (timestamp : ℕ) : Located β :=
  ⟨.missing, .toolResult call.1 call.2 (.text MISSING_RESULT_TEXT "missing_result") true timestamp⟩

/-- Place each assistant's tool results directly after it in call order; they
are taken from the messages before the next assistant. -/
def orderToolResults : List (Located β) → List (Located β)
  | [] => []
  | message :: rest =>
    if message.role = .toolResult then orderToolResults rest
    else
      let results := rest.takeWhile fun next => next.role ≠ .assistant
      message ::
        (message.message.calls.map fun call =>
          (results.find? fun candidate =>
            candidate.message.isResultOf call.1).getD
              (missingResult call message.message.timestamp)) ++
        orderToolResults rest

def findLastIndex {α : Type} (test : α → Bool) : List α → Option ℕ
  | [] => none
  | value :: rest =>
    match findLastIndex test rest with
    | some index => some (index + 1)
    | none => if test value then some 0 else none

/-- Move the ordered messages before the last assistant message of `open` to
`settled`. -/
def settle (settled open_ : List (Located β)) : List (Located β) × List (Located β) :=
  match findLastIndex (fun message => message.role = .assistant) open_ with
  | some (last + 1) => (settled ++ orderToolResults (open_.take (last + 1)), open_.drop (last + 1))
  | _ => (settled, open_)

def isSystemEntry (entry : EntryRecord β) : Bool := entry.kind = "pi.system"

/-- Whether an entry's own messages, or the replacement messages of its edits,
include a system message. -/
def carriesSystemMessage (entry : EntryRecord β) : Bool :=
  (entry.model.getD []).any (fun message => message.role = .system) ||
    (entry.edits.getD []).any fun edit =>
      match edit.action with
      | .omit => false
      | .replace messages => messages.any fun message => message.role = .system

/-- The system message of the first `pi.system` entry after the head marker, or
of the transcript without one, when no earlier entry carries one. -/
def findBaseline (head : Option (EntryRecord β)) : List (EntryRecord β) → Baseline β
  | [] => .undecided
  | entry :: rest =>
    if head.any fun marker => entry.id ≤ marker.id then findBaseline head rest
    else if isSystemEntry entry then
      match entry.ownMessages.find? fun located => located.role = .system with
      | some message => .message message
      | none => .never
    else if head.isNone && carriesSystemMessage entry then .never
    else findBaseline head rest

/-- Move the first system message to the front when only user messages precede
it, or when it is the baseline's. -/
def leadWithSystem (messages : List (Located β)) (baseline : Baseline β) : List (Located β) :=
  match messages.findIdx? fun message => message.role = .system with
  | none | some 0 => messages
  | some (index + 1) =>
    match messages[index + 1]? with
    | none => messages
    | some system =>
      let isBaseline :=
        match baseline with
        | .message message => decide (system.place = message.place)
        | _ => false
      if !isBaseline &&
          (messages.take (index + 1)).any (fun message =>
            message.role ≠ .user) then
        messages
      else
        system :: messages.take (index + 1) ++ messages.drop (index + 2)

/-- Derive the context from the entries scanned within the bounds. -/
def deriveRange (bounds : ContextBounds β) (entries : List (EntryRecord β)) :
    ContextRange β :=
  let edits :=
    (entries.flatMap EntryRecord.winners).foldl
      (fun edits edit => Entries.set edits edit.1 edit.2) []
  let active := selectActive bounds.head entries
  let contributions := active.map fun entry => contribute entry (Entries.get edits entry.id)
  let settled := settle [] contributions.flatten
  let baseline := findBaseline bounds.head active
  let messages := leadWithSystem (settled.1 ++ orderToolResults settled.2) baseline
  { bounds := bounds
    entries := entries
    view := ⟨bounds.head, active, contributions, messages⟩
    edited := Entries.keys edits
    settled := settled.1
    open_ := settled.2
    baseline := baseline }

/-- The earlier range extended by the entries added after its tail under the
same head marker. -/
def extendRange (previous : ContextRange β) (bounds : ContextBounds β)
    (added : List (EntryRecord β)) : ContextRange β :=
  let entries := previous.entries ++ added
  if added.any fun entry =>
      entry.edits.isSome || entry.head.isSome ||
        decide (entry.id ∈ previous.edited) then
    deriveRange bounds entries
  else
    let contributions := added.map fun entry => contribute entry none
    let settled := settle previous.settled (previous.open_ ++ contributions.flatten)
    let baseline := previous.baseline.getD (findBaseline bounds.head added)
    { bounds := bounds
      entries := entries
      view :=
        { head := bounds.head
          entries := previous.view.entries ++ added
          contributions := previous.view.contributions ++ contributions
          messages := leadWithSystem (settled.1 ++ orderToolResults settled.2) baseline }
      edited := previous.edited
      settled := settled.1
      open_ := settled.2
      baseline := baseline }

def deriveContext (history : List (EntryRecord β))
    (bounds : Option (ContextBounds β)) : ContextView β :=
  match bounds with
  | none => emptyView
  | some bounds => (deriveRange bounds (scanRange history (rangeQuery bounds))).view

/-- The range for these bounds, from an earlier one if there is one. -/
def rangeFrom (history : List (EntryRecord β)) (bounds : ContextBounds β)
    (previous : Option (ContextRange β)) : ContextRange β :=
  let scanned := deriveRange bounds (scanRange history (rangeQuery bounds))
  match previous with
  | none => scanned
  | some previous =>
    if previous.bounds.head.map EntryRecord.id ≠
        bounds.head.map EntryRecord.id then scanned
    else if bounds.tail = previous.bounds.tail then previous
    else if bounds.tail < previous.bounds.tail then
      deriveRange bounds (previous.entries.filter fun entry => entry.id ≤ bounds.tail)
    else
      extendRange previous bounds
        (scanRange history (some ((previous.bounds.tail : ℤ) + 1), some bounds.tail))

/-- A read that reuses an earlier range of the same conversation. -/
def readContextFrom (history : List (EntryRecord β)) (at_ : Option ℕ)
    (previous : Option (ContextRange β)) :
    Except ContextError (ContextView β × Option (ContextRange β)) := do
  match ← captureContextBounds history at_ with
  | none => return (emptyView, none)
  | some bounds =>
    let range := rangeFrom history bounds previous
    return (range.view, some range)

def readContext (history : List (EntryRecord β)) (at_ : Option ℕ) :
    Except ContextError (ContextView β) := do
  return deriveContext history (← captureContextBounds history at_)

inductive HeadDraft where
  | self
  | entry (id : ℕ)
  deriving DecidableEq

structure EntryDraft (β : Type) where
  kind : String
  model : Option (List (Message β)) := none
  head : Option HeadDraft := none
  edits : Option (List (ContextEdit β)) := none
  deriving DecidableEq

def EntryDraft.record (draft : EntryDraft β) (id : ℕ) : EntryRecord β :=
  { id := id
    kind := draft.kind
    model := draft.model
    head :=
      draft.head.map fun head =>
        match head with
        | .self => id
        | .entry entry => entry
    edits := draft.edits }

/-- A conversation and the ranges that its reads returned so far. -/
structure Conversation (β : Type) where
  history : List (EntryRecord β)
  ranges : List (ContextRange β)
  deriving DecidableEq

inductive Event (β : Type) where
  /-- An entry is appended; ids only grow. -/
  | append (id : ℕ) (draft : EntryDraft β)
  /-- A read at an entry or the tail that reuses the range of an earlier one. -/
  | read (at_ : Option ℕ) (previous : Option ℕ)
  deriving DecidableEq

namespace Conversation

def initial : Conversation β := ⟨[], []⟩

def read (conversation : Conversation β) (at_ : Option ℕ) (previous : Option ℕ) :
    Except ContextError (ContextView β × Option (ContextRange β)) :=
  readContextFrom conversation.history at_ (previous.bind fun index => conversation.ranges[index]?)

def step (conversation : Conversation β) : Event β → Conversation β
  | .append id draft =>
    if conversation.history.all fun entry => entry.id < id then
      { conversation with
        history := conversation.history ++ [draft.record id] }
    else conversation
  | .read at_ previous =>
    match conversation.read at_ previous with
    | .ok (_, some range) => { conversation with ranges := conversation.ranges ++ [range] }
    | _ => conversation

end Conversation

end PiEmbodied.Durable.Context
