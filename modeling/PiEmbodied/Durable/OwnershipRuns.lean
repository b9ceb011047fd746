import PiEmbodied.Durable.Chains
import PiEmbodied.Runs

/-!
# The ownership indexes over whole runs

After any order of commits, chain loads, sweeps and reopenings, walks down the
indexes reach the live ordinary owned work that the stored records give.
-/

namespace PiEmbodied.Durable.Scheduler

open Tasks
open Tasks.Transaction (Operation)
open Option (filter isSome_map)

variable {J : Type}

/-! ## Publications, and the start of a scheduler -/

namespace Index

def observeEdge (index : Index J) (published : ℕ × Option ℕ) : Index J :=
  if (index.edges published.1).isSome then index
  else index.setEdge published.1 published.2

/-- `#observe`, as far as the ownership indexes go: edges first, so that the
tasks a commit creates in a new conversation hang from it. -/
def observe (index : Index J) (tx : Transaction J) : Index J :=
  ((tx.tasksById.map Write.record).foldl track (tx.conversations.foldl observeEdge index)).sweep

end Index

/-- `scanTasks` by status. -/
def scanTasks (store : Store J) (status : TaskState J → Bool) : List (TaskRecord J) :=
  ((List.range store.minted).filterMap store.tasks).filter fun record => status record.state

/-- The records of the live statuses, in the order they are scanned. -/
def liveRecords (store : Store J) : List (TaskRecord J) :=
  [TaskState.isPending, TaskState.isRunning, TaskState.isWaiting,
    TaskState.isCompleting].flatMap (scanTasks store)

def Index.opened (store : Store J) : Index J :=
  (liveRecords store).foldl Index.track .empty

structure State (J : Type) where
  store : Store J
  index : Index J

inductive Event (J : Type) where
  | commit (operations : List (Operation J))
  /-- A chain load, in a commit that staged some operations or outside one. -/
  | loadChain (start : Node) (staged : Option (List (Operation J)))
  | sweep
  /-- A new scheduler opens the store. -/
  | reopen

namespace State

def initial : State J := ⟨.empty, .empty⟩

/-- A commit that is rejected changes nothing, and one that writes nothing is
not published. -/
def commit (state : State J) (operations : List (Operation J)) : State J :=
  match (Transaction.start state.store).stage state.store operations with
  | .error _ => state
  | .ok tx =>
    match tx.assemble state.store with
    | .error _ => state
    | .ok _ =>
      { store := tx.applied state.store
        index :=
          if tx.tasksById.isEmpty && tx.conversations.isEmpty &&
              !tx.touched then state.index
          else state.index.observe tx }

def hasNode (store : Store J) (overlay : Option (Overlay J)) : Node → Bool
  | .task id =>
    (overlay.bind fun tx => tx.candidate id).isSome ||
      (store.tasks id).isSome
  | .conversation id =>
    (overlay.bind fun tx => tx.conversations.lookup id).isSome ||
      (store.conversations id).isSome

def loadChain (state : State J) (start : Node) (overlay : Option (Overlay J)) : State J :=
  if hasNode state.store overlay start then
    { state with
      index := (state.index.loadChain state.store overlay start).finish }
  else state

def step (state : State J) : Event J → State J
  | .commit operations => state.commit operations
  | .loadChain start none => state.loadChain start none
  | .loadChain start (some operations) =>
    match (Transaction.start state.store).stage state.store operations with
    | .error _ => state
    | .ok tx => state.loadChain start (some tx)
  | .sweep => { state with index := state.index.sweep }
  | .reopen => { state with index := .opened state.store }

abbrev after (state : State J) (events : List (Event J)) : State J :=
  Runs.after step state events

structure Good (state : State J) : Prop where
  sound : state.store.Sound
  kept : state.index.Kept state.store
  mirrors : state.index.Mirrors state.store

end State

namespace Index

/-! ## Tracking records one after the other -/

theorem track_same (index : Index J) (record : TaskRecord J) :
    (index.track record).edges = index.edges ∧
      (index.track record).live =
        Function.update index.live record.id ((some record).filter TaskRecord.live) := by
  have isLive : record.live = !record.state.isTerminal := rfl
  unfold track
  split_ifs with isTerminal isOld isKnown
  · have same := (relist_same (index.withEnded record)
      (.task record.id)).trans (dropIfUnneeded_same _ (.task record.id))
    refine ⟨same.edges, same.live.trans ?_⟩
    simp [withEnded, filter, isLive, isTerminal]
  · refine ⟨rfl, ?_⟩
    simp [withLive, filter, isLive, isTerminal]
  · have same := relist_same (index.withLive record) (.task record.id)
    refine ⟨same.edges, same.live.trans ?_⟩
    simp [withLive, filter, isLive, isTerminal]
  · have same := relist_same ((index.withLive record).unload record.id) (.task record.id)
    refine ⟨same.edges, same.live.trans ?_⟩
    simp [withLive, unload, filter, isLive, isTerminal]

theorem track_node_of_ne (index : Index J) (record : TaskRecord J) {id : ℕ}
    (different : id ≠ record.id) : (index.track record).node id = index.node id := by
  have ended : (index.withEnded record).node id = index.node id := by
    simp [node, withEnded, Function.update_of_ne different]
  unfold track
  split_ifs
  · have same := (relist_same (index.withEnded record)
      (.task record.id)).trans (dropIfUnneeded_same _ (.task record.id))
    rw [same.node, ended]
  · exact node_withLive_of_ne different
  · rw [(relist_same _ _).node, node_withLive_of_ne different]
  · rw [(relist_same _ _).node]
    exact node_withLive_of_ne different

theorem track_node_self (index : Index J) (record : TaskRecord J) :
    ((index.track record).node record.id).isSome = true := by
  unfold track
  split_ifs
  · have same := (relist_same (index.withEnded record)
      (.task record.id)).trans (dropIfUnneeded_same _ (.task record.id))
    rw [same.node]
    simp [node, withEnded]
  · simp
  · rw [(relist_same _ _).node]
    simp
  · rw [(relist_same _ _).node]
    simp [node, unload, withLive]

def Fits (index : Index J) (record : TaskRecord J) : Prop :=
  (index.live record.id).isSome = true ∨
    (record.state.isTerminal = false ∧ index.node record.id = none)

variable {index : Index J} {store : Store J}

theorem tracks_kept {records : List (TaskRecord J)} (sound : store.Sound) (kept : index.Kept store)
    (stored : ∀ record ∈ records, store.tasks record.id = some record)
    (fits : ∀ record ∈ records, index.Fits record)
    (apart : records.Pairwise fun first second => first.id ≠ second.id ∨ first.live = true) :
    (records.foldl track index).Kept store ∧
      ∀ id, (records.foldl track index).live id =
        if ∃ record ∈ records, record.id = id then
          (store.tasks id).filter TaskRecord.live
        else index.live id := by
  induction records generalizing index with
  | nil => exact ⟨kept, fun id => by simp⟩
  | cons record rest ih =>
    obtain ⟨headApart, restApart⟩ := List.pairwise_cons.mp apart
    have isStored := stored record (List.mem_cons_self ..)
    have trackLive := (track_same index record).2
    have restFits : ∀ other ∈ rest, (index.track record).Fits other := by
      intro other member
      by_cases same : other.id = record.id
      · refine .inl ?_
        have isLive := (headApart other member).resolve_left (fun different => different same.symm)
        rw [trackLive, same, Function.update_self]
        simp [filter, isLive]
      · rcases fits other (List.mem_cons_of_mem _ member) with
          isLive | ⟨notTerminal, isNew⟩
        · refine .inl ?_
          rwa [trackLive, Function.update_of_ne same]
        · exact .inr ⟨notTerminal, by rwa [track_node_of_ne _ _ same]⟩
    have headKept := track_kept kept sound ⟨record, isStored, rfl⟩
      (fits record (List.mem_cons_self ..))
    obtain ⟨restKept, restLive⟩ := ih headKept
      (fun other member => stored other (List.mem_cons_of_mem _ member))
      restFits restApart
    refine ⟨restKept, fun id => ?_⟩
    rw [List.foldl_cons, restLive id, trackLive]
    by_cases isRest : ∃ other ∈ rest, other.id = id
    · obtain ⟨other, member, isOther⟩ := isRest
      rw [if_pos ⟨other, member, isOther⟩,
        if_pos ⟨other, List.mem_cons_of_mem _ member, isOther⟩]
    · rw [if_neg isRest]
      by_cases same : id = record.id
      · subst same
        rw [Function.update_self,
          if_pos ⟨record, List.mem_cons_self .., rfl⟩, isStored]
      · rw [Function.update_of_ne same, if_neg]
        rintro ⟨other, member, isOther⟩
        rcases List.mem_cons.mp member with rfl | old
        · exact same isOther.symm
        · exact isRest ⟨other, old, isOther⟩

theorem observeEdge_live (index : Index J) (published : ℕ × Option ℕ) :
    (index.observeEdge published).live = index.live ∧
      (index.observeEdge published).node = index.node := by
  unfold observeEdge
  split_ifs
  · exact ⟨rfl, rfl⟩
  · have same := setEdge_same index published.1 published.2
    refine ⟨same.live, ?_⟩
    rw [same.node]
    rfl

theorem observeEdges_kept {published : List (ℕ × Option ℕ)} (sound : store.Sound)
    (kept : index.Kept store)
    (stored : ∀ edge ∈ published, store.conversations edge.1 = some edge.2) :
    (published.foldl observeEdge index).Kept store ∧
      (published.foldl observeEdge index).live = index.live ∧
      (published.foldl observeEdge index).node = index.node := by
  induction published generalizing index with
  | nil => exact ⟨kept, rfl, rfl⟩
  | cons edge rest ih =>
    have headKept : (index.observeEdge edge).Kept store := by
      unfold observeEdge
      split_ifs
      · exact kept
      · exact setEdge_kept kept sound (stored edge (List.mem_cons_self ..))
    obtain ⟨restKept, restLive, restNode⟩ := ih headKept
      fun other member => stored other (List.mem_cons_of_mem _ member)
    obtain ⟨headLive, headNode⟩ := observeEdge_live index edge
    exact ⟨restKept, restLive.trans headLive, restNode.trans headNode⟩

end Index

/-! ## The stored records of a commit -/

section Applied

variable {store : Store J} {tx : Transaction J}

theorem applied_task_of_mem (sound : tx.Sound store) {write : Write J}
    (member : write ∈ tx.tasksById) :
    (tx.applied store).tasks write.record.id = some write.record := by
  have isWrite : tx.write write.record.id = some write := by
    cases isFound : tx.write write.record.id with
    | none =>
      have := List.find?_eq_none.mp isFound write member
      simp at this
    | some found =>
      have isNamed := Transaction.write_id isFound
      have foundMember := Transaction.write_mem isFound
      have same := List.inj_on_of_nodup_map sound.nodup foundMember member isNamed
      rw [same]
  exact Transaction.currentTask_of_write isWrite

theorem applied_task_of_unwritten
    {id : ℕ} (notWritten : ∀ write ∈ tx.tasksById, write.record.id ≠ id) :
    (tx.applied store).tasks id = store.tasks id := by
  refine Transaction.currentTask_of_unstaged ?_
  refine List.find?_eq_none.mpr fun write member => ?_
  simpa using notWritten write member

theorem applied_conversation_of_mem (sound : tx.Sound store) {edge : ℕ × Option ℕ}
    (member : edge ∈ tx.conversations) : (tx.applied store).conversations edge.1 = some edge.2 := by
  have isLookup : tx.conversations.lookup edge.1 = some edge.2 := by
    cases isFound : tx.conversations.lookup edge.1 with
    | none =>
      have := List.lookup_eq_none_iff.mp isFound edge member
      simp at this
    | some found =>
      obtain ⟨before, rest, isSplit, _⟩ := List.lookup_eq_some_iff.mp isFound
      have foundMember : (edge.1, found) ∈ tx.conversations := by
        rw [isSplit]
        simp
      have same := List.inj_on_of_nodup_map sound.conversationsNodup foundMember member rfl
      rw [← same]
  simp [Transaction.applied, Transaction.currentConversation, isLookup]

end Applied

namespace Index

def published (index : Index J) (tx : Transaction J) : Index J :=
  (tx.tasksById.map Write.record).foldl track (tx.conversations.foldl observeEdge index)

variable {store : Store J} {index : Index J}

theorem published_kept {tx : Transaction J} (kept : index.Kept store)
    (mirrors : index.Mirrors store) (sound : tx.Sound store) :
    (index.published tx).Kept (tx.applied store) ∧
      (index.published tx).Mirrors (tx.applied store) := by
  have keptLater : index.Kept (tx.applied store) :=
    ⟨kept.follows.later_store sound.extended, kept.listed, kept.queued, kept.chained⟩
  obtain ⟨edgesKept, edgesLive, edgesNode⟩ := observeEdges_kept sound.forest
    keptLater fun edge => applied_conversation_of_mem sound
  have fits : ∀ record ∈ tx.tasksById.map Write.record,
      (tx.conversations.foldl observeEdge index).Fits record := by
    intro record member
    obtain ⟨write, isWrite, rfl⟩ := List.mem_map.mp member
    unfold Fits
    rw [edgesLive, edgesNode, mirrors]
    cases isKind : write.kind with
    | replace =>
      obtain ⟨committed, isCommitted, isLive, _⟩ := sound.replaced write isWrite isKind
      refine .inl ?_
      simp [isCommitted, filter, isLive]
    | create =>
      obtain ⟨isNone, _, checkpoint, isPending⟩ := sound.created write isWrite isKind
      refine .inr ⟨by rw [isPending]; rfl, ?_⟩
      cases isNode : index.node write.record.id with
      | none => rfl
      | some fields =>
        obtain ⟨stored, isStored, _⟩ := kept.follows.node isNode
        rw [isNone] at isStored
        cases isStored
  obtain ⟨tracksKept, tracksLive⟩ := tracks_kept sound.forest edgesKept
    (fun record member => by
      obtain ⟨write, isWrite, rfl⟩ := List.mem_map.mp member
      exact applied_task_of_mem sound isWrite) fits
    (by
      rw [List.pairwise_map]
      have nodup := sound.nodup
      rw [List.Nodup, List.pairwise_map] at nodup
      exact nodup.imp .inl)
  refine ⟨tracksKept, fun id => ?_⟩
  unfold published
  rw [tracksLive id, edgesLive]
  split_ifs with isWritten
  · rfl
  · rw [mirrors, applied_task_of_unwritten]
    intro write member isNamed
    exact isWritten ⟨write.record, List.mem_map_of_mem member, isNamed⟩

theorem sweep_mirrors (mirrors : index.Mirrors store) : index.sweep.Mirrors store :=
  mirrors

theorem empty_kept (store : Store J) : (empty : Index J).Kept store where
  follows := ⟨by simp [empty], by simp [empty], by simp [empty]⟩
  listed := by
    refine ⟨?_, by simp [empty], ?_, by simp [empty]⟩
    · intro node up isParent
      cases node <;> simp [parent, Index.node, empty] at isParent
    · intro id isRoot
      simp [parent, empty] at isRoot
  queued := by
    intro node isKnown
    cases node <;> simp [parent, Index.node, empty] at isKnown
  chained := by
    intro id fields isNode
    simp [Index.node, empty] at isNode

variable {record : TaskRecord J}

theorem mem_scanTasks {store : Store J} (sound : store.Sound) {status : TaskState J → Bool} :
    record ∈ scanTasks store status ↔
      store.tasks record.id = some record ∧ status record.state = true := by
  unfold scanTasks
  rw [List.mem_filter, List.mem_filterMap]
  refine and_congr_left fun _ => ?_
  constructor
  · rintro ⟨id, _, isRecord⟩
    rw [sound.named id record isRecord, isRecord]
  · intro isRecord
    exact ⟨record.id, List.mem_range.mpr (sound.taskMinted record.id record isRecord), isRecord⟩

theorem mem_liveRecords (sound : store.Sound) :
    record ∈ liveRecords store ↔ store.tasks record.id = some record ∧ record.live = true := by
  unfold liveRecords
  simp only [List.mem_flatMap, mem_scanTasks sound, List.mem_cons,
    List.not_mem_nil, or_false, exists_eq_or_imp, exists_eq_left]
  rw [TaskRecord.live_eq_true]
  cases record.state <;>
    simp [TaskState.isPending, TaskState.isRunning, TaskState.isWaiting,
      TaskState.isCompleting, TaskState.isTerminal]

theorem opened_kept (sound : store.Sound) :
    (opened store).Kept store ∧ (opened store).Mirrors store := by
  obtain ⟨kept, live⟩ := tracks_kept sound (empty_kept store)
    (fun record member => ((mem_liveRecords sound).mp member).1)
    (fun record member => .inr
      ⟨TaskRecord.live_eq_true.mp ((mem_liveRecords sound).mp member).2, rfl⟩)
    (List.pairwise_of_forall_mem_list fun first isFirst _ _ =>
      .inr ((mem_liveRecords sound).mp isFirst).2)
  refine ⟨kept, fun id => ?_⟩
  unfold opened
  rw [live id]
  split_ifs with isLive
  · rfl
  · cases isTask : store.tasks id with
    | none => rfl
    | some record =>
      have isNamed := sound.named id record isTask
      cases isCase : record.live with
      | false => simp [empty, filter, isCase]
      | true =>
        refine absurd ⟨record, (mem_liveRecords sound).mpr ⟨?_, isCase⟩, isNamed⟩ isLive
        rw [isNamed, isTask]

end Index

/-! ## Every event -/

namespace State

theorem empty_sound : (Store.empty : Store J).Sound where
  named := by simp [Store.empty]
  taskMinted := by simp [Store.empty]
  conversationMinted := by simp [Store.empty]
  lives := by simp [Store.empty]
  owned := by simp [Store.empty]
  ownedConversation := by simp [Store.empty]
  reserved := by simp [Store.empty, rootConversationId]

theorem initial_good : (initial : State J).Good where
  sound := empty_sound
  kept := Index.empty_kept _
  mirrors := fun _ => rfl

variable {state : State J}

theorem loadChain_good {start : Node} {overlay : Option (Overlay J)} (good : state.Good)
    (staged : Index.OverlaySound state.store overlay) : (state.loadChain start overlay).Good := by
  unfold loadChain
  split_ifs with isStart
  · have isNode : ∀ id, start = .conversation id →
        (overlay.bind fun tx => tx.conversations.lookup id).isSome = true ∨
          (state.store.conversations id).isSome = true := by
      rintro id rfl
      simpa [hasNode] using isStart
    obtain ⟨kept, live⟩ := Index.loadChain_kept good.kept good.mirrors good.sound staged isNode
    refine ⟨good.sound, kept, fun id => ?_⟩
    exact (congrFun live id).trans (good.mirrors id)
  · exact good

theorem commit_good (good : state.Good) (operations : List (Operation J)) :
    (state.commit operations).Good := by
  unfold commit
  split
  case h_1 => exact good
  case h_2 tx isStaged =>
    have sound := Transaction.stage_sound (Transaction.start_sound good.sound) isStaged
    obtain ⟨kept, mirrors⟩ := Index.published_kept good.kept good.mirrors sound
    split
    case h_1 => exact good
    case h_2 =>
      refine ⟨sound.forest, ?_, ?_⟩
      · dsimp only
        split_ifs
        · exact ⟨good.kept.follows.later_store sound.extended,
            good.kept.listed, good.kept.queued, good.kept.chained⟩
        · exact Index.sweep_kept kept
      · dsimp only
        split_ifs with isEmpty
        · intro id
          rw [good.mirrors, applied_task_of_unwritten]
          intro write member
          simp only [Bool.and_eq_true, List.isEmpty_iff] at isEmpty
          simp [isEmpty.1.1] at member
        · exact Index.sweep_mirrors mirrors

theorem step_good (good : state.Good) (event : Event J) : (state.step event).Good := by
  cases event with
  | commit operations => exact commit_good good operations
  | loadChain start staged =>
    cases staged with
    | none => exact loadChain_good good (by simp [Index.OverlaySound])
    | some operations =>
      dsimp only [step]
      split
      case h_1 => exact good
      case h_2 tx isStaged =>
        refine loadChain_good good ?_
        rintro _ isOverlay
        cases isOverlay
        exact Transaction.stage_sound (Transaction.start_sound good.sound) isStaged
  | sweep => exact ⟨good.sound, Index.sweep_kept good.kept, good.mirrors⟩
  | reopen =>
    obtain ⟨kept, mirrors⟩ := Index.opened_kept good.sound
    exact ⟨good.sound, kept, mirrors⟩

theorem after_good (events : List (Event J)) : (initial.after events).Good :=
  Runs.after_invariant step Good (fun _ event good => step_good good event) initial_good events

end State

/-! ## Walks down reach the live ordinary owned work -/

namespace Index

/-- Whether a node is in `live`, `settled` or `edges`. -/
def holds (index : Index J) : Node → Bool
  | .task id => (index.live id).isSome || (index.settled id).isSome
  | .conversation id => (index.edges id).isSome

theorem holds_eq (index : Index J) (node : Node) :
    index.holds node = (index.parent node).isSome := by
  cases node with
  | task id => simp only [holds, parent, Index.node, isSome_map, Option.isSome_or]
  | conversation id => simp only [holds, parent, isSome_map]

variable {index : Index J} {node : Node}

theorem parent_of_holds {store : Store J} (follows : index.Follows store) {up : Node}
    (isHeld : index.holds node = true) (isAbove : store.Above up node) :
    index.parent node = some (some up) := by
  rw [holds_eq] at isHeld
  obtain ⟨found, isFound⟩ := Option.isSome_iff_exists.mp isHeld
  have same := follows.above isFound
  rw [isAbove] at same
  rw [isFound, same]

def ChainLoaded (index : Index J) (store : Store J) (id : ℕ) : Prop :=
  ∀ up, Forest.Reached store.Above (fun _ => True) up (.task id) → index.holds up = true

def Joined (index : Index J) (store : Store J) (up : Node) (id : ℕ) : Prop :=
  Forest.Reached store.Above (index.holds · = true) up (.task id) ∧ index.holds up = true

variable {id : ℕ} {record : TaskRecord J}

theorem holds_of_live (isLive : index.live id = some record) : index.holds (.task id) = true := by
  simp [holds, isLive]

theorem needed_of_live (isLive : index.live id = some record) : index.needed (.task id) = true :=
  needed_eq_true.mpr (.inl (by simp [Index.isLive, isLive]))

section Walks

variable {index : Index J} {store : Store J} {node up : Node}

theorem mem_below_of_needed (kept : index.Kept store) (isHeld : index.holds node = true)
    (isNeeded : index.needed node = true) (isAbove : store.Above up node) : node ∈ index.below up :=
  (kept.listed.listed node up (parent_of_holds kept.follows isHeld isAbove) not_false).mpr isNeeded

theorem above_of_mem_below (kept : index.Kept store) (member : node ∈ index.below up) :
    store.Above up node :=
  kept.follows.above (kept.listed.hangs node up member)

theorem known_above (kept : index.Kept store) (isKnown : index.known node = true)
    (isAbove : store.Above up node) : index.known up = true := by
  cases node with
  | task id =>
    obtain ⟨isSome, isLoaded⟩ := knownTask_eq_true.mp isKnown
    obtain ⟨fields, isNode⟩ := Option.isSome_iff_exists.mp isSome
    have isUp := kept.follows.above
      (show index.parent (.task id) = some (some (parentNode fields)) by simp [parent, isNode])
    rw [isAbove] at isUp
    rw [Option.some.inj isUp]
    exact kept.chained id fields isNode isLoaded
  | conversation id =>
    dsimp only [known] at isKnown
    cases isEdge : index.edges id with
    | none => simp [isEdge] at isKnown
    | some owner =>
      have isUp := kept.follows.above
        (show index.parent (.conversation id) = some (owner.map Node.task) by simp [parent, isEdge])
      rw [isAbove] at isUp
      rw [isEdge] at isKnown
      cases owner with
      | none => simp at isUp
      | some owner =>
        rw [Option.some.inj isUp]
        exact isKnown

theorem holds_of_known (isKnown : index.known node = true) : index.holds node = true := by
  cases node with
  | task id =>
    have isSome := (knownTask_eq_true.mp isKnown).1
    rw [holds_eq]
    simpa [parent] using isSome
  | conversation id =>
    dsimp only [known] at isKnown
    cases isEdge : index.edges id with
    | none => simp [isEdge] at isKnown
    | some owner => simp [holds, isEdge]

theorem known_of_reached (kept : index.Kept store) {enter : Node → Prop}
    (isKnown : index.known node = true) (reached : Forest.Reached store.Above enter up node) :
    index.known up = true := by
  induction reached with
  | first isAbove => exact known_above kept isKnown isAbove
  | next _ _ isAbove ih => exact ih (known_above kept isKnown isAbove)

variable {id : ℕ}

theorem chainLoaded (kept : index.Kept store) {record : TaskRecord J}
    (isLive : index.live id = some record) (isLoaded : id ∉ index.unloaded) :
    index.ChainLoaded store id := by
  intro up reached
  have isKnown : index.known (.task id) = true :=
    knownTask_eq_true.mpr ⟨by simp [Index.node, isLive], isLoaded⟩
  exact holds_of_known (known_of_reached kept isKnown reached)

theorem nodeOf_none (index : Index J) (id : ℕ) : index.nodeOf none id = index.node id := by
  simp [nodeOf, record, Index.node]

theorem enters_task {fields : TaskNode} (isNode : index.node id = some fields) :
    index.enters {} (.task id) = !fields.background := by
  simp [enters, nodeOf_none, isNode]

theorem enters_iff (kept : index.Kept store) (isHeld : index.holds node = true) :
    index.enters {} node = true ↔ store.Foreground node := by
  cases node with
  | conversation id => simp [enters, Store.Foreground]
  | task id =>
    rw [holds_eq] at isHeld
    have isSome : (index.node id).isSome = true := by simpa [parent] using isHeld
    obtain ⟨fields, isNode⟩ := Option.isSome_iff_exists.mp isSome
    obtain ⟨stored, isStored, rfl⟩ := kept.follows.node isNode
    rw [enters_task isNode]
    simp [Store.Foreground, isStored]

variable {start : Node}

theorem walk_iff (kept : index.Kept store) (sound : store.Sound) :
    node ∈ Forest.walk (index.children {}) (index.enters {}) store.minted start ↔
      Forest.Reached (fun up node => node ∈ index.below up)
        (index.enters {} · = true) start node := by
  have sameChildren : index.children {} = index.below := by
    funext node
    simp [children]
  rw [sameChildren]
  refine @Forest.mem_walk_iff _ _ _ _ _ Node.number store.minted _ ?_ ?_ (Nat.le_add_left _ _)
  · intro up node member
    exact sound.above_lt (above_of_mem_below kept member)
  · intro up node member
    have isAbove := above_of_mem_below kept member
    cases node with
    | task id =>
      obtain ⟨record, isRecord, _⟩ := Option.map_eq_some_iff.mp isAbove
      exact sound.taskMinted id record isRecord
    | conversation id =>
      obtain ⟨owner, isOwner, _⟩ := Option.map_eq_some_iff.mp isAbove
      exact sound.conversationMinted id _ (Option.join_eq_some_iff.mp isOwner)

theorem mem_ownedLive {depth : ℕ} :
    id ∈ index.ownedLive {} depth start ↔
      .task id ∈ Forest.walk (index.children {}) (index.enters {}) depth start ∧
        ∃ record, index.live id = some record ∧ record.live = true ∧ record.background = false := by
  simp only [ownedLive, walkDown, List.mem_filterMap]
  constructor
  · rintro ⟨reach, ⟨node, member, isReach⟩, isOwned⟩
    cases node with
    | conversation id => cases isReach
    | task other =>
      obtain ⟨fields, isNode, rfl⟩ := Option.map_eq_some_iff.mp isReach
      dsimp only at isOwned
      split_ifs at isOwned with isLive
      cases isOwned
      simp only [Bool.and_eq_true, Bool.not_eq_true'] at isLive
      obtain ⟨record, isRecord⟩ := Option.isSome_iff_exists.mp isLive.1
      obtain ⟨isRecord, live⟩ := Option.filter_eq_some_iff.mp isRecord
      replace isRecord : index.live id = some record := by simpa [Index.record] using isRecord
      refine ⟨member, record, isRecord, live, ?_⟩
      rw [nodeOf_none, Index.node, isRecord] at isNode
      cases isNode
      exact isLive.2
  · rintro ⟨member, record, isRecord, live, foreground⟩
    refine ⟨⟨id, record.toTaskNode, some record⟩, ⟨.task id, member, ?_⟩, ?_⟩
    · simp [nodeOf, Index.record, isRecord, filter, live]
    · simp [foreground]

theorem holds_of_mem_below (kept : index.Kept store) (member : node ∈ index.below up) :
    index.holds node = true := by
  rw [holds_eq, kept.listed.hangs node up member, Option.isSome_some]

theorem reached_below (kept : index.Kept store)
    (reached : Forest.Reached store.Above store.Foreground start node)
    (isHeld : index.holds node = true) (isNeeded : index.needed node = true)
    (held : ∀ up, Forest.Reached store.Above (fun _ => True) up node → index.holds up = true) :
    Forest.Reached (fun up node => node ∈ index.below up)
      (index.enters {} · = true) start node := by
  induction reached with
  | first isAbove => exact .first (mem_below_of_needed kept isHeld isNeeded isAbove)
  | next reached isEntered isAbove ih =>
    have member := mem_below_of_needed kept isHeld isNeeded isAbove
    have middleHeld := held _ (.first isAbove)
    refine .next (ih middleHeld (needed_of_mem_below member) ?_)
      ((enters_iff kept middleHeld).mpr isEntered) member
    intro up isUp
    exact held up (.next isUp trivial isAbove)

theorem reached_above (kept : index.Kept store)
    (reached : Forest.Reached (fun up node => node ∈ index.below up)
      (index.enters {} · = true) start node) :
    index.holds node = true ∧ Forest.Reached store.Above store.Foreground start node := by
  induction reached with
  | first isChild =>
    exact ⟨holds_of_mem_below kept isChild, .first (above_of_mem_below kept isChild)⟩
  | next _ isEntered isChild ih =>
    obtain ⟨isHeld, reached⟩ := ih
    exact ⟨holds_of_mem_below kept isChild,
      .next reached ((enters_iff kept isHeld).mp isEntered) (above_of_mem_below kept isChild)⟩

theorem ownedLive_sound (kept : index.Kept store) (sound : store.Sound)
    (mirrors : index.Mirrors store) (member : id ∈ index.ownedLive {} store.minted start) :
    store.OwnedLive start id := by
  obtain ⟨isReached, record, isRecord, live, foreground⟩ := mem_ownedLive.mp member
  have isStored := mirrors id
  rw [isRecord] at isStored
  have isTask := (Option.filter_eq_some_iff.mp isStored.symm).1
  exact ⟨(reached_above kept ((walk_iff kept sound).mp isReached)).2, record,
    isTask, live, foreground⟩

theorem ownedLive_complete (kept : index.Kept store) (sound : store.Sound)
    (mirrors : index.Mirrors store) (owned : store.OwnedLive start id)
    (loaded : index.ChainLoaded store id) : id ∈ index.ownedLive {} store.minted start := by
  obtain ⟨reached, record, isTask, live, foreground⟩ := owned
  have isLive : index.live id = some record := by
    rw [mirrors, isTask]
    simp [filter, live]
  exact mem_ownedLive.mpr ⟨(walk_iff kept sound).mpr
    (reached_below kept reached (holds_of_live isLive) (needed_of_live isLive)
      loaded), record, isLive, live, foreground⟩

variable {later : Index J}

/-- The nodes between live work and a held node above it are all needed, so
that they stay where the needed nodes stay. -/
theorem joined_of_needed_stays (kept : index.Kept store)
    (reached : Forest.Reached store.Above (index.holds · = true) up node)
    (isHeld : index.holds node = true) (isNeeded : index.needed node = true)
    (stays : ∀ node, index.holds node = true → index.needed node = true → later.holds node = true) :
    Forest.Reached store.Above (later.holds · = true) up node ∧
      (index.holds up = true → later.holds up = true) := by
  induction reached with
  | first isAbove =>
    have member := mem_below_of_needed kept isHeld isNeeded isAbove
    exact ⟨.first isAbove, fun upHeld => stays _ upHeld (needed_of_mem_below member)⟩
  | next reached middleHeld isAbove ih =>
    have member := mem_below_of_needed kept isHeld isNeeded isAbove
    have middleNeeded := needed_of_mem_below member
    obtain ⟨reached, upStays⟩ := ih middleHeld middleNeeded
    exact ⟨.next reached (stays _ middleHeld middleNeeded) isAbove, upStays⟩

theorem joined_sweep (kept : index.Kept store) (joined : index.Joined store up id)
    (isLive : (index.live id).isSome = true) : index.sweep.Joined store up id := by
  obtain ⟨record, isRecord⟩ := Option.isSome_iff_exists.mp isLive
  obtain ⟨reached, isHeld⟩ := joined
  obtain ⟨later, upStays⟩ := joined_of_needed_stays kept reached
    (holds_of_live isRecord) (needed_of_live isRecord)
    fun node isHeld isNeeded => by
      rw [holds_eq] at isHeld ⊢
      rw [parent_sweep_of_needed isNeeded]
      exact isHeld
  exact ⟨later, upStays isHeld⟩

theorem Joined.mono (joined : index.Joined store up id)
    (stays : ∀ node, index.holds node = true → later.holds node = true) :
    later.Joined store up id :=
  ⟨joined.1.mono (fun _ _ isAbove => isAbove) stays, stays up joined.2⟩

end Walks

/-! ## What publications and loads leave held -/

theorem holds_mono {later : Index J}
    (nodes : ∀ id, (index.node id).isSome = true → (later.node id).isSome = true)
    (edges : ∀ id, (index.edges id).isSome = true → (later.edges id).isSome = true)
    (isHeld : index.holds node = true) : later.holds node = true := by
  rw [holds_eq] at isHeld ⊢
  cases node with
  | task id =>
    simp only [parent, isSome_map] at isHeld ⊢
    exact nodes id isHeld
  | conversation id =>
    simp only [parent, isSome_map] at isHeld ⊢
    exact edges id isHeld

theorem holds_setEdge (index : Index J) (id : ℕ) (owner : Option ℕ)
    (isHeld : index.holds node = true) : (index.setEdge id owner).holds node = true := by
  have same := setEdge_same index id owner
  refine holds_mono ?_ ?_ isHeld
  · intro task isSome
    rw [same.node]
    exact isSome
  · intro other isSome
    rw [same.edges]
    by_cases isSame : other = id
    · subst isSame
      simp [withEdge]
    · simpa [withEdge, Function.update_of_ne isSame] using isSome

theorem holds_settle (index : Index J) (id : ℕ) (fields : TaskNode)
    (isHeld : index.holds node = true) : (index.settle id fields).holds node = true := by
  have same := settle_same index id fields
  refine holds_mono ?_ ?_ isHeld
  · intro task isSome
    rw [same.node]
    by_cases isSame : task = id
    · subst isSame
      cases isLive : index.live task <;> simp [Index.node, withSettled, isLive]
    · simpa [Index.node, withSettled, Function.update_of_ne isSame] using isSome
  · intro other isSome
    rw [same.edges]
    exact isSome

theorem holds_track (index : Index J) (record : TaskRecord J) {node : Node}
    (isHeld : index.holds node = true) : (index.track record).holds node = true := by
  refine holds_mono ?_ ?_ isHeld
  · intro id isSome
    by_cases same : id = record.id
    · rw [same]
      exact track_node_self index record
    · rw [track_node_of_ne index record same]
      exact isSome
  · intro id isSome
    rw [(track_same index record).1]
    exact isSome

theorem holds_published (index : Index J) (tx : Transaction J) (isHeld : index.holds node = true) :
    (index.published tx).holds node = true := by
  refine List.foldlRecOn (motive := fun index : Index J => index.holds node = true) _ _
    (List.foldlRecOn (motive := fun index : Index J => index.holds node = true) _ _ isHeld
      fun index isHeld edge _ => ?_)
    fun index isHeld record _ => holds_track index record isHeld
  unfold observeEdge
  split_ifs
  · exact isHeld
  · exact holds_setEdge index edge.1 edge.2 isHeld

theorem holds_loadFrom {store : Store J} {overlay : Option (Overlay J)} {steps : ℕ}
    {next : Option Node} {load : Load J} {node : Node} (isHeld : load.index.holds node = true) :
    (loadFrom store overlay steps next load).index.holds node = true := by
  induction steps generalizing next load with
  | zero => exact isHeld
  | succ steps ih =>
    cases next with
    | none => exact isHeld
    | some next =>
      cases next with
      | task id =>
        unfold loadFrom
        split
        · split_ifs
          · exact ih isHeld
          · exact isHeld
        · split_ifs
          · exact isHeld
          · split
            · exact isHeld
            · refine ih ?_
              dsimp only
              split_ifs
              · exact holds_settle load.index _ _ isHeld
              · exact isHeld
      | conversation id =>
        unfold loadFrom
        split
        · exact ih isHeld
        · exact ih (holds_setEdge load.index _ _ isHeld)

end Index

namespace State

/-- A node above live work, held with all nodes between, is held as long as the
work is live. -/
theorem step_joined {state : State J} (good : state.Good) {event : Event J}
    (sameScheduler : event ≠ .reopen) {up : Node} {id : ℕ}
    (joined : state.index.Joined (state.step event).store up id)
    (isLive : ((state.step event).index.live id).isSome = true) :
    (state.step event).index.Joined (state.step event).store up id := by
  cases event with
  | reopen => exact absurd rfl sameScheduler
  | sweep => exact Index.joined_sweep good.kept joined isLive
  | commit operations =>
    revert joined isLive
    dsimp only [step, commit]
    split
    case h_1 => exact fun joined _ => joined
    case h_2 tx isStaged =>
      have sound := Transaction.stage_sound (Transaction.start_sound good.sound) isStaged
      split
      case h_1 => exact fun joined _ => joined
      case h_2 =>
        dsimp only
        split_ifs
        · exact fun joined _ => joined
        · intro joined isLive
          exact Index.joined_sweep (Index.published_kept good.kept good.mirrors sound).1
            (joined.mono fun node isHeld => Index.holds_published state.index tx isHeld) isLive
  | loadChain start staged =>
    have loaded : ∀ overlay : Option (Overlay J),
        state.index.Joined (state.loadChain start overlay).store up id →
          (state.loadChain start overlay).index.Joined
            (state.loadChain start overlay).store up id := by
      intro overlay
      unfold loadChain
      split_ifs
      · intro joined
        refine joined.mono fun node isHeld => ?_
        exact @Index.holds_loadFrom J _ _ _ _ ⟨state.index, [], false⟩ _ isHeld
      · exact fun joined => joined
    cases staged with
    | none => exact loaded none joined
    | some operations =>
      revert joined
      dsimp only [step]
      split
      · exact fun joined => joined
      · exact loaded _

end State

/-- After any order of commits, chain loads, sweeps and reopenings: a walk
down reaches exactly the live ordinary owned work, where its chain is loaded,
as it is for every live task outside `unloaded`; and nothing is dropped that is
held above live work. -/
theorem indexes_exact (events : List (Event J)) :
    let state := State.initial.after events
    (∀ start id record, state.index.live id = some record →
      state.index.ChainLoaded state.store id →
        (id ∈ state.index.ownedLive {} state.store.minted start ↔ state.store.OwnedLive start id)) ∧
    (∀ start, ∀ id ∈ state.index.ownedLive {} state.store.minted start,
      state.store.OwnedLive start id) ∧
    (∀ id record, state.index.live id = some record →
      id ∉ state.index.unloaded → state.index.ChainLoaded state.store id) ∧
    (∀ event up id, event ≠ .reopen →
      state.index.Joined (state.step event).store up id →
        ((state.step event).index.live id).isSome = true →
          (state.step event).index.Joined (state.step event).store up id) := by
  intro state
  have good : state.Good := State.after_good events
  refine ⟨?_, ?_, ?_, ?_⟩
  · intro start id record _ loaded
    constructor
    · exact Index.ownedLive_sound good.kept good.sound good.mirrors
    · intro owned
      exact Index.ownedLive_complete good.kept good.sound good.mirrors owned loaded
  · intro start id
    exact Index.ownedLive_sound good.kept good.sound good.mirrors
  · intro id record
    exact Index.chainLoaded good.kept
  · intro event up id sameScheduler joined
    exact State.step_joined good sameScheduler joined

end PiEmbodied.Durable.Scheduler
