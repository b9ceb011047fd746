import PiEmbodied.Durable.Listing

/-!
# Loaded chains

The indexes hold records of the store.  A known task is unloaded, or every
node above it is known.  Setting an edge, tracking a record, sweeping and
loading a chain keep that, together with the listing.
-/

namespace PiEmbodied.Durable.Scheduler

open Tasks
open Function (update_of_ne update_self)

variable {J : Type}

namespace Index

/-- The indexes hold the ownership fields that the store has. -/
structure Follows (index : Index J) (store : Store J) : Prop where
  live : ∀ id record, index.live id = some record →
    ∃ stored, store.tasks id = some stored ∧ stored.toTaskNode = record.toTaskNode
  settled : ∀ id node, index.settled id = some node →
    ∃ stored, store.tasks id = some stored ∧ stored.toTaskNode = node
  edges : ∀ id owner, index.edges id = some owner → store.conversations id = some owner

/-- The chain of a known task outside `unloaded` is loaded. -/
def Chained (index : Index J) : Prop :=
  ∀ id node, index.node id = some node → id ∉ index.unloaded → index.known (parentNode node) = true

structure Kept (index : Index J) (store : Store J) : Prop where
  follows : index.Follows store
  listed : index.Listed
  queued : index.Queued
  chained : index.Chained

/-! ## Records of the store -/

namespace Follows

variable {index : Index J} {store later : Store J}

section

variable (follows : index.Follows store)
include follows

theorem node {id : ℕ} {node : TaskNode} (isNode : index.node id = some node) :
    ∃ stored, store.tasks id = some stored ∧ stored.toTaskNode = node := by
  unfold Index.node at isNode
  cases isLive : index.live id with
  | some record =>
    rw [isLive] at isNode
    cases isNode
    exact follows.live id record isLive
  | none =>
    rw [isLive] at isNode
    exact follows.settled id node isNode

theorem above {node : Node} {up : Option Node} (isParent : index.parent node = some up) :
    store.above node = up := by
  cases node with
  | task id =>
    obtain ⟨fields, isNode, rfl⟩ := Option.map_eq_some_iff.mp isParent
    obtain ⟨stored, isStored, rfl⟩ := follows.node isNode
    simp [Store.above, isStored]
  | conversation id =>
    obtain ⟨owner, isOwner, rfl⟩ := Option.map_eq_some_iff.mp isParent
    simp [Store.above, follows.edges id owner isOwner]

theorem descends (sound : store.Sound) : index.Descends :=
  fun _ _ isParent => sound.above_lt (follows.above isParent)

theorem later_store (extended : store.Extends later) :
    index.Follows later where
  live := by
    intro id record isLive
    obtain ⟨stored, isStored, sameNode⟩ := follows.live id record isLive
    obtain ⟨next, isNext, nextNode⟩ := extended.tasks id stored isStored
    exact ⟨next, isNext, nextNode.trans sameNode⟩
  settled := by
    intro id node isSettled
    obtain ⟨stored, isStored, sameNode⟩ := follows.settled id node isSettled
    obtain ⟨next, isNext, nextNode⟩ := extended.tasks id stored isStored
    exact ⟨next, isNext, nextNode.trans sameNode⟩
  edges := fun id owner isEdge => extended.conversations id owner (follows.edges id owner isEdge)

theorem same_records {other : Index J} (same : index.SameRecords other) : other.Follows store where
  live := by
    rw [same.live]
    exact follows.live
  settled := by
    rw [same.settled]
    exact follows.settled
  edges := by
    rw [same.edges]
    exact follows.edges

end

end Follows

variable {index : Index J}

theorem Chained.same_records {index other : Index J} (chained : index.Chained)
    (same : index.SameRecords other) : other.Chained := by
  intro id node isNode isLoaded
  rw [same.node] at isNode
  rw [same.unloaded] at isLoaded
  rw [same.known]
  exact chained id node isNode isLoaded

variable {id : ℕ}

theorem knownTask_eq_true :
    index.knownTask id = true ↔ (index.node id).isSome = true ∧ id ∉ index.unloaded := by
  simp [knownTask]

theorem known_mono (index later : Index J)
    (tasks : ∀ id, index.knownTask id = true → later.knownTask id = true)
    (edges : ∀ id owner, index.edges id = some owner → later.edges id = some owner)
    {node : Node} (isKnown : index.known node = true) : later.known node = true := by
  cases node with
  | task id => exact tasks id isKnown
  | conversation id =>
    dsimp only [known] at isKnown ⊢
    cases isEdge : index.edges id with
    | none => simp [isEdge] at isKnown
    | some owner =>
      rw [edges id owner isEdge]
      rw [isEdge] at isKnown
      cases owner with
      | none => rfl
      | some owner => exact tasks owner isKnown

/-! ## Edges, and tasks read from storage -/

theorem setEdge_same (index : Index J) (id : ℕ) (owner : Option ℕ) :
    (index.withEdge id owner).SameRecords (index.setEdge id owner) :=
  (relist_same _ _).trans (dropIfUnneeded_same _ _)

variable {store : Store J}

theorem ChangedAt.kept {later : Index J} {start : Node} (changed : index.ChangedAt later start)
    (kept : index.Kept store) (sound : store.Sound) (follows : later.Follows store)
    (chained : later.Chained) : ((later.relist start).dropIfUnneeded start).Kept store := by
  have same : later.SameRecords _ := (relist_same _ start).trans (dropIfUnneeded_same _ start)
  obtain ⟨listed, queued⟩ := changed.relisted (follows.descends sound) kept.listed kept.queued
  exact ⟨follows.same_records same, listed, queued, chained.same_records same⟩

theorem setEdge_kept {owner : Option ℕ} (kept : index.Kept store) (sound : store.Sound)
    (isOwner : store.conversations id = some owner) : (index.setEdge id owner).Kept store := by
  have edgesKept : ∀ other up, index.edges other = some up →
      (index.withEdge id owner).edges other = some up := by
    intro other up isEdge
    unfold withEdge
    by_cases isSame : other = id
    · subst isSame
      have := kept.follows.edges other up isEdge
      rw [isOwner] at this
      simp only [update_self, this]
    · simp only [update_of_ne isSame, isEdge]
  have follows : (index.withEdge id owner).Follows store := by
    refine ⟨kept.follows.live, kept.follows.settled, ?_⟩
    intro other up isEdge
    unfold withEdge at isEdge
    by_cases isSame : other = id
    · subst isSame
      simp only [update_self] at isEdge
      rw [isOwner, isEdge]
    · simp only [update_of_ne isSame] at isEdge
      exact kept.follows.edges other up isEdge
  have changed : index.ChangedAt (index.withEdge id owner) (.conversation id) := by
    refine ⟨rfl, rfl, rfl, ?_, ?_, ?_⟩
    · intro node up isParent
      cases node with
      | task other => exact isParent
      | conversation other =>
        obtain ⟨edge, isEdge, rfl⟩ := Option.map_eq_some_iff.mp isParent
        simp only [parent, edgesKept other edge isEdge, Option.map_some]
    · intro node different
      cases node with
      | task other => rfl
      | conversation other =>
        have : other ≠ id := fun isSame => different (by rw [isSame])
        simp only [parent, withEdge, update_of_ne this]
    · intro node _
      cases node <;> rfl
  refine changed.kept kept sound follows ?_
  intro other node isNode isLoaded
  exact known_mono index (index.withEdge id owner) (fun _ isKnown => isKnown) edgesKept
    (kept.chained other node isNode isLoaded)

theorem settle_same (index : Index J) (id : ℕ) (node : TaskNode) :
    (index.withSettled id node).SameRecords (index.settle id node) :=
  (relist_same _ _).trans (dropIfUnneeded_same _ _)

variable {record : TaskRecord J}

theorem settle_kept {store : Store J} {id : ℕ} {record : TaskRecord J} (kept : index.Kept store)
    (sound : store.Sound) (isRecord : store.tasks id = some record)
    (isUnknown : index.node id = none) : (index.settle id record.toTaskNode).Kept store := by
  obtain ⟨notLive, notSettled⟩ := Option.or_eq_none_iff.mp isUnknown
  have nodeOther : ∀ other, other ≠ id →
      (index.withSettled id record.toTaskNode).node other =
        index.node other := by
    intro other different
    simp only [node, withSettled, update_of_ne different]
  have follows : (index.withSettled id record.toTaskNode).Follows store := by
    refine ⟨kept.follows.live, ?_, kept.follows.edges⟩
    intro other fields isSettled
    unfold withSettled at isSettled
    by_cases isSame : other = id
    · subst isSame
      simp only [update_self] at isSettled
      exact ⟨record, isRecord, Option.some.inj isSettled⟩
    · simp only [update_of_ne isSame] at isSettled
      exact kept.follows.settled other fields isSettled
  have changed : index.ChangedAt (index.withSettled id record.toTaskNode) (.task id) := by
    refine ⟨rfl, rfl, rfl, ?_, ?_, ?_⟩
    · intro node up isParent
      cases node with
      | conversation other => exact isParent
      | task other =>
        have : other ≠ id := by
          rintro rfl
          simp [parent, isUnknown] at isParent
        simpa only [parent, nodeOther other this] using isParent
    · intro node different
      cases node with
      | conversation other => rfl
      | task other =>
        have : other ≠ id := fun isSame => different (by rw [isSame])
        simp only [parent, nodeOther other this]
    · intro node _
      cases node <;> rfl
  refine changed.kept kept sound follows ?_
  intro other fields isNode isLoaded
  obtain ⟨notUnloaded, different⟩ := not_or.mp (fun member => isLoaded (mem_insertLast.mpr member))
  rw [nodeOther other different] at isNode
  refine known_mono index (index.withSettled id record.toTaskNode) ?_ (fun _ _ isEdge => isEdge)
    (kept.chained other fields isNode notUnloaded)
  intro task isKnown
  obtain ⟨isSome, isLoadedTask⟩ := knownTask_eq_true.mp isKnown
  have notId : task ≠ id := by
    rintro rfl
    rw [isUnknown] at isSome
    cases isSome
  refine knownTask_eq_true.mpr ⟨?_, ?_⟩
  · rw [nodeOther task notId]
    exact isSome
  · intro member
    rcases mem_insertLast.mp member with old | isSame
    · exact isLoadedTask old
    · exact notId isSame

/-! ## Tracked records -/

section Track

variable {index : Index J} {store : Store J} {record : TaskRecord J}

theorem live_node (follows : index.Follows store)
    (isStored : ∃ stored, store.tasks record.id = some stored ∧
      stored.toTaskNode = record.toTaskNode)
    (isLive : (index.live record.id).isSome = true) :
    ∃ before, index.live record.id = some before ∧ before.toTaskNode = record.toTaskNode := by
  obtain ⟨before, isBefore⟩ := Option.isSome_iff_exists.mp isLive
  obtain ⟨stored, isStored, sameNode⟩ := isStored
  obtain ⟨other, isOther, beforeNode⟩ := follows.live _ before isBefore
  rw [isStored] at isOther
  cases isOther
  exact ⟨before, isBefore, beforeNode.symm.trans sameNode⟩

theorem node_withEnded (follows : index.Follows store)
    (isStored : ∃ stored, store.tasks record.id = some stored ∧
      stored.toTaskNode = record.toTaskNode)
    (isLive : (index.live record.id).isSome = true) :
    (index.withEnded record).node = index.node := by
  funext id
  by_cases same : id = record.id
  · subst same
    obtain ⟨before, isBefore, sameNode⟩ := live_node follows isStored isLive
    simp [node, withEnded, isBefore, sameNode]
  · simp [node, withEnded, update_of_ne same]

variable {id : ℕ}

theorem node_withLive_of_ne (different : id ≠ record.id) :
    (index.withLive record).node id = index.node id := by
  simp [node, withLive, update_of_ne different]

@[simp]
theorem node_withLive_self : (index.withLive record).node record.id = some record.toTaskNode := by
  simp [node, withLive]

theorem node_withLive (follows : index.Follows store)
    (isStored : ∃ stored, store.tasks record.id = some stored ∧
      stored.toTaskNode = record.toTaskNode)
    (isLive : (index.live record.id).isSome = true) :
    (index.withLive record).node = index.node := by
  funext id
  by_cases same : id = record.id
  · subst same
    obtain ⟨before, isBefore, sameNode⟩ := live_node follows isStored isLive
    rw [node_withLive_self]
    simp [node, isBefore, sameNode]
  · exact node_withLive_of_ne same

theorem isLive_withLive_of_ne {node : Node} (different : node ≠ .task record.id) :
    (index.withLive record).isLive node = index.isLive node := by
  cases node with
  | conversation id => rfl
  | task id =>
    have : id ≠ record.id := fun same => different (by rw [same])
    simp [Index.isLive, withLive, update_of_ne this]

theorem isLive_withEnded_of_ne {node : Node} (different : node ≠ .task record.id) :
    (index.withEnded record).isLive node = index.isLive node := by
  cases node with
  | conversation id => rfl
  | task id =>
    have : id ≠ record.id := fun same => different (by rw [same])
    simp [Index.isLive, withEnded, update_of_ne this]

variable {other : Index J}

theorem parent_congr {other : Index J} (sameNode : other.node = index.node)
    (sameEdges : other.edges = index.edges) : other.parent = index.parent := by
  funext node
  cases node <;> simp only [parent, sameNode, sameEdges]

theorem known_congr (sameNode : other.node = index.node) (sameEdges : other.edges = index.edges)
    (sameUnloaded : other.unloaded = index.unloaded) : other.known = index.known := by
  have sameTask : other.knownTask = index.knownTask := by
    funext id
    simp only [knownTask, sameNode, sameUnloaded]
  funext node
  cases node <;> simp only [known, sameTask, sameEdges]

theorem follows_withLive (follows : index.Follows store)
    (isStored : ∃ stored, store.tasks record.id = some stored ∧
      stored.toTaskNode = record.toTaskNode) : (index.withLive record).Follows store := by
  refine ⟨?_, follows.settled, follows.edges⟩
  intro id live isLive
  unfold withLive at isLive
  by_cases same : id = record.id
  · subst same
    simp only [update_self] at isLive
    cases isLive
    exact isStored
  · simp only [update_of_ne same] at isLive
    exact follows.live id live isLive

theorem follows_withEnded (follows : index.Follows store)
    (isStored : ∃ stored, store.tasks record.id = some stored ∧
      stored.toTaskNode = record.toTaskNode) : (index.withEnded record).Follows store := by
  refine ⟨?_, ?_, follows.edges⟩
  · intro id live isLive
    unfold withEnded at isLive
    by_cases same : id = record.id
    · subst same
      simp at isLive
    · simp only [update_of_ne same] at isLive
      exact follows.live id live isLive
  · intro id fields isSettled
    unfold withEnded at isSettled
    by_cases same : id = record.id
    · subst same
      simp only [update_self] at isSettled
      cases isSettled
      exact isStored
    · simp only [update_of_ne same] at isSettled
      exact follows.settled id fields isSettled

section

variable (kept : index.Kept store)
include kept

theorem ended_kept (sound : store.Sound)
    (isStored : ∃ stored, store.tasks record.id = some stored ∧
      stored.toTaskNode = record.toTaskNode) (isLive : (index.live record.id).isSome = true) :
    (((index.withEnded record).relist (.task record.id)).dropIfUnneeded
      (.task record.id)).Kept store := by
  have sameNode := node_withEnded kept.follows isStored isLive
  have follows := follows_withEnded kept.follows isStored
  have changed : index.ChangedAt (index.withEnded record) (.task record.id) := by
    have sameParent := parent_congr sameNode rfl
    exact ⟨rfl, rfl, rfl, fun node up isParent => by rw [sameParent, isParent],
      fun node _ => by rw [sameParent], fun node => isLive_withEnded_of_ne⟩
  refine changed.kept kept sound follows ?_
  intro id node isNode isLoaded
  rw [sameNode] at isNode
  rw [known_congr sameNode rfl rfl]
  exact kept.chained id node isNode isLoaded

theorem changed_kept
    (isStored : ∃ stored, store.tasks record.id = some stored ∧
      stored.toTaskNode = record.toTaskNode) (isLive : (index.live record.id).isSome = true) :
    (index.withLive record).Kept store := by
  have sameNode := node_withLive kept.follows isStored isLive
  have sameParent : (index.withLive record).parent = index.parent := parent_congr sameNode rfl
  have sameLive : (index.withLive record).isLive = index.isLive := by
    funext node
    by_cases same : node = .task record.id
    · subst same
      simp [Index.isLive, withLive, isLive]
    · exact isLive_withLive_of_ne same
  have sameNeeded : ∀ node, (index.withLive record).needed node = index.needed node :=
    fun node => needed_congr (congrFun sameLive node) rfl
  refine ⟨follows_withLive kept.follows isStored, ⟨?_, ?_, ?_, ?_⟩, ?_, ?_⟩
  · intro node up isParent _
    rw [sameParent] at isParent
    rw [sameNeeded]
    exact kept.listed.listed node up isParent not_false
  · intro node up member
    rw [sameParent]
    exact kept.listed.hangs node up member
  · intro id isRoot _
    rw [sameParent] at isRoot
    rw [sameNeeded]
    exact kept.listed.rootListed id isRoot not_false
  · intro id member
    rw [sameParent]
    exact kept.listed.rootHangs id member
  · intro node isKnown notNeeded _
    rw [sameParent] at isKnown
    rw [sameNeeded] at notNeeded
    exact kept.queued node isKnown notNeeded not_false
  · intro id node isNode isLoaded
    rw [sameNode] at isNode
    rw [known_congr sameNode rfl rfl]
    exact kept.chained id node isNode isLoaded

theorem new_listed {later : Index J} (sound : store.Sound)
    (isStored : ∃ stored, store.tasks record.id = some stored ∧
      stored.toTaskNode = record.toTaskNode) (isNew : index.node record.id = none)
    (isLater : later = index.withLive record ∨ later = (index.withLive record).unload record.id) :
    (later.relist (.task record.id)).Listed ∧ (later.relist (.task record.id)).Queued ∧
      (later.relist (.task record.id)).Follows store := by
  have follows : later.Follows store := by
    have := follows_withLive kept.follows isStored
    rcases isLater with rfl | rfl
    · exact this
    · exact ⟨this.live, this.settled, this.edges⟩
  have changed : index.ChangedAt later (.task record.id) := by
    have changed : index.ChangedAt (index.withLive record) (.task record.id) := by
      refine ⟨rfl, rfl, rfl, ?_, ?_, fun node => isLive_withLive_of_ne⟩
      · intro node up isParent
        cases node with
        | conversation id => exact isParent
        | task id =>
          have different : id ≠ record.id := by
            rintro rfl
            simp [parent, isNew] at isParent
          simpa only [parent, node_withLive_of_ne different] using isParent
      · intro node different
        cases node with
        | conversation id => rfl
        | task id =>
          have different : id ≠ record.id :=
            fun same => different (by rw [same])
          simp only [parent, node_withLive_of_ne different]
    rcases isLater with rfl | rfl
    · exact changed
    · exact ⟨rfl, rfl, rfl, changed.parentKept, changed.parentOther,
        changed.liveOther⟩
  have isLive : later.isLive (.task record.id) = true := by
    rcases isLater with rfl | rfl <;> simp [Index.isLive, withLive, unload]
  have same := relist_same later (.task record.id)
  refine ⟨relist_listed (follows.descends sound) (changed.listed kept.listed),
    ?_, follows.same_records same⟩
  intro node isKnown notNeeded _
  refine relist_queued (changed.queued kept.queued) node isKnown notNeeded ?_
  rintro rfl
  rw [needed_eq_true.mpr (.inl (by rw [same.isLive, isLive]))] at notNeeded
  cases notNeeded

end

theorem knownTask_withLive (isNew : index.node record.id = none) {id : ℕ}
    (isKnown : index.knownTask id = true) :
    id ≠ record.id ∧ (index.withLive record).knownTask id = true ∧
      ((index.withLive record).unload record.id).knownTask id = true := by
  obtain ⟨isSome, isLoaded⟩ := knownTask_eq_true.mp isKnown
  have different : id ≠ record.id := by
    rintro rfl
    simp [isNew] at isSome
  have isSomeLater : ((index.withLive record).node id).isSome = true := by
    rwa [node_withLive_of_ne different]
  refine ⟨different, knownTask_eq_true.mpr ⟨isSomeLater, isLoaded⟩,
    knownTask_eq_true.mpr ⟨isSomeLater, ?_⟩⟩
  intro member
  rcases mem_insertLast.mp member with old | same
  · exact isLoaded old
  · exact different same

theorem new_chained (kept : index.Kept store) (isNew : index.node record.id = none) :
    (if (index.withLive record).known (parentNode record.toTaskNode) then
      index.withLive record
    else (index.withLive record).unload record.id).Chained := by
  split_ifs with isKnown
  · intro id fields isNode isLoaded
    by_cases same : id = record.id
    · subst same
      rw [node_withLive_self] at isNode
      cases isNode
      exact isKnown
    · rw [node_withLive_of_ne same] at isNode
      exact known_mono index (index.withLive record)
        (fun _ isKnown => (knownTask_withLive isNew isKnown).2.1)
        (fun _ _ isEdge => isEdge) (kept.chained id fields isNode isLoaded)
  · intro id fields isNode isLoaded
    obtain ⟨isOld, same⟩ := not_or.mp fun member => isLoaded (mem_insertLast.mpr member)
    replace isNode : (index.withLive record).node id = some fields := isNode
    rw [node_withLive_of_ne same] at isNode
    exact known_mono index ((index.withLive record).unload record.id)
      (fun _ isKnown => (knownTask_withLive isNew isKnown).2.2)
      (fun _ _ isEdge => isEdge) (kept.chained id fields isNode isOld)

theorem track_kept (kept : index.Kept store) (sound : store.Sound)
    (isStored : ∃ stored, store.tasks record.id = some stored ∧
      stored.toTaskNode = record.toTaskNode)
    (fits : (index.live record.id).isSome = true ∨
      (record.state.isTerminal = false ∧ index.node record.id = none)) :
    (index.track record).Kept store := by
  unfold track
  split_ifs with isTerminal isLive isKnown
  · rcases fits with isLive | ⟨notTerminal, _⟩
    · exact ended_kept kept sound isStored isLive
    · rw [isTerminal] at notTerminal
      cases notTerminal
  · exact changed_kept kept isStored isLive
  · have isNew := (fits.resolve_left isLive).2
    obtain ⟨listed, queued, follows⟩ := new_listed kept sound isStored isNew (.inl rfl)
    have chained := new_chained kept isNew
    rw [if_pos isKnown] at chained
    exact ⟨follows, listed, queued, chained.same_records (relist_same _ _)⟩
  · have isNew := (fits.resolve_left isLive).2
    obtain ⟨listed, queued, follows⟩ := new_listed kept sound isStored isNew (.inr rfl)
    have chained := new_chained kept isNew
    rw [if_neg isKnown] at chained
    exact ⟨follows, listed, queued, chained.same_records (relist_same _ _)⟩

end Track

/-! ## The sweep -/

section Sweep

variable {index : Index J} {store : Store J}

theorem swept_eq_true {node : Node} :
    index.swept node = true ↔ node ∈ index.dropQueue ∧ index.needed node = false := by
  simp [swept]

theorem parent_sweep (node : Node) :
    index.sweep.parent node =
      if index.swept node = true ∧ index.isLive node = false then none
      else index.parent node := by
  cases node with
  | conversation id =>
    simp only [parent, sweep, isLive]
    split_ifs <;> simp_all
  | task id =>
    simp only [parent, Index.node, sweep, isLive]
    by_cases isSwept : index.swept (.task id) = true
    · rcases Option.eq_none_or_eq_some (index.live id) with
        isTask | ⟨record, isTask⟩
      · simp [isSwept, isTask]
      · simp [isTask]
    · simp [isSwept]

theorem swept_not_live {node : Node} (isSwept : index.swept node = true) :
    index.isLive node = false := by
  obtain ⟨_, notNeeded⟩ := swept_eq_true.mp isSwept
  cases isLive : index.isLive node with
  | false => rfl
  | true =>
    rw [needed_eq_true.mpr (.inl isLive)] at notNeeded
    cases notNeeded

theorem parent_sweep_of_needed {node : Node} (isNeeded : index.needed node = true) :
    index.sweep.parent node = index.parent node := by
  rw [parent_sweep, if_neg]
  rintro ⟨isSwept, _⟩
  rw [(swept_eq_true.mp isSwept).2] at isNeeded
  cases isNeeded

variable {up : Option Node}

theorem parent_of_sweep {node : Node} (isParent : index.sweep.parent node = some up) :
    index.parent node = some up ∧ index.swept node = false := by
  rw [parent_sweep] at isParent
  split_ifs at isParent with isSwept
  refine ⟨isParent, ?_⟩
  cases isCase : index.swept node with
  | false => rfl
  | true => exact absurd ⟨isCase, swept_not_live isCase⟩ isSwept

theorem sweep_needed (node : Node) : index.sweep.needed node = index.needed node :=
  needed_congr (by cases node <;> rfl) rfl

theorem needed_of_stays (queued : index.Queued) {node : Node}
    (isParent : index.sweep.parent node = some up) : index.needed node = true := by
  obtain ⟨wasParent, notSwept⟩ := parent_of_sweep isParent
  cases isNeeded : index.needed node with
  | true => rfl
  | false =>
    have isQueued := queued node (by rw [wasParent]; rfl) isNeeded not_false
    rw [swept_eq_true.mpr ⟨isQueued, isNeeded⟩] at notSwept
    cases notSwept

variable {id : ℕ}

theorem node_of_sweep {fields : TaskNode} (isNode : index.sweep.node id = some fields) :
    index.node id = some fields ∧
      index.sweep.parent (.task id) = some (some (parentNode fields)) := by
  refine ⟨?_, by simp [parent, isNode]⟩
  unfold Index.node at isNode ⊢
  cases isLive : index.live id with
  | some record =>
    simp only [sweep, isLive] at isNode ⊢
    exact isNode
  | none =>
    simp only [sweep, isLive, Option.map_none, Option.none_or] at isNode ⊢
    split_ifs at isNode
    exact isNode

theorem knownTask_sweep (isKnown : index.knownTask id = true)
    (isNeeded : index.needed (.task id) = true) : index.sweep.knownTask id = true := by
  obtain ⟨isSome, isLoaded⟩ := knownTask_eq_true.mp isKnown
  refine knownTask_eq_true.mpr ⟨?_, fun member => isLoaded (List.mem_filter.mp member).1⟩
  have sameParent := parent_sweep_of_needed isNeeded
  obtain ⟨fields, isNode⟩ := Option.isSome_iff_exists.mp isSome
  simp only [parent, isNode, Option.map_some] at sameParent
  cases isSwept : index.sweep.node id with
  | some _ => rfl
  | none => simp [isSwept] at sameParent

theorem sweep_kept (kept : index.Kept store) : index.sweep.Kept store where
  follows := by
    refine ⟨kept.follows.live, ?_, ?_⟩
    · intro id fields isSettled
      simp only [sweep] at isSettled
      split_ifs at isSettled
      exact kept.follows.settled id fields isSettled
    · intro id owner isEdge
      simp only [sweep] at isEdge
      split_ifs at isEdge
      exact kept.follows.edges id owner isEdge
  listed := by
    refine ⟨?_, ?_, ?_, ?_⟩
    · intro node up isParent _
      rw [sweep_needed]
      exact kept.listed.listed node up (parent_of_sweep isParent).1 not_false
    · intro node up member
      have isParent := kept.listed.hangs node up member
      rw [parent_sweep_of_needed
        ((kept.listed.listed node up isParent not_false).mp member), isParent]
    · intro id isRoot _
      obtain ⟨wasRoot, notSwept⟩ := parent_of_sweep isRoot
      rw [sweep_needed, ← kept.listed.rootListed id wasRoot not_false]
      simp [sweep, notSwept]
    · intro id member
      have wasMember := (List.mem_filter.mp member).1
      have isRoot := kept.listed.rootHangs id wasMember
      rw [parent_sweep_of_needed
        ((kept.listed.rootListed id isRoot not_false).mp wasMember), isRoot]
  queued := by
    intro node isKnown notNeeded _
    obtain ⟨up, isParent⟩ := Option.isSome_iff_exists.mp isKnown
    rw [sweep_needed, needed_of_stays kept.queued isParent] at notNeeded
    cases notNeeded
  chained := by
    intro id fields isNode isLoaded
    obtain ⟨wasNode, isParent⟩ := node_of_sweep isNode
    have isNeeded := needed_of_stays kept.queued isParent
    obtain ⟨wasParent, notSwept⟩ := parent_of_sweep isParent
    have wasLoaded : id ∉ index.unloaded := by
      intro member
      refine isLoaded (List.mem_filter.mpr ⟨member, ?_⟩)
      simp [notSwept]
    have wasKnown := kept.chained id fields wasNode wasLoaded
    have member := (kept.listed.listed _ _ wasParent not_false).mpr isNeeded
    have upNeeded := needed_of_mem_below member
    cases isUp : parentNode fields with
    | task owner =>
      rw [isUp] at wasKnown upNeeded
      exact knownTask_sweep wasKnown upNeeded
    | conversation conversation =>
      rw [isUp] at wasKnown upNeeded
      have sameParent := parent_sweep_of_needed upNeeded
      dsimp only [known, parent] at wasKnown sameParent ⊢
      cases isEdge : index.edges conversation with
      | none => simp [isEdge] at wasKnown
      | some owner =>
        rw [isEdge] at wasKnown sameParent
        cases isSwept : index.sweep.edges conversation with
        | none => simp [isSwept] at sameParent
        | some later =>
          rw [isSwept] at sameParent
          cases owner with
          | none =>
            cases later with
            | none => rfl
            | some other => simp at sameParent
          | some owner =>
            cases later with
            | none => simp at sameParent
            | some other =>
              have same : other = owner := by simpa using sameParent
              subst same
              have edgeListed :=
                (kept.listed.listed (.conversation conversation)
                  (.task other) (by simp [parent, isEdge]) not_false).mpr upNeeded
              exact knownTask_sweep wasKnown (needed_of_mem_below edgeListed)

end Sweep

/-! ## Chain loads -/

def Mirrors (index : Index J) (store : Store J) : Prop :=
  ∀ id, index.live id = (store.tasks id).filter TaskRecord.live

theorem setEdge_live (index : Index J) (id : ℕ) (owner : Option ℕ) :
    (index.setEdge id owner).live = index.live :=
  (setEdge_same index id owner).live

theorem settle_live (index : Index J) (id : ℕ) (node : TaskNode) :
    (index.settle id node).live = index.live :=
  (settle_same index id node).live

def Stored (store : Store J) : Node → Prop
  | .task id => (store.tasks id).isSome = true
  | .conversation id => (store.conversations id).isSome = true

theorem stored_parentNode (sound : store.Sound) (isRecord : store.tasks id = some record) :
    Stored store (parentNode record.toTaskNode) := by
  unfold parentNode
  split
  case h_1 owner isOwner =>
    obtain ⟨_, _, above, isAbove, _⟩ := sound.owned id record owner isRecord isOwner
    simp [Stored, isAbove]
  case h_2 => exact (sound.lives id record isRecord).1

def Leads (index : Index J) (node : Node) (next : Option Node) : Prop :=
  some node = next ∨
    ∃ id owner, node = .conversation id ∧ index.edges id = some owner ∧
      next = owner.map .task

/-- A walk up in progress: above each task it passed, the chain is known up to
where the walk goes on. -/
structure Loading (store : Store J) (overlay : Option (Overlay J))
    (next : Option Node) (load : Load J) : Prop where
  kept : load.index.Kept store
  mirrors : load.index.Mirrors store
  conversation : ∀ id, next = some (.conversation id) →
    (overlay.bind fun tx => tx.conversations.lookup id).isSome = true ∨
      (store.conversations id).isSome = true
  stored : load.passed ≠ [] → ∀ node, next = some node → Stored store node
  passed : ∀ id ∈ load.passed, ∃ node, load.index.node id = some node ∧
    (load.finish.known (parentNode node) = true ∨ load.index.Leads (parentNode node) next)

def OverlaySound (store : Store J) (overlay : Option (Overlay J)) : Prop :=
  ∀ tx, overlay = some tx → tx.Sound store

variable {load : Load J}

theorem knownTask_finish :
    load.finish.knownTask id = true ↔
      (load.index.node id).isSome = true ∧ (id ∉ load.index.unloaded ∨ id ∈ load.passed) := by
  rw [knownTask_eq_true]
  simp only [Load.finish, List.mem_filter, decide_eq_true_eq, not_and, not_not, imp_iff_not_or]
  rfl

variable {next : Option Node}

theorem known_of_leads {node : Node} (leads : load.index.Leads node next)
    (arrives : ∀ up, next = some up → ∃ id, up = .task id ∧ load.finish.knownTask id = true)
    (isTop : next = none → ∃ id, node = .conversation id) : load.finish.known node = true := by
  rcases leads with same | ⟨id, owner, rfl, isEdge, isNext⟩
  · obtain ⟨id, rfl, isKnown⟩ := arrives node same.symm
    exact isKnown
  · replace isEdge : load.finish.edges id = some owner := isEdge
    dsimp only [known]
    rw [isEdge]
    cases owner with
    | none => rfl
    | some owner =>
      obtain ⟨task, isTask, isKnown⟩ := arrives (.task owner) isNext
      cases isTask
      exact isKnown

theorem finish_kept (kept : load.index.Kept store)
    (passed : ∀ id ∈ load.passed, ∃ node, load.index.node id = some node ∧
      load.finish.known (parentNode node) = true) :
    load.finish.Kept store where
  follows := ⟨kept.follows.live, kept.follows.settled, kept.follows.edges⟩
  listed := ⟨kept.listed.listed, kept.listed.hangs, kept.listed.rootListed, kept.listed.rootHangs⟩
  queued := kept.queued
  chained := by
    intro id fields isNode isLoaded
    replace isNode : load.index.node id = some fields := isNode
    by_cases isPassed : id ∈ load.passed
    · obtain ⟨found, isFound, isKnown⟩ := passed id isPassed
      rw [isNode] at isFound
      cases isFound
      exact isKnown
    · have wasLoaded : id ∉ load.index.unloaded := fun member =>
        isLoaded (List.mem_filter.mpr ⟨member, by simpa using isPassed⟩)
      refine known_mono load.index load.finish ?_ (fun _ _ isEdge => isEdge)
        (kept.chained id fields isNode wasLoaded)
      intro task isKnown
      obtain ⟨isSome, taskLoaded⟩ := knownTask_eq_true.mp isKnown
      exact knownTask_finish.mpr ⟨isSome, .inl taskLoaded⟩

namespace Loading

variable {store : Store J} {overlay : Option (Overlay J)} {load : Load J}

theorem finished {next : Option Node} (loading : Loading store overlay next load)
    (arrives : ∀ up, next = some up → ∃ id, up = .task id ∧ load.finish.knownTask id = true) :
    load.finish.Kept store := by
  refine finish_kept loading.kept fun id isPassed => ?_
  obtain ⟨fields, isNode, isKnown | leads⟩ := loading.passed id isPassed
  · exact ⟨fields, isNode, isKnown⟩
  · refine ⟨fields, isNode, known_of_leads leads arrives ?_⟩
    rintro rfl
    rcases leads with same | ⟨conversation, _, same, _⟩
    · cases same
    · exact ⟨conversation, same⟩

theorem pass {id : ℕ} {fields : TaskNode} {later : Index J} {reveals : Bool}
    (loading : Loading store overlay (some (.task id)) load)
    (kept : later.Kept store) (sameLive : later.live = load.index.live)
    (sameEdges : later.edges = load.index.edges)
    (nodes : ∀ other node, load.index.node other = some node → later.node other = some node)
    (loaded : ∀ other, other ∈ later.unloaded → other ∈ load.index.unloaded ∨ other = id)
    (isNode : later.node id = some fields)
    (conversation : ∀ other, parentNode fields = .conversation other →
      (store.conversations other).isSome = true)
    (stored : Stored store (parentNode fields)) :
    Loading store overlay (some (parentNode fields))
      { index := later, passed := load.passed ++ [id], reveals } := by
  have tasks : ∀ other, load.finish.knownTask other = true →
      Index.knownTask (Load.finish
        { index := later, passed := load.passed ++ [id], reveals }) other =
          true := by
    intro other isKnown
    obtain ⟨isSome, isLoaded⟩ := knownTask_finish.mp isKnown
    obtain ⟨node, isOther⟩ := Option.isSome_iff_exists.mp isSome
    refine knownTask_finish.mpr ⟨by simp [nodes other node isOther], ?_⟩
    rcases isLoaded with isLoaded | isPassed
    · by_cases same : other = id
      · exact .inr (by simp [same])
      · refine .inl fun member => ?_
        rcases loaded other member with old | isSame
        · exact isLoaded old
        · exact same isSame
    · exact .inr (List.mem_append_left _ isPassed)
  have isKnown : Index.knownTask (Load.finish
      { index := later, passed := load.passed ++ [id], reveals }) id =
        true :=
    knownTask_finish.mpr ⟨by simp [isNode], .inr (by simp)⟩
  refine ⟨kept, ?_, ?_, ?_, ?_⟩
  · intro other
    rw [sameLive]
    exact loading.mirrors other
  · rintro other isNext
    exact .inr (conversation other (Option.some.inj isNext))
  · rintro _ node isNext
    cases isNext
    exact stored
  · intro other member
    rcases List.mem_append.mp member with old | isLast
    · obtain ⟨node, isOther, wasKnown | leads⟩ := loading.passed other old
      · exact ⟨node, nodes other node isOther, .inl
          (known_mono load.finish _ tasks
            (fun conversation owner isEdge => by
              simp only [Load.finish, sameEdges]
              exact isEdge) wasKnown)⟩
      · refine ⟨node, nodes other node isOther, .inl ?_⟩
        rcases leads with same | ⟨conversation, owner, same, isEdge, isNext⟩
        · rw [Option.some.inj same]
          exact isKnown
        · rw [same]
          dsimp only [known, Load.finish]
          rw [sameEdges, isEdge]
          cases owner with
          | none => rfl
          | some owner =>
            have isOwner : id = owner := by simpa using isNext
            rw [← isOwner]
            exact isKnown
    · rw [List.mem_singleton.mp isLast]
      exact ⟨fields, isNode, .inr (.inl rfl)⟩

theorem cross {id : ℕ} {owner : Option ℕ} {later : Index J} {reveals : Bool}
    (loading : Loading store overlay (some (.conversation id)) load)
    (kept : later.Kept store) (sameLive : later.live = load.index.live)
    (sameSettled : later.settled = load.index.settled)
    (sameUnloaded : later.unloaded = load.index.unloaded)
    (edges : ∀ other up, load.index.edges other = some up → later.edges other = some up)
    (isEdge : load.passed ≠ [] → later.edges id = some owner)
    (stored : load.passed ≠ [] → ∀ task, owner = some task → (store.tasks task).isSome = true) :
    Loading store overlay (owner.map .task) { load with index := later, reveals } := by
  have sameNode : later.node = load.index.node := by
    funext other
    simp only [node, sameLive, sameSettled]
  refine ⟨kept, ?_, ?_, ?_, ?_⟩
  · intro other
    rw [sameLive]
    exact loading.mirrors other
  · intro other isNext
    cases owner <;> cases isNext
  · intro isPassed node isNext
    obtain ⟨task, isTask, rfl⟩ := Option.map_eq_some_iff.mp isNext
    exact stored isPassed task isTask
  · intro other isPassed
    obtain ⟨node, isOther, wasKnown | leads⟩ := loading.passed other isPassed
    · refine ⟨node, by rw [sameNode, isOther], .inl ?_⟩
      refine known_mono load.finish
        (Load.finish { load with index := later, reveals }) ?_ edges wasKnown
      intro task isKnown
      obtain ⟨isSome, isLoaded⟩ := knownTask_finish.mp isKnown
      refine knownTask_finish.mpr ⟨by rw [sameNode]; exact isSome, ?_⟩
      rw [sameUnloaded]
      exact isLoaded
    · refine ⟨node, by rw [sameNode, isOther], .inr (.inr ?_)⟩
      rcases leads with same | ⟨_, other, _, _, isNext⟩
      · exact ⟨id, owner, Option.some.inj same, isEdge (List.ne_nil_of_mem isPassed), rfl⟩
      · cases other <;> cases isNext

end Loading

theorem terminal_of_unknown (mirrors : index.Mirrors store) (isUnknown : index.node id = none)
    (isRecord : store.tasks id = some record) : record.state.isTerminal = true := by
  obtain ⟨notLive, _⟩ := Option.or_eq_none_iff.mp isUnknown
  replace notLive : index.live id = none := by simpa using notLive
  have isLive := mirrors id
  rw [notLive, isRecord] at isLive
  simpa [Option.filter, TaskRecord.live] using isLive

namespace Loading

variable {store : Store J} {overlay : Option (Overlay J)} {load : Load J} {id : ℕ}

theorem passed_eq_nil (loading : Loading store overlay (some (.task id)) load)
    (staged : OverlaySound store overlay) (isUnknown : load.index.node id = none)
    (isStaged : (overlay.bind fun tx => tx.candidate id).isSome = true) : load.passed = [] := by
  by_contra isPassed
  obtain ⟨record, isRecord⟩ := Option.isSome_iff_exists.mp (loading.stored isPassed (.task id) rfl)
  obtain ⟨candidate, isCandidate⟩ := Option.isSome_iff_exists.mp isStaged
  obtain ⟨tx, isOverlay, isCandidate⟩ := Option.bind_eq_some_iff.mp isCandidate
  obtain ⟨write, isWrite, _⟩ := Option.map_eq_some_iff.mp isCandidate
  have member := Transaction.write_mem isWrite
  have isNamed := Transaction.write_id isWrite
  have txSound := staged tx isOverlay
  cases isKind : write.kind with
  | create =>
    have isNone := (txSound.created write member isKind).1
    rw [isNamed, isRecord] at isNone
    cases isNone
  | replace =>
    obtain ⟨committed, isCommitted, isLive, _⟩ := txSound.replaced write member isKind
    rw [isNamed, isRecord] at isCommitted
    cases isCommitted
    simp [TaskRecord.live, terminal_of_unknown loading.mirrors isUnknown isRecord] at isLive

theorem lookup_eq_none (loading : Loading store overlay (some (.conversation id)) load)
    (staged : OverlaySound store overlay) (isPassed : load.passed ≠ []) :
    (overlay.bind fun tx => tx.conversations.lookup id) = none := by
  obtain ⟨stored, isStored⟩ := Option.isSome_iff_exists.mp
    (loading.stored isPassed (.conversation id) rfl)
  cases isLookup : overlay.bind fun tx => tx.conversations.lookup id with
  | none => rfl
  | some found =>
    obtain ⟨tx, isOverlay, isFound⟩ := Option.bind_eq_some_iff.mp isLookup
    obtain ⟨before, after, isSplit, _⟩ := List.lookup_eq_some_iff.mp isFound
    have isNone := (staged tx isOverlay).fresh (id, found) (by rw [isSplit]; simp)
    rw [isStored] at isNone
    cases isNone

end Loading

variable {overlay : Option (Overlay J)}

theorem ownerLess_of_edge {owner : ℕ} (sound : store.Sound) (staged : OverlaySound store overlay)
    (follows : index.Follows store)
    (isEdge : index.edge overlay id = some (some owner)) : owner < id := by
  unfold edge at isEdge
  cases isLookup : overlay.bind fun tx => tx.conversations.lookup id with
  | none =>
    rw [isLookup, Option.none_or] at isEdge
    exact (sound.ownedConversation id owner (follows.edges id _ isEdge)).1
  | some found =>
    rw [isLookup, Option.some_or] at isEdge
    obtain ⟨tx, isOverlay, isFound⟩ := Option.bind_eq_some_iff.mp isLookup
    refine ((staged tx isOverlay).forest.ownedConversation id owner ?_).1
    simp [Transaction.applied, Transaction.currentConversation, isFound, Option.some.inj isEdge]

/-- A walk up keeps the indexes, and ends with the chains of the tasks it
passed loaded. -/
theorem loadFrom_kept {steps : ℕ} (sound : store.Sound) (staged : OverlaySound store overlay)
    (deep : ∀ node, next = some node → node.number < steps)
    (loading : Loading store overlay next load) :
    (loadFrom store overlay steps next load).finish.Kept store ∧
      (loadFrom store overlay steps next load).index.live =
        load.index.live := by
  induction steps generalizing next load with
  | zero =>
    have isRoot : next = none := by
      cases next with
      | none => rfl
      | some node => exact absurd (deep node rfl) (Nat.not_lt_zero _)
    subst isRoot
    exact ⟨loading.finished (by simp), rfl⟩
  | succ steps ih =>
    cases next with
    | none => exact ⟨loading.finished (by simp), rfl⟩
    | some next =>
      have bound := deep next rfl
      have lower : ∀ up, store.above next = some up → up.number < steps := by
        intro up isAbove
        have := sound.above_lt isAbove
        omega
      cases next with
      | task id =>
        have parentLower : ∀ record, store.tasks id = some record →
            ∀ node, some (parentNode record.toTaskNode) = some node → node.number < steps := by
          rintro record isRecord node isNode
          refine lower node ?_
          rw [← isNode]
          simp [Store.above, isRecord]
        have conversation : ∀ record, store.tasks id = some record →
            ∀ other, parentNode record.toTaskNode = .conversation other →
              (store.conversations other).isSome = true := by
          intro record isRecord other isParent
          have isStored := stored_parentNode sound isRecord
          rwa [isParent] at isStored
        unfold loadFrom
        split
        case h_1 fields isNode =>
          obtain ⟨record, isRecord, rfl⟩ := loading.kept.follows.node isNode
          split_ifs with isLoaded
          · exact ih (parentLower record isRecord)
              (loading.pass loading.kept rfl rfl (fun _ _ isOther => isOther)
                (fun _ member => .inl member) isNode
                (conversation record isRecord)
                (stored_parentNode sound isRecord))
          · refine ⟨loading.finished ?_, rfl⟩
            rintro up isNext
            cases isNext
            exact ⟨id, rfl, knownTask_finish.mpr ⟨by simp [isNode], .inl isLoaded⟩⟩
        case h_2 isUnknown =>
          split_ifs with isStaged
          · refine ⟨finish_kept loading.kept ?_, rfl⟩
            simp [loading.passed_eq_nil staged isUnknown isStaged]
          · split
            case h_1 => exact ⟨finish_kept loading.kept (by simp), rfl⟩
            case h_2 record isRecord =>
              rw [if_pos (terminal_of_unknown loading.mirrors isUnknown isRecord)]
              have same := settle_same load.index id record.toTaskNode
              obtain ⟨notLive, _⟩ := Option.or_eq_none_iff.mp isUnknown
              have result := ih (parentLower record isRecord)
                (@Loading.pass J store overlay load id record.toTaskNode _ true loading
                  (settle_kept loading.kept sound isRecord isUnknown)
                  (settle_live _ _ _) (by rw [same.edges]; rfl) ?_ ?_
                  (by rw [same.node]; simp [node, withSettled,
                    show load.index.live id = none by simpa using notLive])
                  (conversation record isRecord)
                  (stored_parentNode sound isRecord))
              · exact ⟨result.1, result.2.trans (settle_live _ _ _)⟩
              · intro other fields isOther
                rw [same.node]
                have different : other ≠ id := by
                  rintro rfl
                  rw [isUnknown] at isOther
                  cases isOther
                simpa [node, withSettled, update_of_ne different] using isOther
              · intro other member
                rw [same.unloaded] at member
                exact mem_insertLast.mp member
      | conversation id =>
        have ownerLower : ∀ owner,
            store.conversations id = some owner →
              ∀ node, owner.map Node.task = some node → node.number < steps := by
          rintro owner isOwner node isNode
          refine lower node ?_
          simp [Store.above, isOwner, isNode]
        have ownerStored : ∀ owner,
            store.conversations id = some owner →
              ∀ task, owner = some task → (store.tasks task).isSome = true := by
          rintro owner isOwner task rfl
          exact (sound.ownedConversation id task isOwner).2
        unfold loadFrom
        split
        case h_1 owner isEdge =>
          have known : load.passed ≠ [] → load.index.edges id = some owner := by
            intro isPassed
            have notStaged := loading.lookup_eq_none staged isPassed
            unfold edge at isEdge
            rwa [notStaged, Option.none_or] at isEdge
          refine ih ?_ (loading.cross loading.kept rfl
            rfl rfl (fun _ _ isOther => isOther) known
            fun isPassed => ownerStored owner
              (loading.kept.follows.edges id owner (known isPassed)))
          intro node isNode
          obtain ⟨task, rfl, rfl⟩ := Option.map_eq_some_iff.mp isNode
          have less := ownerLess_of_edge sound staged loading.kept.follows isEdge
          simp only [Node.number_task, Node.number_conversation] at bound ⊢
          omega
        case h_2 isUnknown =>
          obtain ⟨notStaged, notEdge⟩ := Option.or_eq_none_iff.mp isUnknown
          have isStored : (store.conversations id).isSome = true := by
            refine (loading.conversation id rfl).resolve_left ?_
            simp [notStaged]
          obtain ⟨owner, isOwner⟩ := Option.isSome_iff_exists.mp isStored
          have isJoin : (store.conversations id).join = owner := by rw [isOwner, Option.join_some]
          dsimp only
          rw [isJoin]
          have same := setEdge_same load.index id owner
          have result := ih (ownerLower owner isOwner)
            (@Loading.cross J store overlay load id owner _ true loading
              (setEdge_kept loading.kept sound isOwner)
              (setEdge_live _ _ _) (by rw [same.settled]; rfl)
              (by rw [same.unloaded]; rfl)
              ?_ (fun _ => by rw [same.edges]; simp [withEdge])
              fun _ => ownerStored owner isOwner)
          · exact ⟨result.1, result.2.trans (setEdge_live _ _ _)⟩
          · intro other up isOther
            rw [same.edges]
            have different : other ≠ id := by
              rintro rfl
              rw [notEdge] at isOther
              cases isOther
            simpa [withEdge, update_of_ne different] using isOther

theorem loadChain_kept {index : Index J} {store : Store J} {overlay : Option (Overlay J)}
    {start : Node} (kept : index.Kept store) (mirrors : index.Mirrors store)
    (sound : store.Sound) (staged : OverlaySound store overlay)
    (isStart : ∀ id, start = .conversation id →
      (overlay.bind fun tx => tx.conversations.lookup id).isSome = true ∨
        (store.conversations id).isSome = true) :
    (index.loadChain store overlay start).finish.Kept store ∧
      (index.loadChain store overlay start).index.live = index.live := by
  refine loadFrom_kept sound staged ?_ ⟨kept, mirrors, ?_, ?_, ?_⟩
  · rintro node isNode
    cases isNode
    exact Nat.lt_succ_self _
  · rintro id isNext
    exact isStart id (Option.some.inj isNext)
  · intro isPassed
    exact absurd rfl isPassed
  · simp

end Index

end PiEmbodied.Durable.Scheduler
