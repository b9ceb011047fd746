import PiEmbodied.Durable.SchedulerRuns

/-!
# What chain loads leave on hand

A chain load keeps what is known, and ends with the node it started from on
hand: known with its chain, or created by the commit the load is part of.  Once
the scopes are loaded, no task is unloaded.
-/

namespace PiEmbodied.Durable.Scheduler

open Tasks

variable {J : Type}

namespace Index

/-! ## Indexes that know more -/

/-- A later index knows what an earlier one knew, and no more is unloaded. -/
structure Widens (index later : Index J) : Prop where
  live : later.live = index.live
  nodes : ∀ id node, index.node id = some node → later.node id = some node
  edges : ∀ id owner, index.edges id = some owner → later.edges id = some owner
  unloaded : ∀ id ∈ later.unloaded, id ∈ index.unloaded

namespace Widens

variable {index later last : Index J}

theorem refl (index : Index J) : index.Widens index :=
  ⟨rfl, fun _ _ isNode => isNode, fun _ _ isEdge => isEdge, fun _ member => member⟩

theorem trans (first : index.Widens later) (second : later.Widens last) : index.Widens last where
  live := second.live.trans first.live
  nodes := fun id node isNode => second.nodes id node (first.nodes id node isNode)
  edges := fun id owner isEdge => second.edges id owner (first.edges id owner isEdge)
  unloaded := fun id member => first.unloaded id (second.unloaded id member)

theorem knownTask (widens : index.Widens later) {id : ℕ}
    (isKnown : index.knownTask id = true) : later.knownTask id = true := by
  obtain ⟨isSome, isLoaded⟩ := knownTask_eq_true.mp isKnown
  obtain ⟨node, isNode⟩ := Option.isSome_iff_exists.mp isSome
  refine knownTask_eq_true.mpr ⟨?_, fun member => ?_⟩
  · rw [widens.nodes id node isNode]
    rfl
  · exact isLoaded (widens.unloaded id member)

theorem unloaded_eq_nil (widens : index.Widens later) (none : index.unloaded = []) :
    later.unloaded = [] := by
  refine List.eq_nil_iff_forall_not_mem.mpr fun id member => ?_
  have := widens.unloaded id member
  simp [none] at this

end Widens

/-- A task is known with its chain, or staged by the commit. -/
def TaskOnHand (index : Index J) (overlay : Option (Overlay J)) (id : ℕ) : Prop :=
  (overlay.bind fun tx => tx.candidate id).isSome = true ∨ index.knownTask id = true

/-- The same of any node; the owner of a conversation on hand is. -/
def OnHand (index : Index J) (overlay : Option (Overlay J)) : Node → Prop
  | .task id => index.TaskOnHand overlay id
  | .conversation id =>
    ∃ owner, index.edge overlay id = some owner ∧
      ∀ task, owner = some task → index.TaskOnHand overlay task

variable {index : Index J} {overlay : Option (Overlay J)} {id : ℕ}

theorem edge_mono {later : Index J} (widens : index.Widens later) {owner : Option ℕ}
    (isEdge : index.edge overlay id = some owner) : later.edge overlay id = some owner := by
  unfold edge at isEdge ⊢
  rcases Option.or_eq_some_iff.mp isEdge with isStaged | ⟨notStaged, isKnown⟩
  · rw [isStaged, Option.some_or]
  · rw [notStaged, Option.none_or]
    exact widens.edges id owner isKnown

theorem OnHand.mono {later : Index J} {node : Node} (onHand : index.OnHand overlay node)
    (widens : index.Widens later) : later.OnHand overlay node := by
  cases node with
  | task id => exact onHand.imp_right widens.knownTask
  | conversation id =>
    obtain ⟨owner, isEdge, taskOnHand⟩ := onHand
    exact ⟨owner, edge_mono widens isEdge, fun task isOwner =>
      (taskOnHand task isOwner).imp_right widens.knownTask⟩

variable {store : Store J}

theorem lookup_eq_none_of_edge (staged : OverlaySound store overlay) (follows : index.Follows store)
    {owner : Option ℕ} (isEdge : index.edges id = some owner) :
    (overlay.bind fun tx => tx.conversations.lookup id) = none := by
  cases isLookup : overlay.bind fun tx => tx.conversations.lookup id with
  | none => rfl
  | some found =>
    obtain ⟨tx, isOverlay, isFound⟩ := Option.bind_eq_some_iff.mp isLookup
    obtain ⟨before, after, isSplit, _⟩ := List.lookup_eq_some_iff.mp isFound
    have isNone := (staged tx isOverlay).fresh (id, found) (by rw [isSplit]; simp)
    rw [follows.edges id owner isEdge] at isNone
    cases isNone

theorem onHand_of_known (staged : OverlaySound store overlay) (follows : index.Follows store)
    {node : Node} (isKnown : index.known node = true) : index.OnHand overlay node := by
  cases node with
  | task id => exact .inr isKnown
  | conversation id =>
    have isEdge : ∀ owner, index.edges id = some owner → index.edge overlay id = some owner := by
      intro owner isOwner
      unfold edge
      rw [lookup_eq_none_of_edge staged follows isOwner, isOwner, Option.none_or]
    dsimp only [known] at isKnown
    split at isKnown
    case h_1 => cases isKnown
    case h_2 isOwner => exact ⟨none, isEdge none isOwner, by simp⟩
    case h_3 owner isOwner =>
      refine ⟨some owner, isEdge _ isOwner, ?_⟩
      rintro task isTask
      cases isTask
      exact .inr isKnown

/-! ## Where a chain load arrives -/

/-- A walk up goes on: what was known is, and what became unloaded is passed. -/
structure Load.Grows (load later : Load J) : Prop where
  live : later.index.live = load.index.live
  nodes : ∀ id node, load.index.node id = some node → later.index.node id = some node
  edges : ∀ id owner, load.index.edges id = some owner → later.index.edges id = some owner
  unloaded : ∀ id ∈ later.index.unloaded, id ∈ load.index.unloaded ∨ id ∈ later.passed
  passed : ∀ id ∈ load.passed, id ∈ later.passed
  known : (∀ id ∈ load.index.unloaded, (load.index.node id).isSome = true) →
    ∀ id ∈ later.index.unloaded, (later.index.node id).isSome = true

namespace Load.Grows

variable {load later last : Load J}

theorem refl (load : Load J) : load.Grows load :=
  ⟨rfl, fun _ _ isNode => isNode, fun _ _ isEdge => isEdge,
    fun _ member => .inl member, fun _ member => member, fun known => known⟩

theorem trans (first : load.Grows later) (second : later.Grows last) : load.Grows last where
  live := second.live.trans first.live
  nodes := fun id node isNode => second.nodes id node (first.nodes id node isNode)
  edges := fun id owner isEdge => second.edges id owner (first.edges id owner isEdge)
  unloaded := by
    intro id member
    rcases second.unloaded id member with old | isPassed
    · exact (first.unloaded id old).imp_right (second.passed id)
    · exact .inr isPassed
  passed := fun id member => second.passed id (first.passed id member)
  known := fun isKnown => second.known (first.known isKnown)

theorem finish (grows : load.Grows later) : load.index.Widens later.finish :=
  { grows with
    unloaded := by
      intro id member
      obtain ⟨isUnloaded, notPassed⟩ := List.mem_filter.mp member
      exact (grows.unloaded id isUnloaded).resolve_right (by simpa using notPassed) }

end Load.Grows

theorem grows_pass (load : Load J) (id : ℕ) :
    load.Grows { load with passed := load.passed ++ [id] } :=
  ⟨rfl, fun _ _ isNode => isNode, fun _ _ isEdge => isEdge, fun _ member => .inl member,
    fun _ member => List.mem_append_left _ member, fun known => known⟩

theorem grows_settle (load : Load J) {id : ℕ} (fields : TaskNode)
    (isUnknown : load.index.node id = none) :
    load.Grows
      { index := load.index.settle id fields
        passed := load.passed ++ [id]
        reveals := true } := by
  have same := settle_same load.index id fields
  obtain ⟨notLive, _⟩ := Option.or_eq_none_iff.mp isUnknown
  replace notLive : load.index.live id = none := by simpa using notLive
  have isNode : ∀ other, (load.index.settle id fields).node other =
      if other = id then some fields else load.index.node other := by
    intro other
    rw [same.node]
    by_cases isSame : other = id
    · subst isSame
      simp [node, withSettled, notLive]
    · simp [node, withSettled, isSame]
  refine ⟨settle_live _ _ _, ?_, ?_, ?_, ?_, ?_⟩
  · intro other node isOther
    have different : other ≠ id := by
      rintro rfl
      rw [isUnknown] at isOther
      cases isOther
    rw [isNode, if_neg different, isOther]
  · intro other owner isEdge
    rw [same.edges]
    exact isEdge
  · intro other member
    rw [same.unloaded] at member
    rcases mem_insertLast.mp member with old | rfl
    · exact .inl old
    · exact .inr (by simp)
  · exact fun _ member => List.mem_append_left _ member
  · intro known other member
    rw [same.unloaded] at member
    rw [isNode]
    rcases mem_insertLast.mp member with old | rfl
    · split_ifs
      · rfl
      · exact known other old
    · simp

theorem grows_setEdge (load : Load J) {id : ℕ} (owner : Option ℕ)
    (isUnknown : load.index.edges id = none) :
    load.Grows
      { load with index := load.index.setEdge id owner, reveals := true } := by
  have same := setEdge_same load.index id owner
  have sameNode : (load.index.setEdge id owner).node = load.index.node := by
    rw [same.node]
    rfl
  refine ⟨setEdge_live _ _ _, ?_, ?_, ?_, fun _ member => member, ?_⟩
  · intro other node isNode
    rw [sameNode]
    exact isNode
  · intro other up isOther
    have different : other ≠ id := by
      rintro rfl
      rw [isUnknown] at isOther
      cases isOther
    rw [same.edges]
    simpa [withEdge, Function.update_of_ne different] using isOther
  · intro other member
    rw [same.unloaded] at member
    exact .inl member
  · intro known other member
    rw [same.unloaded] at member
    rw [sameNode]
    exact known other member

theorem hasNode_of_edge (sound : store.Sound) (staged : OverlaySound store overlay)
    (follows : index.Follows store) {task : ℕ} (isEdge : index.edge overlay id = some (some task)) :
    State.hasNode store overlay (.task task) = true := by
  rcases Option.or_eq_some_iff.mp isEdge with isLookup | ⟨_, isKnown⟩
  · obtain ⟨tx, rfl, isFound⟩ := Option.bind_eq_some_iff.mp isLookup
    have txSound := staged tx rfl
    have isOwner : (tx.applied store).conversations id = some (some task) := by
      simp [Transaction.applied, Transaction.currentConversation, isFound]
    obtain ⟨_, isSome⟩ := txSound.forest.ownedConversation id task isOwner
    simpa [State.hasNode, Transaction.applied, Transaction.currentTask] using isSome
  · have isSome := (sound.ownedConversation id task (follows.edges id _ isKnown)).2
    simp [State.hasNode, isSome]

theorem hasNode_parentNode
    (overlay : Option (Overlay J)) (sound : store.Sound) {record : TaskRecord J}
    (isRecord : store.tasks id = some record) :
    State.hasNode store overlay (parentNode record.toTaskNode) = true := by
  have isStored := stored_parentNode sound isRecord
  cases isParent : parentNode record.toTaskNode with
  | task owner =>
    rw [isParent] at isStored
    simp [State.hasNode, show (store.tasks owner).isSome = true from isStored]
  | conversation conversation =>
    rw [isParent] at isStored
    simp [State.hasNode,
      show (store.conversations conversation).isSome = true from isStored]

theorem loadFrom_arrives {store : Store J} {overlay : Option (Overlay J)} {steps : ℕ}
    {next : Option Node} {load : Load J} (sound : store.Sound) (staged : OverlaySound store overlay)
    (kept : load.index.Kept store) (mirrors : load.index.Mirrors store)
    (deep : ∀ node, next = some node → node.number < steps)
    (isThere : ∀ node, next = some node → State.hasNode store overlay node = true) :
    load.Grows (loadFrom store overlay steps next load) ∧
      ∀ node, next = some node →
        (loadFrom store overlay steps next load).finish.OnHand overlay node := by
  induction steps generalizing next load with
  | zero =>
    refine ⟨.refl load, fun node isNode => ?_⟩
    exact absurd (deep node isNode) (Nat.not_lt_zero _)
  | succ steps ih =>
    cases next with
    | none => exact ⟨.refl load, fun node isNode => by cases isNode⟩
    | some next =>
      have bound := deep next rfl
      have lower : ∀ up, store.above next = some up → up.number < steps := by
        intro up isAbove
        have := sound.above_lt isAbove
        omega
      cases next with
      | task id =>
        have parentLower : ∀ record, store.tasks id = some record →
            ∀ node, some (parentNode record.toTaskNode) = some node → node.number < steps := by
          rintro record isRecord node isNode
          refine lower node ?_
          rw [← isNode]
          simp [Store.above, isRecord]
        have parentThere : ∀ record, store.tasks id = some record →
            ∀ node, some (parentNode record.toTaskNode) = some node →
              State.hasNode store overlay node = true := by
          rintro record isRecord node ⟨⟩
          exact hasNode_parentNode overlay sound isRecord
        unfold loadFrom
        split
        case h_1 fields isNode =>
          obtain ⟨record, isRecord, rfl⟩ := kept.follows.node isNode
          split_ifs with isLoaded
          · obtain ⟨grows, _⟩ := @ih _ { load with passed := load.passed ++ [id] } kept mirrors
              (parentLower record isRecord) (parentThere record isRecord)
            refine ⟨(grows_pass load id).trans grows, ?_⟩
            rintro node ⟨⟩
            refine .inr (knownTask_finish.mpr ⟨?_, .inr ?_⟩)
            · rw [grows.nodes id _ isNode]
              rfl
            · exact grows.passed id (by simp)
          · refine ⟨.refl load, ?_⟩
            rintro node ⟨⟩
            exact .inr (knownTask_finish.mpr ⟨by simp [isNode], .inl isLoaded⟩)
        case h_2 isUnknown =>
          split_ifs with isStaged
          · refine ⟨.refl load, ?_⟩
            rintro node ⟨⟩
            exact .inl isStaged
          · split
            case h_1 isMissing =>
              have hasNode := isThere _ rfl
              simp [State.hasNode, isMissing, isStaged] at hasNode
            case h_2 record isRecord =>
              rw [if_pos (terminal_of_unknown mirrors isUnknown isRecord)]
              have settles := grows_settle load record.toTaskNode isUnknown
              obtain ⟨grows, _⟩ := @ih _
                { index := load.index.settle id record.toTaskNode
                  passed := load.passed ++ [id]
                  reveals := true }
                (settle_kept kept sound isRecord isUnknown)
                (by
                  intro other
                  rw [settle_live]
                  exact mirrors other)
                (parentLower record isRecord)
                (parentThere record isRecord)
              refine ⟨settles.trans grows, ?_⟩
              rintro node ⟨⟩
              have isPassed := grows.passed id (by simp)
              refine .inr (knownTask_finish.mpr ⟨?_, .inr isPassed⟩)
              have same := settle_same load.index id record.toTaskNode
              obtain ⟨notLive, _⟩ := Option.or_eq_none_iff.mp isUnknown
              replace notLive : load.index.live id = none := by simpa using notLive
              rw [grows.nodes id record.toTaskNode]
              · rfl
              · dsimp only
                rw [same.node]
                simp [node, withSettled, notLive]
      | conversation id =>
        unfold loadFrom
        split
        case h_1 owner isEdge =>
          have ownerLower : ∀ node, owner.map Node.task = some node → node.number < steps := by
            intro node isNode
            obtain ⟨task, rfl, rfl⟩ := Option.map_eq_some_iff.mp isNode
            have less := ownerLess_of_edge sound staged kept.follows isEdge
            simp only [Node.number_task, Node.number_conversation] at bound ⊢
            omega
          have ownerThere : ∀ node, owner.map Node.task = some node →
              State.hasNode store overlay node = true := by
            intro node isNode
            obtain ⟨task, rfl, rfl⟩ := Option.map_eq_some_iff.mp isNode
            exact hasNode_of_edge sound staged kept.follows isEdge
          obtain ⟨grows, arrives⟩ := ih kept mirrors ownerLower ownerThere
          refine ⟨grows, ?_⟩
          rintro node ⟨⟩
          refine ⟨owner, edge_mono grows.finish isEdge, ?_⟩
          rintro task rfl
          exact arrives (.task task) rfl
        case h_2 isUnknown =>
          obtain ⟨notStaged, notEdge⟩ := Option.or_eq_none_iff.mp isUnknown
          have isStored : (store.conversations id).isSome = true := by
            have hasNode := isThere _ rfl
            simpa [State.hasNode, notStaged] using hasNode
          obtain ⟨owner, isOwner⟩ := Option.isSome_iff_exists.mp isStored
          have isJoin : (store.conversations id).join = owner := by rw [isOwner, Option.join_some]
          dsimp only
          rw [isJoin]
          have sets := grows_setEdge load owner notEdge
          have ownerLower : ∀ node, owner.map Node.task = some node → node.number < steps := by
            intro node isNode
            exact lower node (by simp [Store.above, isOwner, isNode])
          have ownerThere : ∀ node, owner.map Node.task = some node →
              State.hasNode store overlay node = true := by
            intro node isNode
            obtain ⟨task, rfl, rfl⟩ := Option.map_eq_some_iff.mp isNode
            simp [State.hasNode, (sound.ownedConversation id task isOwner).2]
          obtain ⟨grows, arrives⟩ := @ih _
            { load with
              index := load.index.setEdge id owner
              reveals := true }
            (setEdge_kept kept sound isOwner)
            (by
              intro other
              rw [setEdge_live]
              exact mirrors other)
            ownerLower ownerThere
          refine ⟨sets.trans grows, ?_⟩
          rintro node ⟨⟩
          refine ⟨owner, ?_, ?_⟩
          · refine edge_mono grows.finish ?_
            unfold edge
            rw [notStaged, Option.none_or]
            dsimp only
            rw [(setEdge_same load.index id owner).edges]
            simp [withEdge]
          · rintro task rfl
            exact arrives (.task task) rfl

/-- The indexes hold what the store has, and know what they have to load. -/
structure Serves (index : Index J) (store : Store J) : Prop where
  kept : index.Kept store
  mirrors : index.Mirrors store
  unloaded : ∀ id ∈ index.unloaded, (index.node id).isSome = true

namespace Serves

variable {index : Index J} {store : Store J}

section

variable (serves : index.Serves store)
include serves

theorem loadChain (sound : store.Sound) {overlay : Option (Overlay J)}
    (staged : OverlaySound store overlay) {start : Node}
    (isThere : State.hasNode store overlay start = true) :
    (index.loadChain store overlay start).finish.Serves store ∧
      index.Widens (index.loadChain store overlay start).finish ∧
      (index.loadChain store overlay start).finish.OnHand overlay start := by
  obtain ⟨isKept, sameLive⟩ := @loadChain_kept J index store overlay start
    serves.kept serves.mirrors sound staged (by
      rintro id rfl
      simpa [State.hasNode] using isThere)
  obtain ⟨grows, arrives⟩ := @loadFrom_arrives J store overlay
    (start.number + 1) (some start) { index, passed := [], reveals := false }
    sound staged serves.kept serves.mirrors
    (fun node isNode => by cases isNode; exact Nat.lt_succ_self _)
    (fun node isNode => by cases isNode; exact isThere)
  refine ⟨⟨isKept, fun id => ?_, fun id member => ?_⟩, grows.finish, arrives start rfl⟩
  · rw [← serves.mirrors id]
    exact congrFun sameLive id
  · exact grows.known serves.unloaded id (List.mem_filter.mp member).1

theorem stored {id : ℕ} (member : id ∈ index.unloaded) :
    (store.tasks id).isSome = true := by
  obtain ⟨node, isNode⟩ := Option.isSome_iff_exists.mp (serves.unloaded id member)
  obtain ⟨record, isRecord, _⟩ := serves.kept.follows.node isNode
  rw [isRecord]
  rfl

theorem sweep : index.sweep.Serves store where
  kept := sweep_kept serves.kept
  mirrors := sweep_mirrors serves.mirrors
  unloaded := by
    intro id member
    obtain ⟨isUnloaded, notSwept⟩ := List.mem_filter.mp member
    have isKnown := serves.unloaded id isUnloaded
    simpa [Index.sweep, node, show index.swept (.task id) = false by
      simpa using notSwept] using isKnown

end

end Serves

/-! ## Publications -/

theorem holds_task (index : Index J) (id : ℕ) :
    index.holds (.task id) = (index.node id).isSome := by
  rw [holds_eq]
  simp [parent]

theorem track_unloaded (record : TaskRecord J)
    (known : ∀ id ∈ index.unloaded, (index.node id).isSome = true) :
    ∀ id ∈ (index.track record).unloaded, ((index.track record).node id).isSome = true := by
  have stays : ∀ id, (index.node id).isSome = true →
      ((index.track record).node id).isSome = true := by
    intro id isSome
    rw [← holds_task] at isSome ⊢
    exact holds_track index record isSome
  have isUnloaded : ∀ id ∈ (index.track record).unloaded, id ∈ index.unloaded ∨ id = record.id := by
    intro id member
    unfold track at member
    split_ifs at member
    · rw [((relist_same _ _).trans (dropIfUnneeded_same _ _)).unloaded] at member
      exact .inl member
    · exact .inl member
    · rw [(relist_same _ _).unloaded] at member
      exact .inl member
    · rw [(relist_same _ _).unloaded] at member
      exact mem_insertLast.mp member
  intro id member
  rcases isUnloaded id member with old | rfl
  · exact stays id (known id old)
  · exact track_node_self index record

theorem tracks_unloaded (records : List (TaskRecord J))
    (known : ∀ id ∈ index.unloaded, (index.node id).isSome = true) :
    ∀ id ∈ (records.foldl track index).unloaded,
      ((records.foldl track index).node id).isSome = true :=
  List.foldlRecOn
    (motive := fun index : Index J => ∀ id ∈ index.unloaded, (index.node id).isSome = true) _ _
    known fun _ known record _ => track_unloaded record known

theorem observeEdge_unloaded (index : Index J) (edge : ℕ × Option ℕ) :
    (index.observeEdge edge).unloaded = index.unloaded := by
  unfold observeEdge
  split_ifs
  · rfl
  · exact (setEdge_same index edge.1 edge.2).unloaded

theorem Serves.observe {index : Index J} {store : Store J} {tx : Transaction J}
    (serves : index.Serves store) (staged : tx.Sound store) :
    (index.observe tx).Serves (tx.applied store) := by
  obtain ⟨isKept, isMirror⟩ := published_kept serves.kept serves.mirrors staged
  refine Serves.sweep (⟨isKept, isMirror, tracks_unloaded _ (List.foldlRecOn
    (motive := fun index : Index J => ∀ id ∈ index.unloaded, (index.node id).isSome = true) _ _
    serves.unloaded fun index known edge _ => ?_)⟩ : (index.published tx).Serves (tx.applied store))
  rw [observeEdge_unloaded, (observeEdge_live index edge).2]
  exact known

theorem Serves.opened (sound : store.Sound) : (Index.opened store).Serves store := by
  obtain ⟨isKept, isMirror⟩ := opened_kept sound
  refine ⟨isKept, isMirror, ?_⟩
  exact tracks_unloaded _ (by simp [Index.empty])

end Index

/-! ## Schedulers that load -/

namespace TaskScheduler

/-- Loading changes what is known, and may schedule a reconcile pass. -/
structure Loaded (scheduler later : TaskScheduler J) : Prop where
  widens : scheduler.index.Widens later.index
  rest : later =
    { scheduler with
      index := later.index
      reconcileScheduled := later.reconcileScheduled }
  scheduled : scheduler.reconcileScheduled = true → later.reconcileScheduled = true

namespace Loaded

variable {scheduler later last : TaskScheduler J}

theorem refl (scheduler : TaskScheduler J) : scheduler.Loaded scheduler :=
  ⟨.refl _, rfl, fun isScheduled => isScheduled⟩

theorem trans (first : scheduler.Loaded later) (second : later.Loaded last) :
    scheduler.Loaded last where
  widens := first.widens.trans second.widens
  rest := by rw [second.rest, first.rest]
  scheduled := fun isScheduled => second.scheduled (first.scheduled isScheduled)

end Loaded

section

variable (scheduler : TaskScheduler J)
include scheduler

theorem scheduleReconcile_loaded :
    scheduler.Loaded scheduler.scheduleReconcile := by
  unfold scheduleReconcile
  split_ifs
  · exact .refl scheduler
  · exact ⟨.refl _, rfl, fun _ => rfl⟩

theorem scheduleReconcile_index :
    scheduler.scheduleReconcile.index = scheduler.index := by
  unfold scheduleReconcile
  split_ifs <;> rfl

theorem loadChain_index (store : Store J) (overlay : Option (Overlay J)) (start : Node) :
    (scheduler.loadChain store overlay start).index =
      (scheduler.index.loadChain store overlay start).finish := by
  dsimp only [loadChain]
  split_ifs
  · exact scheduleReconcile_index _
  · rfl

end

theorem loadChain_loaded {scheduler : TaskScheduler J} {store : Store J}
    {overlay : Option (Overlay J)} {start : Node}
    (serves : scheduler.index.Serves store) (sound : store.Sound)
    (staged : Index.OverlaySound store overlay)
    (isThere : State.hasNode store overlay start = true) :
    scheduler.Loaded (scheduler.loadChain store overlay start) ∧
      (scheduler.loadChain store overlay start).index.Serves store ∧
      (scheduler.loadChain store overlay start).index.OnHand overlay start := by
  obtain ⟨isServing, widens, onHand⟩ := serves.loadChain sound staged isThere
  have sameIndex := loadChain_index scheduler store overlay start
  rw [sameIndex]
  refine ⟨?_, isServing, onHand⟩
  have loaded : scheduler.Loaded
      { scheduler with
        index := (scheduler.index.loadChain store overlay start).finish } :=
    ⟨widens, rfl, fun isScheduled => isScheduled⟩
  dsimp only [loadChain]
  split_ifs
  · exact loaded.trans (scheduleReconcile_loaded _)
  · exact loaded

theorem loadChains_loaded {store : Store J} {overlay : Option (Overlay J)}
    (sound : store.Sound) (staged : Index.OverlaySound store overlay) {starts : List Node}
    (areThere : ∀ start ∈ starts, State.hasNode store overlay start = true)
    {scheduler : TaskScheduler J} (serves : scheduler.index.Serves store) :
    let later := starts.foldl (fun scheduler start => scheduler.loadChain store overlay start)
      scheduler
    scheduler.Loaded later ∧ later.index.Serves store ∧
      ∀ start ∈ starts, later.index.OnHand overlay start := by
  induction starts generalizing scheduler with
  | nil => exact ⟨.refl _, serves, by simp⟩
  | cons start rest ih =>
    obtain ⟨loaded, isServing, onHand⟩ := loadChain_loaded serves sound
      staged (areThere start List.mem_cons_self)
    obtain ⟨later, laterServes, laterOnHand⟩ := ih
      (fun other member => areThere other (List.mem_cons_of_mem _ member))
      isServing
    refine ⟨loaded.trans later, laterServes, fun other member => ?_⟩
    rcases List.mem_cons.mp member with rfl | isLater
    · exact onHand.mono later.widens
    · exact laterOnHand other isLater

theorem loadUnloaded_loaded {store : Store J} (sound : store.Sound) {ids : List ℕ}
    {scheduler : TaskScheduler J} (serves : scheduler.index.Serves store) :
    let later := ids.foldl
      (fun scheduler id =>
        if id ∈ scheduler.index.unloaded then
          scheduler.loadChain store none (.task id)
        else scheduler)
      scheduler
    scheduler.Loaded later ∧ later.index.Serves store ∧ ∀ id ∈ ids, id ∉ later.index.unloaded := by
  induction ids generalizing scheduler with
  | nil => exact ⟨.refl _, serves, by simp⟩
  | cons id rest ih =>
    have noOverlay : Index.OverlaySound store (none : Option (Overlay J)) :=
      fun tx isOverlay => by cases isOverlay
    rw [List.foldl_cons]
    split_ifs with isUnloaded
    · obtain ⟨loaded, isServing, onHand⟩ := @loadChain_loaded J scheduler
        store none (.task id) serves sound noOverlay
        (by simpa [State.hasNode] using serves.stored isUnloaded)
      obtain ⟨later, laterServes, laterLoaded⟩ := ih isServing
      refine ⟨loaded.trans later, laterServes, fun other member => ?_⟩
      rcases List.mem_cons.mp member with rfl | isLater
      · have isKnown := onHand.resolve_left (by simp)
        exact fun isUnloaded => (Index.knownTask_eq_true.mp isKnown).2
          (later.widens.unloaded _ isUnloaded)
      · exact laterLoaded other isLater
    · obtain ⟨later, laterServes, laterLoaded⟩ := ih serves
      refine ⟨later, laterServes, fun other member => ?_⟩
      rcases List.mem_cons.mp member with rfl | isLater
      · exact fun member => isUnloaded (later.widens.unloaded _ member)
      · exact laterLoaded other isLater

theorem loadScopes_loaded {scheduler : TaskScheduler J} {store : Store J} {queued : List ℕ}
    (serves : scheduler.index.Serves store) (sound : store.Sound)
    (areThere : ∀ id ∈ queued, (store.conversations id).isSome = true) :
    scheduler.Loaded (scheduler.loadScopes store queued) ∧
      (scheduler.loadScopes store queued).index.Serves store ∧
      (scheduler.loadScopes store queued).index.unloaded = [] := by
  have noOverlay : Index.OverlaySound store (none : Option (Overlay J)) :=
    fun tx isOverlay => by cases isOverlay
  obtain ⟨loaded, isServing, noneLeft⟩ :=
    @loadUnloaded_loaded J store sound scheduler.index.unloaded scheduler serves
  obtain ⟨later, laterServes, _⟩ := @loadChains_loaded J store none sound
    noOverlay (queued.map .conversation)
    (by
      intro start member
      obtain ⟨id, isQueued, rfl⟩ := List.mem_map.mp member
      simpa [State.hasNode] using areThere id isQueued) _ isServing
  rw [List.foldl_map] at later laterServes
  refine ⟨loaded.trans later, laterServes, later.widens.unloaded_eq_nil ?_⟩
  refine List.eq_nil_iff_forall_not_mem.mpr fun id member => ?_
  exact noneLeft id (loaded.widens.unloaded id member) member

end TaskScheduler

end PiEmbodied.Durable.Scheduler
