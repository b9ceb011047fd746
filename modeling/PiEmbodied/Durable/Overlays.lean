import PiEmbodied.Durable.Loads

/-!
# Walks down over what a commit staged

Under an overlay a walk down goes to the nodes that the downward index lists,
and along links to the tasks the commit created.  With every chain loaded it
reaches the live ordinary owned work of the store the commit leads to, but for
work below the tasks it is told not to enter.
-/

namespace PiEmbodied.Durable.Scheduler

open Tasks

variable {J : Type}

namespace Index

/-- The indexes are loaded for a commit: no task is unloaded, and what it
staged fits the store. -/
structure Views (index : Index J) (store : Store J) (tx : Transaction J) : Prop where
  serves : index.Serves store
  sound : store.Sound
  staged : tx.Sound store
  loaded : index.unloaded = []

namespace Views

variable {index : Index J} {store : Store J} {tx : Transaction J}

theorem knownTask (views : index.Views store tx) {id : ℕ} {node : TaskNode}
    (isNode : index.node id = some node) : index.knownTask id = true := by
  refine knownTask_eq_true.mpr ⟨by simp [isNode], ?_⟩
  simp [views.loaded]

theorem overlaySound (views : index.Views store tx) : OverlaySound store (some tx) := by
  rintro _ ⟨⟩
  exact views.staged

variable {id : ℕ} {record : TaskRecord J}

theorem live_of_store (views : index.Views store tx) (isRecord : store.tasks id = some record)
    (isLive : record.live = true) : index.live id = some record := by
  rw [views.serves.mirrors id, isRecord]
  simp [Option.filter, isLive]

theorem store_of_live (views : index.Views store tx) (isLive : index.live id = some record) :
    store.tasks id = some record ∧ record.live = true := by
  rw [views.serves.mirrors id] at isLive
  exact Option.filter_eq_some_iff.mp isLive

theorem task_of_candidate (isStaged : tx.candidate id = some record) :
    (tx.applied store).tasks id = some record := by
  simp [Transaction.applied, Transaction.currentTask, isStaged]

theorem task_of_unstaged (notStaged : tx.candidate id = none) :
    (tx.applied store).tasks id = store.tasks id := by
  simp [Transaction.applied, Transaction.currentTask, notStaged]

theorem candidate_cases (views : index.Views store tx) (isStaged : tx.candidate id = some record) :
    (store.tasks id = none ∧ ∃ write ∈ tx.tasksById,
      write.kind = .create ∧ write.record = record ∧ record.id = id) ∨
      ∃ live, index.live id = some live ∧ record.toTaskNode = live.toTaskNode := by
  obtain ⟨write, isWrite, rfl⟩ := Option.map_eq_some_iff.mp isStaged
  have isNamed := Transaction.write_id isWrite
  have member := Transaction.write_mem isWrite
  cases isKind : write.kind with
  | create =>
    refine .inl ⟨?_, write, member, isKind, rfl, isNamed⟩
    rw [← isNamed]
    exact (views.staged.created write member isKind).1
  | replace =>
    obtain ⟨committed, isCommitted, isLive, sameNode⟩ := views.staged.replaced write member isKind
    rw [isNamed] at isCommitted
    exact .inr ⟨committed, views.live_of_store isCommitted isLive, sameNode⟩

/-! ## What the overlay shows -/

section

variable (views : index.Views store tx)
include views

theorem conversation_of_edge {owner : Option ℕ} (isEdge : index.edge (some tx) id = some owner) :
    (tx.applied store).conversations id = some owner := by
  rcases Option.or_eq_some_iff.mp isEdge with isStaged | ⟨notStaged, isKnown⟩
  · replace isStaged : tx.conversations.lookup id = some owner := isStaged
    simp [Transaction.applied, Transaction.currentConversation, isStaged]
  · exact views.staged.extended.conversations id owner
      (views.serves.kept.follows.edges id owner isKnown)

theorem task_of_node {node : TaskNode} (isNode : index.node id = some node) :
    ∃ record, (tx.applied store).tasks id = some record ∧ record.toTaskNode = node := by
  obtain ⟨stored, isStored, rfl⟩ := views.serves.kept.follows.node isNode
  exact views.staged.extended.tasks id stored isStored

theorem nodeOf_of_onHand {id : ℕ} (onHand : index.OnHand (some tx) (.task id)) :
    ∃ record, (tx.applied store).tasks id = some record ∧
      index.nodeOf (some tx) id = some record.toTaskNode := by
  cases isStaged : tx.candidate id with
  | some record =>
    refine ⟨record, task_of_candidate isStaged, ?_⟩
    simp [nodeOf, Index.record, isStaged]
  | none =>
    have isKnown := onHand.resolve_left (by simp [isStaged])
    obtain ⟨isSome, _⟩ := knownTask_eq_true.mp isKnown
    obtain ⟨node, isNode⟩ := Option.isSome_iff_exists.mp isSome
    obtain ⟨record, isRecord, rfl⟩ := views.task_of_node isNode
    refine ⟨record, isRecord, ?_⟩
    simpa [nodeOf, Index.record, isStaged, Index.node] using isNode

theorem above_of_known {node up : Node} (isHeld : index.holds node = true)
    (isAbove : (tx.applied store).Above up node) : store.Above up node := by
  rw [holds_eq] at isHeld
  obtain ⟨found, isParent⟩ := Option.isSome_iff_exists.mp isHeld
  have isStored := views.serves.kept.follows.above isParent
  cases found with
  | some parent =>
    have isLater := views.staged.extended.above isStored
    unfold Store.Above at isAbove
    rw [isLater] at isAbove
    cases isAbove
    exact isStored
  | none =>
    cases node with
    | task id =>
      obtain ⟨_, _, isSome⟩ := Option.map_eq_some_iff.mp isParent
      cases isSome
    | conversation id =>
      obtain ⟨owner, isEdge, isNone⟩ := Option.map_eq_some_iff.mp isParent
      obtain rfl : owner = none := Option.map_eq_none_iff.mp isNone
      have isOwner := views.staged.extended.conversations id none
        (views.serves.kept.follows.edges id none isEdge)
      simp [Store.Above, Store.above, isOwner] at isAbove

end

end Views

/-- What a walk up keeps hold of, so that the walk down comes back. -/
structure Grips (index : Index J) (tree : Store J) (options : WalkOptions J)
    (grip : Node → Prop) : Prop where
  listed : ∀ node up, grip node → tree.Above up node → node ∈ index.children options up ∧ grip up
  shown : ∀ id, grip (.task id) → tree.Foreground (.task id) →
    index.enters options (.task id) = options.enter id

variable {index : Index J} {node : Node}

theorem Grips.reached_or_cut {tree : Store J} {options : WalkOptions J} {grip : Node → Prop}
    (grips : index.Grips tree options grip) {start : Node}
    (reached : Forest.Reached tree.Above tree.Foreground start node) (isGripped : grip node) :
    Forest.Reached (fun up node => node ∈ index.children options up)
        (index.enters options · = true) start node ∨
      ∃ cut, options.enter cut = false ∧ tree.Ordinary start cut ∧ tree.Foreground (.task cut) ∧
        Forest.Reached tree.Above tree.Foreground (.task cut) node := by
  induction reached with
  | first isChild => exact .inl (.first (grips.listed _ _ isGripped isChild).1)
  | @next middle node reached isForeground isChild ih =>
    obtain ⟨isListed, gripsMiddle⟩ := grips.listed _ _ isGripped isChild
    rcases ih gripsMiddle with
      below | ⟨cut, notEntered, isOrdinary, cutForeground, belowCut⟩
    · cases middle with
      | conversation id => exact .inl (.next below rfl isListed)
      | task id =>
        have isShown := grips.shown id gripsMiddle isForeground
        cases isEntered : options.enter id with
        | true =>
          rw [isEntered] at isShown
          exact .inl (.next below isShown isListed)
        | false => exact .inr ⟨id, isEntered, reached, isForeground, .first isChild⟩
    · exact .inr ⟨cut, notEntered, isOrdinary, cutForeground, .next belowCut isForeground isChild⟩

namespace Views

variable {index : Index J} {store : Store J} {tx : Transaction J} {options : WalkOptions J}

theorem enters_of_onHand (views : index.Views store tx) (isOverlay : options.overlay = some tx)
    {id : ℕ} (onHand : index.OnHand (some tx) (.task id))
    (isForeground : (tx.applied store).Foreground (.task id)) :
    index.enters options (.task id) = options.enter id := by
  obtain ⟨record, isRecord, isNode⟩ := views.nodeOf_of_onHand onHand
  obtain ⟨found, isFound, foreground⟩ := isForeground
  rw [isRecord] at isFound
  cases isFound
  simp only [enters, isOverlay, isNode]
  simp [foreground]

theorem known_grips (views : index.Views store tx) (isOverlay : options.overlay = some tx) :
    index.Grips (tx.applied store) options fun node =>
      index.known node = true ∧ index.needed node = true where
  listed := by
    rintro node up ⟨isKnown, isNeeded⟩ isAbove
    have isHeld := holds_of_known isKnown
    have isStored := views.above_of_known isHeld isAbove
    have member := mem_below_of_needed views.serves.kept isHeld isNeeded isStored
    exact ⟨List.mem_append_left _ member, known_above views.serves.kept isKnown isStored,
      needed_of_mem_below member⟩
  shown := fun id isGripped isForeground =>
    views.enters_of_onHand isOverlay (.inr isGripped.1) isForeground

end Views

/-! ## Links -/

structure Linked (index : Index J) (store : Store J) (tx : Transaction J)
    (up child : Node) : Prop where
  isAbove : (tx.applied store).Above up child
  child : index.OnHand (some tx) child
  up : index.OnHand (some tx) up

/-- A node that a walk down reaches where one reaches the node above it. -/
def Covered (index : Index J) (store : Store J) (tx : Transaction J)
    (links : Node → List Node) (node : Node) : Prop :=
  (∃ id, node = .task id ∧ ((index.live id).isSome = true ∨ (tx.candidate id).isSome = true)) ∨
    (tx.applied store).above node = none ∨
    ∃ up, (tx.applied store).above node = some up ∧ (node ∈ index.below up ∨ node ∈ links up)

variable {tx : Transaction J} {store : Store J}

theorem Covered.mono {links later : Node → List Node} (covered : index.Covered store tx links node)
    (grows : ∀ up child, child ∈ links up → child ∈ later up) : index.Covered store tx later node :=
  covered.imp_right fun isBelow => isBelow.imp_right fun ⟨up, isAbove, listed⟩ =>
    ⟨up, isAbove, listed.imp_right (grows up node)⟩

structure Linking (index : Index J) (store : Store J) (tx : Transaction J)
    (links : Node → List Node) : Prop where
  linked : ∀ up child, child ∈ links up → index.Linked store tx up child
  covered : ∀ up child, child ∈ links up → index.Covered store tx links up

/-- The node above a node that is not live, as the walk up finds it. -/
def foundAbove (index : Index J) (tx : Transaction J) : Node → Option Node
  | .conversation id => (index.edge (some tx) id).join.map .task
  | .task id => (index.settled id).map parentNode

theorem Views.above_of_onHand {store : Store J} (views : index.Views store tx)
    (onHand : index.OnHand (some tx) node)
    (notLive : ∀ id, node = .task id → index.live id = none ∧ tx.candidate id = none) :
    (tx.applied store).above node = index.foundAbove tx node ∧
      ∀ up, index.foundAbove tx node = some up → index.OnHand (some tx) up := by
  unfold foundAbove
  cases node with
  | conversation id =>
    obtain ⟨owner, isEdge, taskOnHand⟩ := onHand
    have isOwner := views.conversation_of_edge isEdge
    refine ⟨?_, ?_⟩
    · simp only [Store.above, isOwner, isEdge]
    · intro up isUp
      simp only [isEdge, Option.join_some] at isUp
      obtain ⟨task, isTask, rfl⟩ := Option.map_eq_some_iff.mp isUp
      exact taskOnHand task isTask
  | task id =>
    obtain ⟨isDead, notStaged⟩ := notLive id rfl
    have isKnown := onHand.resolve_left (by simp [notStaged])
    obtain ⟨isSome, _⟩ := knownTask_eq_true.mp isKnown
    obtain ⟨fields, isNode⟩ := Option.isSome_iff_exists.mp isSome
    have isSettled : index.settled id = some fields := by simpa [Index.node, isDead] using isNode
    obtain ⟨record, isRecord, rfl⟩ := views.task_of_node isNode
    refine ⟨?_, ?_⟩
    · simp only [Store.above, isRecord, isSettled, Option.map_some]
    · intro up isUp
      simp only [isSettled, Option.map_some] at isUp
      cases isUp
      exact onHand_of_known views.overlaySound views.serves.kept.follows
        (views.serves.kept.chained id _ isNode (by simp [views.loaded]))

/-- Where the links for one node stop: every live task is listed, and every
created one has links of its own. -/
def stopsAt (index : Index J) (tx : Transaction J) : Node → Bool
  | .task id => (index.live id).isSome || (tx.candidate id).isSome
  | .conversation _ => false

theorem linkFrom_succ (index : Index J) (tx : Transaction J) (steps : ℕ) (child up : Node)
    (links : Node → List Node) :
    linkFrom index tx (steps + 1) child (some up) links =
      if child ∈ links up then links
      else
        let later := Function.update links up (insertLast (links up) child)
        if index.stopsAt tx up = true then later
        else if ((index.foundAbove tx up).map fun above =>
            decide (up ∈ index.below above)) = some true then later
        else linkFrom index tx steps up (index.foundAbove tx up) later := by
  cases up <;> rfl

theorem stopsAt_eq_false (goesOn : ¬ index.stopsAt tx node = true) {id : ℕ}
    (isTask : node = .task id) : index.live id = none ∧ tx.candidate id = none := by
  subst isTask
  simpa [stopsAt] using goesOn

theorem linkFrom_linking {index : Index J} {store : Store J} {tx : Transaction J}
    (views : index.Views store tx) {steps : ℕ} {child : Node}
    {next : Option Node} {links : Node → List Node}
    (deep : ∀ up, next = some up → up.number < steps)
    (isNext : (tx.applied store).above child = next) (childOnHand : index.OnHand (some tx) child)
    (upOnHand : ∀ up, next = some up → index.OnHand (some tx) up)
    (linked : ∀ up other, other ∈ links up → index.Linked store tx up other)
    (covered : ∀ up other, other ∈ links up → up ≠ child → index.Covered store tx links up) :
    index.Linking store tx (linkFrom index tx steps child next links) ∧
      (∀ up other, other ∈ links up → other ∈ linkFrom index tx steps child next links up) ∧
      ∀ up, next = some up → child ∈ linkFrom index tx steps child next links up := by
  induction steps generalizing child next links with
  | zero =>
    cases next with
    | none =>
      refine ⟨⟨linked, fun up other member => ?_⟩, fun _ _ member => member, by simp⟩
      by_cases same : up = child
      · subst same
        exact .inr (.inl isNext)
      · exact covered up other member same
    | some up => exact absurd (deep up rfl) (Nat.not_lt_zero _)
  | succ steps ih =>
    cases next with
    | none =>
      refine ⟨⟨linked, fun up other member => ?_⟩, fun _ _ member => member, by simp⟩
      by_cases same : up = child
      · subst same
        exact .inr (.inl isNext)
      · exact covered up other member same
    | some up =>
      have isOnHand := upOnHand up rfl
      rw [linkFrom_succ]
      by_cases isLinked : child ∈ links up
      · rw [if_pos isLinked]
        -- The rest of the chain was linked before.
        refine ⟨⟨linked, fun above other member => ?_⟩, fun _ _ member => member, ?_⟩
        · by_cases same : above = child
          · subst same
            exact .inr (.inr ⟨up, isNext, .inr isLinked⟩)
          · exact covered above other member same
        · rintro _ ⟨⟩
          exact isLinked
      · rw [if_neg isLinked]
        dsimp only
        set later := Function.update links up (insertLast (links up) child)
          with isLater
        have mem_later : ∀ above other, other ∈ later above ↔
            other ∈ links above ∨ (above = up ∧ other = child) := by
          intro above other
          by_cases same : above = up
          · subst same
            simp [isLater]
          · simp [isLater, same]
        have grows : ∀ above other, other ∈ links above → other ∈ later above :=
          fun above other member => (mem_later above other).mpr (.inl member)
        have isChild : child ∈ later up := (mem_later up child).mpr (.inr ⟨rfl, rfl⟩)
        have laterLinked : ∀ above other, other ∈ later above →
            index.Linked store tx above other := by
          intro above other member
          rcases (mem_later above other).mp member with old | ⟨rfl, rfl⟩
          · exact linked above other old
          · exact ⟨isNext, childOnHand, isOnHand⟩
        have laterCovered : ∀ above other, other ∈ later above →
            above ≠ up → index.Covered store tx later above := by
          intro above other member different
          rcases (mem_later above other).mp member with old | ⟨rfl, _⟩
          · by_cases same : above = child
            · subst same
              exact .inr (.inr ⟨up, isNext, .inr isChild⟩)
            · exact (covered above other old same).mono grows
          · exact absurd rfl different
        have endsAt : index.Covered store tx later up →
            index.Linking store tx later ∧
              (∀ above other, other ∈ links above → other ∈ later above) ∧
              ∀ above, some up = some above → child ∈ later above := by
          intro upCovered
          refine ⟨⟨laterLinked, fun above other member => ?_⟩, grows, ?_⟩
          · by_cases same : above = up
            · rw [same]
              exact upCovered
            · exact laterCovered above other member same
          · rintro _ ⟨⟩
            exact isChild
        split_ifs with stops isListed
        · refine endsAt (.inl ?_)
          cases up with
          | conversation id => cases stops
          | task id => exact ⟨id, rfl, by simpa [stopsAt] using stops⟩
        · obtain ⟨isUp, _⟩ := views.above_of_onHand isOnHand fun id => stopsAt_eq_false stops
          obtain ⟨above, isAbove, isBelow⟩ := Option.map_eq_some_iff.mp isListed
          refine endsAt (.inr (.inr ⟨above, ?_, .inl ?_⟩))
          · rw [isUp]
            exact isAbove
          · simpa using isBelow
        · obtain ⟨isUp, aboveOnHand⟩ := views.above_of_onHand isOnHand
            fun id => stopsAt_eq_false stops
          have lower : ∀ above, (tx.applied store).above up = some above →
              above.number < steps := by
            intro above isAbove
            have := views.staged.forest.above_lt isAbove
            have := deep up rfl
            omega
          obtain ⟨linking, keeps, _⟩ := ih
            (fun above isAbove => lower above (isUp.trans isAbove)) isUp
            isOnHand aboveOnHand laterLinked laterCovered
          refine ⟨linking, fun above other member =>
            keeps above other (grows above other member), ?_⟩
          rintro _ ⟨⟩
          exact keeps up child isChild

section Links

variable {index : Index J} {store : Store J} {tx : Transaction J}

theorem Views.node_isSome_iff (views : index.Views store tx) {write : Write J}
    (member : write ∈ tx.tasksById) :
    (index.node write.record.id).isSome = true ↔ write.kind = .replace := by
  cases isKind : write.kind with
  | create =>
    refine ⟨fun isKnown => ?_, fun isReplace => by cases isReplace⟩
    obtain ⟨node, isNode⟩ := Option.isSome_iff_exists.mp isKnown
    obtain ⟨stored, isStored, _⟩ := views.serves.kept.follows.node isNode
    rw [(views.staged.created write member isKind).1] at isStored
    cases isStored
  | replace =>
    refine ⟨fun _ => rfl, fun _ => ?_⟩
    obtain ⟨committed, isCommitted, isLive, _⟩ := views.staged.replaced write member isKind
    simp [Index.node, views.live_of_store isCommitted isLive]

def ChainsOnHand (index : Index J) (tx : Transaction J) : Prop :=
  ∀ write ∈ tx.tasksById, write.kind = .create →
    index.OnHand (some tx) (parentNode write.record.toTaskNode)

theorem links_linking (views : index.Views store tx) (chains : index.ChainsOnHand tx) :
    index.Linking store tx (index.links tx) ∧
      ∀ write ∈ tx.tasksById, write.kind = .create →
        .task write.record.id ∈ index.links tx (parentNode write.record.toTaskNode) := by
  have fold : ∀ (writes : List (Write J)) (links final : Node → List Node),
      (writes.map Write.record).foldl
          (fun links record =>
            if (index.node record.id).isSome then links
            else
              linkFrom index tx (record.id + 1) (.task record.id)
                (some (parentNode record.toTaskNode)) links) links = final →
      (∀ write ∈ writes, write ∈ tx.tasksById) →
      index.Linking store tx links →
      index.Linking store tx final ∧ (∀ up child, child ∈ links up → child ∈ final up) ∧
        ∀ write ∈ writes, write.kind = .create →
          .task write.record.id ∈ final (parentNode write.record.toTaskNode) := by
    intro writes
    induction writes with
    | nil =>
      rintro links _ rfl _ linking
      exact ⟨linking, fun _ _ member => member, by simp⟩
    | cons write rest ih =>
      rintro links _ rfl areStaged linking
      have member := areStaged write List.mem_cons_self
      have restStaged : ∀ other ∈ rest, other ∈ tx.tasksById :=
        fun other isRest => areStaged other (List.mem_cons_of_mem _ isRest)
      rw [List.map_cons, List.foldl_cons]
      split_ifs with isKnown
      · obtain ⟨later, keeps, laid⟩ :=
          ih links _ rfl restStaged linking
        refine ⟨later, keeps, fun other isOther isCreate => ?_⟩
        rcases List.mem_cons.mp isOther with rfl | isRest
        · rw [(views.node_isSome_iff member).mp isKnown] at isCreate
          cases isCreate
        · exact laid other isRest isCreate
      · have isCreate : write.kind = .create := by
          cases isKind : write.kind with
          | create => rfl
          | replace => exact absurd ((views.node_isSome_iff member).mpr isKind) isKnown
        have isTask := applied_task_of_mem views.staged member
        have isAbove : (tx.applied store).above (.task write.record.id) =
            some (parentNode write.record.toTaskNode) := by
          simp [Store.above, isTask]
        have isStaged : (tx.candidate write.record.id).isSome = true := by
          simp only [Transaction.candidate, Option.isSome_map, Transaction.write, List.find?_isSome]
          exact ⟨write, member, by simp⟩
        obtain ⟨here, grows, isLinked⟩ := @linkFrom_linking J index store tx
          views (write.record.id + 1) (.task write.record.id)
          (some (parentNode write.record.toTaskNode)) links
          (by
            rintro _ ⟨⟩
            have := views.staged.forest.above_lt isAbove
            simp only [Node.number_task] at this
            omega)
          isAbove (.inl isStaged)
          (by
            rintro _ ⟨⟩
            exact chains write member isCreate)
          linking.linked
          (fun up other isOther _ => linking.covered up other isOther)
        obtain ⟨later, keeps, laid⟩ := ih _ _ rfl restStaged here
        refine ⟨later, fun up child isChild => keeps up child (grows up child isChild), ?_⟩
        intro other isOther isCreated
        rcases List.mem_cons.mp isOther with rfl | isRest
        · exact keeps _ _ (isLinked _ rfl)
        · exact laid other isRest isCreated
  obtain ⟨linking, _, laid⟩ := fold tx.tasksById (fun _ => []) _ rfl
    (fun _ member => member) ⟨by simp, by simp⟩
  exact ⟨linking, laid⟩

variable {node up : Node}

theorem Views.known_of_listed (views : index.Views store tx) (onHand : index.OnHand (some tx) node)
    (member : node ∈ index.below up) : index.known node = true := by
  have isParent := views.serves.kept.listed.hangs node up member
  cases node with
  | task id =>
    obtain ⟨fields, isNode, _⟩ := Option.map_eq_some_iff.mp isParent
    exact views.knownTask isNode
  | conversation id =>
    obtain ⟨owner, isEdge, isUp⟩ := Option.map_eq_some_iff.mp isParent
    obtain ⟨task, rfl, rfl⟩ := Option.map_eq_some_iff.mp isUp
    have notStaged := lookup_eq_none_of_edge views.overlaySound views.serves.kept.follows isEdge
    obtain ⟨found, isFound, taskOnHand⟩ := onHand
    unfold edge at isFound
    rw [notStaged, Option.none_or, isEdge] at isFound
    cases isFound
    have isKnown : index.knownTask task = true := by
      rcases taskOnHand task rfl with isStaged | isKnown
      · obtain ⟨record, isRecord⟩ := Option.isSome_iff_exists.mp isStaged
        rcases views.candidate_cases isRecord with
          ⟨isNone, _⟩ | ⟨live, isLive, _⟩
        · have isSome := (views.sound.ownedConversation id task
            (views.serves.kept.follows.edges id _ isEdge)).2
          rw [isNone] at isSome
          cases isSome
        · exact @knownTask J index store tx views task live.toTaskNode
            (by simp [Index.node, isLive])
      · exact isKnown
    simp only [known, isEdge, isKnown]

/-- What a walk down under the overlay of a commit comes by. -/
def Gripped (index : Index J) (store : Store J) (tx : Transaction J) (node : Node) :
    Prop :=
  (∃ up, node ∈ index.links tx up) ∨ (index.known node = true ∧ index.needed node = true) ∨
    (tx.applied store).above node = none

variable {id : ℕ} {record : TaskRecord J}

theorem Views.gripped_of_live
    (views : index.Views store tx) (isLive : index.live id = some record) :
    index.Gripped store tx (.task id) :=
  .inr (.inl ⟨@knownTask J index store tx views id record.toTaskNode
    (by simp [Index.node, isLive]), needed_of_live isLive⟩)

theorem Views.gripped_of_candidate (views : index.Views store tx) (chains : index.ChainsOnHand tx)
    (isStaged : tx.candidate id = some record) : index.Gripped store tx (.task id) := by
  rcases views.candidate_cases isStaged with
    ⟨_, write, member, isCreate, rfl, rfl⟩ | ⟨live, isLive, _⟩
  · exact .inl ⟨_, (links_linking views chains).2 write member isCreate⟩
  · exact views.gripped_of_live isLive

theorem Views.gripped_of_covered (views : index.Views store tx) (chains : index.ChainsOnHand tx)
    (onHand : index.OnHand (some tx) node)
    (covered : index.Covered store tx (index.links tx) node) : index.Gripped store tx node := by
  rcases covered with
    ⟨id, rfl, isLive | isStaged⟩ | isTop | ⟨up, _, isListed | isLinked⟩
  · obtain ⟨record, isRecord⟩ := Option.isSome_iff_exists.mp isLive
    exact views.gripped_of_live isRecord
  · obtain ⟨record, isRecord⟩ := Option.isSome_iff_exists.mp isStaged
    exact views.gripped_of_candidate chains isRecord
  · exact .inr (.inr isTop)
  · refine .inr (.inl ⟨views.known_of_listed onHand isListed, ?_⟩)
    exact (views.serves.kept.listed.listed node up
      (views.serves.kept.listed.hangs node up isListed) not_false).mp isListed
  · exact .inl ⟨up, isLinked⟩

variable {options : WalkOptions J}

theorem Views.grips (views : index.Views store tx) (chains : index.ChainsOnHand tx)
    (isOverlay : options.overlay = some tx) :
    index.Grips (tx.applied store) options (index.Gripped store tx) where
  listed := by
    rintro node up (⟨above, isLinked⟩ | isNeeded | isTop) isAbove
    · obtain ⟨linking, _⟩ := links_linking views chains
      have link := linking.linked above node isLinked
      have same : above = up := Option.some.inj (link.isAbove.symm.trans isAbove)
      subst same
      refine ⟨List.mem_append_right _ (by simpa [isOverlay] using isLinked), ?_⟩
      exact views.gripped_of_covered chains link.up (linking.covered above node isLinked)
    · obtain ⟨isListed, isGripped⟩ :=
        (views.known_grips isOverlay).listed node up isNeeded isAbove
      exact ⟨isListed, .inr (.inl isGripped)⟩
    · rw [Store.Above, isTop] at isAbove
      cases isAbove
  shown := by
    rintro id (⟨up, isLinked⟩ | isNeeded | isTop) isForeground
    · obtain ⟨linking, _⟩ := links_linking views chains
      exact views.enters_of_onHand isOverlay (linking.linked up _ isLinked).child isForeground
    · exact (views.known_grips isOverlay).shown id isNeeded isForeground
    · obtain ⟨record, isRecord, _⟩ := isForeground
      simp [Store.above, isRecord] at isTop

/-! ## Live ordinary owned work under an overlay -/

theorem linkFrom_above (views : index.Views store tx) {steps : ℕ} {child : Node}
    {next : Option Node} {links : Node → List Node}
    (isNext : ∀ up, next = some up → (tx.applied store).Above up child)
    (isAbove : ∀ up other, other ∈ links up → (tx.applied store).Above up other) {other : Node}
    (member : other ∈ linkFrom index tx steps child next links up) :
    (tx.applied store).Above up other := by
  induction steps generalizing child next links with
  | zero => exact isAbove up other member
  | succ steps ih =>
    cases next with
    | none => exact isAbove up other member
    | some middle =>
      rw [linkFrom_succ] at member
      have later : ∀ above node,
          node ∈ Function.update links middle (insertLast (links middle) child) above →
            (tx.applied store).Above above node := by
        intro above node isLater
        by_cases same : above = middle
        · subst same
          rw [Function.update_self] at isLater
          rcases mem_insertLast.mp isLater with old | rfl
          · exact isAbove above node old
          · exact isNext above rfl
        · rw [Function.update_of_ne same] at isLater
          exact isAbove above node isLater
      dsimp only at member
      split_ifs at member
      · exact isAbove up other member
      · exact later up other member
      · exact later up other member
      · refine ih ?_ later member
        intro above isFound
        cases middle with
        | conversation id =>
          obtain ⟨task, isTask, rfl⟩ := Option.map_eq_some_iff.mp isFound
          have isEdge := views.conversation_of_edge (Option.join_eq_some_iff.mp isTask)
          simp [Store.Above, Store.above, isEdge]
        | task id =>
          obtain ⟨fields, isSettled, rfl⟩ := Option.map_eq_some_iff.mp isFound
          obtain ⟨stored, isStored, rfl⟩ := views.serves.kept.follows.settled id fields isSettled
          exact views.staged.extended.above (by simp [Store.above, isStored])

theorem Views.above_of_mem_children
    (views : index.Views store tx) (isOverlay : options.overlay = some tx)
    (member : node ∈ index.children options up) : (tx.applied store).Above up node := by
  rcases List.mem_append.mp member with isListed | isLinked
  · exact views.staged.extended.above (above_of_mem_below views.serves.kept isListed)
  · rw [isOverlay] at isLinked
    refine List.foldlRecOn
      (motive := fun links : Node → List Node =>
        ∀ above other, other ∈ links above → (tx.applied store).Above above other)
      _ _ (by simp) (fun links isAbove record member => ?_) up node isLinked
    obtain ⟨write, isStaged, rfl⟩ := List.mem_map.mp member
    split_ifs
    · exact isAbove
    · refine fun above other => linkFrom_above views ?_ isAbove
      rintro _ ⟨⟩
      simp [Store.Above, Store.above, applied_task_of_mem views.staged isStaged]

variable {start : Node}

section

variable (views : index.Views store tx)
include views

theorem Views.walk_iff (isOverlay : options.overlay = some tx) :
    node ∈ Forest.walk (index.children options) (index.enters options) tx.minted start ↔
      Forest.Reached (fun up node => node ∈ index.children options up)
        (index.enters options · = true) start node := by
  refine @Forest.mem_walk_iff _ _ _ _ _ Node.number tx.minted _ ?_ ?_ (Nat.le_add_left _ _)
  · intro up node member
    exact views.staged.forest.above_lt (views.above_of_mem_children isOverlay member)
  · intro up node member
    have isAbove := views.above_of_mem_children isOverlay member
    cases node with
    | task id =>
      obtain ⟨record, isRecord, _⟩ := Option.map_eq_some_iff.mp isAbove
      exact views.staged.forest.taskMinted id record isRecord
    | conversation id =>
      obtain ⟨owner, isOwner, _⟩ := Option.map_eq_some_iff.mp isAbove
      exact views.staged.forest.conversationMinted id _ (Option.join_eq_some_iff.mp isOwner)

theorem Views.record_filter (id : ℕ) :
    (index.record (some tx) id).filter TaskRecord.live =
      ((tx.applied store).tasks id).filter TaskRecord.live := by
  cases isStaged : tx.candidate id with
  | some record =>
    rw [task_of_candidate isStaged]
    simp [Index.record, isStaged]
  | none =>
    rw [task_of_unstaged isStaged]
    have isLive := views.serves.mirrors id
    simp only [Index.record, Option.bind_some, isStaged, Option.none_or, isLive]
    cases store.tasks id with
    | none => rfl
    | some record => by_cases live : record.live = true <;> simp [Option.filter, live]

theorem Views.task_of_nodeOf {node : TaskNode} (isNode : index.nodeOf (some tx) id = some node) :
    ∃ record, (tx.applied store).tasks id = some record ∧ record.toTaskNode = node := by
  cases isStaged : tx.candidate id with
  | some record =>
    refine ⟨record, task_of_candidate isStaged, ?_⟩
    simpa [nodeOf, Index.record, isStaged] using isNode
  | none =>
    refine views.task_of_node ?_
    simpa [nodeOf, Index.record, isStaged, Index.node] using isNode

theorem Views.mem_ownedLive (isOverlay : options.overlay = some tx) {depth : ℕ} :
    id ∈ index.ownedLive options depth start ↔
      .task id ∈ Forest.walk (index.children options) (index.enters options) depth start ∧
        ∃ record, (tx.applied store).tasks id = some record ∧
          record.live = true ∧ record.background = false := by
  simp only [ownedLive, walkDown, List.mem_filterMap, isOverlay]
  constructor
  · rintro ⟨reach, ⟨node, member, isReach⟩, isOwned⟩
    cases node with
    | conversation id => cases isReach
    | task other =>
      obtain ⟨fields, isNode, rfl⟩ := Option.map_eq_some_iff.mp isReach
      dsimp only at isOwned
      split_ifs at isOwned with isLive
      cases isOwned
      simp only [Bool.and_eq_true, Bool.not_eq_true', views.record_filter] at isLive
      obtain ⟨record, isRecord⟩ := Option.isSome_iff_exists.mp isLive.1
      obtain ⟨isRecord, live⟩ := Option.filter_eq_some_iff.mp isRecord
      obtain ⟨found, isFound, rfl⟩ := views.task_of_nodeOf isNode
      rw [isRecord] at isFound
      cases isFound
      exact ⟨member, record, isRecord, live, isLive.2⟩
  · rintro ⟨member, record, isRecord, live, foreground⟩
    have isLive := views.record_filter id
    rw [isRecord] at isLive
    simp only [Option.filter, live, if_true] at isLive
    obtain ⟨isShown, _⟩ := Option.filter_eq_some_iff.mp isLive
    refine ⟨⟨id, record.toTaskNode, some record⟩, ⟨.task id, member, ?_⟩, ?_⟩
    · simp [nodeOf, isShown, Option.filter, live]
    · simp [foreground]

end

theorem Views.ownedLive_or_cut (views : index.Views store tx) {options : WalkOptions J}
    (isOverlay : options.overlay = some tx) {grip : Node → Prop}
    (grips : index.Grips (tx.applied store) options grip) {start : Node}
    {id : ℕ} (owned : (tx.applied store).OwnedLive start id) (isGripped : grip (.task id)) :
    id ∈ index.ownedLive options tx.minted start ∨
      ∃ cut, options.enter cut = false ∧ (tx.applied store).Ordinary start cut ∧
        (tx.applied store).Foreground (.task cut) ∧
        (tx.applied store).OwnedLive (.task cut) id := by
  obtain ⟨isOrdinary, isLive⟩ := owned
  rcases grips.reached_or_cut isOrdinary isGripped with
    reached | ⟨cut, notEntered, reachesCut, isForeground, below⟩
  · exact .inl ((views.mem_ownedLive isOverlay).mpr
      ⟨(views.walk_iff isOverlay).mpr reached, isLive⟩)
  · exact .inr ⟨cut, notEntered, reachesCut, isForeground, below, isLive⟩

theorem Views.ownedLive_sound (views : index.Views store tx) (isOverlay : options.overlay = some tx)
    (inForeground : options.crossBackground = false)
    (member : id ∈ index.ownedLive options tx.minted start) :
    (tx.applied store).OwnedLive start id := by
  obtain ⟨isWalked, isLive⟩ := (views.mem_ownedLive isOverlay).mp member
  refine ⟨((views.walk_iff isOverlay).mp isWalked).mono ?_ ?_, isLive⟩
  · exact fun up node isChild => views.above_of_mem_children isOverlay isChild
  · intro node isEntered
    cases node with
    | conversation id => trivial
    | task id =>
      dsimp only [enters] at isEntered
      rw [isOverlay] at isEntered
      split at isEntered
      case h_1 => cases isEntered
      case h_2 fields isNode =>
        obtain ⟨record, isRecord, rfl⟩ := views.task_of_nodeOf isNode
        refine ⟨record, isRecord, ?_⟩
        simp only [inForeground, Bool.false_or, Bool.and_eq_true, Bool.not_eq_true'] at isEntered
        exact isEntered.1

end Links

end Index

end PiEmbodied.Durable.Scheduler
