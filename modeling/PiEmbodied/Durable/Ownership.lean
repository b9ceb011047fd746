import PiEmbodied.Durable.Tasks

/-!
# The ownership indexes of the scheduler

The scheduler keeps the part of the ownership tree around live work: the owner
of each known conversation, the ownership fields of known ended tasks, and
below each node the nodes that are live or have such nodes below them.  Chains
above new work are loaded when they are needed, and nodes that nothing needs
are swept.
-/

namespace PiEmbodied.Durable.Scheduler

open Tasks

/-! ## Ordered sets -/

section Sets

variable {α : Type} [DecidableEq α]

/-- `Set.add`. -/
def insertLast (items : List α) (item : α) : List α :=
  if item ∈ items then items else items ++ [item]

/-- `Set.delete`. -/
def without (items : List α) (item : α) : List α :=
  items.filter (· ≠ item)

variable {items : List α} {item other : α}

@[simp]
theorem mem_insertLast : other ∈ insertLast items item ↔ other ∈ items ∨ other = item := by
  unfold insertLast
  split_ifs with member
  · constructor
    · exact Or.inl
    · rintro (old | rfl)
      · exact old
      · exact member
  · simp

@[simp]
theorem mem_without : other ∈ without items item ↔ other ∈ items ∧ other ≠ item := by
  simp [without]

end Sets

variable {J : Type}

/-! ## The indexes -/

structure Index (J : Type) where
  /-- Every committed record that is not terminal. -/
  live : ℕ → Option (TaskRecord J)
  /-- Ownership fields of the known terminal tasks. -/
  settled : ℕ → Option TaskNode
  /-- Owner task of each known conversation, none when ownerless. -/
  edges : ℕ → Option (Option ℕ)
  /-- The nodes listed below each node. -/
  below : Node → List Node
  roots : List ℕ
  /-- Known tasks whose chain may not be loaded. -/
  unloaded : List ℕ
  /-- Nodes found unneeded, to be swept. -/
  dropQueue : List Node

abbrev Overlay := Transaction

namespace Index

def empty : Index J where
  live := fun _ => none
  settled := fun _ => none
  edges := fun _ => none
  below := fun _ => []
  roots := []
  unloaded := []
  dropQueue := []

def node (index : Index J) (id : ℕ) : Option TaskNode :=
  ((index.live id).map fun record => record.toTaskNode).or (index.settled id)

def isLive (index : Index J) : Node → Bool
  | .task id => (index.live id).isSome
  | .conversation _ => false

/-- Whether a node is a live task, or has nodes listed below it. -/
def needed (index : Index J) (node : Node) : Bool :=
  index.isLive node || !(index.below node).isEmpty

/-- The node above a known node; an ownerless conversation has none. -/
def parent (index : Index J) : Node → Option (Option Node)
  | .task id => (index.node id).map fun node => some (parentNode node)
  | .conversation id => (index.edges id).map fun owner => owner.map .task

/-- `#dropIfUnneeded`: an ended task or a conversation with nothing listed
below it is queued for the sweep. -/
def dropIfUnneeded (index : Index J) (node : Node) : Index J :=
  if index.needed node then index
  else { index with dropQueue := insertLast index.dropQueue node }

def addBelow (index : Index J) (up node : Node) : Index J :=
  { index with
    below := Function.update index.below up
      (insertLast (index.below up) node) }

def deleteBelow (index : Index J) (up node : Node) : Index J :=
  { index with
    below := Function.update index.below up (without (index.below up) node) }

def setRoot (index : Index J) (id : ℕ) (needed : Bool) : Index J :=
  { index with
    roots :=
      if needed then insertLast index.roots id else without index.roots id }

/-- `#relist`: a node is listed below its parent while it is needed; then its
parent, as far up as that changes. -/
def relistFrom : ℕ → Node → Index J → Index J
  | 0, _, index => index
  | steps + 1, node, index =>
    let needed := index.needed node
    match index.parent node with
    | none => index
    | some none =>
      match node with
      | .conversation id => index.setRoot id needed
      | .task _ => index
    | some (some up) =>
      if decide (node ∈ index.below up) = needed then index
      else if needed then
        if (index.below up).isEmpty then
          relistFrom steps up (index.addBelow up node)
        else index.addBelow up node
      else
        let index := index.deleteBelow up node
        if !(index.below up).isEmpty then index
        else relistFrom steps up (index.dropIfUnneeded up)

def relist (index : Index J) (node : Node) : Index J :=
  relistFrom (node.number + 1) node index

def withEdge (index : Index J) (id : ℕ) (owner : Option ℕ) : Index J :=
  { index with edges := Function.update index.edges id (some owner) }

def setEdge (index : Index J) (id : ℕ) (owner : Option ℕ) : Index J :=
  ((index.withEdge id owner).relist (.conversation id)).dropIfUnneeded (.conversation id)

def withSettled (index : Index J) (id : ℕ) (node : TaskNode) : Index J :=
  { index with
    settled := Function.update index.settled id (some node)
    unloaded := insertLast index.unloaded id }

/-- A terminal task that a chain load read is known; its own chain is not
loaded yet. -/
def settle (index : Index J) (id : ℕ) (node : TaskNode) : Index J :=
  ((index.withSettled id node).relist (.task id)).dropIfUnneeded (.task id)

def knownTask (index : Index J) (id : ℕ) : Bool :=
  (index.node id).isSome && decide (id ∉ index.unloaded)

def known (index : Index J) : Node → Bool
  | .task id => index.knownTask id
  | .conversation id =>
    match index.edges id with
    | none => false
    | some none => true
    | some (some owner) => index.knownTask owner

def swept (index : Index J) (node : Node) : Bool :=
  decide (node ∈ index.dropQueue) && !index.needed node

/-- `#sweep`: the queued nodes that are still unneeded are dropped. -/
def sweep (index : Index J) : Index J :=
  { index with
    edges := fun id =>
      if index.swept (.conversation id) then none else index.edges id
    roots := index.roots.filter fun id => !index.swept (.conversation id)
    settled := fun id =>
      if index.swept (.task id) then none else index.settled id
    unloaded := index.unloaded.filter fun id => !index.swept (.task id)
    dropQueue := [] }

def withEnded (index : Index J) (record : TaskRecord J) : Index J :=
  { index with
    live := Function.update index.live record.id none
    settled := Function.update index.settled record.id
      (some record.toTaskNode) }

def withLive (index : Index J) (record : TaskRecord J) : Index J :=
  { index with live := Function.update index.live record.id (some record) }

def unload (index : Index J) (id : ℕ) : Index J :=
  { index with unloaded := insertLast index.unloaded id }

/-- `#track`, as far as the ownership indexes go. -/
def track (index : Index J) (record : TaskRecord J) : Index J :=
  if record.state.isTerminal then
    ((index.withEnded record).relist (.task record.id)).dropIfUnneeded (.task record.id)
  else if (index.live record.id).isSome then index.withLive record
  else if (index.withLive record).known (parentNode record.toTaskNode) then
    (index.withLive record).relist (.task record.id)
  else ((index.withLive record).unload record.id).relist (.task record.id)

/-- Owner task of a conversation, as a commit staged it or as it is known. -/
def edge (index : Index J) (overlay : Option (Overlay J)) (id : ℕ) : Option (Option ℕ) :=
  (overlay.bind fun tx => tx.conversations.lookup id).or (index.edges id)

/-- A walk up in progress: the tasks passed, and whether a node was loaded. -/
structure Load (J : Type) where
  index : Index J
  passed : List ℕ
  reveals : Bool

/-- The loop of `#loadChain`. -/
def loadFrom (store : Store J) (overlay : Option (Overlay J)) : ℕ → Option Node → Load J → Load J
  | 0, _, load | _ + 1, none, load => load
  | steps + 1, some (.task id), load =>
    match load.index.node id with
    | some node =>
      if id ∉ load.index.unloaded then load
      else
        loadFrom store overlay steps (some (parentNode node))
          { load with passed := load.passed ++ [id] }
    | none =>
      if (overlay.bind fun tx => tx.candidate id).isSome then load
      else
        match store.tasks id with
        | none => { load with passed := [] }
        | some record =>
          loadFrom store overlay steps (some (parentNode record.toTaskNode))
            { index :=
                if record.state.isTerminal then
                  load.index.settle id record.toTaskNode
                else load.index
              passed := load.passed ++ [id]
              reveals := true }
  | steps + 1, some (.conversation id), load =>
    match load.index.edge overlay id with
    | some owner => loadFrom store overlay steps (owner.map .task) load
    | none =>
      let owner := (store.conversations id).join
      loadFrom store overlay steps (owner.map .task)
        { load with
          index := load.index.setEdge id owner
          reveals := true }

def Load.finish (load : Load J) : Index J :=
  { load.index with
    unloaded := load.index.unloaded.filter fun id => id ∉ load.passed }

/-- `#loadChain`: the chain from a node up to its root, or to a task whose
chain is loaded. -/
def loadChain (index : Index J) (store : Store J)
    (overlay : Option (Overlay J)) (start : Node) : Load J :=
  loadFrom store overlay (start.number + 1) (some start) { index, passed := [], reveals := false }

/-! ## Walks down -/

def linkFrom (index : Index J) (overlay : Overlay J) :
    ℕ → Node → Option Node → (Node → List Node) → (Node → List Node)
  | 0, _, _, links | _ + 1, _, none, links => links
  | steps + 1, child, some up, links =>
    if child ∈ links up then links
    else
      let links := Function.update links up (insertLast (links up) child)
      let stops :=
        match up with
        | .task id => (index.live id).isSome || (overlay.candidate id).isSome
        | .conversation _ => false
      if stops then links
      else
        let above : Option Node :=
          match up with
          | .conversation id => (index.edge (some overlay) id).join.map .task
          | .task id => (index.settled id).map parentNode
        if (above.map fun above => decide (up ∈ index.below above)) =
            some true then links
        else linkFrom index overlay steps up above links

/-- `#links`: the links to the staged tasks that `below` does not list. -/
def links (index : Index J) (overlay : Overlay J) : Node → List Node :=
  (overlay.tasksById.map Write.record).foldl
    (fun links record =>
      if (index.node record.id).isSome then links
      else
        linkFrom index overlay (record.id + 1) (.task record.id)
          (some (parentNode record.toTaskNode)) links)
    fun _ => []

def record (index : Index J) (overlay : Option (Overlay J)) (id : ℕ) : Option (TaskRecord J) :=
  (overlay.bind fun tx => tx.candidate id).or (index.live id)

def nodeOf (index : Index J) (overlay : Option (Overlay J)) (id : ℕ) :
    Option TaskNode :=
  ((index.record overlay id).map fun record => record.toTaskNode).or (index.settled id)

structure WalkOptions (J : Type) where
  overlay : Option (Overlay J) := none
  crossBackground : Bool := false
  enter : ℕ → Bool := fun _ => true

/-- A task a walk down reaches, with its record while it is live. -/
structure Reach (J : Type) where
  id : ℕ
  node : TaskNode
  live : Option (TaskRecord J)

def children (index : Index J) (options : WalkOptions J) (at_ : Node) :
    List Node :=
  index.below at_ ++
    match options.overlay with
    | none => []
    | some overlay => index.links overlay at_

def enters (index : Index J) (options : WalkOptions J) : Node → Bool
  | .conversation _ => true
  | .task id =>
    match index.nodeOf options.overlay id with
    | none => false
    | some node => (options.crossBackground || !node.background) && options.enter id

/-- `#walkDown`: the tasks below a node; background tasks are reached but not
entered.  The order in which they are reached is not the source's. -/
def walkDown (index : Index J) (options : WalkOptions J) (depth : ℕ)
    (start : Node) : List (Reach J) :=
  (Forest.walk (index.children options) (index.enters options) depth start).filterMap fun
    | .conversation _ => none
    | .task id =>
      (index.nodeOf options.overlay id).map fun node =>
        { id
          node
          live := (index.record options.overlay id).filter TaskRecord.live }

/-- `#ownedLive`: the live ordinary owned work of an owner. -/
def ownedLive (index : Index J) (options : WalkOptions J) (depth : ℕ) (start : Node) : List ℕ :=
  (index.walkDown options depth start).filterMap fun reach =>
    if reach.live.isSome && !reach.node.background then some reach.id else none

end Index

end PiEmbodied.Durable.Scheduler
