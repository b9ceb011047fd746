import PiEmbodied.Durable.Ownership

/-!
# What the downward index lists

A known node is listed below its parent exactly while it is needed: it is a
live task, or has nodes listed below it.  Relisting a node restores that after
a change at the node.
-/

namespace PiEmbodied.Durable.Scheduler

open Tasks

variable {J : Type}

namespace Index

def Descends (index : Index J) : Prop :=
  ∀ node up, index.parent node = some (some up) → up.number < node.number

structure ListedBut (index : Index J) (exempt : Node → Prop) : Prop where
  listed : ∀ node up, index.parent node = some (some up) → ¬ exempt node →
    (node ∈ index.below up ↔ index.needed node = true)
  hangs : ∀ node up, node ∈ index.below up → index.parent node = some (some up)
  rootListed : ∀ id, index.parent (.conversation id) = some none → ¬ exempt (.conversation id) →
    (id ∈ index.roots ↔ index.needed (.conversation id) = true)
  rootHangs : ∀ id, id ∈ index.roots → index.parent (.conversation id) = some none

abbrev Listed (index : Index J) : Prop := index.ListedBut fun _ => False

/-- Known nodes that nothing needs are queued, but for one node. -/
def QueuedBut (index : Index J) (exempt : Node → Prop) : Prop :=
  ∀ node, (index.parent node).isSome = true → index.needed node = false →
    ¬ exempt node → node ∈ index.dropQueue

abbrev Queued (index : Index J) : Prop := index.QueuedBut fun _ => False

variable {index : Index J}

theorem ListedBut.widen {exempt wider : Node → Prop} (listed : index.ListedBut exempt)
    (widens : ∀ node, exempt node → wider node) :
    index.ListedBut wider where
  listed := fun node up isParent notExempt =>
    listed.listed node up isParent fun isExempt => notExempt (widens node isExempt)
  hangs := listed.hangs
  rootListed := fun id isRoot notExempt =>
    listed.rootListed id isRoot fun isExempt => notExempt (widens _ isExempt)
  rootHangs := listed.rootHangs

/-! ## Needed nodes -/

theorem needed_eq_true {node : Node} :
    index.needed node = true ↔ index.isLive node = true ∨ index.below node ≠ [] := by
  simp [needed]

theorem needed_of_mem_below {node child : Node} (member : child ∈ index.below node) :
    index.needed node = true :=
  needed_eq_true.mpr (.inr (List.ne_nil_of_mem member))

theorem needed_congr {index other : Index J} {node : Node}
    (sameLive : other.isLive node = index.isLive node)
    (sameBelow : other.below node = index.below node) : other.needed node = index.needed node := by
  simp only [needed, sameLive, sameBelow]

/-! ## What relisting leaves alone -/

structure SameRecords (index other : Index J) : Prop where
  live : other.live = index.live
  settled : other.settled = index.settled
  edges : other.edges = index.edges
  unloaded : other.unloaded = index.unloaded

namespace SameRecords

variable {index other : Index J}

theorem refl (index : Index J) : index.SameRecords index :=
  ⟨rfl, rfl, rfl, rfl⟩

theorem trans {third : Index J} (first : index.SameRecords other)
    (second : other.SameRecords third) : index.SameRecords third where
  live := second.live.trans first.live
  settled := second.settled.trans first.settled
  edges := second.edges.trans first.edges
  unloaded := second.unloaded.trans first.unloaded

section

variable (same : index.SameRecords other)
include same

theorem node : other.node = index.node := by
  funext id
  simp only [Index.node, same.live, same.settled]

theorem isLive : other.isLive = index.isLive := by
  funext node
  cases node <;> simp only [Index.isLive, same.live]

theorem parent : other.parent = index.parent := by
  funext node
  cases node <;> simp only [Index.parent, same.node, same.edges]

end

theorem knownTask (same : index.SameRecords other) : other.knownTask = index.knownTask := by
  funext id
  simp only [Index.knownTask, same.node, same.unloaded]

theorem known (same : index.SameRecords other) : other.known = index.known := by
  funext node
  cases node <;> simp only [Index.known, same.knownTask, same.edges]

end SameRecords

theorem dropIfUnneeded_same (index : Index J) (node : Node) :
    index.SameRecords (index.dropIfUnneeded node) := by
  unfold dropIfUnneeded
  split_ifs
  · exact .refl index
  · exact ⟨rfl, rfl, rfl, rfl⟩

theorem addBelow_same (index : Index J) (up node : Node) :
    index.SameRecords (index.addBelow up node) :=
  ⟨rfl, rfl, rfl, rfl⟩

theorem deleteBelow_same (index : Index J) (up node : Node) :
    index.SameRecords (index.deleteBelow up node) :=
  ⟨rfl, rfl, rfl, rfl⟩

theorem relistFrom_same (steps : ℕ) (node : Node) (index : Index J) :
    index.SameRecords (relistFrom steps node index) := by
  induction steps generalizing node index with
  | zero => exact .refl index
  | succ steps ih =>
    unfold relistFrom
    dsimp only
    split
    case h_1 => exact .refl index
    case h_2 =>
      split
      · exact ⟨rfl, rfl, rfl, rfl⟩
      · exact .refl index
    case h_3 up isParent =>
      split_ifs
      · exact .refl index
      · exact (addBelow_same index up node).trans (ih up _)
      · exact ⟨rfl, rfl, rfl, rfl⟩
      · exact ⟨rfl, rfl, rfl, rfl⟩
      · exact ((deleteBelow_same index up node).trans (dropIfUnneeded_same _ up)).trans (ih up _)

theorem relist_same (index : Index J) (node : Node) : index.SameRecords (index.relist node) :=
  relistFrom_same _ node index

/-! ## One link added or deleted -/

section Links

variable {index : Index J} {up node other : Node}

theorem needed_addBelow :
    (index.addBelow up node).needed other =
      if other = up then true else index.needed other := by
  by_cases same : other = up
  · subst same
    rw [if_pos rfl]
    have member : node ∈ (index.addBelow other node).below other := by simp [addBelow]
    exact needed_of_mem_below member
  · rw [if_neg same]
    exact @needed_congr J index _ other rfl (Function.update_of_ne same ..)

theorem needed_deleteBelow (different : other ≠ up) :
    (index.deleteBelow up node).needed other = index.needed other :=
  @needed_congr J index _ other rfl (Function.update_of_ne different ..)

theorem mem_addBelow {child above : Node} :
    child ∈ (index.addBelow up node).below above ↔
      child ∈ index.below above ∨ (above = up ∧ child = node) := by
  by_cases same : above = up
  · subst same
    simp [addBelow]
  · simp [addBelow, same]

theorem mem_deleteBelow {child above : Node} :
    child ∈ (index.deleteBelow up node).below above ↔
      child ∈ index.below above ∧ ¬ (above = up ∧ child = node) := by
  by_cases same : above = up
  · subst same
    simp [deleteBelow]
  · simp [deleteBelow, same]

end Links

theorem addBelow_listed {node up : Node} (listed : index.ListedBut (· = node))
    (isParent : index.parent node = some (some up))
    (isNeeded : index.needed node = true) (notSelf : node ≠ up) :
    (index.addBelow up node).ListedBut fun other => other = up ∧ index.needed up = false where
  listed := by
    intro other above isAbove notExempt
    have sameNeeded : (index.addBelow up node).needed other =
        index.needed other := by
      rw [needed_addBelow]
      split_ifs with same
      · cases isUp : index.needed up with
        | true => rw [same, isUp]
        | false => exact absurd ⟨same, isUp⟩ notExempt
      · rfl
    rw [mem_addBelow, sameNeeded]
    replace isAbove : index.parent other = some (some above) := isAbove
    by_cases isNode : other = node
    · subst isNode
      rw [isParent] at isAbove
      cases isAbove
      simp [isNeeded]
    · have := listed.listed other above isAbove isNode
      simp [isNode, this]
  hangs := by
    intro other above member
    rcases mem_addBelow.mp member with old | ⟨rfl, rfl⟩
    · exact listed.hangs other above old
    · exact isParent
  rootListed := by
    intro id isRoot notExempt
    replace isRoot : index.parent (.conversation id) = some none := isRoot
    have different : Node.conversation id ≠ node := by
      rintro rfl
      rw [isParent] at isRoot
      cases isRoot
    rw [needed_addBelow]
    split_ifs with same
    · have := listed.rootListed id isRoot different
      cases isUp : index.needed up with
      | true =>
        rwa [same, isUp] at this
      | false => exact absurd ⟨same, isUp⟩ notExempt
    · exact listed.rootListed id isRoot different
  rootHangs := listed.rootHangs

theorem deleteBelow_listed {node up : Node} (listed : index.ListedBut (· = node))
    (isParent : index.parent node = some (some up))
    (notNeeded : index.needed node = false) (notSelf : node ≠ up) :
    (index.deleteBelow up node).ListedBut
      fun other => other = up ∧ ((index.deleteBelow up node).below up) = [] where
  listed := by
    intro other above isAbove notExempt
    replace isAbove : index.parent other = some (some above) := isAbove
    by_cases isNode : other = node
    · subst isNode
      rw [isParent] at isAbove
      cases isAbove
      rw [needed_deleteBelow notSelf, mem_deleteBelow]
      simp [notNeeded]
    · have old := listed.listed other above isAbove isNode
      have sameNeeded : (index.deleteBelow up node).needed other =
          index.needed other := by
        by_cases same : other = up
        · subst same
          have isListed : (index.deleteBelow other node).below other ≠ [] :=
            fun isNil => notExempt ⟨rfl, isNil⟩
          obtain ⟨child, isChild⟩ := List.exists_mem_of_ne_nil _ isListed
          rw [needed_of_mem_below isChild, needed_of_mem_below (mem_deleteBelow.mp isChild).1]
        · exact needed_deleteBelow same
      rw [mem_deleteBelow, sameNeeded]
      simp [isNode, old]
  hangs := by
    intro other above member
    exact listed.hangs other above (mem_deleteBelow.mp member).1
  rootListed := by
    intro id isRoot notExempt
    replace isRoot : index.parent (.conversation id) = some none := isRoot
    have different : Node.conversation id ≠ node := by
      rintro rfl
      rw [isParent] at isRoot
      cases isRoot
    have old := listed.rootListed id isRoot different
    by_cases same : Node.conversation id = up
    · have isListed : (index.deleteBelow up node).below up ≠ [] :=
        fun isNil => notExempt ⟨same, isNil⟩
      obtain ⟨child, isChild⟩ := List.exists_mem_of_ne_nil _ isListed
      rw [same] at old ⊢
      rw [needed_of_mem_below isChild]
      rwa [needed_of_mem_below (mem_deleteBelow.mp isChild).1] at old
    · rw [needed_deleteBelow same]
      exact old
  rootHangs := listed.rootHangs

theorem mem_setRoot {id other : ℕ} {needed : Bool} :
    other ∈ (index.setRoot id needed).roots ↔
      if other = id then needed = true else other ∈ index.roots := by
  cases needed <;> by_cases same : other = id <;> simp [setRoot, same]

theorem setRoot_listed {id : ℕ} (listed : index.ListedBut (· = .conversation id))
    (isTop : index.parent (.conversation id) = some none) :
    (index.setRoot id (index.needed (.conversation id))).Listed where
  listed := by
    intro other up isParent _
    refine listed.listed other up isParent ?_
    rintro rfl
    replace isParent : index.parent (.conversation id) = some (some up) := isParent
    rw [isTop] at isParent
    cases isParent
  hangs := listed.hangs
  rootListed := by
    intro other isRoot _
    rw [mem_setRoot]
    split_ifs with same
    · rw [same]
      rfl
    · exact listed.rootListed other isRoot fun isExempt => same (Node.conversation.inj isExempt)
  rootHangs := by
    intro other member
    rw [mem_setRoot] at member
    split_ifs at member with same
    · rw [same]
      exact isTop
    · exact listed.rootHangs other member

theorem dropIfUnneeded_listed
    {exempt : Node → Prop} {node : Node} (listed : index.ListedBut exempt) :
    (index.dropIfUnneeded node).ListedBut exempt := by
  unfold dropIfUnneeded
  split_ifs
  · exact listed
  · exact ⟨listed.listed, listed.hangs, listed.rootListed, listed.rootHangs⟩

/-! ## Relisting -/

theorem relistFrom_listed {steps : ℕ} {node : Node} (descends : index.Descends)
    (deep : node.number < steps) (listed : index.ListedBut (· = node)) :
    (relistFrom steps node index).Listed := by
  induction steps generalizing node index with
  | zero => omega
  | succ steps ih =>
    unfold relistFrom
    dsimp only
    split
    case h_1 isUnknown =>
      refine ⟨?_, listed.hangs, ?_, listed.rootHangs⟩
      · intro other up isParent _
        refine listed.listed other up isParent ?_
        rintro rfl
        rw [isUnknown] at isParent
        cases isParent
      · intro id isRoot _
        refine listed.rootListed id isRoot ?_
        rintro rfl
        rw [isUnknown] at isRoot
        cases isRoot
    case h_2 isTop =>
      split
      case h_1 id => exact setRoot_listed listed isTop
      case h_2 id => simp [parent] at isTop
    case h_3 up isParent =>
      have less := descends node up isParent
      have notSelf : node ≠ up := by
        rintro rfl
        exact Nat.lt_irrefl _ less
      have settled : ∀ {exempt : Node → Prop} {result : Index J},
          result.ListedBut exempt → (∀ other, ¬ exempt other) →
            result.Listed := fun listed none =>
        listed.widen fun other isExempt => none other isExempt
      split_ifs with isRight isNeeded isFirst isListed
      · refine ⟨?_, listed.hangs, ?_, listed.rootHangs⟩
        · intro other above isAbove _
          by_cases same : other = node
          · subst same
            rw [isParent] at isAbove
            cases isAbove
            rw [← isRight]
            simp
          · exact listed.listed other above isAbove same
        · intro id isRoot _
          refine listed.rootListed id isRoot ?_
          rintro rfl
          rw [isParent] at isRoot
          cases isRoot
      · refine ih descends (by omega) ?_
        exact (addBelow_listed listed isParent isNeeded notSelf).widen
          fun other isExempt => isExempt.1
      · refine settled (addBelow_listed listed isParent isNeeded notSelf) ?_
        rintro other ⟨_, notNeeded⟩
        have isSome : index.below up ≠ [] := by simpa using isFirst
        rw [needed_eq_true.mpr (.inr isSome)] at notNeeded
        cases notNeeded
      · refine settled (deleteBelow_listed listed isParent (by simpa using isNeeded) notSelf) ?_
        rintro other ⟨_, isNil⟩
        simp [isNil] at isListed
      · refine ih ?_ (by omega) ?_
        · have same := ((deleteBelow_same index up node).trans (dropIfUnneeded_same _ up)).parent
          intro other above isAbove
          rw [same] at isAbove
          exact descends other above isAbove
        · exact dropIfUnneeded_listed ((deleteBelow_listed listed isParent
            (by simpa using isNeeded) notSelf).widen fun other isExempt => isExempt.1)

theorem relist_listed {node : Node} (descends : index.Descends)
    (listed : index.ListedBut (· = node)) : (index.relist node).Listed :=
  relistFrom_listed descends (Nat.lt_succ_self _) listed

theorem dropIfUnneeded_queued {exempt : Node → Prop} {node : Node}
    (queued : index.QueuedBut fun other => exempt other ∨ other = node) :
    (index.dropIfUnneeded node).QueuedBut exempt := by
  unfold dropIfUnneeded
  split_ifs with isNeeded
  · intro other isKnown notNeeded notExempt
    refine queued other isKnown notNeeded ?_
    rintro (isExempt | rfl)
    · exact notExempt isExempt
    · rw [isNeeded] at notNeeded
      cases notNeeded
  · intro other isKnown notNeeded notExempt
    refine mem_insertLast.mpr ?_
    by_cases same : other = node
    · exact .inr same
    · refine .inl (queued other isKnown notNeeded ?_)
      rintro (isExempt | isSame)
      · exact notExempt isExempt
      · exact same isSame

theorem relistFrom_queued {steps : ℕ} {node : Node} {exempt : Node → Prop}
    (queued : index.QueuedBut exempt) : (relistFrom steps node index).QueuedBut exempt := by
  induction steps generalizing node index with
  | zero => exact queued
  | succ steps ih =>
    unfold relistFrom
    dsimp only
    have added : ∀ up, (index.addBelow up node).QueuedBut exempt := by
      intro up other isKnown notNeeded notExempt
      rw [needed_addBelow] at notNeeded
      split_ifs at notNeeded
      exact queued other isKnown notNeeded notExempt
    have deleted : ∀ up, (index.deleteBelow up node).QueuedBut
        fun other => exempt other ∨ other = up := by
      intro up other isKnown notNeeded notExempt
      obtain ⟨notOld, different⟩ := not_or.mp notExempt
      rw [needed_deleteBelow different] at notNeeded
      exact queued other isKnown notNeeded notOld
    split
    case h_1 => exact queued
    case h_2 =>
      split
      · exact queued
      · exact queued
    case h_3 up isParent =>
      split_ifs with isRight isNeeded isFirst isListed
      · exact queued
      · exact ih (added up)
      · exact added up
      · intro other isKnown notNeeded notExempt
        refine deleted up other isKnown notNeeded ?_
        rintro (isExempt | rfl)
        · exact notExempt isExempt
        · rw [needed_eq_true.mpr (.inr (by simpa using isListed))] at notNeeded
          cases notNeeded
      · exact ih (dropIfUnneeded_queued (deleted up))

theorem relist_queued {node : Node} {exempt : Node → Prop} (queued : index.QueuedBut exempt) :
    (index.relist node).QueuedBut exempt :=
  relistFrom_queued queued

structure ChangedAt (index later : Index J) (start : Node) : Prop where
  below : later.below = index.below
  roots : later.roots = index.roots
  dropQueue : later.dropQueue = index.dropQueue
  parentKept : ∀ node up, index.parent node = some up → later.parent node = some up
  parentOther : ∀ node, node ≠ start → later.parent node = index.parent node
  liveOther : ∀ node, node ≠ start → later.isLive node = index.isLive node

namespace ChangedAt

variable {index later : Index J} {start : Node}

section

variable (changed : index.ChangedAt later start)
include changed

theorem listed (listed : index.Listed) :
    later.ListedBut (· = start) where
  listed := by
    intro node up isParent different
    rw [changed.parentOther node different] at isParent
    rw [changed.below, needed_congr (changed.liveOther node different)
      (congrFun changed.below node)]
    exact listed.listed node up isParent not_false
  hangs := by
    intro node up member
    rw [changed.below] at member
    exact changed.parentKept node _ (listed.hangs node up member)
  rootListed := by
    intro id isRoot different
    rw [changed.parentOther _ different] at isRoot
    rw [changed.roots, needed_congr (changed.liveOther _ different) (congrFun changed.below _)]
    exact listed.rootListed id isRoot not_false
  rootHangs := by
    intro id member
    rw [changed.roots] at member
    exact changed.parentKept _ _ (listed.rootHangs id member)

theorem queued (queued : index.Queued) :
    later.QueuedBut (· = start) := by
  intro node isKnown notNeeded different
  rw [changed.parentOther node different] at isKnown
  rw [needed_congr (changed.liveOther node different) (congrFun changed.below node)] at notNeeded
  rw [changed.dropQueue]
  exact queued node isKnown notNeeded not_false

theorem relisted (descends : later.Descends) (listed : index.Listed) (queued : index.Queued) :
    ((later.relist start).dropIfUnneeded start).Listed ∧
      ((later.relist start).dropIfUnneeded start).Queued := by
  refine ⟨dropIfUnneeded_listed (relist_listed descends (changed.listed listed)), ?_⟩
  refine dropIfUnneeded_queued ?_
  intro node isKnown notNeeded notExempt
  refine relist_queued (changed.queued queued) node isKnown notNeeded ?_
  exact fun isStart => notExempt (.inr isStart)

end

end ChangedAt

end Index

end PiEmbodied.Durable.Scheduler
