import PiEmbodied.Acyclic
import PiEmbodied.Durable.Steps

/-!
# The wait-for graph

A new task has only incoming edges, and only the wait that a task commits for
itself adds an edge between tasks there were; so checking each wait keeps the
graph acyclic.
-/

namespace PiEmbodied.Durable.Scheduler

open Tasks
open Graphs (Acyclic)

variable {J : Type}

section Commits

variable {own : Option ℕ} {store : Store J} {tx : Transaction J}

theorem stored_of_reached (sound : store.Sound) {start node : Node}
    (reached : Forest.Reached store.Above store.Foreground start node) :
    Index.Stored store start := by
  induction reached with
  | @first node isAbove =>
    cases node with
    | task id =>
      obtain ⟨record, isRecord, isParent⟩ := Option.map_eq_some_iff.mp isAbove
      rw [← isParent]
      exact Index.stored_parentNode sound isRecord
    | conversation id =>
      obtain ⟨owner, isOwner, isParent⟩ := Option.map_eq_some_iff.mp isAbove
      rw [← isParent]
      exact (sound.ownedConversation id owner (Option.join_eq_some_iff.mp isOwner)).2
  | next _ _ _ ih => exact ih

variable {id other : ℕ}

theorem lt_of_ordinary (sound : store.Sound) (ordinary : store.Ordinary (.task id) other) :
    id < other := by
  have ranked : ∀ above node, store.Above above node →
      above.number < node.number := fun _ _ isAbove => sound.above_lt isAbove
  exact Forest.Reached.rank_lt ranked ordinary

theorem live_of_waitsFor (waits : WaitsFor store id other) :
    ∃ record, store.tasks other = some record ∧ record.live = true := by
  obtain ⟨_, _, _, ⟨_, _, member⟩ | ⟨_, record, isRecord, isLive, _⟩⟩ := waits
  · exact member
  · exact ⟨record, isRecord, isLive⟩

section

variable (lawful : Lawful own store tx)
include lawful

theorem Lawful.new_waits (sound : store.Sound) (waits : WaitsFor (tx.applied store) id other)
    (isNew : store.tasks id = none) :
    store.tasks other = none ∧ id < other := by
  obtain ⟨record, isRecord, _, ⟨_, member, _⟩ | owned⟩ := waits
  · obtain ⟨_, checkpoint, isPending⟩ :=
      new_record lawful.sound isNew isRecord
    rw [isPending] at member
    cases member
  · refine ⟨?_, lt_of_ordinary lawful.sound.forest owned.1⟩
    by_contra isStored
    have before := ordinary_of_applied sound lawful.sound owned.1
      (Option.isSome_iff_ne_none.mpr isStored)
    have isThere : (store.tasks id).isSome = true := stored_of_reached sound before
    rw [isNew] at isThere
    cases isThere

theorem Lawful.was_live {id : ℕ} {old new : TaskRecord J} (isOld : store.tasks id = some old)
    (isNew : (tx.applied store).tasks id = some new) (isLive : new.live = true) :
    old.live = true := by
  rcases record_cases lawful.sound isOld isNew with ⟨_, rfl⟩ | ⟨_, wasLive⟩
  · exact isLive
  · exact wasLive

/-- A task that was there waits for others that were there as before, but for
the task that commits a wait. -/
theorem Lawful.old_waits (sound : store.Sound) (waits : WaitsFor (tx.applied store) id other)
    (isThere : store.tasks other ≠ none) :
    WaitsFor store id other ∨
      (own = some id ∧ ¬ Relation.ReflTransGen (WaitsFor store) other id) := by
  have isOld : store.tasks id ≠ none := fun isNew => isThere (lawful.new_waits sound waits isNew).1
  obtain ⟨old, isOld⟩ := Option.ne_none_iff_exists'.mp isOld
  obtain ⟨member, isMember⟩ := Option.ne_none_iff_exists'.mp isThere
  obtain ⟨record, isRecord, isLive, waits⟩ := waits
  have wasLive := lawful.was_live isOld isRecord isLive
  rcases waits with ⟨notMarked, isOn, later, isLater, laterLive⟩ | owned
  · have memberLive := lawful.was_live isMember isLater laterLive
    rcases record_cases lawful.sound isOld isRecord with ⟨_, rfl⟩ |
        ⟨isStaged, _⟩
    · exact .inl ⟨record, isOld, isLive, .inl ⟨notMarked, isOn, member, isMember, memberLive⟩⟩
    · have moves := lawful.moves id old record isOld isStaged
      have wasUnmarked : old.abortRequested = false := by
        by_contra isMarked
        rw [moves.marks (by simpa using isMarked)] at notMarked
        cases notMarked
      have isNamed : record.id = id := lawful.sound.forest.named id record isRecord
      rcases moves.waits other isOn with before | ⟨isOwn, admits⟩
      · exact .inl ⟨old, isOld, wasLive,
          .inl ⟨wasUnmarked, before, member, isMember, memberLive⟩⟩
      · rw [isNamed] at isOwn admits
        obtain ⟨found, isFound, admitted⟩ := admits
        rw [isLater] at isFound
        cases isFound
        rcases admitted with isEnded | isOwner | noWay
        · rw [isEnded] at laterLive
          cases laterLive
        · -- A live child already holds the waiter.
          obtain ⟨next, isNext, sameNode⟩ := lawful.sound.extended.tasks other member isMember
          rw [isLater] at isNext
          cases isNext
          have wasOwner : member.owner = some id := by
            rw [← sameNode]
            exact isOwner
          refine .inl ⟨old, isOld, wasLive, .inr ⟨.first ?_, member, isMember, memberLive, ?_⟩⟩
          · simp [Store.Above, Store.above, isMember, parentNode, wasOwner]
          · exact (sound.owned other member id isMember wasOwner).2.1
        · exact .inr ⟨isOwn, noWay⟩
  · obtain ⟨ordinary, found, isFound, foundLive, foreground⟩ := owned
    obtain ⟨next, isNext, sameNode⟩ := lawful.sound.extended.tasks other member isMember
    rw [isFound] at isNext
    cases isNext
    refine .inl ⟨old, isOld, wasLive, .inr
      ⟨ordinary_of_applied sound lawful.sound ordinary (by simp [isMember]),
        member, isMember, lawful.was_live isMember isFound foundLive, ?_⟩⟩
    rw [← sameNode]
    exact foreground

theorem Lawful.acyclic (sound : store.Sound) (acyclic : Acyclic (WaitsFor store)) :
    Acyclic (WaitsFor (tx.applied store)) := by
  refine @Acyclic.extend ℕ (WaitsFor (tx.applied store))
    (fun id => store.tasks id ≠ none) (fun id => id) ?_ ?_
  · intro start finish waits isNew
    obtain ⟨isNone, less⟩ := lawful.new_waits sound waits (not_not.mp isNew)
    exact ⟨fun isThere => isThere isNone, less⟩
  · refine @Acyclic.grow _ (WaitsFor store) _ (own.getD 0) acyclic ?_
    rintro start finish ⟨waits, isThere⟩
    refine (lawful.old_waits sound waits isThere).imp_right ?_
    rintro ⟨rfl, noWay⟩
    exact ⟨rfl, noWay⟩

end

end Commits

theorem acyclic_initial : Acyclic (WaitsFor (World.initial : World J).store) := by
  intro id cycle
  obtain ⟨_, ⟨_, isStored, _⟩, _⟩ := Relation.TransGen.head'_iff.mp cycle
  cases isStored

theorem World.acyclic_step {world : World J} (good : world.Good)
    (acyclic : Acyclic (WaitsFor world.store)) (event : World.Event J) :
    Acyclic (WaitsFor (world.step event).store) := by
  cases (good.step_settles event).goes with
  | nothing store _ =>
    rw [store]
    exact acyclic
  | commits commit lawful _ store _ =>
    rw [store]
    exact lawful.acyclic good.sound acyclic

/-- In every state of every run no tasks wait for each other in a cycle; every
live task waits, in the end, for a live task that waits for none. -/
theorem waits_acyclic (events : List (World.Event J)) :
    let store := ((World.initial : World J).after events).store
    (∀ id, ¬ Relation.TransGen (WaitsFor store) id id) ∧
      ∀ id record, store.tasks id = some record → record.live = true →
        ∃ last found, Relation.ReflTransGen (WaitsFor store) id last ∧
          store.tasks last = some found ∧ found.live = true ∧
          ∀ other, ¬ WaitsFor store last other := by
  have holds := Runs.after_invariant World.step
    (fun world : World J => world.Good ∧ Acyclic (WaitsFor world.store))
    (fun world event holds => ⟨holds.1.step event, World.acyclic_step holds.1 holds.2 event⟩)
    ⟨World.good_initial, acyclic_initial⟩ events
  obtain ⟨good, acyclic⟩ := holds
  intro store
  refine ⟨acyclic, fun id record isRecord isLive => ?_⟩
  have bounded : ∀ start finish, WaitsFor store start finish →
      finish ∈ Finset.range store.minted := by
    intro start finish waits
    obtain ⟨found, isFound, _⟩ := live_of_waitsFor waits
    exact Finset.mem_range.mpr (good.sound.taskMinted finish found isFound)
  obtain ⟨last, reaches, isLast⟩ := acyclic.exists_sink (Finset.range store.minted) bounded id
  rcases Relation.ReflTransGen.cases_tail reaches with same | ⟨_, _, waits⟩
  · subst same
    exact ⟨last, record, .refl, isRecord, isLive, isLast⟩
  · obtain ⟨found, isFound, foundLive⟩ := live_of_waitsFor waits
    exact ⟨last, found, reaches, isFound, foundLive, isLast⟩

end PiEmbodied.Durable.Scheduler
