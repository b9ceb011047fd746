import PiEmbodied.Durable.Decisions

/-!
# The check of a wait

The search from the members of a wait visits every task they wait for, so that
a wait it lets pass leads back to the waiter on no way.
-/

namespace PiEmbodied.Durable.Scheduler

open Tasks

variable {J : Type}

namespace TaskScheduler

namespace Search

/-! ## What a search reached -/

def Reached (search : Search) (id : ℕ) : Prop :=
  (search.via.lookup id).isSome = true

/-- The tasks reached are distinct, and no more than there are IDs. -/
structure Within (search : Search) (bound : ℕ) : Prop where
  nodup : (search.via.map Prod.fst).Nodup
  small : ∀ entry ∈ search.via, entry.1 < bound

structure Grows (search later : Search) : Prop where
  reached : ∀ id, search.Reached id → later.Reached id
  new : ∀ id, later.Reached id → search.Reached id ∨ id ∈ later.pending
  pending : ∀ id ∈ search.pending, id ∈ later.pending
  room : later.via.length + search.pending.length = search.via.length + later.pending.length

theorem Grows.refl (search : Search) : search.Grows search :=
  ⟨fun _ isReached => isReached, fun _ isReached => .inl isReached, fun _ member => member, rfl⟩

variable {search : Search}

theorem Grows.trans {later last : Search} (first : search.Grows later)
    (second : later.Grows last) : search.Grows last where
  reached := fun id isReached => second.reached id (first.reached id isReached)
  new := by
    intro id isReached
    rcases second.new id isReached with old | isPending
    · exact (first.new id old).imp_right (second.pending id)
    · exact .inr isPending
  pending := fun id member => second.pending id (first.pending id member)
  room := by
    have := first.room
    have := second.room
    omega

variable {id : ℕ}

theorem mem_via_of_reached (isReached : search.Reached id) : id ∈ search.via.map Prod.fst := by
  obtain ⟨before, isFound⟩ := Option.isSome_iff_exists.mp isReached
  obtain ⟨first, last, isSplit, _⟩ := List.lookup_eq_some_iff.mp isFound
  rw [isSplit]
  simp

theorem reached_of_mem_via (member : id ∈ search.via.map Prod.fst) : search.Reached id := by
  unfold Reached
  by_contra notReached
  obtain ⟨entry, isEntry, rfl⟩ := List.mem_map.mp member
  have isNone := Option.not_isSome_iff_eq_none.mp notReached
  rw [List.lookup_eq_none_iff] at isNone
  simpa using isNone entry isEntry

theorem reach_grows (search : Search) (id : ℕ) (before : Option ℕ) :
    search.Grows (search.reach id before) ∧ (search.reach id before).Reached id := by
  unfold reach
  split_ifs with isReached
  · exact ⟨.refl search, isReached⟩
  · refine ⟨⟨?_, ?_, ?_, ?_⟩, ?_⟩
    · intro other isOther
      unfold Reached at isOther ⊢
      rw [List.lookup_append, Option.isSome_or, isOther, Bool.true_or]
    · intro other isOther
      have member := mem_via_of_reached isOther
      simp only [List.map_append, List.map_cons, List.map_nil,
        List.mem_append, List.mem_singleton] at member ⊢
      rcases member with old | rfl
      · exact .inl (reached_of_mem_via old)
      · exact .inr (.inr rfl)
    · exact fun other member => List.mem_append_left _ member
    · simp only [List.length_append, List.length_singleton]
      omega
    · refine reached_of_mem_via ?_
      simp

variable {bound : ℕ}

theorem reach_within (before : Option ℕ) (within : search.Within bound) (small : id < bound) :
    (search.reach id before).Within bound := by
  unfold reach
  split_ifs with isReached
  · exact within
  · refine ⟨?_, ?_⟩
    · simp only [List.map_append, List.map_cons, List.map_nil]
      refine List.nodup_append.mpr ⟨within.nodup, List.nodup_singleton _, ?_⟩
      intro other member last isLast
      rintro rfl
      rw [List.mem_singleton.mp isLast] at member
      exact isReached (reached_of_mem_via member)
    · intro entry member
      rcases List.mem_append.mp member with old | new
      · exact within.small entry old
      · rw [List.mem_singleton.mp new]
        exact small

theorem reachAll_grows (search : Search) (ids : List ℕ) (before : Option ℕ) :
    search.Grows (search.reachAll ids before) ∧
      ∀ id ∈ ids, (search.reachAll ids before).Reached id := by
  induction ids generalizing search with
  | nil => exact ⟨.refl search, by simp⟩
  | cons id rest ih =>
    obtain ⟨grows, isReached⟩ := reach_grows search id before
    obtain ⟨later, areReached⟩ := ih (search.reach id before)
    refine ⟨grows.trans later, fun other member => ?_⟩
    rcases List.mem_cons.mp member with rfl | isRest
    · exact later.reached _ isReached
    · exact areReached other isRest

theorem reachAll_walked (search : Search) (ids : List ℕ) (before : Option ℕ) :
    (search.reachAll ids before).walked = search.walked := by
  induction ids generalizing search with
  | nil => rfl
  | cons id rest ih =>
    refine (ih (search.reach id before)).trans ?_
    unfold reach
    split_ifs <;> rfl

theorem reachAll_within {ids : List ℕ} (before : Option ℕ) (within : search.Within bound)
    (small : ∀ id ∈ ids, id < bound) : (search.reachAll ids before).Within bound := by
  induction ids generalizing search with
  | nil => exact within
  | cons id rest ih =>
    exact ih (reach_within before within (small id List.mem_cons_self))
      (fun other member => small other (List.mem_cons_of_mem _ member))

theorem Within.length_le (within : search.Within bound) : search.via.length ≤ bound := by
  have isSub : search.via.map Prod.fst ⊆ List.range bound := by
    intro id member
    obtain ⟨entry, isEntry, rfl⟩ := List.mem_map.mp member
    exact List.mem_range.mpr (within.small entry isEntry)
  have := (List.subperm_of_subset within.nodup isSub).length_le
  simpa using this

def take (search : Search) : Search :=
  { search with pending := search.pending.dropLast }

end Search

/-! ## The search -/

def NamesStored (store : Store J) : Prop :=
  ∀ id record, store.tasks id = some record →
    ∀ other ∈ record.state.waitsOn, (store.tasks other).isSome = true

/-- A search in a commit that created tasks, and replaced none. -/
structure Searches (scheduler : TaskScheduler J) (store : Store J) (tx : Transaction J) :
    Prop where
  views : scheduler.index.Views store tx
  named : NamesStored store
  creates : ∀ write ∈ tx.tasksById, write.kind = .create

namespace Searches

variable {scheduler : TaskScheduler J} {store : Store J} {tx : Transaction J} {id : ℕ}
  {record : TaskRecord J}

theorem candidate_eq_none (searches : scheduler.Searches store tx)
    (isRecord : store.tasks id = some record) : tx.candidate id = none := by
  cases isStaged : tx.candidate id with
  | none => rfl
  | some staged =>
    obtain ⟨write, isWrite, rfl⟩ := Option.map_eq_some_iff.mp isStaged
    have member := Transaction.write_mem isWrite
    have isNone := (searches.views.staged.created write member (searches.creates write member)).1
    rw [Transaction.write_id isWrite, isRecord] at isNone
    cases isNone

theorem task_of_stored (searches : scheduler.Searches store tx)
    (isRecord : store.tasks id = some record) : (tx.applied store).tasks id = some record := by
  rw [Index.Views.task_of_unstaged (searches.candidate_eq_none isRecord), isRecord]

variable {start : Node}

theorem ownedLive_applied (searches : scheduler.Searches store tx) {start : Node}
    (owned : store.OwnedLive start id) : (tx.applied store).OwnedLive start id := by
  obtain ⟨ordinary, record, isRecord, isLive⟩ := owned
  exact ⟨ordinary_applied searches.views.staged ordinary, record,
    searches.task_of_stored isRecord, isLive⟩

theorem ownedLive_of_applied (searches : scheduler.Searches store tx)
    (owned : (tx.applied store).OwnedLive start id)
    (isStored : (store.tasks id).isSome = true) : store.OwnedLive start id := by
  obtain ⟨ordinary, record, isRecord, isLive⟩ := owned
  obtain ⟨found, isFound⟩ := Option.isSome_iff_exists.mp isStored
  have same : found = record := Option.some.inj
    ((searches.task_of_stored isFound).symm.trans isRecord)
  subst same
  exact ⟨ordinary_of_applied searches.views.sound searches.views.staged
    ordinary isStored, found, isFound, isLive⟩

end Searches

/-- What holds between the visits of a search: what a visited task waits for is
reached, and so is the owned work below every walked task. -/
structure Search.Holds (store : Store J) (search : Search) : Prop where
  visited : ∀ id, search.Reached id → id ∉ search.pending →
    ∀ other, WaitsFor store id other → search.Reached other
  walked : ∀ id ∈ search.walked, ∀ other, store.OwnedLive (.task id) other → search.Reached other

theorem Searches.found_or_walked
    {scheduler : TaskScheduler J} {store : Store J} {tx : Transaction J}
    (searches : scheduler.Searches store tx) {id other : ℕ} {walked : List ℕ}
    (owned : store.OwnedLive (.task id) other) :
    other ∈ scheduler.index.ownedLive
        { overlay := some tx, enter := fun below => below ∉ walked ++ [id] }
        tx.minted (.task id) ∨
      ∃ cut ∈ walked, store.OwnedLive (.task cut) other := by
  have views := searches.views
  have isOwned := owned
  obtain ⟨_, record, isRecord, isLive, _⟩ := isOwned
  have isIndexed := views.live_of_store isRecord isLive
  have isKnown : scheduler.index.knownTask other = true :=
    @Index.Views.knownTask J scheduler.index store tx views other
      record.toTaskNode (by simp [Index.node, isIndexed])
  rcases @Index.Views.ownedLive_or_cut J scheduler.index store tx views
      { overlay := some tx, enter := fun below => below ∉ walked ++ [id] } rfl
      _ (views.known_grips rfl) (.task id) other
      (searches.ownedLive_applied owned)
      ⟨isKnown, Index.needed_of_live isIndexed⟩ with
    isFound | ⟨cut, notEntered, reaches, _, below⟩
  · exact .inl isFound
  · refine .inr ⟨cut, ?_, searches.ownedLive_of_applied below (by simp [isRecord])⟩
    have isWalked : cut ∈ walked ++ [id] := by simpa [-List.mem_append] using notEntered
    rcases List.mem_append.mp isWalked with old | isStart
    · exact old
    · have descends : ∀ up node, (tx.applied store).Above up node →
          Node.number up < Node.number node :=
        fun up node isAbove => views.staged.forest.above_lt isAbove
      have less := Forest.Reached.rank_lt descends reaches
      rw [List.mem_singleton.mp isStart] at less
      exact absurd less (Nat.lt_irrefl _)

namespace Searches

variable {scheduler : TaskScheduler J} {store : Store J} {tx : Transaction J}
  {id : ℕ} {record : TaskRecord J}

theorem waitsOn_lt (searches : scheduler.Searches store tx)
    (isShown : scheduler.index.record (some tx) id = some record) :
    ∀ other ∈ record.state.waitsOn, other < tx.minted := by
  intro other member
  rcases Option.or_eq_some_iff.mp isShown with isStaged | ⟨_, isLive⟩
  · obtain ⟨write, isWrite, rfl⟩ := Option.map_eq_some_iff.mp isStaged
    have isMember := Transaction.write_mem isWrite
    obtain ⟨_, _, checkpoint, isPending⟩ :=
      searches.views.staged.created write isMember (searches.creates write isMember)
    rw [isPending] at member
    cases member
  · obtain ⟨isRecord, _⟩ := searches.views.store_of_live isLive
    obtain ⟨task, isTask⟩ := Option.isSome_iff_exists.mp
      (searches.named id record isRecord other member)
    exact (searches.views.sound.taskMinted other task isTask).trans_le searches.views.staged.minted

theorem shown_of_waitsFor (searches : scheduler.Searches store tx)
    (isRecord : store.tasks id = some record) (isLive : record.live = true) :
    scheduler.index.record (some tx) id = some record := by
  simp [Index.record, searches.candidate_eq_none isRecord,
    searches.views.live_of_store isRecord isLive]

theorem visit_holds (searches : scheduler.Searches store tx) {search : Search} {id : ℕ}
    (visited : ∀ other, search.Reached other → other ∉ search.pending →
      other ≠ id → ∀ next, WaitsFor store other next → search.Reached next)
    (walked : ∀ other ∈ search.walked, ∀ next,
      store.OwnedLive (.task other) next → search.Reached next)
    (within : search.Within tx.minted) :
    (scheduler.visit tx search id).Holds store ∧ (scheduler.visit tx search id).Within tx.minted ∧
      search.Grows (scheduler.visit tx search id) := by
  have unchanged : (∀ next, ¬ WaitsFor store id next) →
      search.Holds store := by
    intro noWait
    refine ⟨fun other isReached notPending next waits => ?_, walked⟩
    by_cases same : other = id
    · subst same
      exact absurd waits (noWait next)
    · exact visited other isReached notPending same next waits
  unfold visit
  split
  case h_1 isUnknown =>
    refine ⟨unchanged fun next waits => ?_, within, .refl search⟩
    obtain ⟨record, isRecord, isLive, _⟩ := waits
    rw [searches.shown_of_waitsFor isRecord isLive] at isUnknown
    cases isUnknown
  case h_2 record isShown =>
    by_cases isTerminal : record.state.isTerminal = true
    · rw [if_pos isTerminal]
      refine ⟨unchanged fun next waits => ?_, within, .refl search⟩
      obtain ⟨found, isFound, isLive, _⟩ := waits
      rw [searches.shown_of_waitsFor isFound isLive] at isShown
      cases isShown
      simp [TaskRecord.live, isTerminal] at isLive
    · rw [if_neg isTerminal]
      obtain ⟨waits, isWaits, grows, waitsWithin, sameWalked, named⟩ :
          ∃ waits : Search, waits = (if record.abortRequested then search
              else search.reachAll record.state.waitsOn (some id)) ∧
            search.Grows waits ∧ waits.Within tx.minted ∧
            waits.walked = search.walked ∧
            (record.abortRequested = false →
              ∀ other ∈ record.state.waitsOn, waits.Reached other) := by
        cases isMarked : record.abortRequested with
        | true => exact ⟨search, rfl, .refl search, within, rfl, by simp⟩
        | false =>
          obtain ⟨grows, areReached⟩ := Search.reachAll_grows search record.state.waitsOn (some id)
          exact ⟨_, rfl, grows, Search.reachAll_within _ within (searches.waitsOn_lt isShown),
            Search.reachAll_walked _ _ _, fun _ => areReached⟩
      have edges : ∀ next, WaitsFor store id next →
          waits.Reached next ∨ store.OwnedLive (.task id) next := by
        rintro next ⟨found, isFound, isLive, ⟨notMarked, member, _⟩ | owned⟩
        · rw [searches.shown_of_waitsFor isFound isLive] at isShown
          cases isShown
          exact .inl (named notMarked next member)
        · exact .inr owned
      have others : ∀ {later : Search}, waits.Grows later →
          (∀ next, store.OwnedLive (.task id) next → later.Reached next) →
          ∀ other, later.Reached other → other ∉ later.pending →
            ∀ next, WaitsFor store other next → later.Reached next := by
        intro later grown ownedReached other isReached notPending next waits
        have both := grows.trans grown
        by_cases same : other = id
        · subst same
          rcases edges next waits with isNamed | owned
          · exact grown.reached next isNamed
          · exact ownedReached next owned
        · have wasReached := (both.new other isReached).resolve_right notPending
          have wasNotPending : other ∉ search.pending :=
            fun member => notPending (both.pending other member)
          exact both.reached next (visited other wasReached wasNotPending same next waits)
      dsimp only
      rw [← isWaits]
      by_cases isWalked : id ∈ waits.walked
      · rw [if_pos isWalked]
        have ownedReached : ∀ next, store.OwnedLive (.task id) next →
            waits.Reached next := by
          intro next owned
          rw [sameWalked] at isWalked
          exact grows.reached next (walked id isWalked next owned)
        refine ⟨⟨others (.refl waits) ownedReached, ?_⟩, waitsWithin, grows⟩
        intro other member next owned
        rw [sameWalked] at member
        exact grows.reached next (walked other member next owned)
      · rw [if_neg isWalked]
        set found := scheduler.index.ownedLive
          { overlay := some tx
            enter := fun below => below ∉ waits.walked ++ [id] }
          tx.minted (.task id) with isFound
        have areOwned : ∀ other ∈ found, (tx.applied store).OwnedLive (.task id) other :=
          fun other member => searches.views.ownedLive_sound rfl rfl member
        obtain ⟨grown, areReached⟩ := Search.reachAll_grows waits found (some id)
        have later : waits.Grows
            { waits.reachAll found (some id) with
              walked := waits.walked ++ [id] ++ found } :=
          ⟨grown.reached, grown.new, grown.pending, grown.room⟩
        have ownedReached : ∀ next, store.OwnedLive (.task id) next →
            (waits.reachAll found (some id)).Reached next := by
          intro next owned
          rcases @found_or_walked J scheduler store tx searches id next
              waits.walked owned with isFound | ⟨cut, isCut, below⟩
          · exact areReached next isFound
          · rw [sameWalked] at isCut
            exact grown.reached next (grows.reached next (walked cut isCut next below))
        refine ⟨⟨others later ownedReached, ?_⟩, ?_, grows.trans later⟩
        · intro other member next owned
          rcases List.mem_append.mp member with old | isNew
          · rcases List.mem_append.mp old with wasWalked | isStart
            · rw [sameWalked] at wasWalked
              exact later.reached next (grows.reached next (walked other wasWalked next owned))
            · rw [List.mem_singleton.mp isStart] at owned
              exact ownedReached next owned
          · -- What lies below a found task lies below the visited one.
            obtain ⟨reaches, record, isRecord, _, foreground⟩ := areOwned other isNew
            obtain ⟨below, isLive⟩ := searches.ownedLive_applied owned
            have isStored : (store.tasks next).isSome = true := by
              obtain ⟨_, task, isTask, _⟩ := owned
              simp [isTask]
            exact ownedReached next (searches.ownedLive_of_applied
              ⟨reaches.trans ⟨record, isRecord, foreground⟩ below, isLive⟩
              isStored)
        · have isWithin := Search.reachAll_within (some id) waitsWithin
            (fun other member => by
              obtain ⟨_, record, isRecord, _⟩ := areOwned other member
              exact searches.views.staged.forest.taskMinted other record isRecord)
          exact ⟨isWithin.nodup, isWithin.small⟩

variable {task : ℕ}

/-- A search that ends without the waiter has visited everything the members
of the wait wait for. -/
theorem searchFrom_none (searches : scheduler.Searches store tx) {steps : ℕ} {search : Search}
    (holds : search.Holds store) (within : search.Within tx.minted)
    (isPending : search.Reached task → task ∈ search.pending)
    (deep : tx.minted + search.pending.length < steps + search.via.length)
    (isNone : searchFrom scheduler tx task steps search = none) :
    ∃ final : ℕ → Prop, (∀ id, search.Reached id → final id) ∧
      (∀ id other, final id → WaitsFor store id other → final other) ∧ ¬ final task := by
  induction steps generalizing search with
  | zero =>
    have := within.length_le
    omega
  | succ steps ih =>
    unfold searchFrom at isNone
    split at isNone
    case h_1 isEmpty =>
      have noPending := List.getLast?_eq_none_iff.mp isEmpty
      refine ⟨search.Reached, fun _ isReached => isReached, ?_, ?_⟩
      · intro id other isReached waits
        exact holds.visited id isReached (by simp [noPending]) other waits
      · intro isReached
        have member := isPending isReached
        simp [noPending] at member
    case h_2 id isLast =>
      obtain ⟨rest, isSplit⟩ := List.getLast?_eq_some_iff.mp isLast
      have isRest : search.pending.dropLast = rest := by rw [isSplit, List.dropLast_concat]
      dsimp only at isNone
      split_ifs at isNone with isTask
      rw [isRest] at isNone
      obtain ⟨laterHolds, laterWithin, grows⟩ :=
        @visit_holds J scheduler store tx searches { search with pending := rest } id
          (by
            intro other isReached notPending different next waits
            refine holds.visited other isReached ?_ next waits
            rw [isSplit]
            simpa [different] using notPending)
          holds.walked ⟨within.nodup, within.small⟩
      obtain ⟨final, isFinal, closed, notFinal⟩ := ih laterHolds laterWithin
        (by
          intro isReached
          rcases grows.new task isReached with wasReached | isNew
          · have member := isPending wasReached
            rw [isSplit] at member
            rcases List.mem_append.mp member with old | isHere
            · exact grows.pending task old
            · exact absurd (List.mem_singleton.mp isHere).symm isTask
          · exact isNew)
        (by
          have isRoom := grows.room
          dsimp only at isRoom
          rw [isSplit, List.length_append, List.length_singleton] at deep
          omega)
        isNone
      exact ⟨final, fun other isReached =>
        isFinal other (grows.reached other isReached), closed, notFinal⟩

theorem waitCycle_none (searches : scheduler.Searches store tx) {on : List ℕ}
    (small : ∀ id ∈ on, id < tx.minted) (isNone : scheduler.waitCycle tx task on = none) :
    ∀ id ∈ on, ¬ Relation.ReflTransGen (WaitsFor store) id task := by
  have isEmpty : ∀ id, ¬ ({ via := [], walked := [], pending := [] } : Search).Reached id := by
    intro id
    simp [Search.Reached]
  obtain ⟨grows, areReached⟩ := Search.reachAll_grows
    { via := [], walked := [], pending := [] } on none
  have isPending : ∀ id, (Search.reachAll
      { via := [], walked := [], pending := [] } on none).Reached id →
        id ∈ (Search.reachAll { via := [], walked := [], pending := [] } on none).pending :=
    fun id isReached => (grows.new id isReached).resolve_left (isEmpty id)
  obtain ⟨final, isFinal, closed, notFinal⟩ := searches.searchFrom_none
    ⟨fun id isReached notPending => absurd (isPending id isReached) notPending,
      by
        rw [Search.reachAll_walked]
        simp⟩
    (Search.reachAll_within none ⟨by simp, by simp⟩ small)
    (isPending task)
    (by
      have := grows.room
      simp only [List.length_nil] at this
      omega)
    isNone
  intro id member waits
  have reaches : ∀ last, Relation.ReflTransGen (WaitsFor store) id last →
      final last := by
    intro last isWay
    induction isWay with
    | refl => exact isFinal id (areReached id member)
    | tail _ isEdge ih => exact closed _ _ ih isEdge
  exact notFinal (reaches task waits)

end Searches

/-! ## Validated waits -/

section ValidateWait

variable {scheduler : TaskScheduler J} {store : Store J} {commit : Commit J}
  {mode : Mode} {current : ℕ} {on : List ℕ} {policy : JoinPolicy}
  {tx : Transaction J} {found targets : List ℕ}

theorem waitTarget_eq_ok {id : ℕ}
    (isTarget : waitTarget store tx current policy found id = .ok targets) :
    ∃ member, tx.currentTask store id = some member ∧
      (targets = found ++ [id] ∨ (targets = found ∧
        (member.live = false ∨ member.owner = some current))) := by
  unfold waitTarget at isTarget
  split at isTarget
  case h_1 => cases isTarget
  case h_2 member isMember =>
    refine ⟨member, isMember, ?_⟩
    split_ifs at isTarget with _ isEdge
    · cases isTarget
      exact .inl rfl
    · cases isTarget
      refine .inr ⟨rfl, ?_⟩
      simp only [Bool.and_eq_true, decide_eq_true_eq, not_and, not_not] at isEdge
      cases isLive : member.live with
      | false => exact .inl rfl
      | true => exact .inr (isEdge isLive)

/-- The members of a wait are stored, and those that add an edge are its
targets. -/
theorem waitTargets_eq_ok {tx : Transaction J} {found targets : List ℕ}
    (isTargets : on.foldlM (waitTarget store tx current policy) found = .ok targets) :
    (∀ id ∈ found, id ∈ targets) ∧ (∀ id ∈ targets, id ∈ found ∨ id ∈ on) ∧
      ∀ id ∈ on, ∃ member, tx.currentTask store id = some member ∧
        (id ∈ targets ∨ member.live = false ∨ member.owner = some current) := by
  induction on generalizing found with
  | nil =>
    cases isTargets
    exact ⟨fun _ member => member, fun _ member => .inl member, by simp⟩
  | cons id rest ih =>
    rw [List.foldlM_cons] at isTargets
    obtain ⟨middle, isMiddle, isTargets⟩ := Coding.bind_eq_ok.mp isTargets
    obtain ⟨kept, sources, named⟩ := ih isTargets
    obtain ⟨member, isMember, outcome⟩ := waitTarget_eq_ok isMiddle
    refine ⟨fun other isFound => ?_, fun other isTarget => ?_, ?_⟩
    · rcases outcome with rfl | ⟨rfl, _⟩
      · exact kept other (List.mem_append_left _ isFound)
      · exact kept other isFound
    · rcases sources other isTarget with isFound | isRest
      · rcases outcome with rfl | ⟨rfl, _⟩
        · rcases List.mem_append.mp isFound with old | new
          · exact .inl old
          · exact .inr (by simp [List.mem_singleton.mp new])
        · exact .inl isFound
      · exact .inr (List.mem_cons_of_mem _ isRest)
    · intro other isOther
      rcases List.mem_cons.mp isOther with rfl | isRest
      · refine ⟨member, isMember, ?_⟩
        rcases outcome with rfl | ⟨_, noEdge⟩
        · exact .inl (kept _ (by simp))
        · exact .inr noEdge
      · exact named other isRest

theorem validateWait_loaded (serves : scheduler.index.Serves store) (sound : store.Sound) :
    scheduler.Loaded
        (validateWait store mode current on policy scheduler commit).scheduler ∧
      (validateWait store mode current on policy scheduler
        commit).scheduler.index.Serves store := by
  obtain ⟨loaded, isServing, _⟩ := @loadScopes_loaded J scheduler store [] serves sound (by simp)
  unfold validateWait
  split
  · exact ⟨.refl _, serves⟩
  · split
    · exact ⟨.refl _, serves⟩
    · exact ⟨.refl _, serves⟩
    · dsimp only
      split
      · exact ⟨loaded, isServing⟩
      · exact ⟨loaded, isServing⟩

theorem validateWait_admits (serves : scheduler.index.Serves store) (sound : store.Sound)
    (named : NamesStored store) (staged : commit.tx.Sound store)
    (creates : ∀ write ∈ commit.tx.tasksById, write.kind = .create) {later : Commit J}
    (isValid : (validateWait store mode current on policy scheduler commit).staged = .ok later) :
    later = commit ∧ ∀ id ∈ on, Admits store (commit.tx.applied store) current id := by
  obtain ⟨_, isServing, isLoaded⟩ := @loadScopes_loaded J scheduler store [] serves sound (by simp)
  unfold validateWait at isValid
  split at isValid
  · cases isValid
  · split at isValid
    case h_1 => cases isValid
    case h_2 isTargets =>
      cases isValid
      obtain ⟨_, _, members⟩ := waitTargets_eq_ok isTargets
      refine ⟨rfl, fun id member => ?_⟩
      obtain ⟨task, isTask, noEdge⟩ := members id member
      refine ⟨task, isTask, ?_⟩
      rcases noEdge with isTarget | isEnded | isOwned
      · simp at isTarget
      · exact .inl isEnded
      · exact .inr (.inl isOwned)
    case h_3 targets _ isTargets =>
      dsimp only at isValid
      split at isValid
      case h_2 => cases isValid
      case h_1 isNone =>
        cases isValid
        obtain ⟨_, sources, members⟩ := waitTargets_eq_ok isTargets
        have searches : (scheduler.loadScopes store []).Searches store
            commit.tx :=
          ⟨⟨isServing, sound, staged, isLoaded⟩, named, creates⟩
        have noWay := searches.waitCycle_none
          (fun id isTarget => by
            obtain isOn := (sources id isTarget).resolve_left (by simp)
            obtain ⟨task, isTask, _⟩ := members id isOn
            exact staged.forest.taskMinted id task isTask) isNone
        refine ⟨rfl, fun id member => ?_⟩
        obtain ⟨task, isTask, outcome⟩ := members id member
        refine ⟨task, isTask, ?_⟩
        rcases outcome with isTarget | isEnded | isOwned
        · exact .inr (.inr (noWay id isTarget))
        · exact .inl isEnded
        · exact .inr (.inl isOwned)

end ValidateWait

end TaskScheduler

end PiEmbodied.Durable.Scheduler
