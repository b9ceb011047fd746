import PiEmbodied.Durable.Submissions

/-!
# Submission bookkeeping

What every commit keeps of a conversation's submissions, its inbox and its run,
and what a record can become.
-/

namespace PiEmbodied.Durable.Submissions

variable {J : Type}

/-! ## What a record becomes -/

/-- A record after a commit: a queued one may have left the queue, at an entry
of the commit or at none; a placed one may have been settled. -/
def Later (next : ℕ) (record after : SubmissionRecord J) : Prop :=
  after.id = record.id ∧ after.type = record.type ∧
    (after = record ∨
      (record.status = .queued ∧ after.status ≠ .queued ∧
        ∀ entry, after.entry = some entry → next ≤ entry) ∨
      (record.status = .placed ∧ after.status.settled = true ∧ after.entry = record.entry))

theorem Later.refl (next : ℕ) (record : SubmissionRecord J) : Later next record record :=
  ⟨rfl, rfl, .inl rfl⟩

variable {status : Status}

theorem not_queued_of_settled (settled : status.settled = true) : status ≠ .queued := by
  rintro rfl
  cases settled

theorem not_placed_of_settled (settled : status.settled = true) : status ≠ .placed := by
  rintro rfl
  cases settled

variable {next : ℕ} {record : SubmissionRecord J} {after : SubmissionRecord J}

theorem Later.not_queued (later : Later next record after) (left : record.status ≠ .queued) :
    after.status ≠ .queued ∧ after.entry = record.entry := by
  rcases later.2.2 with rfl | ⟨queued, _⟩ | ⟨_, settled, same⟩
  · exact ⟨left, rfl⟩
  · exact absurd queued left
  · exact ⟨not_queued_of_settled settled, same⟩

theorem Later.settled (later : Later next record after) (settled : record.status.settled = true) :
    after = record := by
  rcases later.2.2 with rfl | ⟨queued, _⟩ | ⟨placed, _⟩
  · rfl
  · exact absurd queued (not_queued_of_settled settled)
  · exact absurd placed (not_placed_of_settled settled)

theorem Later.trans {between : ℕ} {first second third : SubmissionRecord J}
    (le : next ≤ between) (one : Later next first second)
    (two : Later between second third) : Later next first third := by
  refine ⟨two.1.trans one.1, two.2.1.trans one.2.1, ?_⟩
  rcases one.2.2 with rfl | ⟨queued, left, entered⟩ | ⟨placed, settled, same⟩
  · rcases two.2.2 with rfl | ⟨queued, left, entered⟩ | settles
    · exact .inl rfl
    · exact .inr (.inl ⟨queued, left, fun entry isEntry =>
        Nat.le_trans le (entered entry isEntry)⟩)
    · exact .inr (.inr settles)
  · obtain ⟨stays, sameEntry⟩ := two.not_queued left
    exact .inr (.inl ⟨queued, stays, fun entry isEntry => entered entry (sameEntry ▸ isEntry)⟩)
  · have isSame := two.settled settled
    subst isSame
    exact .inr (.inr ⟨placed, settled, same⟩)

/-- The tables of a conversation agree: the inbox lists the queued submissions
in ascending ID order, and a placed submission's entry exists. -/
structure Base (tx : Tx J) : Prop where
  records : ∀ id record, tx.submission id = some record → record.id = id ∧ id < tx.next
  entries : ∀ entry ∈ tx.conversation.entries, entry.id < tx.next
  placedAt :
    ∀ id record entryId, tx.submission id = some record → record.entry = some entryId →
      ∃ entry ∈ tx.conversation.entries, entry.id = entryId
  bare : ∀ id record, tx.submission id = some record → record.status = .queued → record.entry = none
  ordered : (tx.conversation.inbox.map InboxItem.id).Pairwise (· < ·)
  queued :
    ∀ id, id ∈ tx.conversation.inbox.map InboxItem.id ↔
      ∃ record, tx.submission id = some record ∧ record.status = .queued
  typed :
    ∀ item ∈ tx.conversation.inbox, ∀ record,
      tx.submission item.id = some record → record.type = item.type

structure RunOk (tx : Tx J) : Prop where
  placed :
    ∀ id record, tx.submission id = some record → record.status = .placed →
      ∃ run, tx.conversation.run = some run ∧ id ∈ run.inputs
  nodup : ∀ run, tx.conversation.run = some run → run.inputs.Nodup
  inputs :
    ∀ run, tx.conversation.run = some run → ∀ id ∈ run.inputs,
      ∃ record, tx.submission id = some record ∧ record.status = .placed
  generations : tx.conversation.generations = tx.conversation.run.toList.map Run.taskId

structure Ok (tx : Tx J) : Prop where
  base : Base tx
  run : RunOk tx

variable {tx : Tx J}

theorem entry_lt (base : Base tx) {id entryId : ℕ} (found : tx.submission id = some record)
    (isEntry : record.entry = some entryId) : entryId < tx.next := by
  obtain ⟨entry, member, rfl⟩ := base.placedAt id record entryId found isEntry
  exact base.entries entry member

theorem submission_next (base : Base tx) : tx.submission tx.next = none := by
  cases found : tx.submission tx.next with
  | none => rfl
  | some record => exact absurd (base.records _ record found).2 (Nat.lt_irrefl _)

/-! ## What every commit does -/

/-- What a commit does to the submissions of a conversation: of two queued
inputs of one mode, the newer is placed only once the older has left the queue,
and after it. -/
structure Advances (tx after : Tx J) : Prop where
  next : tx.next ≤ after.next
  later :
    ∀ id record, tx.submission id = some record →
      ∃ changed, after.submission id = some changed ∧ Later tx.next record changed
  items :
    ∀ item ∈ tx.conversation.inbox,
      (∃ record, after.submission item.id = some record ∧ record.status = .queued) →
      item ∈ after.conversation.inbox
  order :
    ∀ older ∈ tx.conversation.inbox, ∀ newer ∈ tx.conversation.inbox,
      older.mode = newer.mode → newer.mode ≠ none → older.id < newer.id →
      ∀ record entry, after.submission newer.id = some record → record.entry = some entry →
        ∃ other, after.submission older.id = some other ∧ other.status ≠ .queued ∧
          ∀ before, other.entry = some before → before < entry

theorem Later.placed_after {entry : ℕ} (later : Later next record after)
    (queued : record.status = .queued) (bare : record.entry = none)
    (isEntry : after.entry = some entry) : next ≤ entry := by
  rcases later.2.2 with rfl | ⟨_, _, entered⟩ | ⟨placed, _⟩
  · rw [bare] at isEntry
    cases isEntry
  · exact entered entry isEntry
  · rw [queued] at placed
    cases placed

variable {after : Tx J} {between : Tx J}

theorem Advances.trans (base : Base tx) (baseBetween : Base between) (one : Advances tx between)
    (two : Advances between after) :
    Advances tx after where
  next := Nat.le_trans one.next two.next
  later := by
    intro id record found
    obtain ⟨changed, isChanged, laterOne⟩ := one.later id record found
    obtain ⟨last, isLast, laterTwo⟩ := two.later id changed isChanged
    exact ⟨last, isLast, laterOne.trans one.next laterTwo⟩
  items := by
    rintro item member ⟨record, isRecord, queued⟩
    refine two.items item (one.items item member ?_) ⟨record, isRecord, queued⟩
    obtain ⟨first, isFirst, _⟩ := (base.queued item.id).mp (List.mem_map_of_mem member)
    obtain ⟨changed, isChanged, _⟩ := one.later item.id first isFirst
    obtain ⟨last, isLast, laterTwo⟩ := two.later item.id changed isChanged
    refine ⟨changed, isChanged, ?_⟩
    by_contra left
    rw [isRecord, Option.some.injEq] at isLast
    exact (laterTwo.not_queued left).1 (isLast ▸ queued)
  order := by
    intro older memberOlder newer memberNewer sameMode isInput less record entry isRecord isEntry
    obtain ⟨olderFirst, isOlderFirst, _⟩ :=
      (base.queued older.id).mp (List.mem_map_of_mem memberOlder)
    obtain ⟨newerFirst, isNewerFirst, _⟩ :=
      (base.queued newer.id).mp (List.mem_map_of_mem memberNewer)
    obtain ⟨olderBetween, isOlderBetween, _⟩ := one.later older.id olderFirst isOlderFirst
    obtain ⟨newerBetween, isNewerBetween, _⟩ := one.later newer.id newerFirst isNewerFirst
    obtain ⟨olderAfter, isOlderAfter, olderLater⟩ := two.later older.id olderBetween isOlderBetween
    obtain ⟨newerAfter, isNewerAfter, newerLater⟩ := two.later newer.id newerBetween isNewerBetween
    have isSame : newerAfter = record := Option.some.inj (isNewerAfter.symm.trans isRecord)
    subst isSame
    by_cases newerQueued : newerBetween.status = .queued
    · have newerBare := baseBetween.bare _ _ isNewerBetween newerQueued
      have fresh := newerLater.placed_after newerQueued newerBare isEntry
      by_cases olderQueued : olderBetween.status = .queued
      · exact two.order older (one.items older memberOlder ⟨_, isOlderBetween, olderQueued⟩) newer
          (one.items newer memberNewer ⟨_, isNewerBetween, newerQueued⟩)
          sameMode isInput less newerAfter entry isNewerAfter isEntry
      · obtain ⟨left, sameEntry⟩ := olderLater.not_queued olderQueued
        refine ⟨olderAfter, isOlderAfter, left, ?_⟩
        intro before isBefore
        rw [sameEntry] at isBefore
        exact Nat.lt_of_lt_of_le (entry_lt baseBetween isOlderBetween isBefore) fresh
    · obtain ⟨_, sameEntry⟩ := newerLater.not_queued newerQueued
      rw [sameEntry] at isEntry
      obtain ⟨other, isOther, left, ahead⟩ :=
        one.order older memberOlder newer memberNewer sameMode isInput less
          newerBetween entry isNewerBetween isEntry
      have isOlder : olderBetween = other := Option.some.inj (isOlderBetween.symm.trans isOther)
      subst isOlder
      obtain ⟨stays, sameOlder⟩ := olderLater.not_queued left
      refine ⟨olderAfter, isOlderAfter, stays, ?_⟩
      intro before isBefore
      exact ahead before (sameOlder ▸ isBefore)

/-! ## Commits that leave the submissions alone -/

theorem advances_of_kept (base : Base tx) (next : tx.next ≤ after.next)
    (records : ∀ id record, tx.submission id = some record → after.submission id = some record)
    (inbox : ∀ item ∈ tx.conversation.inbox, item ∈ after.conversation.inbox) :
    Advances tx after where
  next := next
  later := fun id record found => ⟨record, records id record found, Later.refl _ record⟩
  items := fun item member _ => inbox item member
  order := by
    intro older _ newer memberNewer _ _ _ record entry isRecord isEntry
    obtain ⟨other, isOther, queued⟩ := (base.queued newer.id).mp (List.mem_map_of_mem memberNewer)
    rw [records newer.id other isOther, Option.some.injEq] at isRecord
    subst isRecord
    rw [base.bare newer.id other isOther queued] at isEntry
    cases isEntry

theorem advances_of_same (base : Base tx) (next : tx.next ≤ after.next)
    (records : after.submission = tx.submission)
    (inbox : after.conversation.inbox = tx.conversation.inbox) : Advances tx after :=
  advances_of_kept base next (fun id record found => by rw [records, found])
    (fun item member => by rw [inbox]; exact member)

theorem base_of_same (base : Base tx) (next : tx.next ≤ after.next)
    (records : after.submission = tx.submission)
    (inbox : after.conversation.inbox = tx.conversation.inbox)
    (entries : ∀ entry ∈ tx.conversation.entries, entry ∈ after.conversation.entries)
    (fresh : ∀ entry ∈ after.conversation.entries, entry.id < after.next) :
    Base after where
  records := by
    intro id record found
    rw [records] at found
    obtain ⟨isId, below⟩ := base.records id record found
    exact ⟨isId, Nat.lt_of_lt_of_le below next⟩
  entries := fresh
  placedAt := by
    intro id record entryId found isEntry
    rw [records] at found
    obtain ⟨entry, member, isId⟩ := base.placedAt id record entryId found isEntry
    exact ⟨entry, entries entry member, isId⟩
  bare := by
    intro id record found
    rw [records] at found
    exact base.bare id record found
  ordered := by
    rw [inbox]
    exact base.ordered
  queued := by
    intro id
    rw [inbox, records]
    exact base.queued id
  typed := by
    rw [inbox, records]
    exact base.typed

theorem fresh_append (draft : EntryDraft J)
    (fresh : ∀ entry ∈ tx.conversation.entries, entry.id < tx.next) :
    ∀ entry ∈ (tx.appendEntry draft).conversation.entries,
      entry.id < (tx.appendEntry draft).next := by
  intro entry member
  rcases List.mem_append.mp member with old | new
  · exact Nat.lt_succ_of_lt (fresh entry old)
  · rw [List.mem_singleton.mp new]
    exact Nat.lt_succ_self _

theorem base_append (base : Base tx) (draft : EntryDraft J) : Base (tx.appendEntry draft) :=
  base_of_same base (Nat.le_succ _) rfl rfl (fun _ member => List.mem_append_left _ member)
    (fresh_append draft base.entries)

theorem advances_append (base : Base tx) (draft : EntryDraft J) :
    Advances tx (tx.appendEntry draft) :=
  advances_of_same base (Nat.le_succ _) rfl rfl

/-! ## The loops of a boundary -/

def Served (how : SubmissionRecord J → SubmissionRecord J → Prop) (next : ℕ)
    (after : Tx J) (record changed : SubmissionRecord J) : Prop :=
  changed.id = record.id ∧ changed.type = record.type ∧
    changed.status ≠ .queued ∧ how record changed ∧
    ∀ entryId, changed.entry = some entryId →
      next ≤ entryId ∧ ∃ entry ∈ after.conversation.entries, entry.id = entryId

def Placing (record changed : SubmissionRecord J) : Prop :=
  changed.status = .placed ↔ record.type = .input

/-- Some queued submissions are served in their order, and nothing else. -/
structure Serves (how : SubmissionRecord J → SubmissionRecord J → Prop)
    (tx after : Tx J) (ids : List ℕ) : Prop where
  next : tx.next ≤ after.next
  inbox : after.conversation.inbox = tx.conversation.inbox
  run : after.conversation.run = tx.conversation.run
  generations : after.conversation.generations = tx.conversation.generations
  entries : ∀ entry ∈ tx.conversation.entries, entry ∈ after.conversation.entries
  fresh :
    (∀ entry ∈ tx.conversation.entries, entry.id < tx.next) →
      ∀ entry ∈ after.conversation.entries, entry.id < after.next
  others : ∀ id, id ∉ ids → after.submission id = tx.submission id
  served :
    ∀ id ∈ ids, ∃ record changed, tx.submission id = some record ∧
      record.status = .queued ∧ after.submission id = some changed ∧
      Served how tx.next after record changed
  ascending :
    ids.Pairwise fun older newer =>
      ∀ one two first second, after.submission older = some one →
        after.submission newer = some two → one.entry = some first →
        two.entry = some second → first < second

variable {how : SubmissionRecord J → SubmissionRecord J → Prop}

theorem Serves.nil (tx : Tx J) : Serves how tx tx [] where
  next := Nat.le_refl _
  inbox := rfl
  run := rfl
  generations := rfl
  entries := fun _ member => member
  fresh := fun fresh => fresh
  others := fun _ _ => rfl
  served := fun _ member => absurd member List.not_mem_nil
  ascending := List.Pairwise.nil

variable {ids : List ℕ}

theorem Serves.trans {more : List ℕ} (fresh : ∀ entry ∈ tx.conversation.entries, entry.id < tx.next)
    (disjoint : ∀ id ∈ more, id ∉ ids) (one : Serves how tx between ids)
    (two : Serves how between after more) :
    Serves how tx after (ids ++ more) where
  next := Nat.le_trans one.next two.next
  inbox := two.inbox.trans one.inbox
  run := two.run.trans one.run
  generations := two.generations.trans one.generations
  entries := fun entry member => two.entries entry (one.entries entry member)
  fresh := fun fresh => two.fresh (one.fresh fresh)
  others := by
    intro id absent
    rw [List.mem_append, not_or] at absent
    rw [two.others id absent.2, one.others id absent.1]
  served := by
    intro id member
    by_cases inMore : id ∈ more
    · obtain ⟨record, changed, found, queued, isChanged, isId, type, left, placed,
        entered⟩ := two.served id inMore
      rw [one.others id (disjoint id inMore)] at found
      refine ⟨record, changed, found, queued, isChanged, isId, type, left, placed, ?_⟩
      intro entryId isEntry
      obtain ⟨le, exists_⟩ := entered entryId isEntry
      exact ⟨Nat.le_trans one.next le, exists_⟩
    · have inIds := (List.mem_append.mp member).resolve_right inMore
      obtain ⟨record, changed, found, queued, isChanged, isId, type, left, placed,
        entered⟩ := one.served id inIds
      rw [← two.others id inMore] at isChanged
      refine ⟨record, changed, found, queued, isChanged, isId, type, left, placed, ?_⟩
      intro entryId isEntry
      obtain ⟨le, entry, isMember, isEntryId⟩ := entered entryId isEntry
      exact ⟨le, entry, two.entries entry isMember, isEntryId⟩
  ascending := by
    refine List.pairwise_append.mpr ⟨?_, two.ascending, ?_⟩
    · refine List.Pairwise.imp_of_mem ?_ one.ascending
      intro older newer memberOlder memberNewer ascending first second
        firstEntry secondEntry isFirst isSecond
      rw [two.others older fun inMore => disjoint older inMore memberOlder] at isFirst
      rw [two.others newer fun inMore => disjoint newer inMore memberNewer] at isSecond
      exact ascending first second firstEntry secondEntry isFirst isSecond
    · intro older memberOlder newer memberNewer first second firstEntry
        secondEntry isFirst isSecond firstAt secondAt
      rw [two.others older fun inMore => disjoint older inMore memberOlder] at isFirst
      obtain ⟨_, changed, _, _, isChanged, _, _, _, _, entered⟩ := one.served older memberOlder
      rw [isFirst, Option.some.injEq] at isChanged
      subst isChanged
      obtain ⟨_, entry, member, isId⟩ := entered firstEntry firstAt
      have before : firstEntry < between.next := isId ▸ one.fresh fresh entry member
      obtain ⟨_, other, _, _, isOther, _, _, _, _, enteredLater⟩ := two.served newer memberNewer
      rw [isSecond, Option.some.injEq] at isOther
      subst isOther
      exact Nat.lt_of_lt_of_le before (enteredLater secondEntry secondAt).1

def Waiting (tx : Tx J) (item : InboxItem J) : Prop :=
  ∃ record, tx.submission item.id = some record ∧ record.status = .queued ∧
    record.entry = none ∧ record.type = item.type

variable {item : InboxItem J}

theorem Serves.waiting (serves : Serves how tx after ids) (absent : item.id ∉ ids)
    (waiting : Waiting tx item) : Waiting after item := by
  obtain ⟨record, found, rest⟩ := waiting
  exact ⟨record, (serves.others item.id absent).trans found, rest⟩

theorem serves_fold {σ : Type} (txOf : σ → Tx J) (body : σ → InboxItem J → Except Failure σ)
    (good : InboxItem J → Prop)
    (one :
      ∀ state item, good item → Waiting (txOf state) item →
        ∃ next, body state item = .ok next ∧ Serves how (txOf state) (txOf next) [item.id])
    {items : List (InboxItem J)} :
    ∀ {state : σ}, (∀ item ∈ items, good item ∧ Waiting (txOf state) item) →
      (items.map InboxItem.id).Nodup →
      (∀ entry ∈ (txOf state).conversation.entries, entry.id < (txOf state).next) →
      ∃ after, items.foldlM body state = .ok after ∧
        Serves how (txOf state) (txOf after) (items.map InboxItem.id) := by
  induction items with
  | nil =>
    intro state _ _ _
    exact ⟨state, rfl, Serves.nil _⟩
  | cons item rest ih =>
    intro state all distinct fresh
    rw [List.map_cons, List.nodup_cons] at distinct
    obtain ⟨isGood, waiting⟩ := all item List.mem_cons_self
    obtain ⟨next, isNext, serves⟩ := one state item isGood waiting
    have restWaits : ∀ other ∈ rest, good other ∧ Waiting (txOf next) other := by
      intro other member
      obtain ⟨otherGood, otherWaits⟩ := all other (List.mem_cons_of_mem item member)
      refine ⟨otherGood, serves.waiting ?_ otherWaits⟩
      rw [List.mem_singleton]
      intro same
      exact distinct.1 (same ▸ List.mem_map_of_mem member)
    obtain ⟨after, isAfter, servesRest⟩ := ih restWaits distinct.2 (serves.fresh fresh)
    refine ⟨after, ?_, serves.trans fresh ?_ servesRest⟩
    · rw [List.foldlM_cons, isNext]
      exact isAfter
    · intro id member
      rw [List.mem_singleton]
      rintro rfl
      exact distinct.1 member

/-! ### One item -/

theorem change_eq {tx : Tx J} {id : ℕ} {change : SubmissionChange J}
    {record changed : SubmissionRecord J} (found : tx.submission id = some record)
    (applied : applySubmissionChange record change = .ok changed) :
    tx.change id change = .ok (tx.put id changed) := by
  rw [Tx.change, found]
  show (applySubmissionChange record change).map _ = _
  rw [applied]
  rfl

theorem submission_put (tx : Tx J) (id other : ℕ) (record : SubmissionRecord J) :
    (tx.put id record).submission other =
      if other = id then some record else tx.submission other :=
  Function.update_apply _ _ _ _

/-- A queued submission is placed at an entry of the commit, or settled at
none. -/
theorem serves_put {tx between : Tx J} {item : InboxItem J} {record changed : SubmissionRecord J}
    (next : tx.next ≤ between.next) (inbox : between.conversation.inbox = tx.conversation.inbox)
    (run : between.conversation.run = tx.conversation.run)
    (generations : between.conversation.generations = tx.conversation.generations)
    (entries : ∀ entry ∈ tx.conversation.entries, entry ∈ between.conversation.entries)
    (fresh :
      (∀ entry ∈ tx.conversation.entries, entry.id < tx.next) →
        ∀ entry ∈ between.conversation.entries, entry.id < between.next)
    (records : between.submission = tx.submission)
    (found : tx.submission item.id = some record)
    (queued : record.status = .queued)
    (served : Served how tx.next between record changed) :
    Serves how tx (between.put item.id changed) [item.id] where
  next := next
  inbox := inbox
  run := run
  generations := generations
  entries := entries
  fresh := fresh
  others := by
    intro id absent
    rw [submission_put, if_neg (List.ne_of_not_mem_cons absent), records]
  served := by
    intro id member
    rw [List.mem_singleton.mp member]
    exact ⟨record, changed, found, queued,
      by rw [submission_put, if_pos rfl], served⟩
  ascending := List.pairwise_singleton _ _

theorem applied_placed (queued : record.status = .queued) (entry : ℕ) :
    applySubmissionChange record (.placed entry) =
      .ok
        { record with
          status := if record.type = .input then .placed else .done
          entry := some entry } := by
  rw [applySubmissionChange, queued]
  rfl

theorem applied_unanswered (unsettled : record.status.settled = false) (reason : String)
    (detail : Option J) :
    applySubmissionChange record (.unanswered reason detail) =
      .ok
        { record with
          status := .unanswered
          reason := some reason
          detail := detail } := by
  rw [applySubmissionChange, unsettled]
  rfl

theorem serves_placed (draft : EntryDraft J) (waiting : Waiting tx item) :
    ∃ after, (tx.appendEntry draft).change item.id (.placed tx.next) =
        .ok after ∧ Serves Placing tx after [item.id] := by
  obtain ⟨record, found, queued, _, _⟩ := waiting
  refine ⟨_, @change_eq J (tx.appendEntry draft) item.id _ record _ found
    (applied_placed queued tx.next), ?_⟩
  refine serves_put (Nat.le_succ _) rfl rfl rfl
    (fun _ member => List.mem_append_left _ member) (fresh_append draft) rfl
    found queued ⟨rfl, rfl, ?_, ?_, ?_⟩
  · cases record.type with
    | input | write => exact fun isQueued => by cases isQueued
  · show (if record.type = .input then Status.placed else .done) = .placed ↔ _
    split
    · rename_i isInput
      exact ⟨fun _ => isInput, fun _ => rfl⟩
    · rename_i notInput
      exact ⟨(fun isPlaced => by cases isPlaced), fun isInput => absurd isInput notInput⟩
  · intro entryId isEntry
    have isNext : tx.next = entryId := Option.some.inj isEntry
    subst isNext
    exact ⟨Nat.le_refl _, _, List.mem_append_right _ (List.mem_singleton.mpr rfl),
      rfl⟩

theorem placeWrite_serves (state : Tx J × Option ℕ) (item : InboxItem J)
    (isWrite : item.type = .write) (waiting : Waiting state.1 item) :
    ∃ next, placeWrite state item = .ok next ∧ Serves Placing state.1 next.1 [item.id] := by
  cases item with
  | input id mode content entry => cases isWrite
  | write id draft =>
    rw [placeWrite]
    split
    · obtain ⟨record, found, queued, bare, isType⟩ := waiting
      have unsettled : record.status.settled = false := by rw [queued]; rfl
      rw [@change_eq J state.1 id _ record _ found (applied_unanswered unsettled "stale" none)]
      refine ⟨_, rfl, ?_⟩
      refine @serves_put J Placing state.1 state.1 (.write id draft) record _
        (Nat.le_refl _) rfl rfl rfl (fun _ member => member)
        (fun fresh => fresh) rfl found queued ⟨rfl, rfl, ?_, ?_, ?_⟩
      · exact fun isQueued => by cases isQueued
      · show Status.unanswered = .placed ↔ _
        rw [isType]
        exact ⟨(fun isPlaced => by cases isPlaced), (fun isInput => by cases isInput)⟩
      · intro entryId isEntry
        rw [bare] at isEntry
        cases isEntry
    · obtain ⟨after, isAfter, serves⟩ := serves_placed draft waiting
      have changed :
          (state.1.appendEntry draft).change id (.placed state.1.next) =
            .ok after := isAfter
      rw [changed]
      exact ⟨_, rfl, serves⟩

theorem placeUser_serves (now : ℕ) (tx : Tx J) (item : InboxItem J) (isInput : item.type = .input)
    (waiting : Waiting tx item) :
    ∃ next, placeUser now tx item = .ok next ∧ Serves Placing tx next [item.id] := by
  cases item with
  | input id mode content entry => exact serves_placed (inputDraft content entry now) waiting
  | write id draft => cases isInput

/-! ### The positions a boundary selects -/

variable {mode : Mode}

theorem type_of_mode (isMode : item.mode = some mode) : item.type = .input := by
  cases item with
  | input id other content entry => rfl
  | write id draft => cases isMode

variable {items : List (InboxItem J)} {position : ℕ}

theorem mem_writePositions :
    position ∈ writePositions items ↔
      ∃ item, items[position]? = some item ∧ item.type = .write := by
  rw [writePositions, List.mem_filter, List.mem_range, decide_eq_true_eq, Option.map_eq_some_iff]
  constructor
  · exact fun both => both.2
  · rintro ⟨item, found, isType⟩
    exact ⟨(List.getElem?_eq_some_iff.mp found).1, item, found, isType⟩

def modePositions (items : List (InboxItem J)) (mode : Mode) : List ℕ :=
  (List.range items.length).filter fun index => items[index]?.bind InboxItem.mode = some mode

theorem mem_modePositions :
    position ∈ modePositions items mode ↔
      ∃ item, items[position]? = some item ∧ item.mode = some mode := by
  rw [modePositions, List.mem_filter, List.mem_range, decide_eq_true_eq, Option.bind_eq_some_iff]
  constructor
  · exact fun both => both.2
  · rintro ⟨item, found, isMode⟩
    exact ⟨(List.getElem?_eq_some_iff.mp found).1, item, found, isMode⟩

theorem modePositions_ascending (items : List (InboxItem J)) (mode : Mode) :
    (modePositions items mode).Pairwise (· < ·) :=
  List.Pairwise.sublist List.filter_sublist List.pairwise_lt_range

theorem pick_sublist (items : List (InboxItem J)) (mode : Mode) (queueMode : QueueMode) :
    (pick items mode queueMode).Sublist (modePositions items mode) := by
  cases queueMode with
  | all => exact List.Sublist.refl _
  | oneAtATime => exact List.take_sublist 1 _

variable {queueMode : QueueMode} {earlier later : ℕ}

theorem pick_earlier (less : earlier < later) (isMode : earlier ∈ modePositions items mode)
    (picked : later ∈ pick items mode queueMode) : earlier ∈ pick items mode queueMode := by
  cases queueMode with
  | all => exact isMode
  | oneAtATime =>
    have ascending := modePositions_ascending items mode
    change later ∈ (modePositions items mode).take 1 at picked
    cases isPositions : modePositions items mode with
    | nil =>
      rw [isPositions] at isMode
      cases isMode
    | cons first rest =>
      rw [isPositions] at picked isMode ascending
      have isFirst : later = first := List.mem_singleton.mp picked
      subst isFirst
      rcases List.mem_cons.mp isMode with same | inRest
      · exact absurd (same ▸ less) (Nat.lt_irrefl _)
      · have after := (List.pairwise_cons.mp ascending).1 earlier inRest
        exact absurd (Nat.lt_trans less after) (Nat.lt_irrefl _)

variable {modes : QueueModes} {final : Bool}

theorem mem_userPositions :
    position ∈ userPositions items modes final ↔
      position ∈ pick items .steer modes.steeringMode ∨
        (final = true ∧ position ∈ pick items .followUp modes.followUpMode) := by
  rw [userPositions, List.mem_insertionSort, List.mem_append]
  cases final with
  | true | false => exact or_congr_right (by simp)

theorem mode_of_pick (picked : position ∈ pick items mode queueMode) :
    ∃ item, items[position]? = some item ∧ item.mode = some mode :=
  mem_modePositions.mp ((pick_sublist items mode queueMode).subset picked)

theorem type_of_userPosition (selected : position ∈ userPositions items modes final) :
    ∃ item, items[position]? = some item ∧ item.type = .input := by
  rcases mem_userPositions.mp selected with steer | ⟨_, followUp⟩
  · obtain ⟨item, found, isMode⟩ := mode_of_pick steer
    exact ⟨item, found, type_of_mode isMode⟩
  · obtain ⟨item, found, isMode⟩ := mode_of_pick followUp
    exact ⟨item, found, type_of_mode isMode⟩

theorem userPositions_earlier {older newer : InboxItem J} (less : earlier < later)
    (isOlder : items[earlier]? = some older)
    (isNewer : items[later]? = some newer) (sameMode : older.mode = newer.mode)
    (selected : later ∈ userPositions items modes final) :
    earlier ∈ userPositions items modes final := by
  have ofMode {mode : Mode} {queueMode : QueueMode} (picked : later ∈ pick items mode queueMode) :
      earlier ∈ pick items mode queueMode := by
    obtain ⟨item, found, isMode⟩ := mode_of_pick picked
    have isSame : item = newer := Option.some.inj (found.symm.trans isNewer)
    subst isSame
    exact pick_earlier less (mem_modePositions.mpr ⟨older, isOlder, sameMode.trans isMode⟩) picked
  rcases mem_userPositions.mp selected with steer | ⟨isFinal, followUp⟩
  · exact mem_userPositions.mpr (.inl (ofMode steer))
  · exact mem_userPositions.mpr (.inr ⟨isFinal, ofMode followUp⟩)

variable {positions : List ℕ}

theorem ascending_insertionSort (distinct : positions.Nodup) :
    (positions.insertionSort (· ≤ ·)).Pairwise (· < ·) := by
  have sorted := List.pairwise_insertionSort (· ≤ ·) positions
  have apart := (List.perm_insertionSort (· ≤ ·) positions).nodup_iff.mpr distinct
  exact (sorted.and apart).imp fun both => Nat.lt_of_le_of_ne both.1 both.2

theorem descending_insertionSort (distinct : positions.Nodup) :
    (positions.insertionSort (· ≥ ·)).Pairwise (· > ·) := by
  have sorted := List.pairwise_insertionSort (· ≥ ·) positions
  have apart := (List.perm_insertionSort (· ≥ ·) positions).nodup_iff.mpr distinct
  exact (sorted.and apart).imp fun both => Nat.lt_of_le_of_ne both.1 fun same => both.2 same.symm

theorem writePositions_ascending (items : List (InboxItem J)) :
    (writePositions items).Pairwise (· < ·) :=
  List.Pairwise.sublist List.filter_sublist List.pairwise_lt_range

theorem userPositions_ascending (items : List (InboxItem J)) (modes : QueueModes) (final : Bool) :
    (userPositions items modes final).Pairwise (· < ·) := by
  refine ascending_insertionSort ?_
  have distinct (mode : Mode) (queueMode : QueueMode) : (pick items mode queueMode).Nodup :=
    ((modePositions_ascending items mode).imp Nat.ne_of_lt).sublist
      (pick_sublist items mode queueMode)
  refine List.nodup_append.mpr ⟨distinct _ _, ?_, ?_⟩
  · cases final with
    | true => exact distinct _ _
    | false => exact List.nodup_nil
  · rintro position steer other followUp rfl
    cases final with
    | false => cases followUp
    | true =>
      obtain ⟨item, found, isSteer⟩ := mode_of_pick steer
      obtain ⟨same, alsoFound, isFollowUp⟩ :=
        mode_of_pick (show position ∈ pick items .followUp modes.followUpMode from followUp)
      have isSame : item = same := Option.some.inj (found.symm.trans alsoFound)
      subst isSame
      rw [isSteer] at isFollowUp
      cases isFollowUp

theorem positions_nodup (items : List (InboxItem J)) (modes : QueueModes) (final : Bool) :
    (writePositions items ++ userPositions items modes final).Nodup := by
  refine List.nodup_append.mpr
    ⟨(writePositions_ascending items).imp Nat.ne_of_lt,
      (userPositions_ascending items modes final).imp Nat.ne_of_lt, ?_⟩
  rintro position isWrite other selected rfl
  obtain ⟨item, found, write⟩ := mem_writePositions.mp isWrite
  obtain ⟨same, alsoFound, input⟩ := type_of_userPosition selected
  have isSame : item = same := Option.some.inj (found.symm.trans alsoFound)
  subst isSame
  rw [write] at input
  cases input

/-! ### The boundary -/

theorem Serves.submission (serves : Serves how tx after ids) (id : ℕ) :
    (id ∉ ids ∧ after.submission id = tx.submission id) ∨
      (id ∈ ids ∧ ∃ record changed, tx.submission id = some record ∧
        record.status = .queued ∧ after.submission id = some changed ∧
        Served how tx.next after record changed) := by
  by_cases member : id ∈ ids
  · exact .inr ⟨member, serves.served id member⟩
  · exact .inl ⟨member, serves.others id member⟩

variable {served : Tx J} {rest : List (InboxItem J)}

theorem base_setInbox {rest : List (InboxItem J)} (base : Base tx)
    (serves : Serves how tx served ids) (sublist : rest.Sublist tx.conversation.inbox)
    (stays : ∀ item, item ∈ rest ↔ item ∈ tx.conversation.inbox ∧ item.id ∉ ids) :
    Base (served.setInbox rest) where
  records := by
    intro id record found
    rcases serves.submission id with ⟨_, same⟩ |
      ⟨_, first, changed, isFirst, _, isChanged, isId, _⟩
    · have old := base.records id record (same ▸ found)
      exact ⟨old.1, Nat.lt_of_lt_of_le old.2 serves.next⟩
    · have isSame : changed = record :=
        Option.some.inj (isChanged.symm.trans found)
      subst isSame
      have old := base.records id first isFirst
      exact ⟨isId.trans old.1, Nat.lt_of_lt_of_le old.2 serves.next⟩
  entries := serves.fresh base.entries
  placedAt := by
    intro id record entryId found isEntry
    rcases serves.submission id with ⟨_, same⟩ |
      ⟨_, _, changed, _, _, isChanged, _, _, _, _, entered⟩
    · obtain ⟨entry, member, isId⟩ :=
        base.placedAt id record entryId (same ▸ found) isEntry
      exact ⟨entry, serves.entries entry member, isId⟩
    · have isSame : changed = record :=
        Option.some.inj (isChanged.symm.trans found)
      subst isSame
      exact (entered entryId isEntry).2
  bare := by
    intro id record found queued
    rcases serves.submission id with ⟨_, same⟩ |
      ⟨_, _, changed, _, _, isChanged, _, _, left, _⟩
    · exact base.bare id record (same ▸ found) queued
    · have isSame : changed = record :=
        Option.some.inj (isChanged.symm.trans found)
      subst isSame
      exact absurd queued left
  ordered := base.ordered.sublist (sublist.map InboxItem.id)
  queued := by
    intro id
    constructor
    · intro member
      obtain ⟨item, isRest, rfl⟩ := List.mem_map.mp member
      obtain ⟨inInbox, absent⟩ := (stays item).mp isRest
      obtain ⟨record, found, queued⟩ := (base.queued item.id).mp (List.mem_map_of_mem inInbox)
      exact ⟨record, (serves.others item.id absent).trans found, queued⟩
    · rintro ⟨record, found, queued⟩
      rcases serves.submission id with ⟨absent, same⟩ |
        ⟨_, _, changed, _, _, isChanged, _, _, left, _⟩
      · obtain ⟨item, inInbox, rfl⟩ :=
          List.mem_map.mp ((base.queued id).mpr ⟨record, same ▸ found, queued⟩)
        exact List.mem_map_of_mem ((stays item).mpr ⟨inInbox, absent⟩)
      · have isSame : changed = record :=
          Option.some.inj (isChanged.symm.trans found)
        subst isSame
        exact absurd queued left
  typed := by
    intro item isRest record found
    obtain ⟨inInbox, absent⟩ := (stays item).mp isRest
    exact base.typed item inInbox record ((serves.others item.id absent).symm.trans found)

/-- Of two inputs of one mode, the newer is placed only after the older was
served. -/
def InOrder (tx served : Tx J) (ids : List ℕ) : Prop :=
  ∀ older ∈ tx.conversation.inbox, ∀ newer ∈ tx.conversation.inbox,
    older.mode = newer.mode → newer.mode ≠ none → older.id < newer.id →
    newer.id ∈ ids →
    ∀ two second, served.submission newer.id = some two → two.entry = some second →
      older.id ∈ ids ∧
        ∀ one first, served.submission older.id = some one → one.entry = some first → first < second

theorem advances_setInbox (base : Base tx) (serves : Serves how tx served ids)
    (stays : ∀ item, item ∈ rest ↔ item ∈ tx.conversation.inbox ∧ item.id ∉ ids)
    (inOrder : InOrder tx served ids) :
    Advances tx (served.setInbox rest) where
  next := serves.next
  later := by
    intro id record found
    rcases serves.submission id with ⟨_, same⟩ |
      ⟨_, first, changed, isFirst, queued, isChanged, isId, isType, left, _, entered⟩
    · exact ⟨record, same.trans found, Later.refl _ record⟩
    · have isSame : first = record := Option.some.inj (isFirst.symm.trans found)
      subst isSame
      exact ⟨changed, isChanged, isId, isType, .inr (.inl
        ⟨queued, left, fun entry isEntry => (entered entry isEntry).1⟩)⟩
  items := by
    rintro item inInbox ⟨record, found, queued⟩
    refine (stays item).mpr ⟨inInbox, ?_⟩
    intro member
    obtain ⟨_, changed, _, _, isChanged, _, _, left, _⟩ := serves.served item.id member
    have isSame : changed = record := Option.some.inj (isChanged.symm.trans found)
    subst isSame
    exact left queued
  order := by
    intro older memberOlder newer memberNewer sameMode isInput less record entry isRecord isEntry
    rcases serves.submission newer.id with ⟨_, same⟩ | ⟨member, _⟩
    · obtain ⟨other, isOther, queued⟩ :=
        (base.queued newer.id).mp (List.mem_map_of_mem memberNewer)
      have isSame : other = record :=
        Option.some.inj (isOther.symm.trans (same.symm.trans isRecord))
      subst isSame
      rw [base.bare newer.id other isOther queued] at isEntry
      cases isEntry
    · obtain ⟨olderServed, ascending⟩ :=
        inOrder older memberOlder newer memberNewer sameMode isInput less member
          record entry isRecord isEntry
      obtain ⟨_, changed, _, _, isChanged, _, _, left, _⟩ := serves.served older.id olderServed
      exact ⟨changed, isChanged, left, fun before isBefore =>
        ascending changed before isChanged isBefore⟩

theorem of_pairwise_of_lt {relation : ℕ → ℕ → Prop} (ordered : ids.Pairwise (· < ·))
    (related : ids.Pairwise relation) {first second : ℕ} (isFirst : first ∈ ids)
    (isSecond : second ∈ ids) (less : first < second) : relation first second := by
  induction ids with
  | nil => cases isFirst
  | cons id rest ih =>
    obtain ⟨below, later⟩ := List.pairwise_cons.mp ordered
    obtain ⟨relates, relatesLater⟩ := List.pairwise_cons.mp related
    rcases List.mem_cons.mp isFirst with rfl | firstLater
    · rcases List.mem_cons.mp isSecond with rfl | secondLater
      · exact absurd less (Nat.lt_irrefl _)
      · exact relates second secondLater
    · rcases List.mem_cons.mp isSecond with rfl | secondLater
      · exact absurd (Nat.lt_trans less (below first firstLater)) (Nat.lt_irrefl _)
      · exact ih later relatesLater firstLater secondLater

/-- What a boundary does: it places some queued inputs, and changes no
submission that is not queued. -/
structure Boundary (tx after : Tx J) (users : List ℕ) : Prop where
  base : Base after
  advances : Advances tx after
  run : after.conversation.run = tx.conversation.run
  generations : after.conversation.generations = tx.conversation.generations
  nodup : users.Nodup
  chosen :
    ∀ id ∈ users,
      (∃ record, tx.submission id = some record ∧ record.status = .queued) ∧
        ∃ changed, after.submission id = some changed ∧
          changed.status = .placed
  placed :
    ∀ id record, after.submission id = some record → record.status = .placed →
      id ∈ users ∨ tx.submission id = some record
  kept :
    ∀ id record, tx.submission id = some record → record.status ≠ .queued →
      after.submission id = some record

theorem waiting_of_mem (base : Base tx) (member : item ∈ tx.conversation.inbox) :
    Waiting tx item := by
  obtain ⟨record, found, queued⟩ := (base.queued item.id).mp (List.mem_map_of_mem member)
  exact ⟨record, found, queued, base.bare item.id record found queued,
    base.typed item member record found⟩

theorem mem_of_taken (isTaken : item ∈ Picks.taken items positions) : item ∈ items := by
  obtain ⟨position, _, found⟩ := Picks.mem_taken.mp isTaken
  exact List.mem_of_getElem? found

theorem ascending_taken (base : Base tx) (sorted : positions.Pairwise (· < ·)) :
    ((Picks.taken tx.conversation.inbox positions).map InboxItem.id).Pairwise (· < ·) :=
  List.pairwise_map.mpr
    (Picks.taken_pairwise (List.pairwise_map.mp base.ordered) sorted)

theorem type_of_takenWrite (isTaken : item ∈ Picks.taken items (writePositions items)) :
    item.type = .write := by
  obtain ⟨position, isWrite, found⟩ := Picks.mem_taken.mp isTaken
  obtain ⟨same, alsoFound, write⟩ := mem_writePositions.mp isWrite
  rw [Option.some.inj (found.symm.trans alsoFound)]
  exact write

theorem type_of_takenUser (isTaken : item ∈ Picks.taken items (userPositions items modes final)) :
    item.type = .input := by
  obtain ⟨position, selected, found⟩ := Picks.mem_taken.mp isTaken
  obtain ⟨same, alsoFound, input⟩ := type_of_userPosition selected
  rw [Option.some.inj (found.symm.trans alsoFound)]
  exact input

/-- The submissions that a boundary selects, in the order it serves them. -/
def selected (items : List (InboxItem J)) (modes : QueueModes) (final : Bool) :
    List ℕ :=
  (Picks.taken items (writePositions items)).map InboxItem.id ++
    (Picks.taken items (userPositions items modes final)).map InboxItem.id

def staying (items : List (InboxItem J)) (modes : QueueModes) (final : Bool) : List (InboxItem J) :=
  Picks.left items ((writePositions items ++ userPositions items modes final).insertionSort (· ≥ ·))

theorem selected_perm (items : List (InboxItem J)) (modes : QueueModes) (final : Bool) :
    ((Picks.taken items
      ((writePositions items ++
        userPositions items modes final).insertionSort (· ≥ ·))).map
          InboxItem.id).Perm (selected items modes final) := by
  rw [selected, ← List.map_append, ← Picks.taken_append]
  exact (Picks.taken_perm (List.perm_insertionSort (· ≥ ·) _)).map InboxItem.id

theorem selected_nodup (distinct : (items.map InboxItem.id).Nodup) (modes : QueueModes)
    (final : Bool) : (selected items modes final).Nodup := by
  refine (selected_perm items modes final).nodup_iff.mp ?_
  have split :=
    @Picks.taken_append_left_perm _ items _
      (descending_insertionSort (positions_nodup items modes final))
  have apart := (split.map InboxItem.id).nodup_iff.mpr distinct
  rw [List.map_append] at apart
  exact (List.nodup_append.mp apart).1

theorem mem_staying (distinct : (items.map InboxItem.id).Nodup) (modes : QueueModes)
    (final : Bool) (item : InboxItem J) :
    item ∈ staying items modes final ↔ item ∈ items ∧ item.id ∉ selected items modes final := by
  rw [staying,
    Picks.mem_left_iff
      (descending_insertionSort (positions_nodup items modes final)) distinct,
    (selected_perm items modes final).mem_iff]

theorem loops_serve (base : Base tx) (head : Option ℕ) (modes : QueueModes) (final : Bool)
    (now : ℕ) :
    ∃ written served,
      (Picks.taken tx.conversation.inbox
          (writePositions tx.conversation.inbox)).foldlM placeWrite (tx, head) =
        .ok written ∧
      (Picks.taken tx.conversation.inbox (userPositions tx.conversation.inbox modes final)).foldlM
          (placeUser now) written.1 = .ok served ∧
      Serves Placing tx served (selected tx.conversation.inbox modes final) := by
  have distinct := selected_nodup (base.ordered.imp Nat.ne_of_lt) modes final
  have disjoint :
      ∀ id ∈ (Picks.taken tx.conversation.inbox
          (userPositions tx.conversation.inbox modes final)).map InboxItem.id,
        id ∉ (Picks.taken tx.conversation.inbox
          (writePositions tx.conversation.inbox)).map InboxItem.id :=
    fun id isUser isWrite => (List.disjoint_of_nodup_append distinct) isWrite isUser
  obtain ⟨written, isWritten, servesWrites⟩ :=
    @serves_fold J Placing (Tx J × Option ℕ) Prod.fst placeWrite
      (fun item => item.type = .write) placeWrite_serves _ (tx, head)
      (fun item isTaken => ⟨type_of_takenWrite isTaken, waiting_of_mem base (mem_of_taken isTaken)⟩)
      (List.nodup_append.mp distinct).1 base.entries
  obtain ⟨served, isServed, servesUsers⟩ :=
    @serves_fold J Placing (Tx J) (fun tx => tx) (placeUser now)
      (fun item => item.type = .input) (placeUser_serves now) _ written.1
      (fun item isTaken => ⟨type_of_takenUser isTaken,
        servesWrites.waiting (disjoint _ (List.mem_map_of_mem isTaken))
          (waiting_of_mem base (mem_of_taken isTaken))⟩)
      (List.nodup_append.mp distinct).2.1 (servesWrites.fresh base.entries)
  exact ⟨written, served, isWritten, isServed, servesWrites.trans base.entries disjoint servesUsers⟩

variable {tx : Tx J}

theorem selected_inOrder {tx served : Tx J} (base : Base tx) {modes : QueueModes} {final : Bool}
    (serves : Serves Placing tx served (selected tx.conversation.inbox modes final)) :
    InOrder tx served (selected tx.conversation.inbox modes final) := by
  intro older memberOlder newer memberNewer sameMode isInput less isSelected two
    second isTwo isSecond
  have ofId {first second : InboxItem J} (memberFirst : first ∈ tx.conversation.inbox)
      (memberSecond : second ∈ tx.conversation.inbox)
      (sameId : first.id = second.id) : first = second :=
    List.inj_on_of_nodup_map (base.ordered.imp Nat.ne_of_lt) memberFirst memberSecond sameId
  have isUser :
      newer.id ∈ (Picks.taken tx.conversation.inbox
        (userPositions tx.conversation.inbox modes final)).map
          InboxItem.id := by
    refine (List.mem_append.mp isSelected).resolve_left ?_
    intro isWrite
    obtain ⟨item, isTaken, sameId⟩ := List.mem_map.mp isWrite
    have isSame := ofId (mem_of_taken isTaken) memberNewer sameId
    subst isSame
    have write := type_of_takenWrite isTaken
    cases item with
    | input id mode content entry => cases write
    | write id draft => exact isInput rfl
  have olderUser :
      older.id ∈ (Picks.taken tx.conversation.inbox
        (userPositions tx.conversation.inbox modes final)).map
          InboxItem.id := by
    obtain ⟨item, isTaken, sameId⟩ := List.mem_map.mp isUser
    have isSame := ofId (mem_of_taken isTaken) memberNewer sameId
    subst isSame
    obtain ⟨later, isPosition, isNewer⟩ := Picks.mem_taken.mp isTaken
    obtain ⟨earlier, isOlder⟩ := List.mem_iff_getElem?.mp memberOlder
    have before : earlier < later := by
      obtain ⟨boundOlder, rfl⟩ := List.getElem?_eq_some_iff.mp isOlder
      obtain ⟨boundNewer, rfl⟩ := List.getElem?_eq_some_iff.mp isNewer
      by_contra notBefore
      rcases Nat.lt_or_eq_of_le (Nat.le_of_not_lt notBefore) with after | rfl
      · have ascends :=
          List.pairwise_iff_getElem.mp (List.pairwise_map.mp base.ordered) later
            earlier boundNewer boundOlder after
        exact absurd (Nat.lt_trans less ascends) (Nat.lt_irrefl _)
      · exact absurd less (Nat.lt_irrefl _)
    exact List.mem_map_of_mem (Picks.mem_taken.mpr
      ⟨earlier, userPositions_earlier before isOlder isNewer sameMode isPosition, isOlder⟩)
  refine ⟨List.mem_append_right _ olderUser, ?_⟩
  intro one first isOne isFirst
  exact of_pairwise_of_lt (ascending_taken base (userPositions_ascending _ modes final))
    (List.pairwise_append.mp serves.ascending).2.1 olderUser isUser less one two
    first second isOne isTwo isFirst isSecond

theorem applyBoundary_boundary {tx : Tx J} (base : Base tx) (head : Option ℕ) (modes : QueueModes)
    (at_ : At) (now : ℕ) :
    ∃ after result, applyBoundary tx head modes at_ now = .ok (after, result) ∧
      Boundary tx after result.users := by
  let final := decide (at_ = .final) || hasQueuedReset tx.conversation.inbox
  obtain ⟨written, served, isWritten, isServed, serves⟩ := loops_serve base head modes final now
  have stays := mem_staying (base.ordered.imp Nat.ne_of_lt) modes final
  refine ⟨served.setInbox (staying tx.conversation.inbox modes final),
    ⟨(Picks.taken tx.conversation.inbox
      (userPositions tx.conversation.inbox modes final)).map InboxItem.id,
      hasQueuedReset tx.conversation.inbox⟩, ?_, ?_⟩
  · exact Coding.bind_eq_ok.mpr ⟨written, isWritten, Coding.bind_eq_ok.mpr ⟨served, isServed, rfl⟩⟩
  · refine
      ⟨base_setInbox base serves (Picks.left_sublist _ _) stays,
        advances_setInbox base serves stays (selected_inOrder base serves),
        serves.run, serves.generations,
        (ascending_taken base (userPositions_ascending _ modes final)).imp Nat.ne_of_lt, ?_, ?_, ?_⟩
    · intro id isUser
      obtain ⟨record, changed, found, queued, isChanged, _, _, _, placed, _⟩ :=
        serves.served id (List.mem_append_right _ isUser)
      refine ⟨⟨record, found, queued⟩, changed, isChanged, placed.mpr ?_⟩
      obtain ⟨item, isTaken, rfl⟩ := List.mem_map.mp isUser
      rw [base.typed item (mem_of_taken isTaken) record found]
      exact type_of_takenUser isTaken
    · intro id record found isPlaced
      rcases serves.submission id with ⟨_, same⟩ |
        ⟨isSelected, first, changed, isFirst, _, isChanged, _, _, _, placed, _⟩
      · exact .inr (same.symm.trans found)
      · left
        refine (List.mem_append.mp isSelected).resolve_left ?_
        intro isWrite
        obtain ⟨item, isTaken, rfl⟩ := List.mem_map.mp isWrite
        have isSame : changed = record := Option.some.inj (isChanged.symm.trans found)
        subst isSame
        have isInput := placed.mp isPlaced
        rw [base.typed item (mem_of_taken isTaken) first isFirst,
          type_of_takenWrite isTaken] at isInput
        cases isInput
    · intro id record found notQueued
      rcases serves.submission id with ⟨_, same⟩ |
        ⟨_, first, _, isFirst, queued, _⟩
      · exact same.trans found
      · have isSame : first = record :=
          Option.some.inj (isFirst.symm.trans found)
        subst isSame
        exact absurd queued notQueued

end PiEmbodied.Durable.Submissions
