import PiEmbodied.Durable.Bookkeeping

/-!
# The commits on a conversation's submissions

Each commit keeps the inbox, the submissions and the run in agreement, and so
does every run of them.
-/

namespace PiEmbodied.Durable.Submissions

variable {J : Type}

/-! ## Placed inputs -/

structure Inputs (tx : Tx J) (ids : List ℕ) : Prop where
  nodup : ids.Nodup
  placed : ∀ id ∈ ids, ∃ record, tx.submission id = some record ∧ record.status = .placed
  all : ∀ id record, tx.submission id = some record → record.status = .placed → id ∈ ids

variable {after : Tx J} {ids : List ℕ}

theorem Inputs.of_same {tx : Tx J} (inputs : Inputs tx ids)
    (records : after.submission = tx.submission) : Inputs after ids where
  nodup := inputs.nodup
  placed := by
    rw [records]
    exact inputs.placed
  all := by
    rw [records]
    exact inputs.all

theorem runOk_none {tx : Tx J} (isRun : tx.conversation.run = none)
    (generations : tx.conversation.generations = []) (inputs : Inputs tx []) :
    RunOk tx where
  placed := fun id record found placed =>
    absurd (inputs.all id record found placed) List.not_mem_nil
  nodup := by
    intro run found
    rw [isRun] at found
    cases found
  inputs := by
    intro run found
    rw [isRun] at found
    cases found
  generations := by
    rw [isRun, generations]
    rfl

theorem runOk_some {tx : Tx J} {run : Run} (isRun : tx.conversation.run = some run)
    (generations : tx.conversation.generations = [run.taskId])
    (inputs : Inputs tx run.inputs) : RunOk tx where
  placed := fun id record found placed => ⟨run, isRun, inputs.all id record found placed⟩
  nodup := by
    intro other found
    rw [isRun, Option.some.injEq] at found
    subst found
    exact inputs.nodup
  inputs := by
    intro other found
    rw [isRun, Option.some.injEq] at found
    subst found
    exact inputs.placed
  generations := by
    rw [isRun, generations]
    rfl

theorem RunOk.idle {tx : Tx J} (ok : RunOk tx) (isRun : tx.conversation.run = none) :
    tx.conversation.generations = [] ∧ Inputs tx [] := by
  refine ⟨?_, List.nodup_nil, fun _ member => absurd member List.not_mem_nil, ?_⟩
  · rw [ok.generations, isRun]
    rfl
  · intro id record found placed
    obtain ⟨run, isSome, _⟩ := ok.placed id record found placed
    rw [isRun] at isSome
    cases isSome

theorem RunOk.busy {tx : Tx J} (ok : RunOk tx) {run : Run}
    (isRun : tx.conversation.run = some run) :
    tx.conversation.generations = [run.taskId] ∧ Inputs tx run.inputs := by
  refine ⟨?_, ok.nodup run isRun, ok.inputs run isRun, ?_⟩
  · rw [ok.generations, isRun]
    rfl
  · intro id record found placed
    obtain ⟨other, isOther, member⟩ := ok.placed id record found placed
    rw [isRun, Option.some.injEq] at isOther
    subst isOther
    exact member

variable {task : ℕ}

theorem RunOk.held {tx : Tx J} (ok : RunOk tx) (member : task ∈ tx.conversation.generations) :
    ∃ inputs, tx.conversation.run = some ⟨task, inputs⟩ := by
  cases isRun : tx.conversation.run with
  | none =>
    rw [(ok.idle isRun).1] at member
    cases member
  | some run =>
    rw [(ok.busy isRun).1] at member
    exact ⟨run.inputs, by rw [List.mem_singleton.mp member]⟩

variable {users : List ℕ}

theorem Boundary.inputs {tx : Tx J} (boundary : Boundary tx after users) (inputs : Inputs tx ids) :
    Inputs after (ids ++ users) where
  nodup := by
    refine List.nodup_append.mpr ⟨inputs.nodup, boundary.nodup, ?_⟩
    rintro id member other isUser rfl
    obtain ⟨record, found, placed⟩ := inputs.placed id member
    obtain ⟨⟨same, alsoFound, queued⟩, _⟩ := boundary.chosen id isUser
    have isSame : record = same := Option.some.inj (found.symm.trans alsoFound)
    subst isSame
    rw [placed] at queued
    cases queued
  placed := by
    intro id member
    rcases List.mem_append.mp member with old | new
    · obtain ⟨record, found, placed⟩ := inputs.placed id old
      refine ⟨record, boundary.kept id record found ?_, placed⟩
      rw [placed]
      exact fun isQueued => by cases isQueued
    · exact (boundary.chosen id new).2
  all := by
    intro id record found placed
    rcases boundary.placed id record found placed with isUser | old
    · exact List.mem_append_right _ isUser
    · exact List.mem_append_left _ (inputs.all id record old placed)

/-! ## The end of a run -/

def SubmissionChange.ends : SubmissionChange J → Bool
  | .placed _ => false
  | .done _ | .unanswered _ _ => true

variable {record : SubmissionRecord J} {settlement : SubmissionChange J}

theorem applied_ends (placed : record.status = .placed) (ends : settlement.ends = true) :
    ∃ changed, applySubmissionChange record settlement = .ok changed ∧
      changed.id = record.id ∧ changed.type = record.type ∧
      changed.status.settled = true ∧ changed.entry = record.entry := by
  have unsettled : record.status.settled = false := by
    rw [placed]
    rfl
  cases settlement with
  | placed entry => cases ends
  | done answer =>
    refine ⟨{ record with status := .done, answer := some answer }, ?_, rfl,
      rfl, rfl, rfl⟩
    rw [applySubmissionChange, unsettled, placed]
    rfl
  | unanswered reason detail =>
    exact ⟨_, applied_unanswered unsettled reason detail, rfl, rfl, rfl, rfl⟩

structure Settles (tx after : Tx J) (ids : List ℕ) : Prop where
  next : after.next = tx.next
  inbox : after.conversation.inbox = tx.conversation.inbox
  run : after.conversation.run = tx.conversation.run
  generations : after.conversation.generations = tx.conversation.generations
  entries : after.conversation.entries = tx.conversation.entries
  others : ∀ id, id ∉ ids → after.submission id = tx.submission id
  settled :
    ∀ id ∈ ids, ∃ record changed, tx.submission id = some record ∧
      record.status = .placed ∧ after.submission id = some changed ∧
      changed.id = record.id ∧ changed.type = record.type ∧
      changed.status.settled = true ∧ changed.entry = record.entry

theorem settles_fold {settlement : SubmissionChange J} (ends : settlement.ends = true)
    {ids : List ℕ} :
    ∀ {tx : Tx J}, ids.Nodup →
      (∀ id ∈ ids, ∃ record, tx.submission id = some record ∧ record.status = .placed) →
      ∃ after,
        ids.foldlM (fun (tx : Tx J) id => tx.change id settlement) tx =
          .ok after ∧ Settles tx after ids := by
  induction ids with
  | nil =>
    intro tx _ _
    exact ⟨tx, rfl, rfl, rfl, rfl, rfl, rfl, fun _ _ => rfl,
      fun _ member => absurd member List.not_mem_nil⟩
  | cons id rest ih =>
    intro tx distinct placed
    obtain ⟨absent, distinctRest⟩ := List.nodup_cons.mp distinct
    obtain ⟨record, found, isPlaced⟩ := placed id List.mem_cons_self
    obtain ⟨changed, applied, isId, isType, settled, isEntry⟩ := applied_ends isPlaced ends
    have other {second : ℕ} (member : second ∈ rest) : second ≠ id := by
      rintro rfl
      exact absent member
    obtain ⟨after, isAfter, settles⟩ :=
      @ih (tx.put id changed) distinctRest (by
        intro second member
        obtain ⟨old, isOld, oldPlaced⟩ := placed second (List.mem_cons_of_mem id member)
        exact ⟨old, by rw [submission_put, if_neg (other member), isOld], oldPlaced⟩)
    refine ⟨after, ?_, settles.next, settles.inbox, settles.run,
      settles.generations, settles.entries, ?_, ?_⟩
    · rw [List.foldlM_cons, change_eq found applied]
      exact isAfter
    · intro second notMember
      rw [List.mem_cons, not_or] at notMember
      rw [settles.others second notMember.2, submission_put, if_neg notMember.1]
    · intro second member
      rcases List.mem_cons.mp member with rfl | later
      · refine ⟨record, changed, found, isPlaced, ?_, isId, isType, settled, isEntry⟩
        rw [settles.others second absent, submission_put, if_pos rfl]
      · obtain ⟨old, settledRecord, isOld, rest⟩ :=
          settles.settled second later
        rw [submission_put, if_neg (other later)] at isOld
        exact ⟨old, settledRecord, isOld, rest⟩

variable {id : ℕ}

theorem Settles.submission
    {tx : Tx J} (settles : Settles tx after ids) {changed : SubmissionRecord J}
    (found : after.submission id = some changed) :
    ∃ record, tx.submission id = some record ∧
      changed.id = record.id ∧ changed.type = record.type ∧
      changed.entry = record.entry ∧
      ((id ∉ ids ∧ changed = record) ∨
        (id ∈ ids ∧ record.status = .placed ∧
          changed.status.settled = true)) := by
  by_cases member : id ∈ ids
  · obtain ⟨record, other, isRecord, placed, isOther, isId, isType, settled,
      isEntry⟩ := settles.settled id member
    have isSame : other = changed := Option.some.inj (isOther.symm.trans found)
    subst isSame
    exact ⟨record, isRecord, isId, isType, isEntry, .inr ⟨member, placed, settled⟩⟩
  · rw [settles.others id member] at found
    exact ⟨changed, found, rfl, rfl, rfl, .inl ⟨member, rfl⟩⟩

theorem Settles.queued_iff {tx : Tx J} (settles : Settles tx after ids) (id : ℕ) :
    (∃ record, after.submission id = some record ∧ record.status = .queued) ↔
      ∃ record, tx.submission id = some record ∧ record.status = .queued := by
  constructor
  · rintro ⟨changed, found, queued⟩
    obtain ⟨record, isRecord, _, _, _, ⟨_, rfl⟩ | ⟨_, _, settled⟩⟩ := settles.submission found
    · exact ⟨changed, isRecord, queued⟩
    · exact absurd queued (not_queued_of_settled settled)
  · rintro ⟨record, found, queued⟩
    refine ⟨record, ?_, queued⟩
    rw [settles.others id ?_]
    · exact found
    · intro member
      obtain ⟨other, _, isOther, placed, _⟩ := settles.settled id member
      have isSame : other = record := Option.some.inj (isOther.symm.trans found)
      subst isSame
      rw [queued] at placed
      cases placed

theorem base_settles {tx : Tx J} (base : Base tx) (settles : Settles tx after ids) :
    Base after where
  records := by
    intro id changed found
    obtain ⟨record, isRecord, isId, _⟩ := settles.submission found
    obtain ⟨isSelf, below⟩ := base.records id record isRecord
    exact ⟨isId.trans isSelf, settles.next ▸ below⟩
  entries := by
    rw [settles.entries, settles.next]
    exact base.entries
  placedAt := by
    intro id changed entryId found isEntry
    obtain ⟨record, isRecord, _, _, sameEntry, _⟩ := settles.submission found
    rw [settles.entries]
    exact base.placedAt id record entryId isRecord (sameEntry ▸ isEntry)
  bare := by
    intro id changed found queued
    obtain ⟨record, isRecord, _, _, _, ⟨_, rfl⟩ | ⟨_, _, settled⟩⟩ := settles.submission found
    · exact base.bare id changed isRecord queued
    · exact absurd queued (not_queued_of_settled settled)
  ordered := by
    rw [settles.inbox]
    exact base.ordered
  queued := by
    intro id
    rw [settles.inbox, settles.queued_iff]
    exact base.queued id
  typed := by
    intro item member changed found
    obtain ⟨record, isRecord, _, isType, _⟩ := settles.submission found
    rw [settles.inbox] at member
    exact isType.trans (base.typed item member record isRecord)

theorem advances_settles {tx : Tx J} (base : Base tx) (settles : Settles tx after ids) :
    Advances tx after where
  next := Nat.le_of_eq settles.next.symm
  later := by
    intro id record found
    by_cases member : id ∈ ids
    · obtain ⟨other, changed, isOther, placed, isChanged, isId, isType, settled,
        isEntry⟩ := settles.settled id member
      have isSame : other = record := Option.some.inj (isOther.symm.trans found)
      subst isSame
      exact ⟨changed, isChanged, isId, isType, .inr (.inr ⟨placed, settled, isEntry⟩)⟩
    · exact ⟨record, (settles.others id member).trans found, Later.refl _ record⟩
  items := by
    intro item member _
    rw [settles.inbox]
    exact member
  order := by
    intro older _ newer memberNewer _ _ _ changed entry found isEntry
    obtain ⟨record, isRecord, _, _, sameEntry, _⟩ := settles.submission found
    obtain ⟨other, isOther, queued⟩ := (base.queued newer.id).mp (List.mem_map_of_mem memberNewer)
    have isSame : other = record := Option.some.inj (isOther.symm.trans isRecord)
    subst isSame
    rw [sameEntry, base.bare newer.id other isOther queued] at isEntry
    cases isEntry

theorem Settles.inputs {tx : Tx J} (settles : Settles tx after ids)
    (inputs : Inputs tx (ids ++ users)) : Inputs after users where
  nodup := (List.nodup_append.mp inputs.nodup).2.1
  placed := by
    intro id member
    obtain ⟨record, found, placed⟩ := inputs.placed id (List.mem_append_right _ member)
    refine ⟨record, (settles.others id ?_).trans found, placed⟩
    exact fun inIds => (List.disjoint_of_nodup_append inputs.nodup) inIds member
  all := by
    intro id changed found placed
    obtain ⟨record, isRecord, _, _, _, ⟨absent, rfl⟩ | ⟨_, _, settled⟩⟩ := settles.submission found
    · exact (List.mem_append.mp (inputs.all id changed isRecord placed)).resolve_left absent
    · exact absurd placed (not_placed_of_settled settled)

/-- A commit that keeps the tables and the run in agreement. -/
structure Keeps (tx after : Tx J) : Prop where
  ok : Ok after
  advances : Advances tx after

theorem keeps_of_advances {tx between : Tx J} (base : Base tx) (baseBetween : Base between)
    (advances : Advances tx between) (keeps : Keeps between after) : Keeps tx after :=
  ⟨keeps.ok, advances.trans base baseBetween keeps.advances⟩

theorem endAndStart_keeps {tx : Tx J} {inputs : List ℕ} (base : Base tx)
    (isRun : tx.conversation.run = some ⟨task, inputs⟩)
    (generations : tx.conversation.generations = [task])
    (isInputs : Inputs tx (inputs ++ users)) (ends : settlement.ends = true)
    (result : endAndStart tx task settlement users = .ok after) : Keeps tx after := by
  obtain ⟨settled, isSettled, settles⟩ :=
    settles_fold ends (List.nodup_append.mp isInputs.nodup).1
      fun id member => isInputs.placed id (List.mem_append_left _ member)
  have ended : tx.endRun task settlement = .ok (settled.setRun none) := by
    rw [Tx.endRun, isRun]
    show (if task = task then _ else _) = _
    rw [if_pos rfl, isSettled]
    rfl
  rw [endAndStart, ended] at result
  have isAfter := Except.ok.inj result
  dsimp only at isAfter
  have baseSettled := base_settles base settles
  have usersPlaced := settles.inputs isInputs
  have oneGeneration : settled.conversation.generations = [task] :=
    settles.generations.trans generations
  by_cases noUsers : users = []
  · subst noUsers
    rw [if_pos rfl] at isAfter
    subst isAfter
    refine ⟨⟨base_of_same baseSettled (Nat.le_refl _) rfl rfl
      (fun _ member => member) baseSettled.entries, ?_⟩, ?_⟩
    · refine runOk_none rfl ?_ (usersPlaced.of_same rfl)
      show settled.conversation.generations.erase task = []
      rw [oneGeneration, List.erase_cons_head]
    · exact (advances_settles base settles).trans base baseSettled
        (advances_of_same baseSettled (Nat.le_refl _) rfl rfl)
  · rw [if_neg noUsers] at isAfter
    subst isAfter
    refine ⟨⟨base_of_same baseSettled (Nat.le_succ _) rfl rfl (fun _ member => member)
      (fun entry member => Nat.lt_succ_of_lt (baseSettled.entries entry member)),
      ?_⟩, ?_⟩
    · refine @runOk_some J _ ⟨settled.next, users⟩ rfl ?_ (usersPlaced.of_same rfl)
      show (settled.conversation.generations ++ [settled.next]).erase task = _
      rw [oneGeneration, List.cons_append, List.erase_cons_head, List.nil_append]
    · exact (advances_settles base settles).trans base baseSettled
        (advances_of_same baseSettled (Nat.le_succ _) rfl rfl)

/-- The run goes on under a new generation, with its own inputs and those just
placed. -/
theorem handOver_keeps {tx : Tx J} {task : ℕ} {inputs : List ℕ} (base : Base tx)
    (isRun : tx.conversation.run = some ⟨task, inputs⟩)
    (generations : tx.conversation.generations = [task]) (isInputs : Inputs tx inputs) :
    Keeps tx ((tx.handOver task).endGeneration task) := by
  refine ⟨⟨base_of_same base (Nat.le_succ _) rfl rfl (fun _ member => member)
    (fun entry member => Nat.lt_succ_of_lt (base.entries entry member)), ?_⟩,
    advances_of_same base (Nat.le_succ _) rfl rfl⟩
  refine @runOk_some J _ ⟨tx.next, inputs⟩ ?_ ?_ (isInputs.of_same rfl)
  · show tx.conversation.run.map _ = _
    rw [isRun, Option.map_some, if_pos rfl]
  · show (tx.conversation.generations ++ [tx.next]).erase task = _
    rw [generations, List.cons_append, List.erase_cons_head, List.nil_append]

theorem boundary_in_run {tx : Tx J} (base : Base tx) {task : ℕ} {inputs : List ℕ}
    (isRun : tx.conversation.run = some ⟨task, inputs⟩)
    (generations : tx.conversation.generations = [task])
    (isInputs : Inputs tx inputs) {head : Option ℕ} {modes : QueueModes}
    {at_ : At} {now : ℕ} {after : Tx J} {result : BoundaryResult}
    (applied : applyBoundary tx head modes at_ now = .ok (after, result)) :
    Base after ∧ Advances tx after ∧ after.conversation.run = some ⟨task, inputs⟩ ∧
      after.conversation.generations = [task] ∧
      Inputs after (inputs ++ result.users) := by
  obtain ⟨other, otherResult, isOther, boundary⟩ := applyBoundary_boundary base head modes at_ now
  rw [isOther] at applied
  obtain ⟨rfl, rfl⟩ := Prod.mk.inj (Except.ok.inj applied)
  exact ⟨boundary.base, boundary.advances, boundary.run.trans isRun,
    boundary.generations.trans generations, boundary.inputs isInputs⟩

variable {now : ℕ} {modes : QueueModes}

theorem answer_keeps {tx : Tx J} {message : J} {continuation : Option J} (ok : Ok tx)
    (result : answer tx task message continuation now modes = .ok after) : Keeps tx after := by
  rw [answer] at result
  split at result
  · cases result
  · rename_i member
    obtain ⟨inputs, isRun⟩ := ok.run.held (not_not.mp member)
    obtain ⟨generations, isInputs⟩ := ok.run.busy isRun
    obtain ⟨⟨placed, boundary⟩, applied, ended⟩ := Coding.bind_eq_ok.mp result
    have baseEntry := base_append ok.base (assistantDraft message)
    obtain ⟨base, advances, isRunAfter, generationsAfter, inputsAfter⟩ :=
      @boundary_in_run J (tx.appendEntry (assistantDraft message)) baseEntry task
        inputs isRun generations (isInputs.of_same rfl) _ _ _ _ _ _ applied
    have toBoundary : Advances tx placed :=
      (advances_append ok.base _).trans ok.base baseEntry advances
    have ends
        (result : endAndStart placed task (.done tx.next) boundary.users =
          .ok after) : Keeps tx after :=
      keeps_of_advances ok.base base toBoundary
        (endAndStart_keeps base isRunAfter generationsAfter inputsAfter rfl result)
    cases continuation with
    | none => exact ends ended
    | some content =>
      dsimp only at ended
      split at ended
      · rename_i nothing
        have isAfter := Except.ok.inj ended
        subst isAfter
        have baseUser := base_append base (inputDraft content none now)
        rw [nothing.1, List.append_nil] at inputsAfter
        exact keeps_of_advances ok.base baseUser
          (toBoundary.trans ok.base base (advances_append base _))
          (@handOver_keeps J (placed.appendEntry (inputDraft content none now))
            task inputs baseUser isRunAfter generationsAfter
            (inputsAfter.of_same rfl))
      · exact ends ended

theorem finishToolRound_keeps {tx : Tx J} {assistant : ℕ} {terminate : Bool} {handoff : Option J}
    (ok : Ok tx)
    (result : finishToolRound tx task assistant terminate handoff now modes = .ok after) :
    Keeps tx after := by
  unfold finishToolRound at result
  split at result
  · cases result
  · rename_i member
    obtain ⟨inputs, isRun⟩ := ok.run.held (not_not.mp member)
    obtain ⟨generations, isInputs⟩ := ok.run.busy isRun
    cases handoff with
    | some text =>
      obtain ⟨⟨placed, boundary⟩, applied, ended⟩ := Coding.bind_eq_ok.mp result
      have baseEntry := base_append ok.base (resetDraft text now)
      obtain ⟨base, advances, isRunAfter, generationsAfter, inputsAfter⟩ :=
        @boundary_in_run J (tx.appendEntry (resetDraft text now)) baseEntry
          task inputs isRun generations (isInputs.of_same rfl) _ _ _ _ _ _
          applied
      exact keeps_of_advances ok.base base
        ((advances_append ok.base _).trans ok.base baseEntry advances)
        (endAndStart_keeps base isRunAfter generationsAfter inputsAfter rfl ended)
    | none =>
      dsimp only at result
      split at result
      · obtain ⟨⟨placed, boundary⟩, applied, ended⟩ :=
          Coding.bind_eq_ok.mp result
        obtain ⟨base, advances, isRunAfter, generationsAfter, inputsAfter⟩ :=
          boundary_in_run ok.base isRun generations isInputs applied
        exact keeps_of_advances ok.base base advances
          (endAndStart_keeps base isRunAfter generationsAfter inputsAfter rfl ended)
      · obtain ⟨⟨placed, boundary⟩, applied, ended⟩ :=
          Coding.bind_eq_ok.mp result
        obtain ⟨base, advances, isRunAfter, generationsAfter, inputsAfter⟩ :=
          boundary_in_run ok.base isRun generations isInputs applied
        dsimp only at ended
        split at ended
        · exact keeps_of_advances ok.base base advances
            (endAndStart_keeps base isRunAfter generationsAfter inputsAfter
              rfl ended)
        · have isAfter := Except.ok.inj ended
          subst isAfter
          refine keeps_of_advances ok.base base advances ?_
          -- The run takes the placed inputs before it is handed over.
          have grown :
              (placed.conversation.run.map fun run =>
                if run.taskId = task then
                  { run with inputs := run.inputs ++ boundary.users }
                else run) = some ⟨task, inputs ++ boundary.users⟩ := by
            rw [isRunAfter, Option.map_some, if_pos rfl]
          rw [grown]
          have baseGrown : Base (placed.setRun (some ⟨task, inputs ++ boundary.users⟩)) :=
            base_of_same base (Nat.le_refl _) rfl rfl (fun _ member => member) base.entries
          exact keeps_of_advances base baseGrown (advances_of_same base (Nat.le_refl _) rfl rfl)
            (handOver_keeps baseGrown rfl generationsAfter (inputsAfter.of_same rfl))

theorem appendAll {tx : Tx J} (base : Base tx) (drafts : List (EntryDraft J)) :
    Base (drafts.foldl Tx.appendEntry tx) ∧ Advances tx (drafts.foldl Tx.appendEntry tx) ∧
      (drafts.foldl Tx.appendEntry tx).conversation.run = tx.conversation.run ∧
      (drafts.foldl Tx.appendEntry tx).conversation.generations = tx.conversation.generations ∧
      (drafts.foldl Tx.appendEntry tx).submission = tx.submission := by
  induction drafts generalizing tx with
  | nil => exact ⟨base, advances_of_same base (Nat.le_refl _) rfl rfl, rfl, rfl, rfl⟩
  | cons draft rest ih =>
    have baseEntry := base_append base draft
    obtain ⟨baseAfter, advances, isRun, generations, records⟩ := ih baseEntry
    exact ⟨baseAfter, (advances_append base draft).trans base baseEntry advances, isRun,
      generations, records⟩

theorem dropRun_keeps {tx : Tx J} {left : List (EntryDraft J)} {reason : String}
    {detail : Option J} (ok : Ok tx) (result : dropRun tx task left reason detail = .ok after) :
    Keeps tx after := by
  rw [dropRun] at result
  split at result
  · cases result
  · rename_i member
    obtain ⟨inputs, isRun⟩ := ok.run.held (not_not.mp member)
    obtain ⟨generations, isInputs⟩ := ok.run.busy isRun
    obtain ⟨base, advances, sameRun, sameGenerations, records⟩ := appendAll ok.base left
    refine keeps_of_advances ok.base base advances
      (endAndStart_keeps base (sameRun.trans isRun)
        (sameGenerations.trans generations) ?_ rfl result)
    rw [List.append_nil]
    exact isInputs.of_same records

/-! ## Admission -/

theorem submission_create (tx : Tx J) (create : SubmissionRecord J) (id : ℕ) :
    (tx.createSubmission create).submission id =
      if id = tx.next then some { create with id := tx.next }
      else tx.submission id :=
  Function.update_apply _ _ _ _

theorem kept_create {tx : Tx J} (base : Base tx) (create : SubmissionRecord J)
    (found : tx.submission id = some record) :
    (tx.createSubmission create).submission id = some record := by
  rw [submission_create, if_neg (Nat.ne_of_lt (base.records id record found).2), found]

theorem records_create {tx : Tx J} (base : Base tx) (create : SubmissionRecord J)
    (found : (tx.createSubmission create).submission id = some record) :
    record.id = id ∧ id < tx.next + 1 := by
  rw [submission_create] at found
  split at found
  · rename_i isNext
    rw [← Option.some.inj found]
    exact ⟨isNext.symm, isNext ▸ Nat.lt_succ_self _⟩
  · exact (base.records id record found).imp_right Nat.lt_succ_of_lt

theorem base_create {tx : Tx J} (base : Base tx) (create : SubmissionRecord J)
    (left : create.status ≠ .queued)
    (placedAt :
      ∀ entryId, create.entry = some entryId →
        ∃ entry ∈ tx.conversation.entries, entry.id = entryId) :
    Base (tx.createSubmission create) where
  records := fun id record found => records_create base create found
  entries := fun entry member => Nat.lt_succ_of_lt (base.entries entry member)
  placedAt := by
    intro id record entryId found isEntry
    rw [submission_create] at found
    split at found
    · rw [← Option.some.inj found] at isEntry
      exact placedAt entryId isEntry
    · exact base.placedAt id record entryId found isEntry
  bare := by
    intro id record found queued
    rw [submission_create] at found
    split at found
    · rw [← Option.some.inj found] at queued
      exact absurd queued left
    · exact base.bare id record found queued
  ordered := base.ordered
  queued := by
    intro id
    refine (base.queued id).trans ?_
    rw [submission_create]
    split
    · rename_i isNext
      constructor
      · rintro ⟨record, found, _⟩
        rw [isNext, submission_next base] at found
        cases found
      · rintro ⟨record, found, queued⟩
        rw [← Option.some.inj found] at queued
        exact absurd queued left
    · exact Iff.rfl
  typed := by
    intro item member record found
    rw [submission_create] at found
    split at found
    · rename_i isNext
      obtain ⟨other, isOther, _⟩ := (base.queued item.id).mp (List.mem_map_of_mem member)
      rw [isNext, submission_next base] at isOther
      cases isOther
    · exact base.typed item member record found

theorem advances_create {tx : Tx J} (base : Base tx) (create : SubmissionRecord J) :
    Advances tx (tx.createSubmission create) :=
  advances_of_kept base (Nat.le_succ _)
    (fun _ _ found => kept_create base create found) (fun _ member => member)

theorem Inputs.create {tx : Tx J} (base : Base tx) (inputs : Inputs tx ids)
    (create : SubmissionRecord J) (notPlaced : create.status ≠ .placed) :
    Inputs (tx.createSubmission create) ids where
  nodup := inputs.nodup
  placed := by
    intro id member
    obtain ⟨record, found, placed⟩ := inputs.placed id member
    exact ⟨record, kept_create base create found, placed⟩
  all := by
    intro id record found placed
    rw [submission_create] at found
    split at found
    · rw [← Option.some.inj found] at placed
      exact absurd placed notPlaced
    · exact inputs.all id record found placed

theorem itemOf_id (id : ℕ) (body : Body J) : (itemOf id body).id = id := by
  cases body with
  | input content whenBusy entry | write entry => rfl

theorem itemOf_type (id : ℕ) (body : Body J) : (itemOf id body).type = body.type := by
  cases body with
  | input content whenBusy entry | write entry => rfl

theorem submission_enqueue (tx : Tx J) (draft : SubmissionDraft J) (id : ℕ) :
    (enqueue tx draft).submission id =
      if id = tx.next then some { bare draft .queued with id := tx.next }
      else tx.submission id :=
  submission_create tx _ id

theorem base_enqueue {tx : Tx J} (base : Base tx) (draft : SubmissionDraft J) :
    Base (enqueue tx draft) where
  records := fun id record found => records_create base _ found
  entries := fun entry member => Nat.lt_succ_of_lt (base.entries entry member)
  placedAt := by
    intro id record entryId found isEntry
    rw [submission_enqueue] at found
    split at found
    · rw [← Option.some.inj found] at isEntry
      cases isEntry
    · exact base.placedAt id record entryId found isEntry
  bare := by
    intro id record found queued
    rw [submission_enqueue] at found
    split at found
    · rw [← Option.some.inj found]
      rfl
    · exact base.bare id record found queued
  ordered := by
    show ((tx.conversation.inbox ++ [itemOf tx.next draft.body]).map InboxItem.id).Pairwise (· < ·)
    rw [List.map_append]
    refine List.pairwise_append.mpr ⟨base.ordered, List.pairwise_singleton _ _, ?_⟩
    intro id member other isOther
    obtain ⟨record, found, _⟩ := (base.queued id).mp member
    rw [List.mem_singleton.mp isOther, itemOf_id]
    exact (base.records id record found).2
  queued := by
    intro id
    show id ∈ (tx.conversation.inbox ++ [itemOf tx.next draft.body]).map InboxItem.id ↔ _
    rw [List.map_append, List.mem_append, base.queued id, List.map_singleton,
      List.mem_singleton, itemOf_id, submission_enqueue]
    split
    · rename_i isNext
      exact ⟨fun _ => ⟨_, rfl, rfl⟩, fun _ => .inr isNext⟩
    · rename_i notNext
      exact ⟨fun either => either.resolve_right notNext, .inl⟩
  typed := by
    intro item member record found
    rw [submission_enqueue] at found
    rcases List.mem_append.mp member with old | new
    · obtain ⟨other, isOther, _⟩ :=
        (base.queued item.id).mp (List.mem_map_of_mem old)
      split at found
      · rename_i isNext
        rw [isNext, submission_next base] at isOther
        cases isOther
      · exact base.typed item old record found
    · rw [List.mem_singleton.mp new] at found ⊢
      rw [itemOf_id, if_pos rfl] at found
      rw [← Option.some.inj found, itemOf_type]
      rfl

theorem advances_enqueue {tx : Tx J} (base : Base tx) (draft : SubmissionDraft J) :
    Advances tx (enqueue tx draft) :=
  advances_of_kept base (Nat.le_succ _) (fun _ _ found => kept_create base _ found)
    (fun _ member => List.mem_append_left _ member)

theorem Inputs.enqueue {tx : Tx J} (base : Base tx) (inputs : Inputs tx ids)
    (draft : SubmissionDraft J) : Inputs (enqueue tx draft) ids :=
  (inputs.create base (bare draft .queued) fun isPlaced => by cases isPlaced).of_same rfl

theorem keeps_create {tx : Tx J} (ok : Ok tx) (create : SubmissionRecord J)
    (settled : create.status.settled = true)
    (placedAt :
      ∀ entryId, create.entry = some entryId →
        ∃ entry ∈ tx.conversation.entries, entry.id = entryId) :
    Keeps tx (tx.createSubmission create) := by
  refine ⟨⟨base_create ok.base create (not_queued_of_settled settled) placedAt,
    ?_⟩, advances_create ok.base create⟩
  have notPlaced := not_placed_of_settled settled
  cases isRun : tx.conversation.run with
  | none =>
    obtain ⟨generations, inputs⟩ := ok.run.idle isRun
    exact runOk_none isRun generations (inputs.create ok.base create notPlaced)
  | some run =>
    obtain ⟨generations, inputs⟩ := ok.run.busy isRun
    exact runOk_some isRun generations (inputs.create ok.base create notPlaced)

theorem ok_append {tx : Tx J} (ok : Ok tx) (draft : EntryDraft J) : Ok (tx.appendEntry draft) := by
  refine ⟨base_append ok.base draft, ?_⟩
  exact ⟨ok.run.placed, ok.run.nodup, ok.run.inputs, ok.run.generations⟩

theorem keeps_append {tx : Tx J} (ok : Ok tx) (draft : EntryDraft J) :
    Keeps tx (tx.appendEntry draft) :=
  ⟨ok_append ok draft, advances_append ok.base draft⟩

theorem writeNow_keeps {tx : Tx J} (ok : Ok tx) (draft : SubmissionDraft J) (entry : EntryDraft J) :
    Keeps tx (writeNow tx draft entry) := by
  have okEntry := ok_append ok entry
  refine keeps_of_advances ok.base okEntry.base (advances_append ok.base entry)
    (keeps_create okEntry _ rfl ?_)
  intro entryId isEntry
  refine ⟨tx.record entry, List.mem_append_right _ (List.mem_singleton.mpr rfl), ?_⟩
  exact Option.some.inj isEntry

theorem enqueue_keeps {tx : Tx J} (ok : Ok tx) (draft : SubmissionDraft J) :
    Keeps tx (enqueue tx draft) := by
  refine ⟨⟨base_enqueue ok.base draft, ?_⟩, advances_enqueue ok.base draft⟩
  cases isRun : tx.conversation.run with
  | none =>
    obtain ⟨generations, inputs⟩ := ok.run.idle isRun
    exact runOk_none isRun generations (inputs.enqueue ok.base draft)
  | some run =>
    obtain ⟨generations, inputs⟩ := ok.run.busy isRun
    exact runOk_some isRun generations (inputs.enqueue ok.base draft)

theorem startRun_keeps {tx : Tx J} {users : List ℕ} (base : Base tx)
    (generations : tx.conversation.generations = [])
    (inputs : Inputs tx users) : Keeps tx (tx.startRun users) := by
  refine ⟨⟨base_of_same base (Nat.le_succ _) rfl rfl (fun _ member => member)
    (fun entry member => Nat.lt_succ_of_lt (base.entries entry member)), ?_⟩,
    advances_of_same base (Nat.le_succ _) rfl rfl⟩
  refine @runOk_some J _ ⟨tx.next, users⟩ rfl ?_ (inputs.of_same rfl)
  show tx.conversation.generations ++ [tx.next] = _
  rw [generations, List.nil_append]

variable {draft : SubmissionDraft J}

theorem queued_keeps {tx : Tx J} (ok : Ok tx) (isRun : tx.conversation.run = none)
    (result : admitSubmission.queued tx draft now modes = .ok (id, after)) : Keeps tx after := by
  obtain ⟨generations, inputs⟩ := ok.run.idle isRun
  have base := base_enqueue ok.base draft
  obtain ⟨placed, boundary, applied, done⟩ :=
    applyBoundary_boundary base (latestHeadMarker tx.conversation) modes .final now
  rw [admitSubmission.queued, applied] at result
  have isAfter := (Prod.mk.inj (Except.ok.inj result)).2
  have placedInputs := done.inputs (inputs.enqueue ok.base draft)
  rw [List.nil_append] at placedInputs
  have advances := (advances_enqueue ok.base draft).trans ok.base base done.advances
  have noGeneration : placed.conversation.generations = [] := done.generations.trans generations
  split at isAfter
  · rename_i noUsers
    subst isAfter
    rw [noUsers] at placedInputs
    exact ⟨⟨done.base, runOk_none (done.run.trans isRun) noGeneration placedInputs⟩, advances⟩
  · subst isAfter
    exact keeps_of_advances ok.base done.base advances
      (startRun_keeps done.base noGeneration placedInputs)

theorem inputNow_keeps {tx : Tx J} (ok : Ok tx) (isRun : tx.conversation.run = none)
    (draft : SubmissionDraft J) (entry : EntryDraft J) :
    Keeps tx
      (((tx.appendEntry entry).createSubmission
        { bare draft .placed with entry := some tx.next }).startRun [tx.next + 1]) := by
  obtain ⟨generations, inputs⟩ := ok.run.idle isRun
  have okEntry := ok_append ok entry
  have inputsEntry : Inputs (tx.appendEntry entry) [] := inputs.of_same rfl
  have base :=
    base_create okEntry.base { bare draft .placed with entry := some tx.next }
      (fun isQueued => by cases isQueued) (by
        intro entryId isEntry
        exact ⟨tx.record entry, List.mem_append_right _ (List.mem_singleton.mpr rfl),
          Option.some.inj isEntry⟩)
  refine keeps_of_advances ok.base base
    ((advances_append ok.base entry).trans ok.base okEntry.base (advances_create okEntry.base _))
    (startRun_keeps base generations ⟨List.nodup_singleton _, ?_, ?_⟩)
  · intro id member
    rw [List.mem_singleton.mp member, submission_create]
    exact ⟨_, if_pos rfl, rfl⟩
  · intro id record found placed
    rw [submission_create] at found
    split at found
    · rename_i isNext
      exact List.mem_singleton.mpr isNext
    · exact absurd (inputsEntry.all id record found placed) List.not_mem_nil

theorem Keeps.refl {tx : Tx J} (ok : Ok tx) : Keeps tx tx :=
  ⟨ok, advances_of_same ok.base (Nat.le_refl _) rfl rfl⟩

theorem run_eq_none {tx : Tx J} (idle : ¬tx.conversation.run.isSome = true) :
    tx.conversation.run = none :=
  Option.not_isSome_iff_eq_none.mp idle

theorem admitSubmission_keeps {tx : Tx J} (ok : Ok tx)
    (result : admitSubmission tx draft now modes = .ok (id, after)) : Keeps tx after := by
  obtain ⟨_, _, result⟩ := Coding.bind_eq_ok.mp result
  split at result
  · split at result
    · cases result
    · obtain ⟨_, rfl⟩ := Prod.mk.inj (Except.ok.inj result)
      exact Keeps.refl ok
  · split at result
    · rename_i entry _
      split at result
      · obtain ⟨_, rfl⟩ := Prod.mk.inj (Except.ok.inj result)
        exact writeNow_keeps ok draft entry
      split at result
      · obtain ⟨_, rfl⟩ := Prod.mk.inj (Except.ok.inj result)
        exact enqueue_keeps ok draft
      rename_i idle
      split at result
      · exact queued_keeps ok (run_eq_none idle) result
      split at result
      · obtain ⟨_, rfl⟩ := Prod.mk.inj (Except.ok.inj result)
        exact keeps_create ok _ rfl fun _ isEntry => by cases isEntry
      · obtain ⟨_, rfl⟩ := Prod.mk.inj (Except.ok.inj result)
        exact writeNow_keeps ok draft entry
    · rename_i content whenBusy entry _
      split at result
      · split at result
        · cases result
        · obtain ⟨_, rfl⟩ := Prod.mk.inj (Except.ok.inj result)
          exact enqueue_keeps ok draft
      rename_i idle
      split at result
      · exact queued_keeps ok (run_eq_none idle) result
      · obtain ⟨_, rfl⟩ := Prod.mk.inj (Except.ok.inj result)
        exact inputNow_keeps ok (run_eq_none idle) draft (inputDraft content entry now)

/-! ## Withdrawal -/

def Withdrawn (_record changed : SubmissionRecord J) : Prop :=
  changed.status ≠ .placed ∧ changed.entry = none

variable {index : ℕ}

theorem dropItem_keeps {tx : Tx J} {item : InboxItem J} (ok : Ok tx)
    (found : tx.conversation.inbox[index]? = some item)
    (result :
      (tx.change item.id (.unanswered "aborted" none)).map
          (fun tx => tx.setInbox (tx.conversation.inbox.eraseIdx index)) =
        .ok after) : Keeps tx after := by
  obtain ⟨record, isRecord, queued, isBare, _⟩ :=
    waiting_of_mem ok.base (List.mem_of_getElem? found)
  have unsettled : record.status.settled = false := by
    rw [queued]
    rfl
  rw [change_eq isRecord (applied_unanswered unsettled "aborted" none)] at result
  have isAfter := Except.ok.inj result
  subst isAfter
  have serves :
      Serves Withdrawn tx
        (tx.put item.id
          { record with
            status := .unanswered
            reason := some "aborted"
            detail := none }) [item.id] := by
    refine serves_put (Nat.le_refl _) rfl rfl rfl (fun _ member => member)
      (fun fresh => fresh) rfl isRecord queued ⟨rfl, rfl, ?_, ⟨?_, isBare⟩, ?_⟩
    · exact fun isQueued => by cases isQueued
    · exact fun isPlaced => by cases isPlaced
    · intro entryId isEntry
      rw [isBare] at isEntry
      cases isEntry
  have distinct : (tx.conversation.inbox.map InboxItem.id).Nodup := ok.base.ordered.imp Nat.ne_of_lt
  have stays (other : InboxItem J) :
      other ∈ tx.conversation.inbox.eraseIdx index ↔
        other ∈ tx.conversation.inbox ∧ other.id ∉ [item.id] := by
    have left :=
      @Picks.mem_left_iff _ _ InboxItem.id tx.conversation.inbox [index]
        (List.pairwise_singleton _ _) distinct other
    rwa [Picks.taken, List.filterMap_cons_some found] at left
  have inOrder :
      InOrder tx
        (tx.put item.id
          { record with
            status := .unanswered
            reason := some "aborted"
            detail := none }) [item.id] := by
    intro older _ newer _ _ _ _ member two second isTwo isSecond
    obtain ⟨_, changed, _, _, isChanged, _, _, _, withdrawn, _⟩ := serves.served newer.id member
    have isSame : changed = two := Option.some.inj (isChanged.symm.trans isTwo)
    subst isSame
    rw [withdrawn.2] at isSecond
    cases isSecond
  have inputs {ids : List ℕ} (inputs : Inputs tx ids) :
      Inputs
        ((tx.put item.id
          { record with
            status := .unanswered
            reason := some "aborted"
            detail := none }).setInbox
              (tx.conversation.inbox.eraseIdx index)) ids := by
    refine ⟨inputs.nodup, ?_, ?_⟩
    · intro id member
      obtain ⟨other, isOther, placed⟩ := inputs.placed id member
      refine ⟨other, (serves.others id ?_).trans isOther, placed⟩
      rw [List.mem_singleton]
      rintro rfl
      have isSame : other = record := Option.some.inj (isOther.symm.trans isRecord)
      subst isSame
      rw [queued] at placed
      cases placed
    · intro id other isOther placed
      rcases serves.submission id with ⟨_, same⟩ |
        ⟨_, _, changed, _, _, isChanged, _, _, _, withdrawn, _⟩
      · exact inputs.all id other (same.symm.trans isOther) placed
      · have isSame : changed = other :=
          Option.some.inj (isChanged.symm.trans isOther)
        subst isSame
        exact absurd placed withdrawn.1
  refine ⟨⟨base_setInbox ok.base serves (List.eraseIdx_sublist _ _) stays, ?_⟩,
    advances_setInbox ok.base serves stays inOrder⟩
  cases isRun : tx.conversation.run with
  | none =>
    obtain ⟨generations, old⟩ := ok.run.idle isRun
    exact runOk_none isRun generations (inputs old)
  | some run =>
    obtain ⟨generations, old⟩ := ok.run.busy isRun
    exact runOk_some isRun generations (inputs old)

theorem withdraw_keeps {tx : Tx J} (ok : Ok tx) (result : withdraw tx id = .ok after) :
    Keeps tx after := by
  rw [withdraw] at result
  split at result
  · have isAfter := Except.ok.inj result
    subst isAfter
    exact Keeps.refl ok
  · rename_i record found
    split at result
    · rename_i queued
      obtain ⟨item, member, isId⟩ :=
        List.mem_map.mp ((ok.base.queued id).mpr ⟨record, found, queued⟩)
      have exists_ : ∃ other ∈ tx.conversation.inbox, decide (other.id = id) = true :=
        ⟨item, member, decide_eq_true isId⟩
      have bound := List.findIdx_lt_length_of_exists exists_
      have isItem :=
        @List.findIdx_getElem _ (fun item => decide (item.id = id)) tx.conversation.inbox bound
      have sameId := of_decide_eq_true isItem
      have unsettled : record.status.settled = false := by
        rw [queued]
        rfl
      have changed := change_eq found (applied_unanswered unsettled "aborted" none)
      refine dropItem_keeps ok (List.getElem?_eq_getElem bound) ?_
      rw [changed] at result
      rw [sameId, changed]
      exact result
    · have isAfter := Except.ok.inj result
      subst isAfter
      exact Keeps.refl ok

theorem withdrawAt_keeps {tx : Tx J} (ok : Ok tx) (result : withdrawAt tx index = .ok after) :
    Keeps tx after := by
  rw [withdrawAt] at result
  split at result
  · rename_i id mode content entry found
    exact dropItem_keeps ok found result
  · have isAfter := Except.ok.inj result
    subst isAfter
    exact Keeps.refl ok

theorem withdrawQueuedInputs_keeps
    {tx : Tx J} (ok : Ok tx) (result : withdrawQueuedInputs tx = .ok after) : Keeps tx after := by
  refine Coding.foldlM_keeps (fun index _ middle next before isNext => ?_) (Keeps.refl ok) result
  have keeps := withdrawAt_keeps before.ok isNext
  exact keeps_of_advances ok.base before.ok.base before.advances keeps

/-! ## Runs -/

def Session.tx (session : Session J) (conversation : ℕ) : Tx J :=
  ⟨session.next, session.conversations conversation⟩

theorem ok_later {tx : Tx J} (ok : Ok tx) {next : ℕ} (le : tx.next ≤ next) :
    Ok ⟨next, tx.conversation⟩ := by
  refine ⟨base_of_same ok.base le rfl rfl (fun _ member => member)
    (fun entry member => Nat.lt_of_lt_of_le (ok.base.entries entry member) le),
    ?_⟩
  exact ⟨ok.run.placed, ok.run.nodup, ok.run.inputs, ok.run.generations⟩

def KeepsAll (session after : Session J) : Prop :=
  ∀ conversation, Keeps (session.tx conversation) (after.tx conversation)

variable {session : Session J} {body : Tx J → Except Failure (Tx J)} {conversation : ℕ}

theorem commit_error {failure : Failure}
    (result : body (session.tx conversation) = .error failure) :
    session.commit conversation body = session := by
  rw [Session.tx] at result
  rw [Session.commit, result]

theorem tx_commit (result : body (session.tx conversation) = .ok after) (other : ℕ) :
    (session.commit conversation body).tx other =
      if other = conversation then after
      else ⟨after.next, session.conversations other⟩ := by
  rw [Session.tx] at result
  rw [Session.commit, result]
  dsimp only [Session.tx]
  rw [Function.update_apply]
  split
  · rfl
  · rfl

theorem commit_keeps (ok : ∀ conversation, Ok (session.tx conversation)) (conversation : ℕ)
    (keeps :
      ∀ after, body (session.tx conversation) = .ok after → Keeps (session.tx conversation) after) :
    KeepsAll session (session.commit conversation body) := by
  intro other
  cases result : body (session.tx conversation) with
  | error failure =>
    rw [commit_error result]
    exact Keeps.refl (ok other)
  | ok after =>
    have kept := keeps after result
    rw [tx_commit result]
    split
    · rename_i same
      subst same
      exact kept
    · exact ⟨ok_later (ok other) kept.advances.next,
        advances_of_same (ok other).base kept.advances.next rfl rfl⟩

theorem step_keeps (ok : ∀ conversation, Ok (session.tx conversation)) (event : Event J) :
    KeepsAll session (session.step event) := by
  cases event with
  | submit conversation draft now modes =>
    refine commit_keeps ok conversation ?_
    intro after result
    obtain ⟨⟨id, other⟩, admitted, rfl⟩ := Coding.map_eq_ok.mp result
    exact admitSubmission_keeps (ok conversation) admitted
  | withdraw conversation id =>
    exact commit_keeps ok conversation fun after result => withdraw_keeps (ok conversation) result
  | withdrawInputs conversation =>
    exact commit_keeps ok conversation fun after result =>
      withdrawQueuedInputs_keeps (ok conversation) result
  | answer conversation task message continuation now modes =>
    exact commit_keeps ok conversation fun after result => answer_keeps (ok conversation) result
  | finishToolRound conversation task assistant terminate handoff now modes =>
    exact commit_keeps ok conversation fun after result =>
      finishToolRound_keeps (ok conversation) result
  | dropRun conversation task left reason detail =>
    exact commit_keeps ok conversation fun after result => dropRun_keeps (ok conversation) result
  | append conversation draft =>
    refine commit_keeps ok conversation ?_
    intro after result
    have isAfter := Except.ok.inj result
    subst isAfter
    exact keeps_append (ok conversation) draft
  | mint =>
    intro conversation
    exact ⟨ok_later (ok conversation) (Nat.le_succ _),
      advances_of_same (ok conversation).base (Nat.le_succ _) rfl rfl⟩

theorem ok_initial (inherited : ℕ → Option ℕ) (conversation : ℕ) :
    Ok ((Session.initial inherited : Session J).tx conversation) where
  base := by
    refine ⟨?_, ?_, ?_, ?_, List.Pairwise.nil, ?_, ?_⟩
    · intro id record found
      cases found
    · exact fun entry member => absurd member List.not_mem_nil
    · intro id record entryId found
      cases found
    · intro id record found
      cases found
    · intro id
      constructor
      · exact fun member => absurd member List.not_mem_nil
      · rintro ⟨record, found, _⟩
        cases found
    · exact fun item member => absurd member List.not_mem_nil
  run := by
    refine runOk_none rfl rfl ⟨List.nodup_nil, ?_, ?_⟩
    · exact fun id member => absurd member List.not_mem_nil
    · intro id record found
      cases found

theorem ok_after (inherited : ℕ → Option ℕ) (events : List (Event J)) :
    ∀ conversation, Ok (((Session.initial inherited).after events).tx conversation) :=
  Runs.after_invariant Session.step (fun session => ∀ conversation, Ok (session.tx conversation))
    (fun _ event ok conversation => (step_keeps ok event conversation).ok)
    (ok_initial inherited) events

theorem advances_after (ok : ∀ conversation, Ok (session.tx conversation))
    (events : List (Event J)) : KeepsAll session (session.after events) := by
  induction events generalizing session with
  | nil => exact fun conversation => Keeps.refl (ok conversation)
  | cons event rest ih =>
    intro conversation
    have first := step_keeps ok event
    have next := fun other => (first other).ok
    exact keeps_of_advances (ok conversation).base (next conversation).base
      (first conversation).advances (ih next conversation)

/-- The inbox lists exactly the queued submissions, in ascending ID order, and
the placed inputs are those of the conversation's run. -/
structure Bookkept (tx : Tx J) : Prop where
  ordered : (tx.conversation.inbox.map InboxItem.id).Pairwise (· < ·)
  queued :
    ∀ id, id ∈ tx.conversation.inbox.map InboxItem.id ↔
      ∃ record, tx.submission id = some record ∧ record.status = .queued
  placed :
    ∀ id record, tx.submission id = some record → record.status = .placed →
      ∃ run, tx.conversation.run = some run ∧ id ∈ run.inputs
  placedAt :
    ∀ id record entryId, tx.submission id = some record → record.entry = some entryId →
      ∃ entry ∈ tx.conversation.entries, entry.id = entryId

/-- What becomes of the submissions of a conversation: none is lost; one that
left the queue keeps its entry and does not return; a settled one does not
change; and of two queued inputs of one mode the newer is placed only after the
older has left the queue, and at a later entry. -/
structure ServedOnce (tx after : Tx J) : Prop where
  left :
    ∀ id record, tx.submission id = some record →
      ∃ changed, after.submission id = some changed ∧
        (record.status ≠ .queued →
          changed.status ≠ .queued ∧ changed.entry = record.entry) ∧
        (record.status.settled = true → changed = record)
  order :
    ∀ older ∈ tx.conversation.inbox, ∀ newer ∈ tx.conversation.inbox,
      older.mode = newer.mode → newer.mode ≠ none → older.id < newer.id →
      ∀ record entry, after.submission newer.id = some record → record.entry = some entry →
        ∃ other, after.submission older.id = some other ∧ other.status ≠ .queued ∧
          ∀ before, other.entry = some before → before < entry

end PiEmbodied.Durable.Submissions
