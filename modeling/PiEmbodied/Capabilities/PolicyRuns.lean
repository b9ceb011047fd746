import PiEmbodied.Capabilities.Policy

/-!
# Runs of a persistent policy

What holds of every action, success and request of a policy store, whatever the
host, the model, the world and the crashes do.
-/

namespace PiEmbodied.Policy

open Runs

/-! ## Logs -/

section Logs

variable {α : Type}

/-- What holds of every entry of a log after the ones before it. -/
def Always (property : List α → α → Prop) (log : List α) : Prop :=
  ∀ earlier entry later, log = earlier ++ entry :: later → property earlier entry

theorem always_nil (property : List α → α → Prop) : Always property [] := by
  intro earlier entry later isSplit
  have lengths := congrArg List.length isSplit
  simp at lengths

theorem Always.append {property : List α → α → Prop} {log : List α} (always : Always property log)
    {last : α} (holds : property log last) : Always property (log ++ [last]) := by
  intro earlier entry later isSplit
  rcases List.eq_nil_or_concat later with isNil | ⟨others, final, isConcat⟩
  · rw [isNil] at isSplit
    obtain ⟨sameLog, sameEntry⟩ := List.append_inj' isSplit rfl
    cases sameEntry
    exact sameLog ▸ holds
  · rw [isConcat, List.concat_eq_append, ← List.cons_append, ← List.append_assoc] at isSplit
    obtain ⟨sameLog, _⟩ := List.append_inj' isSplit rfl
    exact always earlier entry others sameLog

end Logs

def Happened.isDispatch : Happened → Bool
  | .dispatched _ _ _ _ => true
  | _ => false

/-- A process observed the world so, and nothing was dispatched since. -/
def Sighted (log : List Happened) (boot : ℕ) (identity : WorldIdentity) (solved : Bool) : Prop :=
  ∃ earlier later,
    log = earlier ++ .observed boot identity solved :: later ∧
      ∀ entry ∈ later, entry.isDispatch = false

def Happened.isActionFor (goal : Option String) : Happened → Bool
  | .dispatched _ _ other _ => other = goal
  | _ => false

def actionsFor (goal : Option String) (log : List Happened) : ℕ :=
  log.countP (Happened.isActionFor goal)

def Happened.isRequestFor (accepted : ℕ) : Happened → Bool
  | .requested other _ => other = accepted
  | _ => false

def requestsFor (accepted : ℕ) (log : List Happened) : ℕ :=
  log.countP (Happened.isRequestFor accepted)

/-- An action follows a sight of the world as it is, and its goal had fewer
actions than allowed. -/
def Happened.Fresh (earlier : List Happened) : Happened → Prop
  | .dispatched boot identity goal maxActions =>
    (∃ solved, Sighted earlier boot identity solved) ∧ actionsFor goal earlier < maxActions
  | _ => True

def Happened.Within (earlier : List Happened) : Happened → Prop
  | .requested accepted maxRequests => requestsFor accepted earlier < maxRequests
  | _ => True

theorem sighted_now (log : List Happened) (boot : ℕ) (identity : WorldIdentity) (solved : Bool) :
    Sighted (log ++ [.observed boot identity solved]) boot identity solved :=
  ⟨log, [], rfl, fun _ member => by cases member⟩

variable {boot : ℕ} {log : List Happened} {last : Happened}

theorem Sighted.append {identity : WorldIdentity} {solved : Bool}
    (sighted : Sighted log boot identity solved) (notDispatch : last.isDispatch = false) :
    Sighted (log ++ [last]) boot identity solved := by
  obtain ⟨earlier, later, isSplit, quiet⟩ := sighted
  refine ⟨earlier, later ++ [last], ?_, ?_⟩
  · rw [isSplit, List.append_assoc, List.cons_append]
  · intro entry member
    rcases List.mem_append.mp member with isLater | isLast
    · exact quiet entry isLater
    · rw [List.mem_singleton.mp isLast]
      exact notDispatch

theorem actionsFor_append (goal : Option String) (log : List Happened) (last : Happened) :
    actionsFor goal (log ++ [last]) =
      actionsFor goal log + if last.isActionFor goal then 1 else 0 := by
  rw [actionsFor, actionsFor, List.countP_append, List.countP_singleton]

theorem requestsFor_append (accepted : ℕ) (log : List Happened) (last : Happened) :
    requestsFor accepted (log ++ [last]) =
      requestsFor accepted log +
        if last.isRequestFor accepted then 1 else 0 := by
  rw [requestsFor, requestsFor, List.countP_append, List.countP_singleton]

/-! ## Goals -/

/-- Goals of a later document: none is lost, no text changes, and a success or
failure stays what it is. -/
def GoalsKept (before after : List Goal) : Prop :=
  ∀ goal ∈ before,
    ∃ later ∈ after,
      later.id = goal.id ∧ later.text = goal.text ∧ (goal.ended = true → later.status = goal.status)

theorem goalsKept_refl (goals : List Goal) : GoalsKept goals goals :=
  fun goal member => ⟨goal, member, rfl, rfl, fun _ => rfl⟩

variable {first second : Goal}

theorem ended_of_status (same : second.status = first.status) (ended : first.ended = true) :
    second.ended = true := by
  rw [Goal.ended, same]
  exact ended

theorem GoalsKept.trans {first second third : List Goal} (start : GoalsKept first second)
    (rest : GoalsKept second third) : GoalsKept first third := by
  intro goal member
  obtain ⟨next, isNext, sameId, sameText, sameStatus⟩ := start goal member
  obtain ⟨later, isLater, laterId, laterText, laterStatus⟩ := rest next isNext
  refine ⟨later, isLater, laterId.trans sameId, laterText.trans sameText, ?_⟩
  intro ended
  have isSame := sameStatus ended
  exact (laterStatus (ended_of_status isSame ended)).trans isSame

/-- The goals of a document: no two of one id, the current one among them, and
every other one concluded. -/
structure GoalsInv (state : PolicyState) : Prop where
  distinct : (state.goals.map Goal.id).Nodup
  current : ∀ id, state.current = some id → id ∈ state.goals.map Goal.id
  settled : ∀ goal ∈ state.goals, some goal.id ≠ state.current → goal.ended = true

variable {goals : List Goal}

theorem eq_of_same_id (distinct : (goals.map Goal.id).Nodup) (isFirst : first ∈ goals)
    (isSecond : second ∈ goals) (same : first.id = second.id) : first = second :=
  List.inj_on_of_nodup_map distinct isFirst isSecond same

variable {state : PolicyState} {goal : Goal}

theorem currentGoal_spec (isCurrent : currentGoal state = some goal) :
    goal ∈ state.goals ∧ some goal.id = state.current := by
  have isGoal := List.find?_some isCurrent
  exact ⟨List.mem_of_find?_eq_some isCurrent, of_decide_eq_true isGoal⟩

theorem conclude_ids (goals : List Goal) (id : String) (status : Status) (summary : String) :
    (conclude goals id status summary).map Goal.id = goals.map Goal.id := by
  rw [conclude, List.map_map]
  apply List.map_congr_left
  intro goal _
  rw [Function.comp_apply]
  split
  · rfl
  · rfl

variable {id : String}

theorem goalsKept_conclude (open_ : ∀ goal ∈ goals, goal.id = id → goal.ended = false)
    (status : Status) (summary : String) : GoalsKept goals (conclude goals id status summary) := by
  intro goal member
  refine ⟨_, List.mem_map_of_mem member, ?_⟩
  split
  · rename_i isGoal
    refine ⟨rfl, rfl, ?_⟩
    intro ended
    rw [open_ goal member isGoal] at ended
    cases ended
  · exact ⟨rfl, rfl, fun _ => rfl⟩

variable {summary : String} {status : Status}

theorem mem_conclude (member : goal ∈ conclude goals id status summary) :
    goal ∈ goals ∨ goal.id = id ∧ goal.status = status := by
  obtain ⟨old, isOld, isNew⟩ := List.mem_map.mp member
  split at isNew
  · rename_i isGoal
    rw [← isNew]
    exact .inr ⟨isGoal, rfl⟩
  · rw [← isNew]
    exact .inl isOld

structure Kept (before after : PolicyState) : Prop where
  current : after.current = before.current
  events : after.events = before.events
  ids : after.goals.map Goal.id = before.goals.map Goal.id
  settled :
    GoalsInv before → ∀ goal ∈ after.goals, some goal.id ≠ before.current → goal.ended = true
  goals : GoalsInv before → GoalsKept before.goals after.goals

variable {before : PolicyState}

theorem Kept.inv {after : PolicyState} (kept : Kept before after) (inv : GoalsInv before) :
    GoalsInv after where
  distinct := by
    rw [kept.ids]
    exact inv.distinct
  current := by
    rw [kept.current, kept.ids]
    exact inv.current
  settled := by
    rw [kept.current]
    exact kept.settled inv

theorem kept_of_same {before after : PolicyState} (current : after.current = before.current)
    (events : after.events = before.events)
    (goals : after.goals = before.goals) : Kept before after where
  current := current
  events := events
  ids := by rw [goals]
  settled := by
    rw [goals]
    exact fun inv => inv.settled
  goals := by
    rw [goals]
    exact fun _ => goalsKept_refl before.goals

theorem kept_of_conclude {after : PolicyState} (isCurrent : currentGoal before = some goal)
    (isActive : goal.status = .active) (current : after.current = before.current)
    (events : after.events = before.events)
    (goals : after.goals = conclude before.goals goal.id status summary) :
    Kept before after where
  current := current
  events := events
  ids := by rw [goals, conclude_ids]
  settled := by
    intro inv other member notCurrent
    rw [goals] at member
    rcases mem_conclude member with isOld | ⟨isGoal, _⟩
    · exact inv.settled other isOld notCurrent
    · rw [isGoal] at notCurrent
      exact absurd (currentGoal_spec isCurrent).2 notCurrent
  goals := by
    intro inv
    rw [goals]
    apply goalsKept_conclude
    intro other member same
    have isGoal := eq_of_same_id inv.distinct member (currentGoal_spec isCurrent).1 same
    rw [isGoal, Goal.ended, isActive]
    rfl

/-! ## Commits -/

variable (world : WorldIdentity) (maxRequests : ℕ)

theorem allow_kept (state : PolicyState) :
    Kept state (allow maxRequests state).1 := by
  rw [allow]
  split
  · exact kept_of_same rfl rfl rfl
  · rename_i goal isCurrent
    split
    · exact kept_of_same rfl rfl rfl
    · rename_i notInactive
      have isActive : goal.status = .active := not_not.mp notInactive
      split
      · exact kept_of_conclude isCurrent isActive rfl rfl rfl
      · exact kept_of_same rfl rfl rfl

theorem allow_counts (state : PolicyState) :
    (allow maxRequests state).1.observation = state.observation ∧
      (allow maxRequests state).1.actions = state.actions ∧
        if (allow maxRequests state).2 then
          (allow maxRequests state).1.requests = state.requests + 1 ∧ state.requests < maxRequests
        else (allow maxRequests state).1.requests = state.requests := by
  rw [allow]
  split
  · exact ⟨rfl, rfl, rfl⟩
  · split
    · exact ⟨rfl, rfl, rfl⟩
    · split
      · exact ⟨rfl, rfl, rfl⟩
      · rename_i left
        exact ⟨rfl, rfl, rfl, Nat.lt_of_not_ge left⟩

variable {now : WorldIdentity}

theorem assertFresh_spec {seen : Seen} (fresh : assertFresh boot now state = .ok seen) :
    state.observation = some seen ∧ seen.boot = boot ∧ seen.identity = now := by
  rw [assertFresh] at fresh
  split at fresh
  · cases fresh
  · split at fresh
    · cases fresh
    · rename_i found isObservation
      split at fresh
      · rename_i isFresh
        cases fresh
        rw [Bool.and_eq_true, decide_eq_true_eq, decide_eq_true_eq] at isFresh
        exact ⟨isObservation, isFresh⟩
      · cases fresh

variable {callId : String} {tool : String}

theorem commitAct_spec {maxActions : ℕ} {after : PolicyState}
    (acted : commitAct boot maxActions now callId tool state = .ok after) :
    (∃ seen, assertFresh boot now state = .ok seen) ∧
      state.actions < maxActions ∧ after.actions = state.actions + 1 ∧
        after.observation = none ∧ after.requests = state.requests ∧
          Kept state after := by
  rw [commitAct] at acted
  split at acted
  · cases acted
  · rename_i seen isFresh
    split at acted
    · cases acted
    · rename_i left
      cases acted
      exact ⟨⟨seen, isFresh⟩, Nat.lt_of_not_ge left, rfl, rfl, rfl, kept_of_same rfl rfl rfl⟩

theorem commitFinish_spec {conclusion : Conclusion} {after : PolicyState}
    (finished : commitFinish boot now conclusion summary state = .ok after) :
    Kept state after ∧ after.observation = none ∧
      after.requests = state.requests ∧ after.actions = state.actions ∧
        ∀ goal ∈ after.goals, goal.status = .success →
          goal ∈ state.goals ∨
            ∃ seen, assertFresh boot now state = .ok seen ∧ seen.solved = true := by
  rw [commitFinish] at finished
  split at finished
  · cases finished
  · rename_i goal isCurrent
    split at finished
    · cases finished
    · rename_i notInactive
      have isActive : goal.status = .active := not_not.mp notInactive
      split at finished
      · cases finished
      · rename_i isConfirmed
        cases finished
        refine ⟨kept_of_conclude isCurrent isActive rfl rfl rfl, rfl, rfl, rfl, ?_⟩
        intro other member isSuccess
        rcases mem_conclude member with isOld | ⟨_, isStatus⟩
        · exact .inl isOld
        · rw [isSuccess] at isStatus
          cases conclusion with
          | success =>
            rw [confirm] at isConfirmed
            split at isConfirmed
            · cases isConfirmed
            · rename_i seen isFresh
              split at isConfirmed
              · rename_i isSolved
                exact .inr ⟨seen, isFresh, isSolved⟩
              · cases isConfirmed
          | failure | waiting => cases isStatus

theorem onYield_spec (summary : String) (state : PolicyState) :
    Kept state (onYield summary state) ∧
      (onYield summary state).observation = state.observation ∧
        (onYield summary state).requests = state.requests ∧
          (onYield summary state).actions = state.actions := by
  rw [onYield]
  split
  · exact ⟨kept_of_same rfl rfl rfl, rfl, rfl, rfl⟩
  · rename_i goal isCurrent
    split
    · rename_i isActive
      exact ⟨kept_of_conclude isCurrent isActive rfl rfl rfl, rfl, rfl, rfl⟩
    · exact ⟨kept_of_same rfl rfl rfl, rfl, rfl, rfl⟩

theorem mount_spec {robot : String} {after : PolicyState}
    (mounted : mount robot state = .ok after) :
    Kept state after ∧ after.observation = none ∧
      after.requests = state.requests ∧ after.actions = state.actions := by
  rw [mount] at mounted
  split at mounted
  · cases mounted
  · cases mounted
    exact ⟨kept_of_same rfl rfl rfl, rfl, rfl, rfl⟩

/-! ## Accepted events -/

variable {event : GoalEvent}

theorem activate_spec {after : List Goal} (activated : activate goals event = .ok after)
    (distinct : (goals.map Goal.id).Nodup) :
    (after.map Goal.id).Nodup ∧ event.goalId ∈ after.map Goal.id ∧
      (∀ goal ∈ goals, goal.id = event.goalId → goal.ended = false) ∧
        (∀ goal ∈ after, goal.id ≠ event.goalId → goal ∈ goals) ∧
          (∀ goal ∈ after, goal.status = .success → goal ∈ goals) ∧
            GoalsKept goals after := by
  rw [activate] at activated
  split at activated
  · rename_i isNew
    cases activated
    have others : ∀ goal ∈ goals, goal.id ≠ event.goalId := by
      intro goal member
      have isOther := List.find?_eq_none.mp isNew goal member
      simpa using isOther
    refine ⟨?_, ?_, ?_, ?_, ?_, ?_⟩
    · rw [List.map_append, List.nodup_append]
      refine ⟨distinct, List.nodup_singleton _, ?_⟩
      intro id isOld other isOther
      rw [List.map_singleton, List.mem_singleton] at isOther
      obtain ⟨goal, member, isId⟩ := List.mem_map.mp isOld
      rw [isOther, ← isId]
      exact others goal member
    · rw [List.map_append]
      exact List.mem_append_right _ List.mem_cons_self
    · intro goal member isGoal
      exact absurd isGoal (others goal member)
    · intro goal member notGoal
      rcases List.mem_append.mp member with isOld | isLast
      · exact isOld
      · rw [List.mem_singleton.mp isLast] at notGoal
        exact absurd rfl notGoal
    · intro goal member isSuccess
      rcases List.mem_append.mp member with isOld | isLast
      · exact isOld
      · rw [List.mem_singleton.mp isLast] at isSuccess
        cases isSuccess
    · intro goal member
      exact ⟨goal, List.mem_append_left _ member, rfl, rfl, fun _ => rfl⟩
  · rename_i goal isFound
    split at activated
    · cases activated
    · rename_i goesOn
      cases activated
      rw [not_or] at goesOn
      have notEnded : goal.ended = false := Bool.eq_false_iff.mpr goesOn.2
      have isMember := List.mem_of_find?_eq_some isFound
      have matched := List.find?_some isFound
      have isId : goal.id = event.goalId := of_decide_eq_true matched
      have open_ : ∀ other ∈ goals, other.id = event.goalId → other.ended = false := by
        intro other member sameId
        rw [eq_of_same_id distinct member isMember (sameId.trans isId.symm)]
        exact notEnded
      have sameIds :
          (goals.map fun other =>
              if other.id = event.goalId then
                { other with status := .active }
              else other).map Goal.id = goals.map Goal.id := by
        rw [List.map_map]
        apply List.map_congr_left
        intro other _
        rw [Function.comp_apply]
        split
        · rfl
        · rfl
      refine ⟨?_, ?_, open_, ?_, ?_, ?_⟩
      · rw [sameIds]
        exact distinct
      · rw [sameIds, ← isId]
        exact List.mem_map_of_mem isMember
      · intro other member notGoal
        obtain ⟨old, isOld, isNew⟩ := List.mem_map.mp member
        split at isNew
        · rename_i isGoal
          rw [← isNew] at notGoal
          exact absurd isGoal notGoal
        · rw [← isNew]
          exact isOld
      · intro other member isSuccess
        obtain ⟨old, isOld, isNew⟩ := List.mem_map.mp member
        split at isNew
        · rw [← isNew] at isSuccess
          cases isSuccess
        · rw [← isNew]
          exact isOld
      · intro other member
        refine ⟨_, List.mem_map_of_mem member, ?_⟩
        split
        · rename_i isGoal
          refine ⟨rfl, rfl, ?_⟩
          intro ended
          rw [open_ other member isGoal] at ended
          cases ended
        · exact ⟨rfl, rfl, fun _ => rfl⟩

variable {busy : Bool}

theorem accept_cases {after : PolicyState} (accepted : accept busy event state = .ok after) :
    (after = state ∧
        ∃ existing ∈ state.events,
          existing.key = event.key ∧ existing.goal = event.goal ∧ existing.input = event.text) ∨
      (busy = false ∧ (∀ existing ∈ state.events, existing.key ≠ event.key) ∧
        blocks event (currentGoal state) = false ∧
          ∃ goals, activate state.goals event = .ok goals ∧ after = enter event goals state) := by
  rw [accept] at accepted
  split at accepted
  · cases accepted
  · split at accepted
    · rename_i existing isFound
      split at accepted
      · cases accepted
      · rename_i same
        cases accepted
        rw [not_or, not_not, not_not] at same
        have matched := List.find?_some isFound
        have isKey : existing.key = event.key := of_decide_eq_true matched
        exact .inl ⟨rfl, existing, List.mem_of_find?_eq_some isFound, isKey, same⟩
    · rename_i isNew
      split at accepted
      · cases accepted
      · rename_i notBusy
        split at accepted
        · cases accepted
        · rename_i notBlocked
          split at accepted
          · cases accepted
          · rename_i goals isActive
            cases accepted
            refine .inr ⟨Bool.eq_false_iff.mpr notBusy, ?_,
              Bool.eq_false_iff.mpr notBlocked, goals, isActive, rfl⟩
            intro existing member isKey
            have isOther := List.find?_eq_none.mp isNew existing member
            exact isOther (decide_eq_true isKey)

theorem enter_goals (inv : GoalsInv state) (free : blocks event (currentGoal state) = false)
    (activated : activate state.goals event = .ok goals) : GoalsInv (enter event goals state) := by
  obtain ⟨distinct, isIn, _, others, _, _⟩ := activate_spec activated inv.distinct
  refine ⟨distinct, ?_, ?_⟩
  · intro id isCurrent
    cases isCurrent
    exact isIn
  · intro goal member notCurrent
    have notGoal : goal.id ≠ event.goalId := by
      intro same
      exact notCurrent (congrArg some same)
    have isOld := others goal member notGoal
    by_cases wasCurrent : some goal.id = state.current
    · have isFound : currentGoal state = some goal := by
        cases found : currentGoal state with
        | none =>
          have none_ := List.find?_eq_none.mp found goal isOld
          exact absurd (decide_eq_true wasCurrent) none_
        | some other =>
          obtain ⟨isMember, isCurrent⟩ := currentGoal_spec found
          have sameId : other.id = goal.id := Option.some.inj (isCurrent.trans wasCurrent.symm)
          rw [eq_of_same_id inv.distinct isMember isOld sameId]
      rwa [isFound, blocks, Option.any_some, decide_eq_true notGoal,
        Bool.true_and, Bool.not_eq_false'] at free
    · exact inv.settled goal isOld wasCurrent

/-! ## What every run keeps -/

/-- An action committed and not dispatched: it was committed on sight, is
counted, and used up the observation. -/
structure Acting (system : System) (process : Process) (expected : WorldIdentity) : Prop where
  sight : ∃ solved, Sighted system.log process.boot expected solved
  counted : actionsFor system.store.state.current system.log < system.store.state.actions
  allowed : system.store.state.actions ≤ process.maxActions
  unseen : system.store.state.observation = none

structure Inv (system : System) : Prop where
  goals : GoalsInv system.store.state
  seen :
    ∀ seen, system.store.state.observation = some seen →
      Sighted system.log seen.boot seen.identity seen.solved
  counted : actionsFor system.store.state.current system.log ≤ system.store.state.actions
  ofGoals :
    ∀ boot identity id maxActions,
      Happened.dispatched boot identity (some id) maxActions ∈ system.log →
        id ∈ system.store.state.goals.map Goal.id
  busy : ∀ process, system.process = some process → process.doing ≠ .idle → system.store.run = true
  acting :
    ∀ process callId expected, system.process = some process →
      process.doing = .acting callId expected → Acting system process expected
  named :
    ∀ existing ∈ system.store.state.events,
      isBlank existing.key.goalId = false ∧
        isBlank existing.key.eventId = false ∧ isBlank existing.goal = false
  accepted : (system.store.state.events.map Accepted.key).Nodup
  admitted : system.store.admitted.Nodup
  acts : Always Happened.Fresh system.log

theorem inv_begin : Inv (begin_ world) where
  goals :=
    { distinct := List.nodup_nil
      current := fun _ isCurrent => by cases isCurrent
      settled := fun _ member => by cases member }
  seen := fun _ isSeen => by cases isSeen
  counted := Nat.le_refl 0
  ofGoals := fun _ _ _ _ member => by cases member
  busy := fun _ isProcess => by cases isProcess
  acting := fun _ _ _ isProcess => by cases isProcess
  named := fun _ member => by cases member
  accepted := List.nodup_nil
  admitted := List.nodup_nil
  acts := always_nil _

variable {system : System}

section

variable (inv : Inv system)
include inv

theorem Inv.inWorld (world : WorldIdentity) :
    Inv { system with world := world } :=
  { inv with
    acting := fun process callId expected isProcess isActing =>
      let acting := inv.acting process callId expected isProcess isActing
      ⟨acting.sight, acting.counted, acting.allowed, acting.unseen⟩ }

theorem Inv.restart {process : Option Process}
    (isIdle : ∀ opened, process = some opened → opened.doing = .idle) (boots : ℕ) :
    Inv { system with process := process, boots := boots } :=
  { inv with
    busy := fun opened isProcess notIdle => absurd (isIdle opened isProcess) notIdle
    acting := by
      intro opened callId expected isProcess isActing
      rw [isIdle opened isProcess] at isActing
      cases isActing }

theorem Inv.commit {after : PolicyState} (kept : Kept system.store.state after)
    (observation : after.observation = system.store.state.observation ∨ after.observation = none)
    (actions : after.actions = system.store.state.actions) :
    Inv (system.inState after) where
  goals := kept.inv inv.goals
  seen := by
    intro seen isSeen
    rcases observation with isSame | isNone
    · exact inv.seen seen (isSame.symm.trans isSeen)
    · have isSome : after.observation = some seen := isSeen
      rw [isNone] at isSome
      cases isSome
  counted := by
    rw [System.inState]
    dsimp only
    rw [kept.current, actions]
    exact inv.counted
  ofGoals := by
    rw [System.inState]
    dsimp only
    rw [kept.ids]
    exact inv.ofGoals
  busy := inv.busy
  acting := by
    intro process callId expected isProcess isActing
    have acting := inv.acting process callId expected isProcess isActing
    have sameCount : actionsFor after.current system.log < after.actions := by
      rw [kept.current, actions]
      exact acting.counted
    have stillAllowed : after.actions ≤ process.maxActions := by
      rw [actions]
      exact acting.allowed
    have stillUnseen : after.observation = none := by
      rcases observation with isSame | isNone
      · exact isSame.trans acting.unseen
      · exact isNone
    exact ⟨acting.sight, sameCount, stillAllowed, stillUnseen⟩
  named := by
    rw [System.inState]
    dsimp only
    rw [kept.events]
    exact inv.named
  accepted := by
    rw [System.inState]
    dsimp only
    rw [kept.events]
    exact inv.accepted
  admitted := inv.admitted
  acts := inv.acts

theorem Inv.does (process : Process) {doing : Doing}
    (notActing : ∀ callId expected, doing ≠ .acting callId expected)
    (busy : doing ≠ .idle → system.store.run = true) :
    Inv (system.doing process doing) :=
  { inv with
    busy := by
      intro other isProcess notIdle
      cases Option.some.inj isProcess
      exact busy notIdle
    acting := by
      intro other callId expected isProcess isActing
      cases Option.some.inj isProcess
      exact absurd isActing (notActing callId expected) }

end

theorem actionsFor_quiet (notDispatch : last.isDispatch = false) (goal : Option String)
    (log : List Happened) : actionsFor goal (log ++ [last]) = actionsFor goal log := by
  rw [actionsFor_append]
  cases last with
  | dispatched _ _ _ _ => cases notDispatch
  | observed _ _ _ | requested _ _ => rfl

theorem Inv.quiet {system : System} (inv : Inv system) {last : Happened}
    (notDispatch : last.isDispatch = false) : Inv (system.happens last) :=
  { inv with
    seen := fun seen isSeen => (inv.seen seen isSeen).append notDispatch
    counted := by
      have sameCount := actionsFor_quiet notDispatch system.store.state.current system.log
      exact sameCount.trans_le inv.counted
    ofGoals := by
      intro boot identity id maxActions member
      rcases List.mem_append.mp member with isEarlier | isLast
      · exact inv.ofGoals boot identity id maxActions isEarlier
      · rw [← List.mem_singleton.mp isLast] at notDispatch
        cases notDispatch
    acting := by
      intro process callId expected isProcess isActing
      have acting := inv.acting process callId expected isProcess isActing
      obtain ⟨solved, sighted⟩ := acting.sight
      have sameCount := actionsFor_quiet notDispatch system.store.state.current system.log
      exact ⟨⟨solved, sighted.append notDispatch⟩,
        sameCount.trans_lt acting.counted, acting.allowed, acting.unseen⟩
    acts := by
      apply inv.acts.append
      cases last with
      | dispatched _ _ _ _ => cases notDispatch
      | observed _ _ _ | requested _ _ => trivial }

theorem Inv.sees {system : System} (inv : Inv system) {seen : Seen}
    (sighted : Sighted system.log seen.boot seen.identity seen.solved)
    (isIdle : ∀ process, system.process = some process → process.doing = .idle) :
    Inv
      (system.inState { system.store.state with observation := some seen }) :=
  { inv with
    goals := ⟨inv.goals.distinct, inv.goals.current, inv.goals.settled⟩
    seen := by
      intro other isSeen
      cases Option.some.inj isSeen
      exact sighted
    acting := by
      intro process callId expected isProcess isActing
      rw [isIdle process isProcess] at isActing
      cases isActing }

variable {process : Process}

theorem Inv.commitsAct (inv : Inv system) (isRunning : system.store.run = true)
    {after : PolicyState}
    (acted :
      commitAct process.boot process.maxActions system.world callId tool
        system.store.state = .ok after) :
    Inv
      ((system.inState after).doing process (.acting callId system.world)) := by
  obtain ⟨⟨seen, fresh⟩, left, counts, unseen, _, kept⟩ := commitAct_spec acted
  obtain ⟨isSeen, isBoot, isNow⟩ := assertFresh_spec fresh
  have sighted := inv.seen seen isSeen
  rw [isBoot, isNow] at sighted
  have sameCount : actionsFor after.current system.log < after.actions := by
    rw [kept.current, counts]
    exact Nat.lt_succ_of_le inv.counted
  have stillAllowed : after.actions ≤ process.maxActions := by
    rw [counts]
    exact left
  constructor
  · exact kept.inv inv.goals
  · intro other isOther
    have isSome : after.observation = some other := isOther
    rw [unseen] at isSome
    cases isSome
  · exact Nat.le_of_lt sameCount
  · intro boot identity id maxActions member
    have isGoal := inv.ofGoals boot identity id maxActions member
    rwa [← kept.ids] at isGoal
  · intro _ _ _
    exact isRunning
  · intro other otherId expected isProcess isActing
    cases Option.some.inj isProcess
    cases isActing
    exact ⟨⟨seen.solved, sighted⟩, sameCount, stillAllowed, unseen⟩
  · have sameEvents := inv.named
    rwa [← kept.events] at sameEvents
  · have sameEvents := inv.accepted
    rwa [← kept.events] at sameEvents
  · exact inv.admitted
  · exact inv.acts

theorem Inv.dispatches (inv : Inv system) (isProcess : system.process = some process)
    (isActing : process.doing = .acting callId system.world) :
    Inv
      ((system.doing process (.dispatched callId)).happens
        (.dispatched process.boot system.world system.store.state.current process.maxActions)) := by
  have acting := inv.acting process callId system.world isProcess isActing
  have isRunning : system.store.run = true := by
    apply inv.busy process isProcess
    rw [isActing]
    intro isIdle
    cases isIdle
  constructor
  · exact inv.goals
  · intro seen isSeen
    have isSome : system.store.state.observation = some seen := isSeen
    rw [acting.unseen] at isSome
    cases isSome
  · have oneMore :
        actionsFor system.store.state.current
            (system.log ++
              [.dispatched process.boot system.world
                system.store.state.current process.maxActions]) =
          actionsFor system.store.state.current system.log + 1 := by
      rw [actionsFor_append, Happened.isActionFor, decide_eq_true rfl,
        if_pos rfl]
    exact oneMore.trans_le acting.counted
  · intro boot identity id maxActions member
    rcases List.mem_append.mp member with isEarlier | isLast
    · exact inv.ofGoals boot identity id maxActions isEarlier
    · have same := List.mem_singleton.mp isLast
      injection same with _ _ sameGoal _
      exact inv.goals.current id sameGoal.symm
  · intro _ _ _
    exact isRunning
  · intro other otherId expected isOther isDoing
    cases Option.some.inj isOther
    cases isDoing
  · exact inv.named
  · exact inv.accepted
  · exact inv.admitted
  · apply inv.acts.append
    exact ⟨acting.sight, acting.counted.trans_le acting.allowed⟩

theorem Inv.samePlace (inv : Inv system) {before after : Process}
    (isProcess : system.process = some before)
    (doing : after.doing = before.doing) (boot : after.boot = before.boot)
    (maxActions : after.maxActions = before.maxActions) :
    Inv { system with process := some after } :=
  { inv with
    busy := by
      intro other isOther notIdle
      cases Option.some.inj isOther
      rw [doing] at notIdle
      exact inv.busy before isProcess notIdle
    acting := by
      intro other callId expected isOther isActing
      cases Option.some.inj isOther
      rw [doing] at isActing
      have acting := inv.acting before callId expected isProcess isActing
      have sight := acting.sight
      have allowed := acting.allowed
      rw [← boot] at sight
      rw [← maxActions] at allowed
      exact ⟨sight, acting.counted, allowed, acting.unseen⟩ }

theorem actionsFor_eq_zero {goal : Option String} {log : List Happened}
    (none_ : ∀ boot identity maxActions, Happened.dispatched boot identity goal maxActions ∉ log) :
    actionsFor goal log = 0 := by
  rw [actionsFor, List.countP_eq_zero]
  intro entry member isAction
  cases entry with
  | dispatched boot identity other maxActions =>
    have same : other = goal := of_decide_eq_true isAction
    rw [same] at member
    exact none_ boot identity maxActions member
  | observed _ _ _ | requested _ _ => cases isAction

theorem accept_named {after : PolicyState} (accepted : accept busy event state = .ok after) :
    isBlank event.goalId = false ∧ isBlank event.eventId = false ∧ isBlank event.goal = false := by
  rw [accept] at accepted
  split at accepted
  · cases accepted
  · rename_i named
    rw [Bool.not_eq_true, Bool.or_eq_false_iff, Bool.or_eq_false_iff] at named
    exact ⟨named.1.1, named.1.2, named.2⟩

section

variable (inv : Inv system)
include inv

theorem Inv.enters (isIdle : system.store.run = false)
    (named :
      isBlank event.goalId = false ∧ isBlank event.eventId = false ∧ isBlank event.goal = false)
    (isNew : ∀ existing ∈ system.store.state.events, existing.key ≠ event.key)
    (free : blocks event (currentGoal system.store.state) = false)
    (activated : activate system.store.state.goals event = .ok goals) :
    Inv (system.inState (enter event goals system.store.state)) := by
  have idle : ∀ process, system.process = some process → process.doing = .idle := by
    intro process isProcess
    by_contra notIdle
    have isRunning := inv.busy process isProcess notIdle
    rw [isIdle] at isRunning
    cases isRunning
  obtain ⟨_, isIn, isOpen, _, _, kept⟩ := activate_spec activated inv.goals.distinct
  constructor
  · exact enter_goals inv.goals free activated
  · intro seen isSeen
    cases isSeen
  · by_cases sameGoal : system.store.state.current = some event.goalId
    · have sameCount :
          actionsFor (some event.goalId) system.log ≤
            (enter event goals system.store.state).actions := by
        rw [enter, ← sameGoal]
        dsimp only
        rw [if_neg (not_not.mpr rfl)]
        exact inv.counted
      exact sameCount
    · have noActions : actionsFor (some event.goalId) system.log = 0 := by
        apply actionsFor_eq_zero
        intro boot identity maxActions member
        have isGoal := inv.ofGoals boot identity event.goalId maxActions member
        obtain ⟨goal, isMember, isId⟩ := List.mem_map.mp isGoal
        have ended := inv.goals.settled goal isMember (by
          rw [isId]
          exact Ne.symm sameGoal)
        rw [isOpen goal isMember isId] at ended
        cases ended
      exact noActions.trans_le (Nat.zero_le _)
  · intro boot identity id maxActions member
    obtain ⟨goal, isMember, isId⟩ :=
      List.mem_map.mp (inv.ofGoals boot identity id maxActions member)
    obtain ⟨later, isLater, sameId, _⟩ := kept goal isMember
    rw [← isId, ← sameId]
    exact List.mem_map_of_mem isLater
  · exact inv.busy
  · intro process callId expected isProcess isActing
    rw [idle process isProcess] at isActing
    cases isActing
  · intro existing member
    rcases List.mem_append.mp member with isOld | isLast
    · exact inv.named existing isOld
    · rw [List.mem_singleton.mp isLast]
      exact named
  · have keys :
        (enter event goals system.store.state).events.map Accepted.key =
          system.store.state.events.map Accepted.key ++ [event.key] := by
      rw [enter]
      dsimp only
      rw [List.map_append]
      rfl
    have distinct : ((enter event goals system.store.state).events.map Accepted.key).Nodup := by
      rw [keys, List.nodup_append]
      refine ⟨inv.accepted, List.nodup_singleton _, ?_⟩
      intro key isOld other isOther
      obtain ⟨existing, member, isKey⟩ := List.mem_map.mp isOld
      rw [List.mem_singleton.mp isOther, ← isKey]
      exact isNew existing member
    exact distinct
  · exact inv.admitted
  · exact inv.acts

theorem Inv.submits (isProcess : system.process = some process) (event : GoalEvent) :
    Inv (submitTo system process event) := by
  rw [submitTo]
  split
  · split
    · exact inv
    · rename_i state isAccepted
      have entered : Inv (system.inState state) := by
        rcases accept_cases isAccepted with
          ⟨isSame, _⟩ | ⟨isIdle, isNew, free, goals, activated, isEntered⟩
        · rw [isSame]
          exact inv
        · rw [isEntered]
          exact inv.enters isIdle (accept_named isAccepted) isNew free activated
      have samePlace : (system.inState state).process = some process := isProcess
      exact entered.samePlace samePlace rfl rfl rfl
  · exact inv

theorem Inv.admits (key : Key) :
    Inv { system with store := admitTo system.store key } := by
  rw [admitTo]
  split
  · exact inv
  · rename_i isNew
    split
    · exact inv
    · constructor
      · exact inv.goals
      · exact inv.seen
      · exact inv.counted
      · exact inv.ofGoals
      · intro _ _ _
        rfl
      · intro process callId expected isProcess isActing
        have acting := inv.acting process callId expected isProcess isActing
        exact ⟨acting.sight, acting.counted, acting.allowed, acting.unseen⟩
      · exact inv.named
      · exact inv.accepted
      · rw [List.nodup_append]
        refine ⟨inv.admitted, List.nodup_singleton key, ?_⟩
        intro old isOld other isOther
        rw [List.mem_singleton.mp isOther]
        intro same
        exact isNew (same ▸ isOld)
      · exact inv.acts

theorem Inv.endsRun (isProcess : system.process = some process) (isIdle : process.doing = .idle) :
    Inv { system with store := { system.store with run := false } } :=
  { inv with
    busy := by
      intro other isOther notIdle
      have isProcess' : some process = some other := isProcess.symm.trans isOther
      cases Option.some.inj isProcess'
      exact absurd isIdle notIdle
    acting := by
      intro other callId expected isOther isActing
      have isProcess' : some process = some other := isProcess.symm.trans isOther
      cases Option.some.inj isProcess'
      rw [isIdle] at isActing
      cases isActing }

end

theorem runs_spec (running : runs system process = true) :
    system.store.run = true ∧ process.doing = .idle := by
  rwa [runs, Bool.and_eq_true, decide_eq_true_eq] at running

theorem inv_stepIn (inv : Inv system) (isProcess : system.process = some process) (event : Event) :
    Inv (stepIn system process event) := by
  cases event with
  | world identity => exact inv.inWorld identity
  | openPolicy _ _ _ _ => exact inv
  | mount =>
    rw [stepIn]
    split
    · exact inv.restart (fun _ isSome => by cases isSome) system.boots
    · rename_i state mounted
      obtain ⟨kept, unseen, _, actions⟩ := mount_spec mounted
      have committed := inv.commit kept (.inr unseen) actions
      have samePlace : (system.inState state).process = some process := isProcess
      exact committed.samePlace samePlace rfl rfl rfl
  | close => exact inv.restart (fun _ isSome => by cases isSome) system.boots
  | submit event => exact inv.submits isProcess event
  | resume =>
    rw [stepIn]
    split
    · exact inv
    · exact inv.submits isProcess _
  | admission key =>
    rw [stepIn]
    split
    · exact inv.admits key
    · exact inv
  | allow =>
    rw [stepIn]
    split
    · rename_i running
      have kept := allow_kept process.maxRequests system.store.state
      obtain ⟨observation, actions, _⟩ := allow_counts process.maxRequests system.store.state
      have committed := inv.commit kept (.inl observation) actions
      split
      · rename_i state isAllowed
        rwa [isAllowed] at committed
      · rename_i state isAllowed
        rw [isAllowed] at committed
        apply committed.does process
        · intro _ _ isActing
          cases isActing
        · intro _
          exact (runs_spec running).1
    · exact inv
  | request =>
    rw [stepIn]
    split
    · have idle : Inv (system.doing process .idle) := by
        apply inv.does process
        · intro _ _ isActing
          cases isActing
        · intro notIdle
          exact absurd rfl notIdle
      exact idle.quiet rfl
    · exact inv
  | complete => exact inv.quiet rfl
  | observe observation =>
    rw [stepIn]
    split
    · rename_i observing
      rw [Bool.and_eq_true] at observing
      apply inv.does process
      · intro _ _ isActing
        cases isActing
      · intro _
        exact (runs_spec observing.1).1
    · exact inv
  | commitObserve =>
    rw [stepIn]
    split
    · rename_i observation _
      have idle : Inv (system.doing process .idle) := by
        apply inv.does process
        · intro _ _ isActing
          cases isActing
        · intro notIdle
          exact absurd rfl notIdle
      have seen :
          Inv ((system.doing process .idle).happens
            (.observed process.boot observation.identity observation.solved)) :=
        idle.quiet rfl
      exact @Inv.sees _ seen ⟨observation.identity, process.boot, observation.solved⟩
        (sighted_now _ _ _ _) fun other isOther => by
          cases Option.some.inj isOther
          rfl
    · exact inv
  | act callId tool =>
    rw [stepIn]
    split
    · rename_i running
      rw [Bool.and_eq_true] at running
      split
      · exact inv
      · rename_i state acted
        exact inv.commitsAct (runs_spec running.1).1 acted
    · exact inv
  | dispatch =>
    rw [stepIn]
    split
    · rename_i callId expected isActing
      split
      · rename_i isSame
        rw [← isSame] at isActing
        exact inv.dispatches isProcess isActing
      · apply inv.does process
        · intro _ _ isActing
          cases isActing
        · intro notIdle
          exact absurd rfl notIdle
    · exact inv
  | returned isError =>
    have idle : ∀ state : PolicyState, Inv (system.inState state) →
        Inv ((system.inState state).doing process .idle) := by
      intro state committed
      apply committed.does process
      · intro _ _ isActing
        cases isActing
      · intro notIdle
        exact absurd rfl notIdle
    rw [stepIn]
    split
    · split
      · exact idle system.store.state inv
      · exact idle _ (inv.commit (kept_of_same rfl rfl rfl) (.inl rfl) rfl)
    · exact inv
  | finish conclusion summary =>
    rw [stepIn]
    split
    · split
      · exact inv
      · rename_i state finished
        obtain ⟨kept, unseen, _, actions, _⟩ := commitFinish_spec finished
        exact inv.commit kept (.inr unseen) actions
    · exact inv
  | remember memory =>
    rw [stepIn]
    split
    · exact inv.commit (kept_of_same rfl rfl rfl) (.inl rfl) rfl
    · exact inv
  | yield summary =>
    rw [stepIn]
    split
    · obtain ⟨kept, observation, _, actions⟩ :=
        onYield_spec summary system.store.state
      exact inv.commit kept (.inl observation) actions
    · exact inv
  | endRun =>
    rw [stepIn]
    split
    · rename_i isIdle
      exact inv.endsRun isProcess isIdle
    · exact inv

theorem stepClosed_cases (system : System) (event : Event) :
    stepClosed system event = system ∨
      (∃ world, stepClosed system event = { system with world := world }) ∨
        ∃ opened : Process,
          opened.doing = .idle ∧ opened.submitting = [] ∧
            stepClosed system event =
              { system with
                process := some opened, boots := system.boots + 1 } := by
  cases event with
  | world identity => exact .inr (.inl ⟨identity, rfl⟩)
  | openPolicy robot actions maxRequests maxActions =>
    rw [stepClosed]
    split
    · exact .inr (.inr ⟨_, rfl, rfl, rfl⟩)
    · exact .inl rfl
  | _ => exact .inl rfl

theorem inv_step (inv : Inv system) (event : Event) : Inv (step system event) := by
  rw [step]
  split
  · rename_i process isProcess
    exact inv_stepIn inv isProcess event
  · rcases stepClosed_cases system event with
      same | ⟨world, moved⟩ | ⟨opened, isIdle, _, isOpened⟩
    · rw [same]
      exact inv
    · rw [moved]
      exact inv.inWorld world
    · rw [isOpened]
      apply inv.restart
      intro other isOther
      cases Option.some.inj isOther
      exact isIdle

theorem inv_run (events : List Event) :
    Inv (after step (begin_ world) events) :=
  after_invariant step Inv (fun _ event inv => inv_step inv event) (inv_begin world) events

/-! ## Successes -/

inductive Committed (system : System) : PolicyState → Prop where
  | same : Committed system system.store.state
  /-- A commit that concludes no goal as a success. -/
  | plain {after : PolicyState} (kept : Kept system.store.state after)
      (noSuccess : ∀ goal ∈ after.goals, goal.status = .success → goal ∈ system.store.state.goals) :
      Committed system after
  | enter (event : GoalEvent) {goals : List Goal}
      (activated : activate system.store.state.goals event = .ok goals) :
      Committed system (enter event goals system.store.state)
  | finish {process : Process} (isProcess : system.process = some process)
      {conclusion : Conclusion} {summary : String} {after : PolicyState}
      (finished :
        commitFinish process.boot system.world conclusion summary system.store.state = .ok after) :
      Committed system after

theorem committed_of_goals {after : PolicyState} (kept : Kept system.store.state after)
    (goals : after.goals = system.store.state.goals) : Committed system after := by
  apply Committed.plain kept
  intro goal member _
  rwa [goals] at member

theorem allow_noSuccess (state : PolicyState) :
    ∀ goal ∈ (allow maxRequests state).1.goals, goal.status = .success → goal ∈ state.goals := by
  intro goal member isSuccess
  rw [allow] at member
  split at member
  · exact member
  · split at member
    · exact member
    · split at member
      · rcases mem_conclude member with isOld | ⟨_, isWaiting⟩
        · exact isOld
        · rw [isSuccess] at isWaiting
          cases isWaiting
      · exact member

theorem onYield_noSuccess (summary : String) (state : PolicyState) :
    ∀ goal ∈ (onYield summary state).goals, goal.status = .success → goal ∈ state.goals := by
  intro goal member isSuccess
  rw [onYield] at member
  split at member
  · exact member
  · split at member
    · rcases mem_conclude member with isOld | ⟨_, isWaiting⟩
      · exact isOld
      · rw [isSuccess] at isWaiting
        cases isWaiting
    · exact member

theorem committed_submitTo (system : System) (process : Process) (event : GoalEvent) :
    Committed system (submitTo system process event).store.state := by
  rw [submitTo]
  split
  · split
    · exact Committed.same
    · rename_i state isAccepted
      rcases accept_cases isAccepted with
        ⟨isSame, _⟩ | ⟨_, _, _, goals, activated, isEntered⟩
      · rw [isSame]
        exact Committed.same
      · rw [isEntered]
        exact Committed.enter event activated
  · exact Committed.same

theorem committed_stepIn (isProcess : system.process = some process) (event : Event) :
    Committed system (stepIn system process event).store.state := by
  cases event with
  | world _ | openPolicy _ _ _ _ | close | complete => exact Committed.same
  | mount =>
    rw [stepIn]
    split
    · exact Committed.same
    · rename_i state mounted
      rw [mount] at mounted
      split at mounted
      · cases mounted
      · cases mounted
        exact committed_of_goals (kept_of_same rfl rfl rfl) rfl
  | submit event => exact committed_submitTo system process event
  | resume =>
    rw [stepIn]
    split
    · exact Committed.same
    · exact committed_submitTo system process _
  | admission key =>
    rw [stepIn]
    split
    · have sameState : (admitTo system.store key).state = system.store.state := by
        rw [admitTo]
        split
        · rfl
        · split
          · rfl
          · rfl
      dsimp only
      rw [sameState]
      exact Committed.same
    · exact Committed.same
  | allow =>
    rw [stepIn]
    split
    · have kept := allow_kept process.maxRequests system.store.state
      have noSuccess := allow_noSuccess process.maxRequests system.store.state
      split
      · rename_i state isAllowed
        rw [isAllowed] at kept noSuccess
        exact Committed.plain kept noSuccess
      · rename_i state isAllowed
        rw [isAllowed] at kept noSuccess
        exact Committed.plain kept noSuccess
    · exact Committed.same
  | request | observe observation | endRun =>
    rw [stepIn]
    split
    · exact Committed.same
    · exact Committed.same
  | commitObserve | remember memory =>
    rw [stepIn]
    split
    · exact committed_of_goals (kept_of_same rfl rfl rfl) rfl
    · exact Committed.same
  | act callId tool =>
    rw [stepIn]
    split
    · split
      · exact Committed.same
      · rename_i state acted
        rw [commitAct] at acted
        split at acted
        · cases acted
        · split at acted
          · cases acted
          · cases acted
            exact committed_of_goals (kept_of_same rfl rfl rfl) rfl
    · exact Committed.same
  | dispatch =>
    rw [stepIn]
    split
    · split
      · exact Committed.same
      · exact Committed.same
    · exact Committed.same
  | returned isError =>
    rw [stepIn]
    split
    · split
      · exact Committed.same
      · exact committed_of_goals (kept_of_same rfl rfl rfl) rfl
    · exact Committed.same
  | finish conclusion summary =>
    rw [stepIn]
    split
    · split
      · exact Committed.same
      · rename_i state finished
        exact Committed.finish isProcess finished
    · exact Committed.same
  | yield summary =>
    rw [stepIn]
    split
    · obtain ⟨kept, _⟩ := onYield_spec summary system.store.state
      exact Committed.plain kept (onYield_noSuccess summary system.store.state)
    · exact Committed.same

theorem committed_step (system : System) (event : Event) :
    Committed system (step system event).store.state := by
  rw [step]
  split
  · rename_i process isProcess
    exact committed_stepIn isProcess event
  · rcases stepClosed_cases system event with
      same | ⟨world, moved⟩ | ⟨opened, _, _, isOpened⟩
    · rw [same]
      exact Committed.same
    · rw [moved]
      exact Committed.same
    · rw [isOpened]
      exact Committed.same

theorem Inv.succeeds (inv : Inv system) (event : Event)
    (member : goal ∈ (step system event).store.state.goals) (isSuccess : goal.status = .success) :
    goal ∈ system.store.state.goals ∨
      ∃ process, system.process = some process ∧
        Sighted system.log process.boot system.world true := by
  have committed := committed_step system event
  revert member
  generalize (step system event).store.state = state at committed
  intro member
  cases committed with
  | same => exact .inl member
  | plain _ noSuccess => exact .inl (noSuccess goal member isSuccess)
  | enter event activated =>
    obtain ⟨_, _, _, _, noSuccess, _⟩ := activate_spec activated inv.goals.distinct
    exact .inl (noSuccess goal member isSuccess)
  | finish isProcess finished =>
    obtain ⟨_, _, _, _, onSight⟩ := commitFinish_spec finished
    rcases onSight goal member isSuccess with isOld | ⟨seen, fresh, isSolved⟩
    · exact .inl isOld
    · obtain ⟨isSeen, isBoot, isNow⟩ := assertFresh_spec fresh
      have sighted := inv.seen seen isSeen
      rw [isBoot, isNow, isSolved] at sighted
      exact .inr ⟨_, isProcess, sighted⟩

theorem Inv.keepsGoals (inv : Inv system) (event : Event) :
    GoalsKept system.store.state.goals (step system event).store.state.goals := by
  have committed := committed_step system event
  generalize (step system event).store.state = state at committed
  cases committed with
  | same => exact goalsKept_refl _
  | plain kept _ => exact kept.goals inv.goals
  | enter event activated =>
    obtain ⟨_, _, _, _, _, kept⟩ := activate_spec activated inv.goals.distinct
    exact kept
  | finish _ finished => exact (commitFinish_spec finished).1.goals inv.goals

theorem Inv.keepsGoals_run (inv : Inv system) (events : List Event) :
    GoalsKept system.store.state.goals (after step system events).store.state.goals := by
  induction events generalizing system with
  | nil => exact goalsKept_refl _
  | cons event rest ih =>
    rw [after_cons]
    exact (inv.keepsGoals event).trans (ih (inv_step inv event))

end PiEmbodied.Policy
