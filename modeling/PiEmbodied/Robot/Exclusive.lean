import PiEmbodied.Runs

/-!
# One call at a time

`exclusive` chains the calls: each waits for the promise of the one before it,
unless no call is running or waiting when it arrives.  A waiting call whose
signal aborts gives up and releases its own promise, but the chain behind it
still waits for the calls before it.
-/

namespace PiEmbodied.Robot

open Option (map_some some_inj)

variable {κ : Type*}

/-! ## Data -/

/-- A call: waiting; to be rejected by its signal; with its turn; with its body
running; or with its promise released. -/
inductive Phase where
  | waiting
  | aborting
  | granted
  | running
  | settled
deriving DecidableEq

structure Call (κ : Type*) where
  kind : κ
  phase : Phase

/-- The calls in the order they arrived and the counter of those running or
waiting; `started` are the calls whose body began, `aborted` those that gave
up, by their place. -/
structure Lock (κ : Type*) where
  calls : List (Call κ)
  robotCalls : ℕ
  (started aborted : List ℕ)

namespace Lock

def free : Lock κ where
  calls := []
  robotCalls := 0
  started := []
  aborted := []

variable (l : Lock κ)

def phaseAt (k : ℕ) : Option Phase := l.calls[k]?.map Call.phase

/-- The chained promise before a call: each link waits for the link before and
for its own call's release. -/
def resolvedBefore (k : ℕ) : Bool :=
  (l.calls.take k).all fun call => call.phase = .settled

def setPhase (k : ℕ) (phase : Phase) : Lock κ :=
  { l with calls := l.calls.modify k fun call => { call with phase := phase } }

/-- A call arrives; its turn has come where no call is running or waiting. -/
def arrive (kind : κ) (aborted : Bool) : Lock κ :=
  let waits := decide (0 < l.robotCalls)
  { l with
    calls :=
      l.calls ++
        [⟨kind,
          if waits then if aborted then .aborting else .waiting
          else .granted⟩]
    robotCalls := l.robotCalls + 1
    aborted :=
      if waits && aborted then l.aborted ++ [l.calls.length] else l.aborted }

def abort (k : ℕ) : Lock κ :=
  if l.phaseAt k = some .waiting then
    { l.setPhase k .aborting with aborted := l.aborted ++ [k] }
  else l

def turn (k : ℕ) : Lock κ :=
  if l.phaseAt k = some .waiting ∧ l.resolvedBefore k = true then
    l.setPhase k .granted
  else l

def begin_ (k : ℕ) : Lock κ :=
  if l.phaseAt k = some .granted then
    { l.setPhase k .running with started := l.started ++ [k] }
  else l

/-- A call that gave up, was refused at its turn, or whose body ended releases
the lock. -/
def settle (k : ℕ) : Lock κ :=
  if l.phaseAt k = some .aborting ∨ l.phaseAt k = some .granted ∨
      l.phaseAt k = some .running then
    { l.setPhase k .settled with robotCalls := l.robotCalls - 1 }
  else l

end Lock

namespace Lock

variable {l : Lock κ}

theorem phaseAt_setPhase (k other : ℕ) (phase : Phase) :
    (l.setPhase k phase).phaseAt other =
      if k = other then (l.phaseAt other).map fun _ => phase
      else l.phaseAt other := by
  rw [phaseAt, setPhase, List.getElem?_modify, phaseAt]
  split
  · cases l.calls[other]? with
    | none | some call => rfl
  · cases l.calls[other]? with
    | none | some call => rfl

variable {k : ℕ} {old phase : Phase}

theorem phaseAt_self (isOld : l.phaseAt k = some old) :
    (l.setPhase k phase).phaseAt k = some phase := by
  rw [phaseAt_setPhase, if_pos rfl, isOld, map_some]

theorem phaseAt_other {other : ℕ} (phase : Phase) (different : k ≠ other) :
    (l.setPhase k phase).phaseAt other = l.phaseAt other := by
  rw [phaseAt_setPhase, if_neg different]

theorem phaseAt_length : l.phaseAt l.calls.length = none := by
  rw [phaseAt, List.getElem?_eq_none_iff.mpr (Nat.le_refl _), Option.map_none]

theorem lt_of_phaseAt (isPhase : l.phaseAt k = some phase) : k < l.calls.length := by
  obtain ⟨call, found, _⟩ := Option.map_eq_some_iff.mp isPhase
  exact (List.getElem?_eq_some_iff.mp found).1

theorem phaseAt_append {call : Call κ} :
    (l.calls ++ [call])[k]?.map Call.phase =
      if k = l.calls.length then some call.phase else l.phaseAt k := by
  by_cases last : k = l.calls.length
  · rw [if_pos last, last, List.getElem?_concat_length, map_some]
  · rw [if_neg last, phaseAt]
    by_cases inside : k < l.calls.length
    · rw [List.getElem?_append_left inside]
    · rw [List.getElem?_eq_none_iff.mpr (by simp; omega), List.getElem?_eq_none_iff.mpr (by omega)]

theorem resolvedBefore_iff :
    l.resolvedBefore k = true ↔ ∀ i < k, ∀ phase, l.phaseAt i = some phase → phase = .settled := by
  rw [resolvedBefore, List.all_eq_true]
  constructor
  · intro all i below phase isPhase
    obtain ⟨call, found, rfl⟩ := Option.map_eq_some_iff.mp isPhase
    refine of_decide_eq_true (all call ?_)
    refine List.mem_iff_getElem?.mpr ⟨i, ?_⟩
    rw [List.getElem?_take_of_lt below]
    exact found
  · intro all call member
    obtain ⟨i, found⟩ := List.mem_iff_getElem?.mp member
    have below : i < k := by
      have inside := (List.getElem?_eq_some_iff.mp found).1
      rw [List.length_take] at inside
      omega
    rw [List.getElem?_take_of_lt below] at found
    exact decide_eq_true (all i below call.phase (by rw [phaseAt, found, map_some]))

/-! ## The invariant -/

def weigh (weight : Phase → ℕ) (l : Lock κ) : ℕ :=
  (l.calls.map fun call => weight call.phase).sum

def unsettled (l : Lock κ) : ℕ :=
  l.weigh fun phase => if phase = .settled then 0 else 1

/-- A call with its turn has no unsettled call before it; so have those whose
body began; and none that gave up began. -/
structure Ok (l : Lock κ) : Prop where
  count : l.robotCalls = l.unsettled
  turns :
    ∀ k, (l.phaseAt k = some .granted ∨ l.phaseAt k = some .running) → l.resolvedBefore k = true
  begun :
    ∀ k ∈ l.started, (l.phaseAt k = some .running ∨ l.phaseAt k = some .settled) ∧
      l.resolvedBefore k = true
  ordered : l.started.Pairwise (· < ·)
  gaveUp :
    ∀ k ∈ l.aborted, k ∉ l.started ∧ (l.phaseAt k = some .aborting ∨ l.phaseAt k = some .settled)

theorem ok_free : Ok (free : Lock κ) where
  count := rfl
  turns := by
    intro k phase
    rcases phase with granted | running
    · cases granted
    · cases running
  begun := fun _ member => absurd member List.not_mem_nil
  ordered := List.Pairwise.nil
  gaveUp := fun _ member => absurd member List.not_mem_nil

theorem turn_unique (ok : Ok l) {i : ℕ}
    (first : l.phaseAt i = some .granted ∨ l.phaseAt i = some .running)
    (second : l.phaseAt k = some .granted ∨ l.phaseAt k = some .running) : i = k := by
  have notSettled {j : ℕ} (turn : l.phaseAt j = some .granted ∨ l.phaseAt j = some .running) :
      ∃ phase, l.phaseAt j = some phase ∧ phase ≠ .settled := by
    rcases turn with granted | running
    · exact ⟨_, granted, by decide⟩
    · exact ⟨_, running, by decide⟩
  have notBefore {a b : ℕ} (turnA : l.phaseAt a = some .granted ∨ l.phaseAt a = some .running)
      (turnB : l.phaseAt b = some .granted ∨ l.phaseAt b = some .running) :
      ¬a < b := by
    intro below
    obtain ⟨phase, isPhase, unsettled⟩ := notSettled turnA
    exact unsettled (resolvedBefore_iff.mp (ok.turns b turnB) a below phase isPhase)
  have one := notBefore first second
  have other := notBefore second first
  omega

variable {t : Lock κ}

theorem resolvedBefore_of_settled (resolved : l.resolvedBefore k = true)
    (keeps :
      ∀ i phase, t.phaseAt i = some phase → i < k →
        phase = .settled ∨ ∃ old, l.phaseAt i = some old ∧ (old = .settled → phase = .settled)) :
    t.resolvedBefore k = true := by
  refine resolvedBefore_iff.mpr ?_
  intro i below phase isPhase
  rcases keeps i phase isPhase below with settled | ⟨old, isOld, stays⟩
  · exact settled
  · exact stays (resolvedBefore_iff.mp resolved i below old isOld)

theorem sum_modify {weight : Phase → ℕ} {calls : List (Call κ)} {k : ℕ} {call : Call κ}
    (phase : Phase) (found : calls[k]? = some call) :
    ((calls.modify k fun old => { old with phase := phase }).map
          fun other => weight other.phase).sum +
        weight call.phase =
      (calls.map fun other => weight other.phase).sum + weight phase := by
  induction calls generalizing k with
  | nil => cases found
  | cons first rest ih =>
    cases k with
    | zero =>
      cases found
      rw [List.modify_zero_cons, List.map_cons, List.map_cons, List.sum_cons, List.sum_cons]
      dsimp only
      omega
    | succ k =>
      rw [List.modify_succ_cons, List.map_cons, List.map_cons, List.sum_cons, List.sum_cons]
      have later := @ih k found
      omega

theorem weigh_setPhase {weight : Phase → ℕ} {k : ℕ} {old : Phase} (phase : Phase)
    (isOld : l.phaseAt k = some old) :
    (l.setPhase k phase).weigh weight + weight old = l.weigh weight + weight phase := by
  obtain ⟨call, found, rfl⟩ := Option.map_eq_some_iff.mp isOld
  exact sum_modify phase found

theorem weight_le_weigh {weight : Phase → ℕ} {k : ℕ} {phase : Phase}
    (isPhase : l.phaseAt k = some phase) : weight phase ≤ l.weigh weight := by
  obtain ⟨call, found, rfl⟩ := Option.map_eq_some_iff.mp isPhase
  exact List.single_le_sum (fun _ _ => Nat.zero_le _) _
    (List.mem_map.mpr ⟨call, List.mem_of_getElem? found, rfl⟩)

/-! ## The steps keep it -/

theorem unsettled_setPhase (phase : Phase) (isOld : l.phaseAt k = some old)
    (unsettledOld : old ≠ .settled) :
    (l.setPhase k phase).unsettled + 1 = l.unsettled + (if phase = .settled then 0 else 1) := by
  have weighed :=
    @weigh_setPhase κ l (fun phase => if phase = .settled then 0 else 1) k old
      phase isOld
  rwa [if_neg unsettledOld] at weighed

theorem resolvedBefore_setPhase
    {j : ℕ} (isOld : l.phaseAt k = some old) (unsettledOld : old ≠ .settled)
    (resolved : l.resolvedBefore j = true) : (l.setPhase k phase).resolvedBefore j = true := by
  refine resolvedBefore_of_settled resolved ?_
  intro i other isOther below
  by_cases here : k = i
  · subst here
    exact absurd (resolvedBefore_iff.mp resolved k below old isOld) unsettledOld
  · rw [phaseAt_other phase here] at isOther
    exact .inr ⟨other, isOther, id⟩

section

variable (ok : Ok l)
include ok

theorem ok_setPhase (phase : Phase) (isOld : l.phaseAt k = some old) (unsettledOld : old ≠ .settled)
    (count : ℕ) (isCount : count + 1 = l.robotCalls + (if phase = .settled then 0 else 1))
    (turns : (phase = .granted ∨ phase = .running) → l.resolvedBefore k = true)
    (begun : k ∈ l.started → phase = .running ∨ phase = .settled)
    (gaveUp : k ∈ l.aborted → phase = .aborting ∨ phase = .settled) :
    Ok { l.setPhase k phase with robotCalls := count } where
  count := by
    have counted := unsettled_setPhase phase isOld unsettledOld
    have before := ok.count
    show count = (l.setPhase k phase).unsettled
    omega
  turns := by
    intro j isTurn
    have isTurnHere :
        (l.setPhase k phase).phaseAt j = some .granted ∨
          (l.setPhase k phase).phaseAt j = some .running := isTurn
    refine resolvedBefore_setPhase isOld unsettledOld ?_
    by_cases here : k = j
    · subst here
      rw [phaseAt_self isOld, some_inj, some_inj] at isTurnHere
      exact turns isTurnHere
    · rw [phaseAt_other phase here] at isTurnHere
      exact ok.turns j isTurnHere
  begun := by
    intro j member
    obtain ⟨isPhase, resolved⟩ := ok.begun j member
    refine ⟨?_, resolvedBefore_setPhase isOld unsettledOld resolved⟩
    show (l.setPhase k phase).phaseAt j = some .running ∨
      (l.setPhase k phase).phaseAt j = some .settled
    by_cases here : k = j
    · subst here
      rw [phaseAt_self isOld, some_inj, some_inj]
      exact begun member
    · rw [phaseAt_other phase here]
      exact isPhase
  ordered := ok.ordered
  gaveUp := by
    intro j member
    obtain ⟨notStarted, isPhase⟩ := ok.gaveUp j member
    refine ⟨notStarted, ?_⟩
    show (l.setPhase k phase).phaseAt j = some .aborting ∨
      (l.setPhase k phase).phaseAt j = some .settled
    by_cases here : k = j
    · subst here
      rw [phaseAt_self isOld, some_inj, some_inj]
      exact gaveUp member
    · rw [phaseAt_other phase here]
      exact isPhase

theorem not_started_of_phase (isPhase : l.phaseAt k = some phase)
    (unstarted : phase ≠ .running ∧ phase ≠ .settled) : k ∉ l.started := by
  intro member
  rcases (ok.begun k member).1 with running | settled
  · rw [running] at isPhase
    exact unstarted.1 (Option.some.inj isPhase).symm
  · rw [settled] at isPhase
    exact unstarted.2 (Option.some.inj isPhase).symm

theorem not_aborted_of_phase (isPhase : l.phaseAt k = some phase)
    (kept : phase ≠ .aborting ∧ phase ≠ .settled) : k ∉ l.aborted := by
  intro member
  rcases (ok.gaveUp k member).2 with aborting | settled
  · rw [aborting] at isPhase
    exact kept.1 (Option.some.inj isPhase).symm
  · rw [settled] at isPhase
    exact kept.2 (Option.some.inj isPhase).symm

theorem ok_turn (k : ℕ) : Ok (l.turn k) := by
  rw [turn]
  split
  · rename_i both
    obtain ⟨waiting, resolved⟩ := both
    refine ok_setPhase ok .granted waiting (by decide) l.robotCalls rfl (fun _ => resolved) ?_ ?_
    · exact fun member => absurd member (not_started_of_phase ok waiting ⟨by decide, by decide⟩)
    · exact fun member => absurd member (not_aborted_of_phase ok waiting ⟨by decide, by decide⟩)
  · exact ok

theorem ok_abort (k : ℕ) : Ok (l.abort k) := by
  rw [abort]
  split
  · rename_i waiting
    have notStarted := not_started_of_phase ok waiting ⟨by decide, by decide⟩
    have changed :=
      ok_setPhase ok .aborting waiting (by decide) l.robotCalls rfl
        (fun isTurn => by
          rcases isTurn with granted | running
          · cases granted
          · cases running)
        (fun member => absurd member notStarted) (fun _ => .inl rfl)
    refine ⟨changed.count, changed.turns, changed.begun, changed.ordered, ?_⟩
    intro j member
    rcases List.mem_append.mp member with old | new
    · exact changed.gaveUp j old
    · rw [List.mem_singleton.mp new]
      exact ⟨notStarted, .inl (phaseAt_self waiting)⟩
  · exact ok

theorem ok_begin (k : ℕ) : Ok (l.begin_ k) := by
  rw [begin_]
  split
  · rename_i granted
    have resolved := ok.turns k (.inl granted)
    have notAborted := not_aborted_of_phase ok granted ⟨by decide, by decide⟩
    have changed :=
      ok_setPhase ok .running granted (by decide) l.robotCalls rfl
        (fun _ => resolved) (fun _ => .inl rfl)
        (fun member => absurd member notAborted)
    have isRunning : (l.setPhase k .running).phaseAt k = some .running := phaseAt_self granted
    refine ⟨changed.count, changed.turns, ?_, ?_, ?_⟩
    · intro j member
      rcases List.mem_append.mp member with old | new
      · exact changed.begun j old
      · rw [List.mem_singleton.mp new]
        exact ⟨.inl isRunning, resolvedBefore_setPhase granted (by decide) resolved⟩
    · refine List.pairwise_append.mpr ⟨ok.ordered, List.pairwise_singleton _ _, ?_⟩
      intro j isStarted other isOther
      rw [List.mem_singleton.mp isOther]
      -- A call that began with this one before it would have found it settled.
      obtain ⟨isPhase, resolvedJ⟩ := ok.begun j isStarted
      have notAfter : ¬k < j := by
        intro below
        have settled := resolvedBefore_iff.mp resolvedJ k below .granted granted
        cases settled
      have different : j ≠ k := by
        rintro rfl
        exact not_started_of_phase ok granted ⟨by decide, by decide⟩ isStarted
      omega
    · intro j member
      obtain ⟨notStarted, isPhase⟩ := changed.gaveUp j member
      refine ⟨?_, isPhase⟩
      intro isStarted
      rcases List.mem_append.mp isStarted with old | new
      · exact notStarted old
      · rw [List.mem_singleton.mp new] at member
        exact notAborted member
  · exact ok

theorem ok_settle (k : ℕ) : Ok (l.settle k) := by
  rw [settle]
  split
  · rename_i some_
    have isOld : ∃ old, l.phaseAt k = some old ∧ old ≠ .settled := by
      rcases some_ with aborting | granted | running
      · exact ⟨_, aborting, by decide⟩
      · exact ⟨_, granted, by decide⟩
      · exact ⟨_, running, by decide⟩
    obtain ⟨old, isPhase, unsettledOld⟩ := isOld
    have counted := unsettled_setPhase .settled isPhase unsettledOld
    have before := ok.count
    refine ok_setPhase ok .settled isPhase unsettledOld (l.robotCalls - 1) ?_ ?_
      (fun _ => .inr rfl) (fun _ => .inr rfl)
    · rw [if_pos rfl] at counted ⊢
      omega
    · rintro (granted | running)
      · cases granted
      · cases running
  · exact ok

theorem all_settled_of_none (free : l.robotCalls = 0) (isPhase : l.phaseAt k = some phase) :
    phase = .settled := by
  by_contra other
  have weighs :=
    @weight_le_weigh κ l (fun phase => if phase = .settled then 0 else 1) k
      phase isPhase
  rw [if_neg other] at weighs
  have counted : l.robotCalls = l.unsettled := ok.count
  rw [unsettled] at counted
  omega

end

def arrivalPhase (l : Lock κ) (aborted : Bool) : Phase :=
  if decide (0 < l.robotCalls) then if aborted then .aborting else .waiting
  else .granted

variable (kind : κ) (aborted : Bool)

theorem phaseAt_arrive (k : ℕ) :
    (l.arrive kind aborted).phaseAt k =
      if k = l.calls.length then some (l.arrivalPhase aborted)
      else l.phaseAt k :=
  phaseAt_append

theorem arrivalPhase_unsettled (aborted : Bool) :
    l.arrivalPhase aborted ≠ .settled ∧ l.arrivalPhase aborted ≠ .running := by
  rw [arrivalPhase]
  split
  · split
    · exact ⟨by decide, by decide⟩
    · exact ⟨by decide, by decide⟩
  · exact ⟨by decide, by decide⟩

theorem resolvedBefore_arrive (resolved : l.resolvedBefore k = true) (inside : k ≤ l.calls.length) :
    (l.arrive kind aborted).resolvedBefore k = true := by
  refine resolvedBefore_of_settled resolved ?_
  intro i phase isPhase below
  rw [phaseAt_arrive, if_neg (by omega)] at isPhase
  exact .inr ⟨phase, isPhase, id⟩

theorem ok_arrive (ok : Ok l) (kind : κ) (aborted : Bool) : Ok (l.arrive kind aborted) where
  count := by
    have counted := ok.count
    have isUnsettled := (@arrivalPhase_unsettled κ l aborted).1
    show l.robotCalls + 1 = _
    rw [counted, unsettled, weigh, unsettled, weigh, arrive, List.map_append,
      List.sum_append, List.map_singleton, List.sum_singleton]
    rw [arrivalPhase] at isUnsettled
    dsimp only
    rw [if_neg isUnsettled]
  turns := by
    intro k isTurn
    rw [phaseAt_arrive] at isTurn
    by_cases last : k = l.calls.length
    · rw [if_pos last, some_inj, some_inj, arrivalPhase] at isTurn
      refine resolvedBefore_arrive kind aborted ?_ (Nat.le_of_eq last)
      split at isTurn
      · split at isTurn
        · rcases isTurn with granted | running
          · cases granted
          · cases running
        · rcases isTurn with granted | running
          · cases granted
          · cases running
      · rename_i alone
        refine resolvedBefore_iff.mpr ?_
        intro i _ phase isPhase
        exact all_settled_of_none ok (by simpa using alone) isPhase
    · rw [if_neg last] at isTurn
      have below : k < l.calls.length := by
        rcases isTurn with granted | running
        · exact lt_of_phaseAt granted
        · exact lt_of_phaseAt running
      exact resolvedBefore_arrive kind aborted (ok.turns k isTurn) (Nat.le_of_lt below)
  begun := by
    intro k member
    obtain ⟨isPhase, resolved⟩ := ok.begun k member
    have below : k < l.calls.length := by
      rcases isPhase with running | settled
      · exact lt_of_phaseAt running
      · exact lt_of_phaseAt settled
    rw [phaseAt_arrive, if_neg (Nat.ne_of_lt below)]
    exact ⟨isPhase, resolvedBefore_arrive kind aborted resolved (Nat.le_of_lt below)⟩
  ordered := ok.ordered
  gaveUp := by
    intro k member
    have old (isOld : k ∈ l.aborted) :
        k ∉ l.started ∧
          ((l.arrive kind aborted).phaseAt k = some .aborting ∨
            (l.arrive kind aborted).phaseAt k = some .settled) := by
      obtain ⟨notStarted, isPhase⟩ := ok.gaveUp k isOld
      have below : k < l.calls.length := by
        rcases isPhase with aborting | settled
        · exact lt_of_phaseAt aborting
        · exact lt_of_phaseAt settled
      rw [phaseAt_arrive, if_neg (Nat.ne_of_lt below)]
      exact ⟨notStarted, isPhase⟩
    rw [arrive] at member
    simp only at member
    split at member
    · rename_i both
      rcases List.mem_append.mp member with isOld | new
      · exact old isOld
      · have last := List.mem_singleton.mp new
        refine ⟨?_, ?_⟩
        · intro isStarted
          have isPhase := (ok.begun k isStarted).1
          rw [last, phaseAt_length] at isPhase
          rcases isPhase with running | settled
          · cases running
          · cases settled
        · obtain ⟨waits, isAborted⟩ := Bool.and_eq_true_iff.mp both
          left
          rw [phaseAt_arrive, if_pos last, arrivalPhase, if_pos waits,
            if_pos isAborted]
    · exact old member

/-! ## Settling -/

/-- What a call does by itself: its turn comes, it begins, or it gives up, is
refused or ends. -/
inductive GoesOn : Lock κ → Lock κ → Prop
  | turn {l : Lock κ} (k : ℕ) (waiting : l.phaseAt k = some .waiting)
      (resolved : l.resolvedBefore k = true) : GoesOn l (l.turn k)
  | begin_ {l : Lock κ} (k : ℕ) (granted : l.phaseAt k = some .granted) :
      GoesOn l (l.begin_ k)
  | settle {l : Lock κ} (k : ℕ)
      (ends :
        l.phaseAt k = some .aborting ∨ l.phaseAt k = some .granted ∨ l.phaseAt k = some .running) :
      GoesOn l (l.settle k)

def Phase.left : Phase → ℕ
  | .waiting => 3
  | .granted => 2
  | .aborting | .running => 1
  | .settled => 0

variable {l : Lock κ}

theorem left_decreases (goesOn : GoesOn l t) : t.weigh Phase.left < l.weigh Phase.left := by
  cases goesOn with
  | turn k waiting resolved =>
    have weighed := @weigh_setPhase κ l Phase.left k .waiting .granted waiting
    rw [turn, if_pos ⟨waiting, resolved⟩]
    simp only [Phase.left] at weighed
    omega
  | begin_ k granted =>
    have weighed := @weigh_setPhase κ l Phase.left k .granted .running granted
    rw [begin_, if_pos granted]
    simp only [Phase.left] at weighed
    show (l.setPhase k .running).weigh Phase.left < _
    omega
  | settle k ends =>
    rw [settle, if_pos ends]
    show (l.setPhase k .settled).weigh Phase.left < _
    rcases ends with aborting | granted | running
    · have weighed :=
        @weigh_setPhase κ l Phase.left k .aborting .settled aborting
      simp only [Phase.left] at weighed
      omega
    · have weighed :=
        @weigh_setPhase κ l Phase.left k .granted .settled granted
      simp only [Phase.left] at weighed
      omega
    · have weighed :=
        @weigh_setPhase κ l Phase.left k .running .settled running
      simp only [Phase.left] at weighed
      omega

theorem ok_goesOn (ok : Ok l) (goesOn : GoesOn l t) : Ok t := by
  cases goesOn with
  | turn k _ _ => exact ok_turn ok k
  | begin_ k _ => exact ok_begin ok k
  | settle k _ => exact ok_settle ok k

/-- Where no call can go on by itself, every call has settled and the lock is
free. -/
theorem settled_of_quiescent (ok : Ok l) (quiescent : ∀ t, ¬GoesOn l t) :
    (∀ k phase, l.phaseAt k = some phase → phase = .settled) ∧ l.robotCalls = 0 := by
  have all : ∀ k phase, l.phaseAt k = some phase → phase = .settled := by
    intro k
    induction k using Nat.strong_induction_on with
    | _ k ih =>
      intro phase isPhase
      cases phase with
      | waiting =>
        refine absurd (GoesOn.turn k isPhase ?_) (quiescent _)
        refine resolvedBefore_iff.mpr ?_
        exact fun i below other isOther => ih i below other isOther
      | aborting => exact absurd (GoesOn.settle k (.inl isPhase)) (quiescent _)
      | granted => exact absurd (GoesOn.begin_ k isPhase) (quiescent _)
      | running => exact absurd (GoesOn.settle k (.inr (.inr isPhase))) (quiescent _)
      | settled => rfl
  refine ⟨all, ?_⟩
  rw [ok.count, unsettled, weigh]
  refine List.sum_eq_zero ?_
  intro weight member
  obtain ⟨call, isMember, rfl⟩ := List.mem_map.mp member
  obtain ⟨k, found⟩ := List.mem_iff_getElem?.mp isMember
  exact if_pos (all k call.phase (by rw [phaseAt, found, map_some]))

/-- Left to itself, the lock comes to rest with every call settled. -/
structure Settles (l : Lock κ) : Prop where
  ends : Acc (fun later earlier => GoesOn earlier later) l
  settled :
    ∀ t, Relation.ReflTransGen GoesOn l t → (∀ u, ¬GoesOn t u) →
      (∀ k phase, t.phaseAt k = some phase → phase = .settled) ∧ t.robotCalls = 0

theorem settles_of_ok (ok : Ok l) : Settles l where
  ends := by
    refine Subrelation.accessible (fun goesOn => ?_) ((measure (@weigh κ Phase.left)).wf.apply l)
    exact left_decreases goesOn
  settled := by
    intro t reached quiescent
    refine settled_of_quiescent ?_ quiescent
    clear quiescent
    induction reached with
    | refl => exact ok
    | tail _ goesOn ih => exact ok_goesOn ih goesOn

end Lock

end PiEmbodied.Robot
