import PiEmbodied.Entries
import PiEmbodied.Runs

/-!
# Stage control

The steps a planned stage has left, over acts, plan calls, rollbacks and
replans.  A log keeps, newest first, the units the robot ran and what put a
stage in force.
-/

namespace PiEmbodied.Stages

/-- A stage of the plan; the empty text names no arm. -/
structure Stage where
  motion : String
  arm : String
  deriving DecidableEq

def Stage.counts (s : Stage) (arm : String) : Bool :=
  s.arm = "" || arm = "" || s.arm = arm

inductive Event where
  | unit (operator : Bool) (arm : String)
  | advanced (stage : Option Stage)
  | lifted (stage : Option Stage)
  | replanned
  deriving DecidableEq

structure Control where
  stages : List Stage
  stage : ℕ
  stageSteps : List (String × ℕ)
  capped : Bool
  log : List Event

namespace Control

def initial : Control := ⟨[], 0, [], false, []⟩

variable (cap : ℕ) (isGrasp : String → Bool) (c : Control)

def current : Option Stage := c.stages[c.stage]?

def stepsOf (arm : String) : ℕ := (Entries.get c.stageSteps arm).getD 0

/-- The unit run is logged where it is counted. -/
def countStep (operator : Bool) (arm : String) : Control :=
  { c with
    stageSteps :=
      if c.current.any fun s => !s.counts arm then c.stageSteps
      else Entries.set c.stageSteps arm (c.stepsOf arm + 1)
    log := .unit operator arm :: c.log }

/-- A stage that ran its cap is abandoned for the next; past the last no unit
runs. -/
def advanceCapped (arms : List String) : Control × Bool :=
  if cap = 0 ∨ c.stages.length ≤ c.stage ∨ ∀ arm ∈ arms, c.stepsOf arm < cap then (c, true)
  else
    let next := { c with
      stage := c.stage + 1
      stageSteps := []
      log := .advanced c.stages[c.stage + 1]? :: c.log }
    if next.stage < next.stages.length then (next, true) else ({ next with capped := true }, false)

def rollback (arm : String) : Control :=
  if c.stages = [] then c
  else
    let target := ((List.range (min c.stage (c.stages.length - 1) + 1)).reverse.find? fun i =>
      c.stages[i]?.any fun s =>
        isGrasp s.motion && (arm = "" || s.arm = "" || s.arm = arm)).getD 0
    { c with stage := target, stageSteps := [], capped := false, log := .lifted c.stages[target]? :: c.log }

/-- How a tick goes on past the cap: a guard refuses it, a command throws, or
the commands return, with the arms whose grasp failed. -/
inductive TickEnd where
  | refused
  | threw
  | ran (halted : Bool) (rolls : List String) (stop : Bool)

structure Tick where
  arms : List String
  distinct : arms.Nodup
  ended : TickEnd

def runTicks (operator : Bool) : Control → List Tick → Control
  | c, [] => c
  | c, tick :: rest =>
    match c.advanceCapped cap tick.arms with
    | (c, false) => c
    | (c, true) =>
      match tick.ended with
      | .refused | .threw => c
      | .ran halted rolls stop =>
        let c := tick.arms.foldl (countStep · operator) c
        if halted then c
        else
          let c := rolls.foldl (rollback isGrasp) c
          if stop || !rolls.isEmpty then c else runTicks operator c rest

def act (operator : Bool) (ticks : List Tick) : Control :=
  if c.capped && !operator then c else runTicks cap isGrasp operator c ticks

/-- `unverified`: recovery measures no hold. -/
def plan (next : List Stage) (done unverified : Bool) : Control :=
  if done && unverified && c.current.any (isGrasp ·.motion) then
    { c with stageSteps := [], log := .lifted c.current :: c.log }
  else
    let stage := if done && c.stage < c.stages.length then c.stage + 1 else c.stage
    let stages := if next.isEmpty then c.stages else c.stages.take stage ++ next
    if done || !next.isEmpty then
      { c with stages, stage, stageSteps := [], capped := false, log := .lifted stages[stage]? :: c.log }
    else c

def replan : Control :=
  { c with stages := [], stage := 0, log := .replanned :: c.log }

inductive Op where
  | act (operator : Bool) (ticks : List Tick)
  | plan (next : List Stage) (done unverified : Bool)
  | replan

def step : Op → Control
  | .act operator ticks => c.act cap isGrasp operator ticks
  | .plan next done unverified => c.plan isGrasp next done unverified
  | .replan => c.replan

end Control

/-! ## What the log says -/

/-- The stage last put in force. -/
def stageOf : List Event → Option Stage
  | [] | .replanned :: _ => none
  | .unit _ _ :: rest => stageOf rest
  | .advanced s :: _ | .lifted s :: _ => s

/-- The arms of the units run since. -/
def since : List Event → List String
  | .unit _ arm :: rest => arm :: since rest
  | _ => []

/-- The last stage was abandoned, and neither a plan nor a rollback
followed. -/
def blocked : List Event → Bool
  | [] => false
  | .advanced s :: _ => s.isNone
  | .lifted _ :: _ => false
  | .unit _ _ :: rest | .replanned :: rest => blocked rest

structure Within (cap : ℕ) (log : List Event) : Prop where
  counted :
    ∀ s, stageOf log = some s → ∀ arm, s.counts arm = true → (since log).count arm ≤ cap
  heeded : ∀ arm rest, log = .unit false arm :: rest → blocked rest = false

structure Inv (cap : ℕ) (c : Control) : Prop where
  inside : c.stage ≤ c.stages.length
  shown : stageOf c.log = c.current
  counted :
    ∀ s, c.current = some s → ∀ arm, s.counts arm = true →
      (since c.log).count arm ≤ c.stepsOf arm ∧ c.stepsOf arm ≤ cap
  past : ∀ past, past <:+ c.log → Within cap past
  blocks : blocked c.log = c.capped
  capped : c.stage < c.stages.length → c.capped = false

variable {cap : ℕ} {isGrasp : String → Bool} {c : Control}

theorem Inv.initial : Inv cap .initial where
  inside := Nat.le_refl 0
  shown := rfl
  counted := fun s isStage => by cases isStage
  past := by
    intro past isPast
    rw [List.suffix_nil.mp isPast]
    exact ⟨fun s isStage => (by cases isStage), fun arm rest isLog => (by cases isLog)⟩
  blocks := rfl
  capped := fun _ => rfl

/-- A stage put in force starts with no units run. -/
theorem Inv.enter (inv : Inv cap c) {next : Control} {event : Event}
    (isLog : next.log = event :: c.log) (notUnit : ∀ operator arm, event ≠ .unit operator arm)
    (inside : next.stage ≤ next.stages.length) (shown : stageOf (event :: c.log) = next.current)
    (steps : next.stageSteps = [] ∨ next.current = none)
    (blocks : blocked (event :: c.log) = next.capped)
    (capped : next.stage < next.stages.length → next.capped = false) : Inv cap next := by
  have nothing : since (event :: c.log) = [] := by
    cases event with
    | unit operator arm => exact absurd rfl (notUnit operator arm)
    | _ => rfl
  refine ⟨inside, isLog ▸ shown, ?_, ?_, isLog ▸ blocks, capped⟩
  · intro s isStage arm _
    rcases steps with isEmpty | noStage
    · rw [isLog, nothing, Control.stepsOf, isEmpty]
      exact ⟨Nat.le_refl 0, Nat.zero_le cap⟩
    · rw [noStage] at isStage
      cases isStage
  · intro past isPast
    rw [isLog] at isPast
    rcases List.suffix_cons_iff.mp isPast with rfl | earlier
    · refine ⟨fun s _ arm _ => ?_, fun arm rest isUnit => ?_⟩
      · rw [nothing]
        exact Nat.zero_le cap
      · exact absurd (List.cons.inj isUnit).1 (notUnit false arm)
    · exact inv.past past earlier

/-! ## Units -/

theorem stepsOf_countStep {s : Stage} (isStage : c.current = some s) (operator : Bool)
    (arm other : String) :
    (c.countStep operator arm).stepsOf other =
      if s.counts arm = true ∧ other = arm then c.stepsOf arm + 1 else c.stepsOf other := by
  cases counts : s.counts arm with
  | false => simp [Control.countStep, Control.stepsOf, isStage, counts]
  | true =>
    by_cases same : other = arm
    · simp [Control.countStep, Control.stepsOf, isStage, counts, same, Entries.get_set]
    · simp [Control.countStep, Control.stepsOf, isStage, counts, same, Entries.get_set]

variable {operator : Bool}

theorem Inv.unit (inv : Inv cap c) {arm : String} (allowed : operator = false → c.capped = false)
    (room : ∀ s, c.current = some s → c.stepsOf arm < cap) : Inv cap (c.countStep operator arm) := by
  have counted : ∀ s, c.current = some s → ∀ other, s.counts other = true →
      (arm :: since c.log).count other ≤ (c.countStep operator arm).stepsOf other ∧
        (c.countStep operator arm).stepsOf other ≤ cap := by
    intro s isStage other counts
    obtain ⟨before, within⟩ := inv.counted s isStage other counts
    rw [stepsOf_countStep isStage]
    by_cases same : other = arm
    · subst same
      rw [List.count_cons_self, if_pos ⟨counts, rfl⟩]
      exact ⟨Nat.succ_le_succ before, room s isStage⟩
    · rw [List.count_cons_of_ne (Ne.symm same), if_neg fun both => same both.2]
      exact ⟨before, within⟩
  refine ⟨inv.inside, inv.shown, counted, ?_, inv.blocks, inv.capped⟩
  intro past isPast
  rcases List.suffix_cons_iff.mp isPast with rfl | earlier
  · refine ⟨fun s isStage other counts => ?_, ?_⟩
    · obtain ⟨few, within⟩ := counted s (inv.shown.symm.trans isStage) other counts
      exact Nat.le_trans few within
    · rintro other rest ⟨⟩
      exact inv.blocks.trans (allowed rfl)
  · exact inv.past past earlier

theorem Inv.units (inv : Inv cap c) {arms : List String} (distinct : arms.Nodup)
    (allowed : operator = false → c.capped = false)
    (room : ∀ arm ∈ arms, ∀ s, c.current = some s → c.stepsOf arm < cap) :
    Inv cap (arms.foldl (Control.countStep · operator) c) ∧
      (arms.foldl (Control.countStep · operator) c).capped = c.capped := by
  induction arms generalizing c with
  | nil => exact ⟨inv, rfl⟩
  | cons arm rest ih =>
    obtain ⟨isNew, distinctRest⟩ := List.nodup_cons.mp distinct
    refine ih (inv.unit allowed (room arm List.mem_cons_self)) distinctRest allowed ?_
    intro other member s isStage
    have steps := @stepsOf_countStep c s isStage operator arm other
    have different : other ≠ arm := fun same => isNew (same ▸ member)
    rw [if_neg fun both => different both.2] at steps
    exact steps ▸ room other (List.mem_cons_of_mem arm member) s isStage

/-! ## The operations -/

theorem Inv.advanceCapped (positive : 0 < cap) (inv : Inv cap c) {arms : List String}
    {next : Control} {goes : Bool} (isNext : c.advanceCapped cap arms = (next, goes)) :
    Inv cap next ∧
      (goes = true → next.capped = c.capped ∧
        ∀ arm ∈ arms, ∀ s, next.current = some s → next.stepsOf arm < cap) := by
  unfold Control.advanceCapped at isNext
  split at isNext
  · rename_i fits
    cases isNext
    refine ⟨inv, fun _ => ⟨rfl, fun arm member s isStage => ?_⟩⟩
    have inside : c.stage < c.stages.length := (List.getElem?_eq_some_iff.mp isStage).1
    rcases fits with none_ | past | room
    · omega
    · omega
    · exact room arm member
  · rename_i stops
    have before : c.stage < c.stages.length := by
      by_contra past
      exact stops (.inr (.inl (Nat.le_of_not_lt past)))
    have notCapped := inv.capped before
    dsimp only at isNext
    split at isNext
    · rename_i goesOn
      cases isNext
      refine ⟨inv.enter rfl (fun _ _ => nofun) before rfl (.inl rfl) ?_ fun _ => notCapped,
        fun _ => ⟨rfl, fun _ _ _ _ => positive⟩⟩
      simp [blocked, List.getElem?_eq_getElem goesOn, notCapped]
    · rename_i ends
      cases isNext
      refine ⟨inv.enter rfl (fun _ _ => nofun) before rfl (.inl rfl) ?_
        fun inside => absurd inside ends, nofun⟩
      simp [blocked, List.getElem?_eq_none (Nat.le_of_not_lt ends)]

theorem Inv.rollback (inv : Inv cap c) (arm : String) : Inv cap (c.rollback isGrasp arm) := by
  unfold Control.rollback
  split
  · exact inv
  · rename_i some_
    have positive := List.length_pos_of_ne_nil some_
    refine inv.enter rfl (fun _ _ => nofun) ?_ rfl (.inl rfl) rfl fun _ => rfl
    dsimp only
    cases found : List.find? _ _ with
    | none => exact Nat.zero_le _
    | some i =>
      have member := List.mem_range.mp (List.mem_reverse.mp (List.mem_of_find?_eq_some found))
      rw [Option.getD_some]
      omega

theorem Inv.rollbacks (inv : Inv cap c) (arms : List String) :
    Inv cap (arms.foldl (Control.rollback isGrasp) c) := by
  induction arms generalizing c with
  | nil => exact inv
  | cons arm rest ih => exact ih (inv.rollback arm)

theorem Inv.runTicks (positive : 0 < cap) (ticks : List Control.Tick) (inv : Inv cap c)
    (allowed : operator = false → c.capped = false) :
    Inv cap (Control.runTicks cap isGrasp operator c ticks) := by
  induction ticks generalizing c with
  | nil => exact inv
  | cons tick rest ih =>
    rw [Control.runTicks]
    split
    · rename_i next isNext
      exact (inv.advanceCapped positive isNext).1
    · rename_i next isNext
      obtain ⟨advanced, goes⟩ := inv.advanceCapped positive isNext
      obtain ⟨sameCapped, room⟩ := goes rfl
      rw [← sameCapped] at allowed
      split
      · exact advanced
      · exact advanced
      · rename_i halted rolls stop _
        obtain ⟨ran, still⟩ := advanced.units tick.distinct allowed room
        dsimp only
        split
        · exact ran
        · split
          · exact ran.rollbacks rolls
          · rename_i goesOn
            cases rolls with
            | nil => exact ih ran fun isPlanner => still.trans (allowed isPlanner)
            | cons arm later => simp at goesOn

theorem Inv.plan (inv : Inv cap c) (next : List Stage) (done unverified : Bool) :
    Inv cap (c.plan isGrasp next done unverified) := by
  unfold Control.plan
  split
  · rename_i refused
    refine inv.enter rfl (fun _ _ => nofun) inv.inside rfl (.inl rfl) ?_ inv.capped
    cases isStage : c.current with
    | none => simp [isStage] at refused
    | some s => exact (inv.capped (List.getElem?_eq_some_iff.mp isStage).1).symm
  · have inside := inv.inside
    dsimp only
    split
    · refine inv.enter rfl (fun _ _ => nofun) ?_ rfl (.inl rfl) rfl fun _ => rfl
      split_ifs <;> grind
    · exact inv

theorem Inv.step (positive : 0 < cap) (inv : Inv cap c) (op : Control.Op) :
    Inv cap (c.step cap isGrasp op) := by
  cases op with
  | act operator ticks =>
    rw [Control.step, Control.act]
    split
    · exact inv
    · rename_i runs
      exact inv.runTicks positive ticks fun isPlanner => by simpa [isPlanner] using runs
  | plan next done unverified => exact inv.plan next done unverified
  | replan =>
    exact inv.enter rfl (fun _ _ => nofun) (Nat.le_refl 0) rfl (.inr rfl) inv.blocks nofun

/-- The state after a run from the start of an episode. -/
def runs (cap : ℕ) (isGrasp : String → Bool) (ops : List Control.Op) : Control :=
  Runs.after (Control.step cap isGrasp) .initial ops

/-- In every run the stage stays in the plan, no arm a stage counts runs more
units in it than the cap, and none of the planner's runs past an abandoned
last stage. -/
theorem stage_control (positive : 0 < cap) (isGrasp : String → Bool) (ops : List Control.Op) :
    (runs cap isGrasp ops).stage ≤ (runs cap isGrasp ops).stages.length ∧
      ∀ past, past <:+ (runs cap isGrasp ops).log → Within cap past := by
  have inv := Runs.after_invariant (Control.step cap isGrasp) (Inv cap)
    (fun _ op inv => inv.step positive op) Inv.initial ops
  exact ⟨inv.inside, inv.past⟩

/-- A stage of the left arm, and two units of the right. -/
def rightTwice : List Control.Op :=
  [.plan [⟨"REACH", "left"⟩] false false,
    .act false (.replicate 2 ⟨["right"], by simp, .ran false [] false⟩)]

theorem stage_control_right : Within 1 (runs 1 (· = "GRASP") rightTwice).log :=
  (stage_control Nat.one_pos (· = "GRASP") rightTwice).2 _ (List.suffix_refl _)

/-- The left arm's stage does not count the right arm's units. -/
theorem uncounted_arm :
    (runs 1 (· = "GRASP") rightTwice).log =
      [.unit false "right", .unit false "right", .lifted (some ⟨"REACH", "left"⟩)] := by
  decide

end PiEmbodied.Stages
