import Mathlib.Data.List.Basic

/-!
# The closed loop

A motion whose outcome is unknown holds the agent's motions back until an
observation.  The agent's calls run one at a time; an operator's calls do not
pass the gate, and their results are not watched.
-/

namespace PiEmbodied.ClosedLoop

def OBSERVE : List String := ["view_env_state", "render", "look", "mm_observe"]

def NON_MOTION : List String :=
  ["get_camera_meta", "get_object_pose", "sample_grasp_pose"] ++ OBSERVE ++
    ["get_robot_position", "view_camera_meta", "view_perception_setup",
      "describe_dual_franka_setup", "segment", "point", "molmo_point",
      "back_project", "back_project_batch", "back_project_correspondence",
      "sample_world_xyz", "query_world_map", "detect", "select_detection",
      "reject_detection", "enhance_depth", "plan", "plan_grasp", "plan_place",
      "preview_reach", "check_attached", "view_points", "mark_point",
      "ground_truth_poses", "halt_arm", "suggest_grasp"]

def RESETS : List String := ["reset", "request_scene_reset"]

/-- A tool's result: its blocks' texts, and of its details the status, the
outcome, whether it says it timed out, and the errors. -/
structure Result where
  isError : Bool
  content : List (Option String)
  (status outcome : Option String)
  timedOut : Bool
  (error nested : Option String)
  deriving DecidableEq

/-- A robot's session with an observation tool active; `unknown` is the pattern
of texts that leave the outcome open. -/
structure Session where
  (robotTools active : List String)
  isActive : active ≠ []
  unknown : String → Bool
  oneLine : String → String

inductive Who where
  | agent
  | operator
  deriving DecidableEq

/-- What is seen of the calls: bodies that start, results and refusals. -/
inductive Seen where
  | started (who : Who) (tool : String)
  | returned (who : Who) (tool : String) (result : Result)
  | refused (tool : String) (reason : String)
  deriving DecidableEq

/-- The gate, the agent's call with whether its body started, and the past. -/
structure World where
  pending : Option (String × String)
  (unknown refused : ℕ)
  agent : Option (String × Bool)
  trace : List Seen
  deriving DecidableEq

def World.fresh : World := ⟨none, 0, 0, none, []⟩

inductive Event where
  | call (tool : String)
  | start
  | result (result : Result)
  | operatorStart (tool : String)
  | operatorResult (tool : String) (result : Result)

variable (s : Session)

/-! ## The gate -/

def observes (tool : String) : Bool := OBSERVE.contains tool

def moves (tool : String) : Bool :=
  (s.robotTools.contains tool || RESETS.contains tool) && !NON_MOTION.contains tool

def unknownOutcome (r : Result) : Option String :=
  if r.status = some "timeout" || r.timedOut then some "timed out"
  else if r.status = some "unknown" || r.outcome = some "unknown" then
    some "reported an unknown outcome"
  else
    match [r.error, r.nested].filterMap (·.filter s.unknown) with
    | error :: _ => some (s.oneLine error)
    | [] =>
      let text := " ".intercalate (r.content.map (·.getD ""))
      if r.isError && s.unknown text then some (s.oneLine text) else none

def watch (w : World) (tool : String) (r : Result) : World :=
  if observes tool then if r.isError then w else { w with pending := none }
  else if moves s tool then
    match unknownOutcome s r with
    | none => w
    | some why => { w with pending := some (tool, why), unknown := w.unknown + 1 }
  else w

/-- Why a call is refused, if it is. -/
def gate (w : World) (tool : String) : Option String :=
  match w.pending with
  | none => none
  | some (last, why) =>
    if !moves s tool || s.active.isEmpty then none
    else
      some (tool ++ " refused: the last motion (" ++ last ++
        ") has an unknown outcome (" ++ why ++ "). Re-observe with " ++
        " or ".intercalate s.active ++ " before issuing another motion.")

/-- A call of the agent comes when its last has returned; a body that never
started returns an error. -/
def step (w : World) : Event → World
  | .call tool =>
    if w.agent.isSome then w
    else
      match gate s w tool with
      | some reason =>
        { w with
          refused := w.refused + 1
          trace := w.trace ++ [.refused tool reason] }
      | none => { w with agent := some (tool, false) }
  | .start =>
    match w.agent with
    | some (tool, false) =>
      { w with
        agent := some (tool, true)
        trace := w.trace ++ [.started .agent tool] }
    | _ => w
  | .result r =>
    match w.agent with
    | some (tool, begun) =>
      if begun || r.isError then
        { watch s w tool r with
          agent := none
          trace := w.trace ++ [.returned .agent tool r] }
      else w
    | none => w
  | .operatorStart tool => { w with trace := w.trace ++ [.started .operator tool] }
  | .operatorResult tool r => { w with trace := w.trace ++ [.returned .operator tool r] }

/-! ## What is owed -/

/-- Whether an observation is owed, and whose running call is one that started
since it is. -/
structure Debt where
  owed : Bool
  fresh : Who → Bool

/-- A motion's unknown outcome makes an observation owed; one that started since
and returns without error pays it. -/
def look (debt : Debt) : Seen → Debt
  | .started who tool => { debt with fresh := Function.update debt.fresh who (observes tool) }
  | .returned who tool r =>
    if observes tool then
      if !r.isError && debt.fresh who then { debt with owed := false }
      else debt
    else if moves s tool && (unknownOutcome s r).isSome then
      ⟨true, fun _ => false⟩
    else debt
  | .refused _ _ => debt

/-- No motion starts while an observation is owed, and none is refused while
none is. -/
def Kept : Debt → List Seen → Prop
  | _, [] => True
  | debt, seen :: later =>
    (match seen with
      | .started _ tool => moves s tool = true → debt.owed = false
      | .refused _ _ => debt.owed = true
      | .returned _ _ _ => True) ∧ Kept (look s debt seen) later

def clear : Debt := ⟨false, fun _ => false⟩

/-- An operator who starts no motion while the gate is set, none of whose
motions has an unknown outcome, and none of whose observations returns without
error while it is set. -/
def Minds (w : World) : Event → Prop
  | .operatorStart tool => moves s tool = true → w.pending = none
  | .operatorResult tool r =>
    (moves s tool = true → unknownOutcome s r = none) ∧
      (observes tool = true → r.isError = false → w.pending = none)
  | _ => True

def Mindful : World → List Event → Prop
  | _, [] => True
  | w, event :: events => Minds s w event ∧ Mindful (step s w event) events

variable {s}

theorem kept_snoc {debt : Debt} {trace : List Seen} {seen : Seen} :
    Kept s debt (trace ++ [seen]) ↔
      Kept s debt trace ∧ Kept s (trace.foldl (look s) debt) [seen] := by
  induction trace generalizing debt with
  | nil => simp [Kept]
  | cons first rest ih => simp only [List.cons_append, Kept, List.foldl_cons, ih, and_assoc]

/-- The gate is set exactly while an observation is owed. -/
structure Inv (s : Session) (w : World) : Prop where
  kept : Kept s clear w.trace
  owed : w.pending.isSome = (w.trace.foldl (look s) clear).owed
  fresh : ∀ tool, w.agent = some (tool, true) → observes tool = true →
    (w.trace.foldl (look s) clear).fresh .agent = true
  quiet : ∀ tool, w.agent = some (tool, false) → moves s tool = true → w.pending = none

theorem Inv.step {w : World} (inv : Inv s w) {event : Event}
    (minds : Minds s w event) : Inv s (step s w event) := by
  have owed := inv.owed
  cases event with
  | call tool =>
    simp only [ClosedLoop.step]
    split
    · exact inv
    rename_i free
    split
    · rename_i reason refused
      have set : w.pending.isSome = true := by
        cases known : w.pending with
        | none => simp [gate, known] at refused
        | some => rfl
      exact ⟨kept_snoc.mpr ⟨inv.kept, owed ▸ set, trivial⟩,
        by simpa [look] using owed, by simpa [look] using inv.fresh,
        inv.quiet⟩
    · rename_i passed
      refine ⟨inv.kept, owed, by simp, fun other same goes => ?_⟩
      cases same
      change w.pending = none
      cases known : w.pending with
      | none => rfl
      | some => simp [gate, known, goes, s.isActive] at passed
  | start =>
    simp only [ClosedLoop.step]
    split
    · rename_i tool waiting
      refine ⟨kept_snoc.mpr ⟨inv.kept, fun goes => ?_, trivial⟩,
        by simpa [look] using owed, fun other same looks => ?_, by simp⟩
      · rw [← owed, inv.quiet tool waiting goes]
        rfl
      · cases same
        simp [look, looks]
    · exact inv
  | result r =>
    simp only [ClosedLoop.step]
    split
    · rename_i tool begun running
      split
      · rename_i ran
        refine ⟨kept_snoc.mpr ⟨inv.kept, trivial, trivial⟩, ?_, by simp,
          by simp⟩
        simp only [List.foldl_append, List.foldl_cons, List.foldl_nil, look, watch]
        split
        · rename_i looks
          cases failed : r.isError with
          | true => simpa using owed
          | false =>
            have began : begun = true := by simpa [failed] using ran
            subst began
            simp [inv.fresh tool running looks]
        · cases goes : moves s tool with
          | false => simpa using owed
          | true => cases why : unknownOutcome s r <;> simp [owed]
      · exact inv
    · exact inv
  | operatorStart tool =>
    refine ⟨kept_snoc.mpr ⟨inv.kept, fun goes => ?_, trivial⟩,
      by simpa [ClosedLoop.step, look] using owed, ?_, inv.quiet⟩
    · rw [← owed, minds goes]
      rfl
    · simpa [ClosedLoop.step, look] using inv.fresh
  | operatorResult tool r =>
    have same : look s (w.trace.foldl (look s) clear)
        (.returned .operator tool r) = w.trace.foldl (look s) clear := by
      generalize w.trace.foldl (look s) clear = debt at owed
      rw [look]
      split
      · rename_i looks
        cases failed : r.isError with
        | true => simp
        | false =>
          rw [minds.2 looks failed] at owed
          obtain ⟨_, _⟩ := debt
          cases owed
          simp
      · cases goes : moves s tool with
        | false => simp
        | true => simp [minds.1 goes]
    refine ⟨kept_snoc.mpr ⟨inv.kept, trivial, trivial⟩, ?_, ?_, inv.quiet⟩
    all_goals
      simp only [ClosedLoop.step, List.foldl_append, List.foldl_cons, List.foldl_nil, same]
    · exact owed
    · exact inv.fresh

variable (s)

/-- In every run whose operator minds the gate, no motion starts after one of
unknown outcome until an observation started since has returned, and the gate
refuses nothing else. -/
theorem closedLoop_kept (events : List Event) (mindful : Mindful s .fresh events) :
    Kept s clear (events.foldl (step s) .fresh).trace := by
  have run : ∀ w, Inv s w → Mindful s w events → Inv s (events.foldl (step s) w) := by
    clear mindful
    induction events with
    | nil => exact fun w inv _ => inv
    | cons event events ih => exact fun w inv minds => ih _ (inv.step minds.1) minds.2
  exact (run .fresh ⟨trivial, rfl, by simp [World.fresh],
    by simp [World.fresh]⟩ mindful).kept

/-- A toy arm with one motion and one view. -/
def toy : Session where
  robotTools := ["move", "view_env_state"]
  active := ["view_env_state"]
  isActive := by decide
  unknown text := text == "RPC timed out"
  oneLine := id

def timedOut : Result :=
  ⟨true, [some "RPC timed out"], none, none, false, none, none⟩

def shown : Result := ⟨false, [], none, none, false, none, none⟩

/-- The agent's second motion is refused, and goes once it has looked. -/
theorem closedLoop_kept_toy :
    Kept toy clear
      ([.call "move", .start, .result timedOut, .call "move",
        .call "view_env_state", .start, .result shown, .operatorStart "move",
        .call "move", .start].foldl (step toy) .fresh).trace :=
  closedLoop_kept toy _ (by simp [Mindful, Minds]; decide)

/-- An operator's motion starts after one of the agent's timed out. -/
theorem operator_moves_unseen :
    ¬ Kept toy clear
      ([.call "move", .start, .result timedOut,
        .operatorStart "move"].foldl (step toy) .fresh).trace := by
  intro kept
  have owed := kept.2.2.1 (by decide)
  revert owed
  decide

end PiEmbodied.ClosedLoop
