import PiEmbodied.Runs

/-!
# The units verifier

A finish claiming success is refused while a gripper holds, while the verifier
fails or after a verdict that the task is not complete, each within its budget.
-/

namespace PiEmbodied.Units

open Runs

def MAX_HOLD_REFUSALS : ℕ := 2

def MAX_REPLANS : ℕ := 1

def MAX_VERIFIER_ERRORS : ℕ := 2

/-- The verifier's part of the episode state, over its images. -/
structure VerifierState (ι : Type) where
  replans : ℕ
  verdict : String
  (holdRefusals verifierErrors : ℕ)
  verifierError : String
  finishVerified : Option Bool
  images : List ι
  deriving DecidableEq

def verifierState (ι : Type) : VerifierState ι :=
  ⟨0, "", 0, 0, "", none, []⟩

structure Verdict where
  complete : Bool
  reason : String
  available : Bool
  deriving DecidableEq

/-- What the handlers are registered with; `parseVerdict` reads a reply. -/
structure VerifierDeps where
  arms : List String
  (active verifying retreats : Bool)
  parseVerdict : String → Verdict

/-- How a call to the verifier's model ends. -/
inductive Ask where
  | reply (text : String)
  | error (message : String)
  deriving DecidableEq

/-- A call of `finish`: its status, what the robot reports, the images each
arm's lift shows, and the calls to the model, with whether the run is aborted
when one fails. -/
structure Claim (ι : Type) where
  status : Option String
  closed : String → Bool
  placement : Bool
  lift : String → List ι
  first : Ask
  aborted : Bool
  second : Ask
  abortedAgain : Bool

inductive Outcome where
  | unchecked
  | holding (arms : List String)
  | unavailable (error : String)
  | notComplete (verdict : String)
  | aborted
  | passed (verdict : Option Verdict)
  deriving DecidableEq

inductive Event (ι : Type) where
  | toolResult (point : Bool) (shown : List ι)
  | plan (stages : Bool)
  | finish (claim : Claim ι)

variable {ι : Type} (deps : VerifierDeps)

/-! ## The finish check -/

def armNames : List String :=
  if deps.arms.isEmpty then [""] else deps.arms

/-- The images after every open gripper was lifted. -/
def retreat (claim : Claim ι) (images : List ι) : List ι :=
  if deps.retreats then
    (armNames deps).foldl
      (fun images arm =>
        if claim.closed arm || (claim.lift arm).isEmpty then images
        else claim.lift arm)
      images
  else images

/-- The reply of the verifier's model, asked once more after a failure; none
where the run was aborted. -/
def Claim.asked (claim : Claim ι) : Option Ask :=
  match claim.first with
  | .reply text => some (.reply text)
  | .error _ =>
    if claim.aborted then none
    else
      match claim.second with
      | .reply text => some (.reply text)
      | .error message =>
        if claim.abortedAgain then none else some (.error message)

/-- Whether a finish is the verifier's to check. -/
def checks (claim : Claim ι) : Bool :=
  deps.active && deps.verifying && !claim.status.any (· ≠ "success")

def finishCheck (check : VerifierState ι) (claim : Claim ι) : Outcome × VerifierState ι :=
  if checks deps claim then
    let holding := (armNames deps).filter claim.closed
    if claim.placement && !holding.isEmpty &&
        check.holdRefusals < MAX_HOLD_REFUSALS then
      (.holding holding, { check with holdRefusals := check.holdRefusals + 1 })
    else
      let check := { check with images := retreat deps claim check.images }
      if check.images.isEmpty then
        (.passed none, { check with finishVerified := some false })
      else
        match claim.asked with
        | none => (.aborted, check)
        | some (.error message) =>
          let check := { check with verifierError := message }
          if check.verifierErrors < MAX_VERIFIER_ERRORS then
            (.unavailable message, { check with verifierErrors := check.verifierErrors + 1 })
          else (.passed none, { check with finishVerified := some false })
        | some (.reply text) =>
          let verdict := deps.parseVerdict text
          let check := { check with finishVerified := some verdict.available }
          if !verdict.complete && check.replans < MAX_REPLANS then
            (.notComplete verdict.reason,
              { check with
                replans := check.replans + 1
                verdict := verdict.reason })
          else (.passed (some verdict), check)
  else (.unchecked, check)

/-- An episode: the verifier's state and what became of each finish. -/
abbrev Episode (ι : Type) := VerifierState ι × List Outcome

def step (episode : Episode ι) : Event ι → Episode ι
  | .toolResult point shown =>
    if !deps.active || point || shown.isEmpty then episode
    else ({ episode.1 with images := shown }, episode.2)
  | .plan stages =>
    (if stages then { episode.1 with verdict := "" } else episode.1,
      episode.2)
  | .finish claim =>
    ((finishCheck deps episode.1 claim).2, episode.2 ++ [(finishCheck deps episode.1 claim).1])

def episode (events : List (Event ι)) : Episode ι :=
  after (step deps) (verifierState ι, []) events

/-! ## Budgets -/

/-- The units of each budget: holding, not complete, unavailable. -/
structure Spent where
  (holding replans errors : ℕ)
  deriving DecidableEq

def Outcome.spends : Outcome → Spent
  | .holding _ => ⟨1, 0, 0⟩
  | .notComplete _ => ⟨0, 1, 0⟩
  | .unavailable _ => ⟨0, 0, 1⟩
  | _ => ⟨0, 0, 0⟩

def Outcome.refused : Outcome → Bool
  | .holding _ | .notComplete _ | .unavailable _ => true
  | _ => false

/-- Exactly what an outcome spends is taken, and no budget is overdrawn. -/
structure Spends (before after : VerifierState ι) (outcome : Outcome) :
    Prop where
  holding : after.holdRefusals = before.holdRefusals + outcome.spends.holding
  replans : after.replans = before.replans + outcome.spends.replans
  errors : after.verifierErrors = before.verifierErrors + outcome.spends.errors
  room : (outcome.spends.holding = 1 → before.holdRefusals < MAX_HOLD_REFUSALS) ∧
    (outcome.spends.replans = 1 → before.replans < MAX_REPLANS) ∧
    (outcome.spends.errors = 1 → before.verifierErrors < MAX_VERIFIER_ERRORS)

theorem finishCheck_spends (check : VerifierState ι) (claim : Claim ι) :
    Spends check (finishCheck deps check claim).2 (finishCheck deps check claim).1 := by
  have nothing {after : VerifierState ι} {outcome : Outcome} (none : outcome.spends = ⟨0, 0, 0⟩)
      (holding : after.holdRefusals = check.holdRefusals)
      (replans : after.replans = check.replans)
      (errors : after.verifierErrors = check.verifierErrors) :
      Spends check after outcome := by
    constructor <;> simp [none, holding, replans, errors]
  unfold finishCheck
  split
  · dsimp only
    split
    · rename_i room
      simp only [Bool.and_eq_true, decide_eq_true_eq] at room
      exact ⟨rfl, rfl, rfl, fun _ => room.2, nofun, nofun⟩
    split
    · exact nothing rfl rfl rfl rfl
    split
    · exact nothing rfl rfl rfl rfl
    · split
      · rename_i room
        exact ⟨rfl, rfl, rfl, nofun, nofun, fun _ => room⟩
      · exact nothing rfl rfl rfl rfl
    · split
      · rename_i room
        simp only [Bool.and_eq_true, decide_eq_true_eq] at room
        exact ⟨rfl, rfl, rfl, nofun, fun _ => room.2, nofun⟩
      · exact nothing rfl rfl rfl rfl
  · exact nothing rfl rfl rfl rfl

/-- The refusals so far are what the budgets have spent. -/
structure Accounted (episode : Episode ι) : Prop where
  holding : episode.1.holdRefusals ≤ MAX_HOLD_REFUSALS
  replans : episode.1.replans ≤ MAX_REPLANS
  errors : episode.1.verifierErrors ≤ MAX_VERIFIER_ERRORS
  refusals : episode.2.countP Outcome.refused =
    episode.1.holdRefusals + episode.1.replans + episode.1.verifierErrors

theorem accounted_step {episode : Episode ι} (accounted : Accounted episode) (event : Event ι) :
    Accounted (step deps episode event) := by
  cases event with
  | toolResult point shown =>
    simp only [step]
    split
    · exact accounted
    · exact ⟨accounted.holding, accounted.replans, accounted.errors, accounted.refusals⟩
  | plan stages =>
    cases stages
    · exact accounted
    · exact ⟨accounted.holding, accounted.replans, accounted.errors, accounted.refusals⟩
  | finish claim =>
    obtain ⟨holding, replans, errors, refusals⟩ := accounted
    obtain ⟨heldBy, replannedBy, erredBy, room⟩ := finishCheck_spends deps episode.1 claim
    simp only [step]
    cases outcome : (finishCheck deps episode.1 claim).1
    all_goals
      rw [outcome] at heldBy replannedBy erredBy room
      simp [Outcome.spends] at heldBy replannedBy erredBy room
      constructor <;> simp [Outcome.refused] <;> omega

theorem accounted_episode (events : List (Event ι)) : Accounted (episode deps events) :=
  after_preserves (step deps) (fun _ => True) Accounted
    (fun _ event _ accounted => accounted_step deps accounted event)
    ⟨Nat.zero_le _, Nat.zero_le _, Nat.zero_le _, rfl⟩ (fun _ _ => trivial)

/-! ## The record -/

/-- The outcomes that let a finish end the episode. -/
def Outcome.ends : Outcome → Bool
  | .unchecked | .passed _ => true
  | _ => false

/-- A finish is recorded as verified only if it was checked as a claim of
success and let through after an available verdict. -/
def Recorded (check : VerifierState ι) (claim : Claim ι) : Prop :=
  (finishCheck deps check claim).2.finishVerified = some true →
    checks deps claim = true ∧
      ∃ verdict, (finishCheck deps check claim).1 = .passed (some verdict) ∧
        verdict.available = true

theorem recorded_iff {check : VerifierState ι} {claim : Claim ι}
    (ends : (finishCheck deps check claim).1.ends = true) :
    Recorded deps check claim ↔ checks deps claim = true ∨ check.finishVerified ≠ some true := by
  by_cases checked : checks deps claim = true
  · refine iff_of_true (fun verified => ⟨checked, ?_⟩) (.inl checked)
    revert verified ends
    simp only [finishCheck, if_pos checked]
    split
    · nofun
    split
    · nofun
    split
    · nofun
    · split
      · nofun
      · nofun
    · split
      · nofun
      · exact fun _ verified => ⟨_, rfl, Option.some.inj verified⟩
  · simp [Recorded, finishCheck, checked]

/-- A robot whose one reply is that the task is not complete. -/
def strict : VerifierDeps where
  arms := []
  active := true
  verifying := true
  retreats := true
  parseVerdict text := ⟨false, text, true⟩

def claimOf (status : String) : Claim Unit where
  status := some status
  closed _ := false
  placement := false
  lift _ := [()]
  first := .reply "not in the bin"
  aborted := false
  second := .error ""
  abortedAgain := false

end PiEmbodied.Units
