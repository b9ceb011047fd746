import PiEmbodied.Motormind.Clauses

/-!
# The operator

The agent asks a human through dialogs; commands end the run at any time.  Tools
run one at a time, while commands, answers and environment steps interleave with
them at every await.  `operate` is one such atomic step, and logs what the
operator gave.
-/

namespace PiEmbodied.Operator

open Motormind (toLowerCase)

/-! ## State -/

inductive Verdict where
  | success | failure | abort
deriving DecidableEq

def Verdict.text : Verdict → String
  | .success => "success"
  | .failure => "failure"
  | .abort => "abort"

inductive Kind where
  | reset | verdict
deriving DecidableEq

/-- A pending request; `askedAt` is the env step its question is about. -/
structure Dialog where
  kind : Kind
  askedAt : ℕ
deriving DecidableEq

structure Judged where
  (verdict notes : String)
  step : ℕ
deriving DecidableEq

structure Config where
  (on hasUI : Bool)
  /-- The robot has an operator scene reset. -/
  hasReset : Bool
deriving DecidableEq

structure State where
  step : ℕ
  pending : Option Dialog
  /-- The robot's reset runs, after the operator confirmed the scene. -/
  resetting : Bool
  sealed_ : Option Verdict
  /-- A seal that waits for the agent to become idle. -/
  closing : Option Verdict
  verdict : Option Judged
  (aborted sceneReady : Bool)
  attempt : ℕ
deriving DecidableEq

def start (step : ℕ) : State where
  step := step
  pending := none
  resetting := false
  sealed_ := none
  closing := none
  verdict := none
  aborted := false
  sceneReady := true
  attempt := 1

structure Result where
  operator_verdict : Option String
  operator_notes : String
  (operator_aborted operator_finished : Bool)
  verdict_source : Option String
deriving DecidableEq

/-- The operator's fields of the run's result; without `--operator` none. -/
def result (c : Config) (o : State) : Option Result :=
  if !c.on then none
  else
    some
      { operator_verdict :=
          (o.sealed_.map Verdict.text).or (o.verdict.map (·.verdict))
        operator_notes := (o.verdict.map (·.notes)).getD ""
        operator_aborted := o.aborted || o.sealed_ = some .abort
        operator_finished := o.sealed_.isSome
        verdict_source :=
          if o.sealed_.isSome then some "interactive_command"
          else if o.verdict.isSome then some "request_operator_verdict"
          else none }

def refuse (c : Config) (o : State) (name : String) : Option String :=
  if !c.on then none
  else if o.sealed_.isSome then
    some "operator submitted a terminal verdict; the run is closing"
  else if name = "finish" then none
  else if o.aborted then
    some "operator aborted this run; finish without further motion"
  else if !o.sceneReady ∧ name ≠ "request_scene_reset" ∧ name ≠ "reset" then
    some "refused; request_scene_reset and obtain operator confirmation first"
  else none

def isSpace (c : Char) : Bool :=
  c ∈ ['\t', '\n', '\u000B', '\u000C', '\r', ' ', '\u00A0', '\u1680',
    '\u2028', '\u2029', '\u202F', '\u205F', '\u3000', '\uFEFF'] ∨
  ('\u2000' ≤ c ∧ c ≤ '\u200A')

def trim (text : List Char) : List Char :=
  ((text.dropWhile isSpace).reverse.dropWhile isSpace).reverse

def lower (text : List Char) : String := String.ofList (text.flatMap toLowerCase)

/-- The first word of an answer, lower case, and the notes after it. -/
def splitAnswer (response : Option String) : String × String :=
  let text := trim (response.getD "").toList
  let word := lower (text.takeWhile fun c => !isSpace c)
  let notes := ((text.dropWhile fun c => !isSpace c).dropWhile isSpace)
  (if word = "" then "unavailable" else word, String.ofList notes)

/-! ## One step -/

inductive Event where
  /-- A verdict on the state at an env step. -/
  | gave (verdict : String) (step : ℕ)
  | abortGiven
  | sealed (verdict : Verdict)
  | resetRequested
  | resetConfirmed
  | sessionStarted
deriving DecidableEq

def judged (o : State) (askedAt : ℕ) (response : Option String) : State × List Event :=
  let (v, notes) := splitAnswer response
  if v = "abort" ∨ response = none then
    ({ o with aborted := true, sceneReady := false }, [.abortGiven])
  else if v = "success" ∨ v = "failure" then
    ({ o with verdict := some ⟨v, notes, askedAt⟩ }, [.gave v askedAt])
  else (o, [])

/-- The scene reset dialog's answer: only `done` resets the robot. -/
def resetAnswered (o : State) (response : Option String) : State × List Event :=
  let word := response.map fun text => lower (trim text.toList)
  if word = some "done" then ({ o with resetting := true }, [])
  else
    let aborted : Bool := response = none ∨ word = some "abort"
    ({ o with aborted := aborted }, if aborted then [.abortGiven] else [])

/-- Go on after a dialog, unless the run was sealed meanwhile. -/
def answered (o : State) (dialog : Dialog) (response : Option String) : State × List Event :=
  if o.sealed_.isSome then (o, [])
  else
    match dialog.kind with
    | .verdict => judged o dialog.askedAt response
    | .reset => resetAnswered o response

def ask (c : Config) (o : State) (kind : Kind) : State × List Event :=
  if o.sealed_.isSome then (o, [])
  else if !c.hasUI then answered o ⟨kind, o.step⟩ none
  else ({ o with pending := some ⟨kind, o.step⟩ }, [])

def judge (c : Config) (o : State) : State × List Event :=
  let o := { o with verdict := none }
  if o.aborted ∨ !o.sceneReady then (o, []) else ask c o .verdict

def sceneReset (c : Config) (o : State) : State × List Event :=
  if !c.hasReset ∨ o.aborted then (o, [])
  else
    let asked := ask c { o with verdict := none, sceneReady := false } .reset
    (asked.1, .resetRequested :: asked.2)

/-- `/success`, `/failure`, `/abort`. -/
def sealRun (c : Config) (o : State) (v : Verdict) : State × List Event :=
  if !c.on ∨ o.sealed_.isSome ∨
      (v = .success ∧ (o.aborted ∨ !o.sceneReady)) then (o, [])
  else
    ({ o with sealed_ := some v, closing := some v, pending := none },
      [.sealed v, .gave v.text o.step])

def closeRun (o : State) : State :=
  match o.closing with
  | none => o
  | some .abort => { o with closing := none, aborted := true, sceneReady := false }
  | some v =>
    { o with
      closing := none
      verdict :=
        some ⟨v.text, "Operator entered /" ++ v.text ++ " in the interactive terminal.", o.step⟩ }

inductive Input where
  | sessionStart
  /-- The env step counter changes. -/
  | envStep (now : ℕ)
  | requestVerdict
  /-- The gate of `finish`. -/
  | finish
  | requestReset
  /-- The pending dialog is answered, by choice or by a command. -/
  | answer (response : Option String)
  /-- The command that answers a dialog of one kind. -/
  | reply (kind : Kind) (response : String)
  /-- The tool's signal aborts while it waits for the operator. -/
  | cancelled
  /-- One of the commands that end the run. -/
  | command (v : Verdict)
  | idle
  /-- The robot's reset settles. -/
  | robotReset (ok : Bool)
deriving DecidableEq

def State.busy (o : State) : Bool := o.pending.isSome || o.resetting

def answerPending (o : State) (response : Option String) : State × List Event :=
  match o.pending with
  | none => (o, [])
  | some dialog => answered { o with pending := none } dialog response

def step (c : Config) (o : State) : Input → State × List Event
  | .sessionStart => (start o.step, [.sessionStarted])
  | .envStep now => ({ o with step := now }, [])
  | .requestVerdict => if o.busy then (o, []) else judge c o
  | .finish =>
    if !c.on ∨ o.busy ∨ o.sealed_.isSome ∨ o.aborted ∨
        o.verdict.map (·.step) = some o.step then (o, [])
    else judge c o
  | .requestReset => if o.busy then (o, []) else sceneReset c o
  | .answer response => answerPending o response
  | .reply kind response =>
    if o.pending.any (·.kind = kind) then answerPending o (some response)
    else (o, [])
  | .cancelled => ({ o with pending := none }, [])
  | .command v => sealRun c o v
  | .idle => (closeRun o, [])
  | .robotReset ok =>
    if !o.resetting then (o, [])
    else if ok then
      ({ o with
          resetting := false
          attempt := o.attempt + 1
          sceneReady := true },
        [.resetConfirmed])
    else ({ o with resetting := false }, [])

def operate (c : Config) (s : State × List Event) (input : Input) : State × List Event :=
  let next := step c s.1 input
  (next.1, s.2 ++ next.2)

def Event.given : Event → Option (String × ℕ)
  | .gave verdict step => some (verdict, step)
  | _ => none

/-- The verdict the operator gave last, and the step it was given at. -/
def lastGiven (trace : List Event) : Option (String × ℕ) :=
  (trace.filterMap Event.given).getLast?

def VerdictFresh (c : Config) (s : State × List Event) : Prop :=
  ∀ r v, result c s.1 = some r → r.operator_verdict = some v → lastGiven s.2 = some (v, s.1.step)

/-- What stands between the agent and motion, read off the trace alone. -/
structure Hold where
  (aborted sealed_ resetOpen : Bool)
deriving DecidableEq

def Hold.after (h : Hold) : Event → Hold
  | .gave _ _ => h
  | .abortGiven => { h with aborted := true }
  | .sealed _ => { h with sealed_ := true }
  | .resetRequested => { h with resetOpen := true }
  | .resetConfirmed => { h with resetOpen := false }
  | .sessionStarted => ⟨false, false, false⟩

def held (trace : List Event) : Hold :=
  trace.foldl Hold.after ⟨false, false, false⟩

/-- A tool that moves the robot: neither the end of the run nor the operator's
own scene reset. -/
def IsMotion (name : String) : Prop :=
  name ≠ "finish" ∧ name ≠ "request_scene_reset" ∧ name ≠ "reset"

instance (name : String) : Decidable (IsMotion name) :=
  inferInstanceAs (Decidable (_ ∧ _))

/-- While an abort, a seal or an unconfirmed reset stands, no motion passes. -/
def MotionHeld (c : Config) (s : State × List Event) : Prop :=
  c.on → (held s.2).aborted ∨ (held s.2).sealed_ ∨ (held s.2).resetOpen →
    ∀ name, IsMotion name → (refuse c s.1 name).isSome

def judgesStep (response : Option String) : Bool :=
  response.isSome && ((splitAnswer response).1 = "success" || (splitAnswer response).1 = "failure")

/-- The env step does not move under a verdict: neither under one that stands,
nor between a question and the verdict that answers it. -/
def stepHolds (o : State) : Input → Bool
  | .envStep now => now = o.step || (o.verdict.isNone && o.sealed_.isNone)
  | .answer response =>
    !judgesStep response ||
      o.pending.all fun d => d.kind = .reset || d.askedAt = o.step
  | .reply _ response =>
    !judgesStep (some response) ||
      o.pending.all fun d => d.kind = .reset || d.askedAt = o.step
  | _ => true

/-! ## Motion stays held -/

theorem held_append (trace events : List Event) :
    held (trace ++ events) = events.foldl Hold.after (held trace) :=
  List.foldl_append

structure Holds (o : State) (h : Hold) : Prop where
  aborted : h.aborted = true → o.aborted = true
  sealed_ : h.sealed_ = true → o.sealed_.isSome = true
  resetOpen : h.resetOpen = true → o.sceneReady = false
  /-- Nobody is asked once the run is sealed or aborted. -/
  asks : o.pending.isSome = true → o.aborted = false ∧ o.sealed_ = none
  closing : o.closing.isSome = true → o.sealed_.isSome = true

theorem holds_start (step : ℕ) : Holds (start step) ⟨false, false, false⟩ where
  aborted := by simp
  sealed_ := by simp
  resetOpen := by simp
  asks := by simp [start]
  closing := by simp [start]

variable {o : State} {h : Hold}

theorem answered_holds {o : State} {h : Hold} (holds : Holds o h)
    (notAborted : o.aborted = false) (notAsking : o.pending = none)
    (dialog : Dialog) (response : Option String) :
    Holds (answered o dialog response).1 ((answered o dialog response).2.foldl Hold.after h) := by
  have noAbort : h.aborted = false := by
    by_contra given
    have isAborted := holds.aborted (by simpa using given)
    simp [notAborted] at isAborted
  unfold answered
  split
  · exact holds
  · split
    · unfold judged
      dsimp only
      split
      · exact ⟨fun _ => rfl, holds.sealed_, fun _ => rfl,
          fun asking => by simp [notAsking] at asking, holds.closing⟩
      · split
        · exact ⟨holds.aborted, holds.sealed_, holds.resetOpen, holds.asks, holds.closing⟩
        · exact holds
    · unfold resetAnswered
      dsimp only
      split
      · exact ⟨holds.aborted, holds.sealed_, holds.resetOpen, holds.asks, holds.closing⟩
      · split
        · rename_i gave
          exact ⟨fun _ => gave, holds.sealed_, holds.resetOpen,
            fun asking => by simp [notAsking] at asking, holds.closing⟩
        · refine ⟨?_, holds.sealed_, holds.resetOpen,
            fun asking => by simp [notAsking] at asking, holds.closing⟩
          intro given
          simp [noAbort] at given

variable {c : Config}

section

variable (holds : Holds o h)
include holds

theorem ask_holds (notAborted : o.aborted = false) (notAsking : o.pending = none) (kind : Kind) :
    Holds (ask c o kind).1 ((ask c o kind).2.foldl Hold.after h) := by
  unfold ask
  split
  · exact holds
  · rename_i notSealed
    split
    · exact answered_holds holds notAborted notAsking _ none
    · exact ⟨holds.aborted, holds.sealed_, holds.resetOpen,
        fun _ => ⟨notAborted, by simpa using notSealed⟩, holds.closing⟩

theorem judge_holds (notAsking : o.pending = none) :
    Holds (judge c o).1 ((judge c o).2.foldl Hold.after h) := by
  have cleared : Holds { o with verdict := none } h :=
    ⟨holds.aborted, holds.sealed_, holds.resetOpen, holds.asks, holds.closing⟩
  unfold judge
  dsimp only
  split
  · exact cleared
  · rename_i active
    have notAborted : o.aborted = false := by
      by_contra isAborted
      exact active (.inl (by simpa using isAborted))
    exact ask_holds cleared notAborted notAsking .verdict

theorem sceneReset_holds (notAsking : o.pending = none) :
    Holds (sceneReset c o).1 ((sceneReset c o).2.foldl Hold.after h) := by
  unfold sceneReset
  split
  · exact holds
  · rename_i active
    have notAborted : o.aborted = false := by
      by_contra isAborted
      exact active (.inr (by simpa using isAborted))
    have opened : Holds { o with verdict := none, sceneReady := false } (h.after .resetRequested) :=
      ⟨holds.aborted, holds.sealed_, fun _ => rfl, holds.asks, holds.closing⟩
    exact ask_holds opened notAborted notAsking .reset

theorem answerPending_holds (response : Option String) :
    Holds (answerPending o response).1 ((answerPending o response).2.foldl Hold.after h) := by
  unfold answerPending
  split
  · exact holds
  · rename_i dialog asked
    have quiet : Holds { o with pending := none } h :=
      ⟨holds.aborted, holds.sealed_, holds.resetOpen,
        fun asking => by simp at asking, holds.closing⟩
    exact answered_holds quiet (holds.asks (by simp [asked])).1 rfl dialog response

end

theorem not_busy (idle : ¬ o.busy = true) : o.pending = none ∧ o.resetting = false := by
  simpa [State.busy] using idle

theorem step_holds (c : Config) (holds : Holds o h) (input : Input) :
    Holds (step c o input).1 ((step c o input).2.foldl Hold.after h) := by
  cases input with
  | sessionStart => exact holds_start o.step
  | envStep now => exact ⟨holds.aborted, holds.sealed_, holds.resetOpen, holds.asks, holds.closing⟩
  | requestVerdict =>
    simp only [step]
    split
    · exact holds
    · rename_i idle
      exact judge_holds holds (not_busy idle).1
  | finish =>
    simp only [step]
    split
    · exact holds
    · rename_i idle
      have notBusy : ¬ o.busy = true :=
        fun busy => idle (.inr (.inl busy))
      exact judge_holds holds (not_busy notBusy).1
  | requestReset =>
    simp only [step]
    split
    · exact holds
    · rename_i idle
      exact sceneReset_holds holds (not_busy idle).1
  | answer response => exact answerPending_holds holds response
  | reply kind response =>
    simp only [step]
    split
    · exact answerPending_holds holds (some response)
    · exact holds
  | cancelled =>
    exact ⟨holds.aborted, holds.sealed_, holds.resetOpen,
      fun asking => Bool.noConfusion asking, holds.closing⟩
  | command v =>
    simp only [step, sealRun]
    split
    · exact holds
    · exact ⟨holds.aborted, fun _ => rfl, holds.resetOpen,
        fun asking => by simp at asking, fun _ => rfl⟩
  | idle =>
    simp only [step, closeRun]
    split
    · exact holds
    · rename_i closes
      have isSealed := holds.closing (by simp [closes])
      refine ⟨fun _ => rfl, holds.sealed_, fun _ => rfl, ?_,
        fun stillClosing => by simp at stillClosing⟩
      intro asking
      have notSealed := (holds.asks asking).2
      simp [notSealed] at isSealed
    · exact ⟨holds.aborted, holds.sealed_, holds.resetOpen, holds.asks,
        fun stillClosing => by simp at stillClosing⟩
  | robotReset ok =>
    simp only [step]
    split
    · exact holds
    · split
      · exact ⟨holds.aborted, holds.sealed_,
          fun stillOpen => by simp [Hold.after] at stillOpen, holds.asks,
          holds.closing⟩
      · exact ⟨holds.aborted, holds.sealed_, holds.resetOpen, holds.asks, holds.closing⟩

variable {s : State × List Event}

theorem motionHeld_of_holds (holds : Holds s.1 (held s.2)) : MotionHeld c s := by
  intro on stands name motion
  obtain ⟨notFinish, notRequest, notReset⟩ := motion
  unfold refuse
  simp only [on, Bool.not_true, Bool.false_eq_true, if_false, notFinish]
  by_cases isSealed : s.1.sealed_.isSome = true
  · simp [isSealed]
  · rw [if_neg isSealed]
    rcases stands with aborted | sealed_ | resetOpen
    · simp [holds.aborted aborted]
    · exact absurd (holds.sealed_ sealed_) isSealed
    · by_cases aborted : s.1.aborted = true
      · simp [aborted]
      · simp [aborted, holds.resetOpen resetOpen, notRequest, notReset]

/-! ## The verdict stays fresh -/

theorem lastGiven_append_gave (trace : List Event) (v : String) (step : ℕ) :
    lastGiven (trace ++ [.gave v step]) = some (v, step) := by
  simp [lastGiven, Event.given]

variable {events : List Event}

theorem lastGiven_append_of_none
    (trace : List Event) (noneGiven : events.filterMap Event.given = []) :
    lastGiven (trace ++ events) = lastGiven trace := by
  simp [lastGiven, noneGiven]

/-- The standing verdict is the one given last, on the current step. -/
structure Fresh (o : State) (trace : List Event) : Prop where
  judged : ∀ w, o.verdict = some w → o.sealed_ = none → lastGiven trace = some (w.verdict, o.step)
  sealed_ : ∀ v, o.sealed_ = some v → lastGiven trace = some (v.text, o.step)

theorem fresh_start (step : ℕ) (trace : List Event) : Fresh (start step) trace where
  judged := fun w stands => by cases stands
  sealed_ := fun v stands => by cases stands

variable {trace : List Event}

/-- An update that moves neither the verdict, the seal nor the step, and gives
nothing. -/
theorem Fresh.keep {next : State} (fresh : Fresh o trace)
    (noneGiven : events.filterMap Event.given = [])
    (verdict : next.verdict = o.verdict ∨ next.verdict = none)
    (sealed_ : next.sealed_ = o.sealed_) (step : next.step = o.step) :
    Fresh next (trace ++ events) where
  judged := by
    intro w stands notSealed
    rw [lastGiven_append_of_none trace noneGiven, step]
    rcases verdict with same | gone
    · exact fresh.judged w (same ▸ stands) (sealed_ ▸ notSealed)
    · rw [gone] at stands
      cases stands
  sealed_ := by
    intro v stands
    rw [lastGiven_append_of_none trace noneGiven, step]
    exact fresh.sealed_ v (sealed_ ▸ stands)

variable {response : Option String}

section

variable (fresh : Fresh o trace)
include fresh

theorem judged_fresh (notSealed : o.sealed_ = none) {askedAt : ℕ}
    (sameStep : judgesStep response = true → askedAt = o.step) :
    Fresh (judged o askedAt response).1 (trace ++ (judged o askedAt response).2) := by
  unfold judged
  dsimp only
  split
  · exact fresh.keep rfl (.inl rfl) rfl rfl
  · rename_i notAbort
    split
    · rename_i judges
      have answeredNow : response.isSome = true := by
        cases response with
        | none => exact absurd (.inr rfl) notAbort
        | some text => rfl
      have now := sameStep (by simpa [judgesStep, answeredNow] using judges)
      refine ⟨?_, ?_⟩
      · intro w stands _
        cases stands
        rw [lastGiven_append_gave, now]
      · intro v stands
        rw [notSealed] at stands
        cases stands
    · exact fresh.keep rfl (.inl rfl) rfl rfl

theorem resetAnswered_fresh (response : Option String) :
    Fresh (resetAnswered o response).1 (trace ++ (resetAnswered o response).2) := by
  unfold resetAnswered
  dsimp only
  split
  · exact fresh.keep rfl (.inl rfl) rfl rfl
  · split
    · exact fresh.keep rfl (.inl rfl) rfl rfl
    · exact fresh.keep rfl (.inl rfl) rfl rfl

theorem answered_fresh {dialog : Dialog}
    (sameStep : judgesStep response = true → dialog.kind = .reset ∨ dialog.askedAt = o.step) :
    Fresh (answered o dialog response).1 (trace ++ (answered o dialog response).2) := by
  unfold answered
  split
  · exact fresh.keep rfl (.inl rfl) rfl rfl
  · rename_i notSealed
    split
    · rename_i isVerdict
      refine judged_fresh fresh (by simpa using notSealed) ?_
      intro judges
      rcases sameStep judges with isReset | same
      · rw [isVerdict] at isReset
        cases isReset
      · exact same
    · exact resetAnswered_fresh fresh response

theorem ask_fresh (kind : Kind) :
    Fresh (ask c o kind).1 (trace ++ (ask c o kind).2) := by
  unfold ask
  split
  · exact fresh.keep rfl (.inl rfl) rfl rfl
  · split
    · exact answered_fresh fresh (fun _ => .inr rfl)
    · exact fresh.keep rfl (.inl rfl) rfl rfl

theorem judge_fresh : Fresh (judge c o).1 (trace ++ (judge c o).2) := by
  have cleared : Fresh { o with verdict := none } trace := by
    have kept : Fresh { o with verdict := none } (trace ++ []) :=
      fresh.keep rfl (.inr rfl) rfl rfl
    rwa [List.append_nil] at kept
  unfold judge
  dsimp only
  split
  · rwa [List.append_nil]
  · exact ask_fresh cleared .verdict

theorem sceneReset_fresh :
    Fresh (sceneReset c o).1 (trace ++ (sceneReset c o).2) := by
  unfold sceneReset
  split
  · rwa [List.append_nil]
  · have opened :
        Fresh { o with verdict := none, sceneReady := false } (trace ++ [.resetRequested]) :=
      fresh.keep rfl (.inr rfl) rfl rfl
    dsimp only
    rw [List.append_cons]
    exact ask_fresh opened .reset

theorem answerPending_fresh
    (sameStep :
      judgesStep response = true →
        ∀ dialog, o.pending = some dialog → dialog.kind = .reset ∨ dialog.askedAt = o.step) :
    Fresh (answerPending o response).1 (trace ++ (answerPending o response).2) := by
  unfold answerPending
  split
  · exact fresh.keep rfl (.inl rfl) rfl rfl
  · rename_i dialog asked
    have quiet : Fresh { o with pending := none } trace := by
      have kept : Fresh { o with pending := none } (trace ++ []) :=
        fresh.keep rfl (.inl rfl) rfl rfl
      rwa [List.append_nil] at kept
    exact answered_fresh quiet (fun judges => sameStep judges dialog asked)

end

theorem step_fresh (c : Config) (holds : Holds o h) (fresh : Fresh o trace) (input : Input)
    (stays : stepHolds o input = true) :
    Fresh (step c o input).1 (trace ++ (step c o input).2) := by
  have unchanged : Fresh o (trace ++ []) := by rwa [List.append_nil]
  have sameStep :
      ∀ response : Option String,
        (!judgesStep response ||
          o.pending.all fun d => d.kind = .reset || d.askedAt = o.step) = true →
        judgesStep response = true →
          ∀ dialog, o.pending = some dialog → dialog.kind = .reset ∨ dialog.askedAt = o.step := by
    intro response allowed judges dialog asked
    simpa [judges, asked] using allowed
  cases input with
  | sessionStart => exact fresh_start o.step _
  | envStep now =>
    simp only [step, List.append_nil]
    simp only [stepHolds, Bool.or_eq_true, decide_eq_true_eq,
      Bool.and_eq_true, Option.isNone_iff_eq_none] at stays
    rcases stays with same | ⟨noVerdict, notSealed⟩
    · subst same
      exact fresh
    · refine ⟨?_, ?_⟩
      · intro w stands _
        rw [noVerdict] at stands
        cases stands
      · intro v stands
        rw [notSealed] at stands
        cases stands
  | requestVerdict | finish =>
    simp only [step]
    split
    · exact unchanged
    · exact judge_fresh fresh
  | requestReset =>
    simp only [step]
    split
    · exact unchanged
    · exact sceneReset_fresh fresh
  | answer response => exact answerPending_fresh fresh (sameStep response stays)
  | reply kind response =>
    simp only [step]
    split
    · exact answerPending_fresh fresh (sameStep (some response) stays)
    · exact unchanged
  | cancelled => exact fresh.keep rfl (.inl rfl) rfl rfl
  | command v =>
    simp only [step, sealRun]
    split
    · exact unchanged
    · rename_i accepted
      refine ⟨?_, ?_⟩
      · intro w _ notSealed
        cases notSealed
      · intro v' stands
        cases stands
        rw [List.append_cons, lastGiven_append_gave]
  | idle =>
    simp only [step, closeRun]
    split
    · exact unchanged
    · exact fresh.keep rfl (.inl rfl) rfl rfl
    · rename_i v closes
      have isSealed := holds.closing (by simp [closes])
      rw [List.append_nil]
      refine ⟨?_, fresh.sealed_⟩
      intro w _ notSealed
      dsimp only at notSealed
      simp [notSealed] at isSealed
  | robotReset ok =>
    simp only [step]
    split
    · exact unchanged
    · split
      · exact fresh.keep rfl (.inl rfl) rfl rfl
      · exact fresh.keep rfl (.inl rfl) rfl rfl

theorem verdictFresh_of_fresh (fresh : Fresh s.1 s.2) : VerdictFresh c s := by
  intro r v read reported
  unfold result at read
  split at read
  · cases read
  · cases read
    dsimp only at reported
    cases isSealed : s.1.sealed_ with
    | some v' =>
      simp only [isSealed, Option.map_some, Option.some_or, Option.some.injEq] at reported
      rw [← reported]
      exact fresh.sealed_ v' isSealed
    | none =>
      simp only [isSealed, Option.map_none, Option.none_or, Option.map_eq_some_iff] at reported
      obtain ⟨w, stands, rfl⟩ := reported
      exact fresh.judged w stands isSealed

def session (c : Config) (step₀ : ℕ) (inputs : List Input) : State × List Event :=
  Runs.after (operate c) (start step₀, []) inputs

theorem operate_holds (c : Config) (holds : Holds s.1 (held s.2)) (input : Input) :
    Holds (operate c s input).1 (held (operate c s input).2) := by
  change Holds (step c s.1 input).1 (held (s.2 ++ (step c s.1 input).2))
  rw [held_append]
  exact step_holds c holds input

def Sound (s : State × List Event) : Prop :=
  Holds s.1 (held s.2) ∧ Fresh s.1 s.2

theorem operate_sound (c : Config) (s : State × List Event) (input : Input)
    (stays : stepHolds s.1 input = true) (sound : Sound s) : Sound (operate c s input) :=
  ⟨operate_holds c sound.1 input, step_fresh c sound.1 sound.2 input stays⟩

/-- Motion is held in every session, and in every session whose env step stays
put under a verdict the reported verdict is fresh. -/
theorem operator_law (c : Config) (step₀ : ℕ) (inputs : List Input) :
    MotionHeld c (session c step₀ inputs) ∧
    (Runs.AllAllowed (operate c) (fun s input => stepHolds s.1 input = true)
        (start step₀, []) inputs →
      VerdictFresh c (session c step₀ inputs)) := by
  constructor
  · have holds : Holds (session c step₀ inputs).1 (held (session c step₀ inputs).2) :=
      Runs.after_invariant (operate c) (fun s => Holds s.1 (held s.2))
        (fun _ input holds => operate_holds c holds input)
        (holds_start step₀) inputs
    exact motionHeld_of_holds holds
  · intro stays
    have sound : Sound (session c step₀ inputs) :=
      Runs.after_of_allAllowed (operate c) (operate_sound c)
        ⟨holds_start step₀, fresh_start step₀ []⟩ stays
    exact verdictFresh_of_fresh sound.2

private def withOperator : Config := ⟨true, true, true⟩

theorem operator_law_example :
    VerdictFresh withOperator
      (session withOperator 0 [.envStep 3, .requestVerdict, .answer (some "success ok")]) :=
  (operator_law withOperator 0 [.envStep 3, .requestVerdict, .answer (some "success ok")]).2
    ⟨by decide, by decide, by decide, trivial⟩

/-- The operator judges step 3 a success, the robot moves on, and the run still
reports the success. -/
theorem stale_verdict_reported :
    let s :=
      session withOperator 0 [.envStep 3, .requestVerdict, .answer (some "success"), .envStep 7]
    s.1.step = 7 ∧ lastGiven s.2 = some ("success", 3) ∧
      (result withOperator s.1).map (·.operator_verdict) = some (some "success") ∧
      ¬ VerdictFresh withOperator s := by
  have reported :
      result withOperator
          (session withOperator 0
            [.envStep 3, .requestVerdict, .answer (some "success"), .envStep 7]).1 =
        some ⟨some "success", "", false, false, some "request_operator_verdict"⟩ := by
    decide
  refine ⟨by decide, by decide, by rw [reported]; rfl, ?_⟩
  intro fresh
  exact absurd (fresh _ "success" reported rfl) (by decide)

end PiEmbodied.Operator
