import PiEmbodied.Runs

/-!
# The clause ledger of a mission

The first plan splits the task into clauses.  The ledger records which clauses
are met, which a verdict withdrew, which a code event supports and which a
measurement found unmet.  Four operations write it: folding a verdict's
answers, a code event, a measured miss and a measured hit.
-/

namespace PiEmbodied.Motormind

/-! ## Words -/

/-- `toLowerCase` as far as `contentWords` sees it: no other character lowers
to one in `a-z0-9_`. -/
def toLowerCase (c : Char) : List Char :=
  if 'A' ≤ c ∧ c ≤ 'Z' then [Char.ofNat (c.toNat + 32)]
  else if c = '\u212A' then ['k']
  else if c = '\u0130' then ['i', '\u0307']
  else [c]

def isWordChar (c : Char) : Bool :=
  ('a' ≤ c ∧ c ≤ 'z') ∨ ('0' ≤ c ∧ c ≤ '9') ∨ c = '_'

def STOP : List String :=
  ["the", "a", "an", "and", "or", "of", "to", "in", "on", "into", "onto",
    "at", "it", "its", "is", "be", "with", "from", "by", "for", "then",
    "that", "this", "up", "down", "put", "place", "pick"]

/-- The content words of a clause or a verdict line.  Splitting at every
separator instead of at every run of separators adds only empty words, which
the length test drops. -/
def contentWords (s : String) : List String :=
  (((s.toList.flatMap toLowerCase).splitOnP fun c => !isWordChar c).map String.ofList
    |>.filter fun w => 3 ≤ w.length && !STOP.contains w).eraseDups

/-- How much of a clause's content words a verdict line must share. -/
def SAME_CLAUSE_SHARE : ℚ := 1 / 2

structure ClauseAnswer where
  what : String
  met : Bool
  evidence : String
  index : Option ℚ := none
deriving DecidableEq

/-- What a withdrawal records: the evidence, else the line itself. -/
def ClauseAnswer.reason (a : ClauseAnswer) : String :=
  if a.evidence ≠ "" then a.evidence else a.what

/-- The line's own words sit more in the step criterion than in the clause. -/
def echoesCriterion (a : ClauseAnswer) (clause criterion : List String) : Bool :=
  let line := contentWords (if a.what ≠ "" then a.what else a.evidence)
  let inClause := line.countP clause.contains
  let inCriterion := line.countP criterion.contains
  !line.isEmpty && inClause < inCriterion

/-- The clause whose words the line shares most, from `SAME_CLAUSE_SHARE` on;
the first of equals. -/
def bestClause (words : List (List String)) (line : List String) : Option (ℕ × ℚ) :=
  words.zipIdx.foldl
    (fun best entry =>
      let w := entry.1
      if w.isEmpty then best
      else
        let share : ℚ := (w.countP line.contains : ℚ) / w.length
        if SAME_CLAUSE_SHARE ≤ share ∧ best.all (fun b => b.2 < share) then
          some (entry.2, share)
        else best)
    none

/-- What one line contributes: the clause it answers and the two flags
`alignAnswers` keeps over all lines. -/
structure Matched where
  answered : Option ℕ
  dropped : Bool := false
  indexed : Bool := false

def givenIndex (clauses : List String) (a : ClauseAnswer) : Option ℕ :=
  match a.index with
  | none => none
  | some i =>
    if i.den = 1 ∧ 0 ≤ i.num ∧ i.num < clauses.length then some i.num.toNat
    else none

def matchAnswer (clauses : List String) (crit : Option (List String))
    (a : ClauseAnswer) : Matched :=
  match givenIndex clauses a with
  | some i => { answered := some i, indexed := true }
  | none =>
    let words := clauses.map contentWords
    match bestClause words (contentWords (a.what ++ " " ++ a.evidence)) with
    | none => { answered := none }
    | some (i, _) =>
      if crit.any (echoesCriterion a (words.getD i [])) then
        { answered := none, dropped := true }
      else { answered := some i }

/-- The clause each verdict line answers: by the line's own index, else by
word share, else by position when the counts match. -/
def alignAnswers (clauses : List String) (answers : List ClauseAnswer)
    (criterion : Option String) : List (Option ℕ) :=
  let crit := (criterion.filter (· ≠ "")).map contentWords
  let found := answers.map (matchAnswer clauses crit)
  if !found.any (·.dropped) && !found.any (·.indexed) &&
      found.all (·.answered.isNone) && answers.length == clauses.length then
    (List.range answers.length).map some
  else found.map (·.answered)

/-! ## The ledger -/

structure ClauseState where
  clauses : List String
  (met withdrawn events measured_unmet : Finset ℕ)
  refused_mark : ℕ
  withdrawals : List (ℕ × String)
deriving DecidableEq

def emptyClauses (clauses : List String) : ClauseState where
  clauses := clauses
  met := ∅
  withdrawn := ∅
  events := ∅
  measured_unmet := ∅
  refused_mark := 0
  withdrawals := []

/-- One answer of a verdict, for the clause it was aligned with. -/
def foldAnswer (allowWithdraw : Bool) (state : ClauseState)
    (answer : ClauseAnswer × Option ℕ) : ClauseState :=
  match answer.2 with
  | none => state
  | some i =>
    if answer.1.met then
      if i ∈ state.measured_unmet then state
      else if i ∈ state.withdrawn ∧ i ∉ state.events then
        { state with refused_mark := state.refused_mark + 1 }
      else
        { state with
          met := insert i state.met
          withdrawn := state.withdrawn.erase i }
    else if allowWithdraw ∧ i ∈ state.met then
      -- A code event behind the clause survives the withdrawal.
      { state with
        met := state.met.erase i
        withdrawn := insert i state.withdrawn
        withdrawals := state.withdrawals ++ [(i, answer.1.reason)] }
    else state

def fold (state : ClauseState) (answers : List ClauseAnswer)
    (allowWithdraw : Bool) (criterion : Option String := none) :
    ClauseState :=
  (answers.zip (alignAnswers state.clauses answers criterion)).foldl
    (foldAnswer allowWithdraw) state

def ClauseState.has (state : ClauseState) (i : ℤ) : Prop :=
  0 ≤ i ∧ i < state.clauses.length

instance (state : ClauseState) (i : ℤ) : Decidable (state.has i) :=
  inferInstanceAs (Decidable (_ ∧ _))

/-- A code event for clause `i`. -/
def codeEvent (state : ClauseState) (i : ℤ) : ClauseState :=
  if state.has i then
    { state with
      events := insert i.toNat state.events
      withdrawn := state.withdrawn.erase i.toNat }
  else state

/-- A measured miss for clause `i`: unmet, and not re-markable by a model. -/
def measuredMiss (state : ClauseState) (i : ℤ) : ClauseState :=
  if state.has i then
    { state with
      met := state.met.erase i.toNat
      events := state.events.erase i.toNat
      measured_unmet := insert i.toNat state.measured_unmet }
  else state

/-- A measured hit for clause `i`: the code settled it. -/
def measuredHit (state : ClauseState) (i : ℤ) : ClauseState :=
  if state.has i then
    let cleared :=
      { state with measured_unmet := state.measured_unmet.erase i.toNat }
    let supported := codeEvent cleared i
    { supported with met := insert i.toNat supported.met }
  else state

def allMet (s : ClauseState) : Bool :=
  0 < s.clauses.length && (List.range s.clauses.length).all (· ∈ s.met)

def unmet (s : ClauseState) : List ℕ :=
  (List.range s.clauses.length).filter (· ∉ s.met)

inductive LedgerOp where
  | fold (answers : List ClauseAnswer) (allowWithdraw : Bool)
      (criterion : Option String)
  | codeEvent (i : ℤ)
  | measuredMiss (i : ℤ)
  | measuredHit (i : ℤ)

def applyLedgerOp (state : ClauseState) : LedgerOp → ClauseState
  | .fold answers allowWithdraw criterion => fold state answers allowWithdraw criterion
  | .codeEvent i => codeEvent state i
  | .measuredMiss i => measuredMiss state i
  | .measuredHit i => measuredHit state i

abbrev ledgerAfter (clauses : List String) (ops : List LedgerOp) :
    ClauseState :=
  Runs.after applyLedgerOp (emptyClauses clauses) ops

/-! ## Alignment stays inside the clause list -/

variable {clauses : List String}

theorem givenIndex_lt {a : ClauseAnswer} {i : ℕ} (given : givenIndex clauses a = some i) :
    i < clauses.length := by
  unfold givenIndex at given
  split at given
  · cases given
  · split at given
    · cases given
      omega
    · cases given

theorem bestClause_lt {words : List (List String)} {line : List String} {best : ℕ × ℚ}
    (found : bestClause words line = some best) : best.1 < words.length := by
  have foldBound :
      ∀ (entries : List (List String × ℕ)) (start : Option (ℕ × ℚ)),
        (∀ entry ∈ entries, entry.2 < words.length) →
        (∀ b, start = some b → b.1 < words.length) →
        ∀ b, entries.foldl
            (fun best entry =>
              let w := entry.1
              if w.isEmpty then best
              else
                let share : ℚ := (w.countP line.contains : ℚ) / w.length
                if SAME_CLAUSE_SHARE ≤ share ∧
                    best.all (fun b => b.2 < share) then
                  some (entry.2, share)
                else best) start = some b →
          b.1 < words.length := by
    intro entries
    induction entries with
    | nil =>
      intro start _ startBound b equal
      exact startBound b equal
    | cons entry rest ih =>
      intro start entriesBound startBound b equal
      rw [List.foldl_cons] at equal
      refine ih _ (fun later member => entriesBound later (List.mem_cons_of_mem entry member))
        ?_ b equal
      intro c stepEqual
      dsimp only at stepEqual
      split at stepEqual
      · exact startBound c stepEqual
      · split at stepEqual
        · cases stepEqual
          exact entriesBound entry List.mem_cons_self
        · exact startBound c stepEqual
  refine foldBound words.zipIdx none ?_ ?_ best found
  · intro entry member
    have bound := List.snd_lt_of_mem_zipIdx member
    omega
  · intro b impossible
    cases impossible

theorem matchAnswer_lt {crit : Option (List String)} {a : ClauseAnswer} {i : ℕ}
    (found : (matchAnswer clauses crit a).answered = some i) : i < clauses.length := by
  unfold matchAnswer at found
  split at found
  · rename_i given
    cases found
    exact givenIndex_lt given
  · dsimp only at found
    split at found
    · cases found
    · rename_i best
      split at found
      · cases found
      · cases found
        simpa using bestClause_lt best

theorem alignAnswers_lt {answers : List ClauseAnswer} {criterion : Option String} {i : ℕ}
    (member : some i ∈ alignAnswers clauses answers criterion) : i < clauses.length := by
  unfold alignAnswers at member
  dsimp only at member
  split at member
  · rename_i positional
    simp only [Bool.and_eq_true, beq_iff_eq] at positional
    obtain ⟨j, jMember, jEqual⟩ := List.mem_map.mp member
    cases jEqual
    rw [← positional.2]
    exact List.mem_range.mp jMember
  · obtain ⟨one, oneMember, oneEqual⟩ := List.mem_map.mp member
    obtain ⟨a, _, rfl⟩ := List.mem_map.mp oneMember
    exact matchAnswer_lt oneEqual

variable (allowWithdraw : Bool) (invariant : ClauseState → Prop)

theorem fold_preserves {allowWithdraw : Bool}
    (answerPreserves :
      ∀ state a i, i < state.clauses.length → invariant state →
        invariant (foldAnswer allowWithdraw state (a, some i))) {state : ClauseState}
    (holds : invariant state) (answers : List ClauseAnswer) (criterion : Option String) :
    invariant (fold state answers allowWithdraw criterion) ∧
      (fold state answers allowWithdraw criterion).clauses =
        state.clauses := by
  have step :
      ∀ current (entry : ClauseAnswer × Option ℕ),
        (∀ i, entry.2 = some i → i < state.clauses.length) →
        (invariant current ∧ current.clauses = state.clauses) →
        invariant (foldAnswer allowWithdraw current entry) ∧
          (foldAnswer allowWithdraw current entry).clauses =
            state.clauses := by
    rintro current ⟨a, found⟩ bound ⟨currentHolds, sameClauses⟩
    cases found with
    | none => exact ⟨currentHolds, sameClauses⟩
    | some i =>
      constructor
      · apply answerPreserves current a i _ currentHolds
        rw [sameClauses]
        exact bound i rfl
      · unfold foldAnswer
        dsimp only
        split_ifs <;> exact sameClauses
  apply Runs.after_preserves (foldAnswer allowWithdraw)
    (fun entry => ∀ i, entry.2 = some i → i < state.clauses.length)
    (fun current => invariant current ∧ current.clauses = state.clauses)
    step ⟨holds, rfl⟩
  rintro ⟨a, found⟩ member i rfl
  exact alignAnswers_lt (List.of_mem_zip member).2

/-! ## The invariant of the sets -/

structure LedgerWf (s : ClauseState) : Prop where
  met_lt : ∀ i ∈ s.met, i < s.clauses.length
  withdrawn_lt : ∀ i ∈ s.withdrawn, i < s.clauses.length
  events_lt : ∀ i ∈ s.events, i < s.clauses.length
  measured_lt : ∀ i ∈ s.measured_unmet, i < s.clauses.length
  met_not_withdrawn : ∀ i ∈ s.met, i ∉ s.withdrawn
  met_not_measured : ∀ i ∈ s.met, i ∉ s.measured_unmet

theorem emptyClauses_wf (clauses : List String) : LedgerWf (emptyClauses clauses) := by
  constructor <;> intro i member <;>
    exact absurd member (Finset.notMem_empty i)

theorem foldAnswer_cases (s : ClauseState) (a : ClauseAnswer) (i : ℕ) :
    (∃ mark, foldAnswer allowWithdraw s (a, some i) = { s with refused_mark := mark }) ∨
    (i ∉ s.measured_unmet ∧ (i ∈ s.withdrawn → i ∈ s.events) ∧
      foldAnswer allowWithdraw s (a, some i) =
        { s with
          met := insert i s.met
          withdrawn := s.withdrawn.erase i }) ∨
    (i ∈ s.met ∧
      foldAnswer allowWithdraw s (a, some i) =
        { s with
          met := s.met.erase i
          withdrawn := insert i s.withdrawn
          withdrawals := s.withdrawals ++ [(i, a.reason)] }) := by
  unfold foldAnswer
  dsimp only
  split_ifs with isMet measured refused withdrawable
  · exact .inl ⟨s.refused_mark, rfl⟩
  · exact .inl ⟨s.refused_mark + 1, rfl⟩
  · refine .inr (.inl ⟨measured, ?_, rfl⟩)
    intro wasWithdrawn
    by_contra noEvent
    exact refused ⟨wasWithdrawn, noEvent⟩
  · exact .inr (.inr ⟨withdrawable.2, rfl⟩)
  · exact .inl ⟨s.refused_mark, rfl⟩

variable {i : ℤ} {s : ClauseState}

section

variable (known : s.has i)
include known

theorem toNat_lt_of_has : i.toNat < s.clauses.length := by
  have lower := known.1
  have upper := known.2
  omega

@[simp]
theorem codeEvent_of_has :
    codeEvent s i =
      { s with
        events := insert i.toNat s.events
        withdrawn := s.withdrawn.erase i.toNat } :=
  if_pos known

@[simp]
theorem measuredMiss_of_has :
    measuredMiss s i =
      { s with
        met := s.met.erase i.toNat
        events := s.events.erase i.toNat
        measured_unmet := insert i.toNat s.measured_unmet } :=
  if_pos known

@[simp]
theorem measuredHit_of_has :
    measuredHit s i =
      { s with
        met := insert i.toNat s.met
        withdrawn := s.withdrawn.erase i.toNat
        events := insert i.toNat s.events
        measured_unmet := s.measured_unmet.erase i.toNat } := by
  have cleared :
      ClauseState.has
        { s with measured_unmet := s.measured_unmet.erase i.toNat } i :=
    known
  simp only [measuredHit, codeEvent, if_pos known, if_pos cleared]

end

theorem measured_ops_of_not_has (unknown : ¬ s.has i) :
    codeEvent s i = s ∧ measuredMiss s i = s ∧ measuredHit s i = s :=
  ⟨if_neg unknown, if_neg unknown, if_neg unknown⟩

/-- A fact that one answer and the three measured updates preserve is kept by
every operation, which also leaves the clauses as they are. -/
theorem applyLedgerOp_preserves (op : LedgerOp)
    (onAnswer :
      ∀ state allowWithdraw a i, i < state.clauses.length → invariant state →
        invariant (foldAnswer allowWithdraw state (a, some i)))
    (onCodeEvent :
      ∀ state i, op = .codeEvent i → state.has i → invariant state → invariant (codeEvent state i))
    (onMiss :
      ∀ state i, op = .measuredMiss i → state.has i → invariant state →
        invariant (measuredMiss state i))
    (onHit :
      ∀ state i, op = .measuredHit i → state.has i → invariant state →
        invariant (measuredHit state i)) (holds : invariant s) :
    invariant (applyLedgerOp s op) ∧ (applyLedgerOp s op).clauses = s.clauses := by
  cases op with
  | fold answers allowWithdraw criterion =>
    exact fold_preserves invariant (fun state a i bound => onAnswer state allowWithdraw a i bound)
      holds answers criterion
  | codeEvent i =>
    change invariant (codeEvent s i) ∧ (codeEvent s i).clauses = s.clauses
    by_cases known : s.has i
    · exact ⟨onCodeEvent s i rfl known holds, by simp [known]⟩
    · rw [(measured_ops_of_not_has known).1]
      exact ⟨holds, rfl⟩
  | measuredMiss i =>
    change invariant (measuredMiss s i) ∧ (measuredMiss s i).clauses = s.clauses
    by_cases known : s.has i
    · exact ⟨onMiss s i rfl known holds, by simp [known]⟩
    · rw [(measured_ops_of_not_has known).2.1]
      exact ⟨holds, rfl⟩
  | measuredHit i =>
    change invariant (measuredHit s i) ∧ (measuredHit s i).clauses = s.clauses
    by_cases known : s.has i
    · exact ⟨onHit s i rfl known holds, by simp [known]⟩
    · rw [(measured_ops_of_not_has known).2.2]
      exact ⟨holds, rfl⟩

theorem applyLedgerOp_clauses (s : ClauseState) (op : LedgerOp) :
    (applyLedgerOp s op).clauses = s.clauses :=
  (applyLedgerOp_preserves (fun _ => True) op
    (fun _ _ _ _ _ _ => trivial) (fun _ _ _ _ _ => trivial)
    (fun _ _ _ _ _ => trivial) (fun _ _ _ _ _ => trivial)
    (s := s) trivial).2

@[simp]
theorem ledgerAfter_clauses (clauses : List String) (ops : List LedgerOp) :
    (ledgerAfter clauses ops).clauses = clauses :=
  Runs.after_invariant applyLedgerOp (fun s => s.clauses = clauses)
    (fun s op same => (applyLedgerOp_clauses s op).trans same) rfl ops

section

variable (wf : LedgerWf s)
include wf

theorem foldAnswer_wf (allowWithdraw : Bool) (a : ClauseAnswer) {i : ℕ}
    (bound : i < s.clauses.length) : LedgerWf (foldAnswer allowWithdraw s (a, some i)) := by
  obtain ⟨h1, h2, h3, h4, h5, h6⟩ := wf
  rcases foldAnswer_cases allowWithdraw s a i with
    ⟨mark, equal⟩ | ⟨notMeasured, _, equal⟩ | ⟨_, equal⟩
  · rw [equal]
    exact ⟨h1, h2, h3, h4, h5, h6⟩
  · rw [equal]
    constructor <;> dsimp only <;> intro j member <;> grind
  · rw [equal]
    constructor <;> dsimp only <;> intro j member <;> grind

theorem codeEvent_wf (known : s.has i) : LedgerWf (codeEvent s i) := by
  have bound := toNat_lt_of_has known
  obtain ⟨h1, h2, h3, h4, h5, h6⟩ := wf
  rw [codeEvent_of_has known]
  constructor <;> dsimp only <;> intro j member <;> grind

theorem measuredMiss_wf (known : s.has i) : LedgerWf (measuredMiss s i) := by
  have bound := toNat_lt_of_has known
  obtain ⟨h1, h2, h3, h4, h5, h6⟩ := wf
  rw [measuredMiss_of_has known]
  constructor <;> dsimp only <;> intro j member <;> grind

theorem measuredHit_wf (known : s.has i) : LedgerWf (measuredHit s i) := by
  have bound := toNat_lt_of_has known
  obtain ⟨h1, h2, h3, h4, h5, h6⟩ := wf
  rw [measuredHit_of_has known]
  constructor <;> dsimp only <;> intro j member <;> grind

end

theorem ledgerAfter_wf (clauses : List String) (ops : List LedgerOp) :
    LedgerWf (ledgerAfter clauses ops) := by
  refine Runs.after_invariant applyLedgerOp LedgerWf ?_ (emptyClauses_wf clauses) ops
  intro s op wf
  exact (applyLedgerOp_preserves LedgerWf op
    (fun _ allowWithdraw a _ bound wf => foldAnswer_wf wf allowWithdraw a bound)
    (fun _ _ _ known wf => codeEvent_wf wf known)
    (fun _ _ _ known wf => measuredMiss_wf wf known)
    (fun _ _ _ known wf => measuredHit_wf wf known) wf).1

variable {op : LedgerOp}

theorem measured_unmet_stays
    {i : ℕ} (notHit : op ≠ .measuredHit i) (measured : i ∈ s.measured_unmet) :
    i ∈ (applyLedgerOp s op).measured_unmet := by
  refine (applyLedgerOp_preserves (fun s => i ∈ s.measured_unmet) op ?_ ?_ ?_ ?_ measured).1
  · intro state allowWithdraw a j _ holds
    rcases foldAnswer_cases allowWithdraw state a j with
      ⟨mark, equal⟩ | ⟨_, _, equal⟩ | ⟨_, equal⟩ <;>
      rw [equal] <;> exact holds
  · intro state j _ known holds
    rwa [codeEvent_of_has known]
  · intro state j _ known holds
    rw [measuredMiss_of_has known]
    exact Finset.mem_insert_of_mem holds
  · intro state j isHit known holds
    rw [measuredHit_of_has known]
    refine Finset.mem_erase.mpr ⟨?_, holds⟩
    rintro rfl
    rw [Int.toNat_of_nonneg known.1] at notHit
    exact notHit isHit

theorem measured_unmet_after {i : ℕ} (measured : i ∈ s.measured_unmet) {ops : List LedgerOp}
    (noHit : .measuredHit i ∉ ops) : i ∈ (Runs.after applyLedgerOp s ops).measured_unmet :=
  Runs.after_preserves applyLedgerOp (fun op => op ≠ .measuredHit i) (fun s => i ∈ s.measured_unmet)
    (fun _ _ notHit holds => measured_unmet_stays notHit holds)
    measured
    (fun _ member equal => noHit (equal ▸ member))

/-! ## What stands behind a clause that was withdrawn -/

def IsCodeEvent (i : ℤ) (op : LedgerOp) : Prop :=
  op = .codeEvent i ∨ op = .measuredHit i

/-- A code event for the clause happened, and no measured miss of the clause
came after it. -/
def CodeEventStands (i : ℤ) (ops : List LedgerOp) : Prop :=
  ∃ before event later,
    ops = before ++ event :: later ∧ IsCodeEvent i event ∧ .measuredMiss i ∉ later

theorem codeEventStands_snoc_event
    {event : LedgerOp} (isEvent : IsCodeEvent i event) (ops : List LedgerOp) :
    CodeEventStands i (ops ++ [event]) :=
  ⟨ops, event, [], rfl, isEvent, List.not_mem_nil⟩

theorem codeEventStands_snoc (notMiss : op ≠ .measuredMiss i) {ops : List LedgerOp}
    (stands : CodeEventStands i ops) : CodeEventStands i (ops ++ [op]) := by
  obtain ⟨before, event, later, rfl, isEvent, noMiss⟩ := stands
  refine ⟨before, event, later ++ [op], by simp, isEvent, ?_⟩
  simpa using ⟨noMiss, Ne.symm notMiss⟩

theorem foldAnswer_events (s : ClauseState) (a : ClauseAnswer) (i : ℕ) :
    (foldAnswer allowWithdraw s (a, some i)).events = s.events := by
  rcases foldAnswer_cases allowWithdraw s a i with
    ⟨mark, equal⟩ | ⟨_, _, equal⟩ | ⟨_, equal⟩ <;> rw [equal]

theorem mem_events_step {i : ℕ} (member : i ∈ (applyLedgerOp s op).events) :
    IsCodeEvent i op ∨ i ∈ s.events := by
  revert member
  refine (applyLedgerOp_preserves (fun t => i ∈ t.events → IsCodeEvent i op ∨ i ∈ s.events) op
    ?_ ?_ ?_ ?_ .inr).1
  · intro state allowWithdraw a j _ holds
    rwa [foldAnswer_events]
  · intro state j isEvent known holds member
    rw [codeEvent_of_has known] at member
    rcases Finset.mem_insert.mp member with rfl | old
    · rw [Int.toNat_of_nonneg known.1]
      exact .inl (.inl isEvent)
    · exact holds old
  · intro state j _ known holds member
    rw [measuredMiss_of_has known] at member
    exact holds (Finset.mem_of_mem_erase member)
  · intro state j isHit known holds member
    rw [measuredHit_of_has known] at member
    rcases Finset.mem_insert.mp member with rfl | old
    · rw [Int.toNat_of_nonneg known.1]
      exact .inl (.inr isHit)
    · exact holds old

theorem not_mem_events_of_miss (wf : LedgerWf s) (i : ℕ) :
    i ∉ (applyLedgerOp s (.measuredMiss i)).events := by
  change i ∉ (measuredMiss s i).events
  by_cases known : s.has i
  · rw [measuredMiss_of_has known]
    simp
  · rw [(measured_ops_of_not_has known).2.1]
    intro member
    have bound := wf.events_lt i member
    exact known ⟨by omega, by omega⟩

theorem codeEventStands_of_mem_events (clauses : List String) (ops : List LedgerOp) (i : ℕ) :
    i ∈ (ledgerAfter clauses ops).events → CodeEventStands i ops := by
  induction ops using List.reverseRecOn with
  | nil =>
    intro member
    exact absurd member (Finset.notMem_empty i)
  | append_singleton ops op ih =>
    rw [ledgerAfter, Runs.after_append]
    intro member
    by_cases isMiss : op = .measuredMiss i
    · subst op
      exact absurd member (not_mem_events_of_miss (ledgerAfter_wf clauses ops) i)
    · rcases mem_events_step member with isEvent | old
      · exact codeEventStands_snoc_event isEvent ops
      · exact codeEventStands_snoc isMiss (ih old)

/-- Every clause a judge ever withdrew is still withdrawn, supported by a code
event, or measured unmet. -/
def WithdrawalsAccounted (s : ClauseState) : Prop :=
  ∀ i ∈ s.withdrawals.map Prod.fst, i ∈ s.withdrawn ∨ i ∈ s.events ∨ i ∈ s.measured_unmet

theorem foldAnswer_accounted (accounted : WithdrawalsAccounted s) (allowWithdraw : Bool)
    (a : ClauseAnswer) (i : ℕ) : WithdrawalsAccounted (foldAnswer allowWithdraw s (a, some i)) := by
  rcases foldAnswer_cases allowWithdraw s a i with
    ⟨mark, equal⟩ | ⟨_, supported, equal⟩ | ⟨_, equal⟩
  · rw [equal]
    exact accounted
  · rw [equal]
    intro j logged
    have before := accounted j logged
    dsimp only
    by_cases same : j = i
    · subst same
      grind
    · grind
  · rw [equal]
    intro j logged
    have before := accounted j
    dsimp only at logged ⊢
    simp only [List.map_append, List.map_cons, List.map_nil,
      List.mem_append, List.mem_singleton] at logged
    grind

theorem ledgerAfter_accounted (clauses : List String) (ops : List LedgerOp) :
    WithdrawalsAccounted (ledgerAfter clauses ops) := by
  refine Runs.after_invariant applyLedgerOp WithdrawalsAccounted
    ?_ (fun _ logged => absurd logged List.not_mem_nil) ops
  intro s op accounted
  refine (applyLedgerOp_preserves WithdrawalsAccounted op ?_ ?_ ?_ ?_ accounted).1
  · intro state allowWithdraw a i _ holds
    exact foldAnswer_accounted holds allowWithdraw a i
  · intro state i _ known holds j logged
    rw [codeEvent_of_has known] at logged ⊢
    have before := holds j logged
    dsimp only
    grind
  · intro state i _ known holds j logged
    rw [measuredMiss_of_has known] at logged ⊢
    have before := holds j logged
    dsimp only
    grind
  · intro state i _ known holds j logged
    rw [measuredHit_of_has known] at logged ⊢
    have before := holds j logged
    dsimp only
    grind

private def drawerLine (met : Bool) : ClauseAnswer :=
  { what := "the drawer", met := met, evidence := "", index := some 0 }

end PiEmbodied.Motormind
