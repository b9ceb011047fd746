import PiEmbodied.Entries
import PiEmbodied.Motormind.StepWords

/-!
# The replan

A replan keeps the finished steps and mends the planner's reply: a clause no
new step serves claims an acting step of the same object, or gets its old steps
back; steps that would drop the held object and extra preparation steps go;
the names are made unique; old boxes are kept for the same object.
-/

namespace PiEmbodied.Motormind.Planner

open List (mem_append_left mem_append_right mem_cons_of_mem mem_cons_self range')

/-! ## Unique names -/

def numbered (base : String) (k : ℕ) : String :=
  base ++ "_" ++ toString k

/-- The first numbered name from `k` on that is not used.  One more try than
there are used names always finds it. -/
def freeNumbered (used : List String) (base : String) : ℕ → ℕ → String
  | 0, k => numbered base k
  | tries + 1, k =>
    if numbered base k ∈ used then freeNumbered used base tries (k + 1)
    else numbered base k

def uniqueName (used : List String) (name : String) : String :=
  let base := if name.isEmpty then "step" else name
  if base ∈ used then freeNumbered used base used.length 2 else base

def dedupe : List String → List Subgoal → List Subgoal
  | _, [] => []
  | used, s :: rest =>
    let name := uniqueName used s.name
    { s with name := name } :: dedupe (name :: used) rest

variable (used : List String) (base : String)

theorem numbered_injective : Function.Injective (numbered base) := by
  intro first second equality
  have digits : Nat.toDigits 10 first = Nat.toDigits 10 second := by
    have suffixes : toString first = toString second := (String.append_right_inj _).mp equality
    simpa only [Nat.toString_eq_repr, Nat.toList_repr] using
      congrArg String.toList suffixes
  have read := congrArg (fun text => Nat.ofDigitChars 10 text 0) digits
  simpa using read

theorem numbered_used_of_freeNumbered {used : List String} {base : String} {tries k : ℕ}
    (taken : freeNumbered used base tries k ∈ used) :
    ∀ j, k ≤ j → j ≤ k + tries → numbered base j ∈ used := by
  induction tries generalizing k with
  | zero =>
    intro j lower upper
    obtain rfl : j = k := by omega
    simpa [freeNumbered] using taken
  | succ tries ih =>
    intro j lower upper
    by_cases here : numbered base k ∈ used
    · rw [freeNumbered, if_pos here] at taken
      rcases Nat.eq_or_lt_of_le lower with rfl | later
      · exact here
      · exact ih taken j later (by omega)
    · rw [freeNumbered, if_neg here] at taken
      exact absurd taken here

theorem freeNumbered_not_mem (k : ℕ) :
    freeNumbered used base used.length k ∉ used := by
  intro taken
  have allUsed := numbered_used_of_freeNumbered taken
  have distinct : ((range' k (used.length + 1)).map (numbered base)).Nodup :=
    List.Nodup.map (numbered_injective base) List.nodup_range'
  have included : (range' k (used.length + 1)).map (numbered base) ⊆ used := by
    intro name member
    obtain ⟨j, inRange, rfl⟩ := List.mem_map.mp member
    have bounds := List.mem_range'_1.mp inRange
    exact allUsed j bounds.1 (by omega)
  have shorter := (distinct.subperm included).length_le
  simp at shorter

theorem uniqueName_not_mem (name : String) : uniqueName used name ∉ used := by
  have free : ∀ base : String,
      (if base ∈ used then freeNumbered used base used.length 2 else base)
        ∉ used := by
    intro base
    by_cases taken : base ∈ used
    · rw [if_pos taken]
      exact freeNumbered_not_mem used base 2
    · rw [if_neg taken]
      exact taken
  exact free _

theorem dedupe_fresh (steps : List Subgoal) :
    ((dedupe used steps).map Subgoal.name).Nodup ∧ ∀ s ∈ dedupe used steps, s.name ∉ used := by
  induction steps generalizing used with
  | nil => simp [dedupe]
  | cons s rest ih =>
    obtain ⟨nodup, fresh⟩ := ih (uniqueName used s.name :: used)
    constructor
    · refine List.nodup_cons.mpr ⟨?_, nodup⟩
      intro member
      obtain ⟨later, inRest, same⟩ := List.mem_map.mp member
      apply fresh later inRest
      rw [same]
      exact mem_cons_self
    · intro step member
      rcases List.mem_cons.mp member with rfl | inRest
      · exact uniqueName_not_mem used s.name
      · exact fun taken => fresh step inRest (mem_cons_of_mem _ taken)

variable {steps : List Subgoal} {s : Subgoal}

theorem mem_dedupe (used : List String) (member : s ∈ steps) :
    ∃ name, { s with name := name } ∈ dedupe used steps := by
  induction steps generalizing used with
  | nil => cases member
  | cons first rest ih =>
    rcases List.mem_cons.mp member with rfl | inRest
    · exact ⟨uniqueName used s.name, mem_cons_self⟩
    · obtain ⟨name, renamed⟩ :=
        ih (uniqueName used first.name :: used) inRest
      exact ⟨name, mem_cons_of_mem _ renamed⟩

/-! ## Plans -/

def names (steps : List Subgoal) : List String :=
  steps.map Subgoal.name

structure NamedPlan extends Plan where
  rationale : String
  boxed_on : List String
  boxed_at : Option ℚ
  /-- Step name to the frame clock its boxes were drawn at. -/
  boxes_kept_from : List (String × ℚ)
  recoverable : Bool
  names_nodup : (names subgoals).Nodup

structure ReplanInput where
  plan : NamedPlan
  /-- How many steps are done and stay. -/
  keep : ℕ
  /-- The steps not yet run after the failed one. -/
  tail : List Subgoal
  unmet : List ℕ
  (strict holding : Bool)
  rebox : List String
  since : Option ℚ
  doneNames : List String
  replans : ℕ
  camera_names : List String
  frame_clock_s : ℚ

structure Reply where
  subgoals : List Subgoal
  rationale : String
  recoverable : Bool

inductive Note where
  | claimed (name : String) (clause : ℕ)
  | putBack (clause : ℕ)
  | gripperRemoved (count : ℕ)
  | restored
  | strictRemoved (count : ℕ) (object : String)
deriving DecidableEq

def Note.text : Note → String
  | .claimed name clause => name ++ ": marked as serving clause " ++ toString clause
  | .putBack clause => "clause " ++ toString clause ++ ": its old steps put back without boxes"
  | .gripperRemoved count =>
    toString count ++ " step(s) that open the gripper with no place to put down removed"
  | .restored => "nothing left after mending: the old remaining steps put back"
  | .strictRemoved count object =>
    "strict: " ++ toString count ++ " extra preparation step(s) for " ++ object ++ " removed"

structure Mending where
  steps : List Subgoal
  clamped : List Note

structure Replanned where
  plan : NamedPlan
  gave_up : Option String
  clamped : List Note

def fixedCameras (names : List String) : List String :=
  names.filter fun name => !anywhere (fun _ rest => beginsWith rest "wrist") none name.toList

namespace ReplanInput

variable (p : ReplanInput)

def kept : List Subgoal := p.plan.subgoals.take p.keep

def old : List Subgoal := p.plan.subgoals.drop p.keep

def object : String := (p.old.head?.map Subgoal.target).getD ""

/-- The clauses the mission asks a replan about: the unmet ones, of these only
the ones a remaining step serves while any step remains. -/
def askedFor (ledger : ClauseState) : ReplanInput :=
  { p with
    unmet :=
      if p.plan.subgoals.length ≤ p.keep then Motormind.unmet ledger
      else
        (Motormind.unmet ledger).filter fun i => p.old.any fun step => step.clause = (i : ℤ) }

end ReplanInput

/-- The first step that may be claimed, marked as serving the clause. -/
def claimFirst (claims : Subgoal → Bool) (clause : ℤ) :
    List Subgoal → Option (String × List Subgoal)
  | [] => none
  | s :: rest =>
    if claims s then some (s.name, { s with clause := clause } :: rest)
    else
      (claimFirst claims clause rest).map fun found => (found.1, s :: found.2)

/-- An acting step of the name or the object of one of the old steps. -/
def claims (olds : List Subgoal) (s : Subgoal) : Bool :=
  acts s && olds.any fun o => o.name = s.name || sameObject o.target s.target

def recoverClause (p : ReplanInput) (m : Mending) (i : ℕ) : Mending :=
  if i ∉ p.unmet then m
  else if m.steps.any fun s => s.clause = (i : ℤ) then m
  else
    let olds := p.old.filter fun s => s.clause = (i : ℤ)
    if olds.isEmpty then m
    else
      match claimFirst (claims olds) i m.steps with
      | some found => { steps := found.2, clamped := m.clamped ++ [.claimed found.1 i] }
      | none =>
        { steps := m.steps ++ olds.map fun s => { s with target_boxes := [] }
          clamped := m.clamped ++ [.putBack i] }

def recover (p : ReplanInput) (reply : Reply) : Mending :=
  (List.range p.plan.clauses.length).foldl (recoverClause p) ⟨reply.subgoals, []⟩

def dropReleases (p : ReplanInput) (m : Mending) : Mending :=
  if p.holding then
    let left := m.steps.filter fun s => !dropsHeld s
    { steps := left
      clamped :=
        if left.length ≠ m.steps.length then
          m.clamped ++ [.gripperRemoved (m.steps.length - left.length)]
        else m.clamped }
  else m

def putBackOld (p : ReplanInput) (m : Mending) : Mending :=
  if m.steps.isEmpty ∧ !p.old.isEmpty then
    { steps := p.old, clamped := m.clamped ++ [.restored] }
  else m

def rename (p : ReplanInput) (m : Mending) : Mending :=
  { m with steps := dedupe (p.doneNames ++ names p.kept) m.steps }

def prepares (p : ReplanInput) (s : Subgoal) : Bool :=
  sameObject s.target p.object && !acts s

/-- The steps less those of a kind beyond the first so many. -/
def dropBeyond (kind : Subgoal → Bool) : ℕ → List Subgoal → List Subgoal
  | _, [] => []
  | allowed, s :: rest =>
    if kind s then
      match allowed with
      | 0 => dropBeyond kind 0 rest
      | fewer + 1 => s :: dropBeyond kind fewer rest
    else s :: dropBeyond kind allowed rest

def dropExtra (p : ReplanInput) (m : Mending) : Mending :=
  if p.strict ∧ !p.old.isEmpty then
    let allowed := (p.tail.filter fun s => sameObject s.target p.object).length + 1
    let same := (m.steps.filter (prepares p)).length
    if allowed < same then
      { steps := dropBeyond (prepares p) allowed m.steps
        clamped := m.clamped ++ [.strictRemoved (same - allowed) p.object] }
    else m
  else m

/-- The old boxes of the step's object and when they were drawn, unless they
are to be drawn again or are older than the last grasp, drop or release. -/
def priorBoxes (p : ReplanInput) (s : Subgoal) : Option (List (String × List ℚ) × ℚ) :=
  if s.target.isEmpty ∨ p.rebox.any fun r => sameObject r s.target then none
  else
    match
      (p.plan.subgoals.filter fun o => !o.target_boxes.isEmpty).find?
        fun o => sameObject o.target s.target
    with
    | none => none
    | some prior =>
      match
        (Entries.get p.plan.boxes_kept_from prior.name).or p.plan.boxed_at
      with
      | none => none
      | some drawnAt =>
        if p.since.any fun since => drawnAt < since then none
        else some (prior.target_boxes, drawnAt)

def withBoxes (p : ReplanInput) (s : Subgoal) : Subgoal :=
  match priorBoxes p s with
  | none => s
  | some prior => { s with target_boxes := prior.1 }

/-- The new steps whose boxes are kept, with the clock they are from. -/
def boxesKept (p : ReplanInput) (steps : List Subgoal) : List (String × ℚ) :=
  steps.foldl
    (fun entries s =>
      match priorBoxes p s with
      | none => entries
      | some prior => Entries.set entries s.name prior.2)
    []

def mend (p : ReplanInput) (reply : Reply) : Mending :=
  dropExtra p (rename p (putBackOld p (dropReleases p (recover p reply))))

def newSteps (p : ReplanInput) (reply : Reply) : List Subgoal :=
  (mend p reply).steps.map (withBoxes p)

theorem dropBeyond_sublist (kind : Subgoal → Bool) (allowed : ℕ) (steps : List Subgoal) :
    List.Sublist (dropBeyond kind allowed steps) steps := by
  induction steps generalizing allowed with
  | nil => simp [dropBeyond]
  | cons s rest ih =>
    unfold dropBeyond
    split
    · cases allowed with
      | zero => exact (ih 0).cons s
      | succ fewer => exact (ih fewer).cons_cons s
    · exact (ih allowed).cons_cons s

section

variable (p : ReplanInput)
include p

theorem dropExtra_sublist (m : Mending) :
    List.Sublist (dropExtra p m).steps m.steps := by
  unfold dropExtra
  split
  · dsimp only
    split
    · exact dropBeyond_sublist _ _ _
    · exact List.Sublist.refl _
  · exact List.Sublist.refl _

@[simp]
theorem withBoxes_name (s : Subgoal) : (withBoxes p s).name = s.name := by
  unfold withBoxes
  split <;> rfl

theorem names_newSteps (reply : Reply) :
    names (newSteps p reply) = names (mend p reply).steps := by
  simp [names, newSteps, Function.comp_def]

theorem newSteps_fresh (reply : Reply) :
    (names (newSteps p reply)).Nodup ∧ ∀ name ∈ names (newSteps p reply), name ∉ names p.kept := by
  generalize pieces : putBackOld p (dropReleases p (recover p reply)) = m
  have fresh := dedupe_fresh (p.doneNames ++ names p.kept) m.steps
  have included :
      List.Sublist (names (newSteps p reply))
        (names (dedupe (p.doneNames ++ names p.kept) m.steps)) := by
    rw [names_newSteps, mend, pieces]
    exact (dropExtra_sublist p (rename p m)).map Subgoal.name
  refine ⟨List.Nodup.sublist included fresh.1, ?_⟩
  intro name member taken
  obtain ⟨step, inSteps, rfl⟩ := List.mem_map.mp (included.subset member)
  exact fresh.2 step inSteps (mem_append_right _ taken)

theorem replanned_nodup (reply : Reply) :
    (names (p.kept ++ newSteps p reply)).Nodup := by
  obtain ⟨nodup, fresh⟩ := newSteps_fresh p reply
  have keptNodup : (names p.kept).Nodup :=
    p.plan.names_nodup.sublist
      ((List.take_sublist p.keep p.plan.subgoals).map Subgoal.name)
  rw [names, List.map_append]
  refine List.nodup_append.mpr ⟨keptNodup, nodup, ?_⟩
  rintro first inKept second inNew rfl
  exact fresh first inNew inKept

end

def replanned (p : ReplanInput) (reply : Reply) : Replanned :=
  let m := mend p reply
  let steps := newSteps p reply
  let kept_from := boxesKept p m.steps
  let boxedNow := steps.any fun s => !s.target_boxes.isEmpty && !Entries.has kept_from s.name
  { plan :=
      { subgoals := p.kept ++ steps
        clauses := p.plan.clauses
        rationale := reply.rationale
        boxed_on :=
          if boxedNow then fixedCameras p.camera_names else p.plan.boxed_on
        boxed_at := if boxedNow then some p.frame_clock_s else p.plan.boxed_at
        boxes_kept_from :=
          kept_from.foldl
            (fun entries entry => Entries.set entries entry.1 entry.2)
            (Entries.restrict p.plan.boxes_kept_from fun name => (names p.kept).contains name)
        recoverable := reply.recoverable
        names_nodup := replanned_nodup p reply }
    gave_up :=
      if !reply.recoverable && gaveUp reply.rationale p.replans then
        some
          (if reply.rationale.isEmpty then
            "the planner declared the task unrecoverable"
          else reply.rationale)
      else none
    clamped := m.clamped }

def replan (p : ReplanInput) (answer : Except String Reply) :
    Except String Replanned :=
  answer.map (replanned p)

/-! ## Clauses stay served -/

def Serves (steps : List Subgoal) (i : ℕ) : Prop :=
  ∃ s ∈ steps, s.clause = (i : ℤ)

def ClaimedAfter (clamped : List Note) (i : ℕ) : Prop :=
  ∃ name j, i < j ∧ Note.claimed name j ∈ clamped

variable {i : ℕ}

theorem any_clause_iff : (steps.any fun s => s.clause = (i : ℤ)) = true ↔ Serves steps i := by
  simp [Serves]

theorem claimFirst_serves {claims : Subgoal → Bool} {found : String × List Subgoal}
    (claimed : claimFirst claims i steps = some found) : Serves found.2 i := by
  induction steps generalizing found with
  | nil => cases claimed
  | cons s rest ih =>
    by_cases here : claims s
    · obtain rfl : (s.name, { s with clause := (i : ℤ) } :: rest) = found := by
        simpa [claimFirst, here] using claimed
      exact ⟨_, mem_cons_self, rfl⟩
    · obtain ⟨later, inRest, rfl⟩ :
          ∃ later, claimFirst claims i rest = some later ∧ (later.1, s :: later.2) = found := by
        simpa [claimFirst, here] using claimed
      obtain ⟨step, member, clause⟩ := ih inRest
      exact ⟨step, mem_cons_of_mem _ member, clause⟩

section

variable (p : ReplanInput)
include p

/-- What one clause's recovery leaves of another clause: the steps that serve
it, unless a step was claimed for this one. -/
theorem recoverClause_keeps (m : Mending) (j : ℕ) (earlier : i < j)
    (served : Serves m.steps i ∨ ClaimedAfter m.clamped i) :
    Serves (recoverClause p m j).steps i ∨ ClaimedAfter (recoverClause p m j).clamped i := by
  have grown : ∀ note : Note, ClaimedAfter m.clamped i → ClaimedAfter (m.clamped ++ [note]) i := by
    rintro note ⟨name, later, after, member⟩
    exact ⟨name, later, after, mem_append_left _ member⟩
  unfold recoverClause
  split
  · exact served
  · split
    · exact served
    · dsimp only
      split
      · exact served
      · split
        · rename_i found claimed
          right
          exact ⟨found.1, j, earlier, mem_append_right _ (by simp)⟩
        · rcases served with ⟨s, member, clause⟩ | claimed
          · exact .inl ⟨s, mem_append_left _ member, clause⟩
          · exact .inr (grown _ claimed)

theorem recoverClause_serves (m : Mending) (asked : i ∈ p.unmet) (before : Serves p.old i) :
    Serves (recoverClause p m i).steps i := by
  obtain ⟨s, inOld, clause⟩ := before
  have inOlds : s ∈ p.old.filter fun s => s.clause = (i : ℤ) :=
    List.mem_filter.mpr ⟨inOld, by simpa using clause⟩
  unfold recoverClause
  rw [if_neg (not_not.mpr asked)]
  split
  · exact any_clause_iff.mp (by assumption)
  · dsimp only
    split
    · rename_i none_
      rw [List.isEmpty_iff.mp none_] at inOlds
      cases inOlds
    · split
      · exact claimFirst_serves (by assumption)
      · exact ⟨_, mem_append_right _ (List.mem_map_of_mem inOlds), clause⟩

/-- By the clauses gone through: each asked for is served, or a step was
claimed for a later one. -/
theorem recover_run (m : Mending) (bound : ℕ) :
    ∀ i < bound, i ∈ p.unmet → Serves p.old i →
      Serves ((List.range bound).foldl (recoverClause p) m).steps i ∨
        ClaimedAfter ((List.range bound).foldl (recoverClause p) m).clamped i := by
  induction bound with
  | zero => exact fun i before => absurd before (Nat.not_lt_zero i)
  | succ bound ih =>
    intro i before asked served
    rw [List.range_succ, List.foldl_append, List.foldl_cons, List.foldl_nil]
    rcases Nat.lt_succ_iff_lt_or_eq.mp before with earlier | rfl
    · exact recoverClause_keeps p _ bound earlier (ih i earlier asked served)
    · exact .inl (recoverClause_serves p _ asked served)

theorem recover_serves (reply : Reply) (inRange : i < p.plan.clauses.length) (asked : i ∈ p.unmet)
    (before : Serves p.old i) :
    Serves (recover p reply).steps i ∨ ClaimedAfter (recover p reply).clamped i :=
  recover_run p _ _ i inRange asked before

end

/-! ## What is removed afterwards -/

/-- The steps a replan takes out of a mended reply: while the robot holds
something, those that open the gripper with no place to put down; under
`strict`, preparation steps for the object that failed. -/
def mayDrop (p : ReplanInput) (s : Subgoal) : Bool :=
  (p.holding && dropsHeld s) || (p.strict && prepares p s)

variable {p : ReplanInput} {m : Mending}

theorem mem_dropReleases (member : s ∈ m.steps) (stays : mayDrop p s = false) :
    s ∈ (dropReleases p m).steps := by
  unfold dropReleases
  split
  · rename_i holding
    have puts : dropsHeld s = false := by
      simp only [mayDrop, holding, Bool.true_and, Bool.or_eq_false_iff] at stays
      exact stays.1
    exact List.mem_filter.mpr ⟨member, by simp [puts]⟩
  · exact member

theorem mem_putBackOld (member : s ∈ m.steps) : s ∈ (putBackOld p m).steps := by
  unfold putBackOld
  split
  · rename_i nothing
    rw [List.isEmpty_iff.mp nothing.1] at member
    cases member
  · exact member

theorem mem_dropBeyond {kind : Subgoal → Bool} (member : s ∈ steps) (other : kind s = false)
    (allowed : ℕ) : s ∈ dropBeyond kind allowed steps := by
  induction steps generalizing allowed with
  | nil => cases member
  | cons first rest ih =>
    rcases List.mem_cons.mp member with rfl | inRest
    · unfold dropBeyond
      rw [if_neg (by simp [other])]
      exact mem_cons_self
    · unfold dropBeyond
      split
      · cases allowed with
        | zero => exact ih inRest 0
        | succ fewer => exact mem_cons_of_mem _ (ih inRest fewer)
      · exact mem_cons_of_mem _ (ih inRest allowed)

theorem mem_dropExtra (member : s ∈ m.steps) (stays : mayDrop p s = false) :
    s ∈ (dropExtra p m).steps := by
  unfold dropExtra
  split
  · rename_i strict
    have other : prepares p s = false := by
      simp only [mayDrop, strict.1, Bool.true_and, Bool.or_eq_false_iff] at stays
      exact stays.2
    dsimp only
    split
    · exact mem_dropBeyond member other _
    · exact member
  · exact member

@[simp]
theorem withBoxes_clause (p : ReplanInput) (s : Subgoal) : (withBoxes p s).clause = s.clause := by
  unfold withBoxes
  split <;> rfl

variable {reply : Reply}

theorem newSteps_serves (member : s ∈ (recover p reply).steps) (clause : s.clause = (i : ℤ))
    (stays : mayDrop p s = false) : Serves (newSteps p reply) i := by
  have left := mem_putBackOld (p := p) (mem_dropReleases member stays)
  obtain ⟨name, renamed⟩ := mem_dedupe (p.doneNames ++ names p.kept) left
  have stillStays : mayDrop p { s with name := name } = false := stays
  have last : { s with name := name } ∈ (mend p reply).steps :=
    mem_dropExtra
      (m := rename p (putBackOld p (dropReleases p (recover p reply))))
      renamed stillStays
  exact ⟨_, List.mem_map_of_mem last, by simpa using clause⟩

theorem clamped_of_recover {note : Note} (member : note ∈ (recover p reply).clamped) :
    note ∈ (replanned p reply).clamped := by
  have first : note ∈ (dropReleases p (recover p reply)).clamped := by
    unfold dropReleases
    split
    · dsimp only
      split
      · exact mem_append_left _ member
      · exact member
    · exact member
  have second : note ∈ (putBackOld p (dropReleases p (recover p reply))).clamped := by
    unfold putBackOld
    split
    · exact mem_append_left _ first
    · exact first
  show note ∈ (mend p reply).clamped
  unfold mend dropExtra
  split
  · dsimp only
    split
    · exact mem_append_left _ second
    · exact second
  · exact second

theorem mem_askedFor {ledger : ClauseState} (sameClauses : ledger.clauses = p.plan.clauses)
    (inRange : i < p.plan.clauses.length) (open_ : i ∉ ledger.met) (before : Serves p.old i) :
    i ∈ (p.askedFor ledger).unmet := by
  have notMet : i ∈ Motormind.unmet ledger := by simp [Motormind.unmet, sameClauses, inRange, open_]
  simp only [ReplanInput.askedFor]
  split
  · exact notMet
  · exact List.mem_filter.mpr ⟨notMet, any_clause_iff.mpr before⟩

theorem newSteps_keeps (p : ReplanInput) (ops : List LedgerOp) (reply : Reply) {i : ℕ}
    (inRange : i < p.plan.clauses.length) (open_ : i ∉ (ledgerAfter p.plan.clauses ops).met)
    (before : Serves (p.plan.subgoals.drop p.keep) i) :
    let asked := p.askedFor (ledgerAfter p.plan.clauses ops)
    Serves (newSteps asked reply) i ∨ ClaimedAfter (replanned asked reply).clamped i ∨
      ∀ s ∈ (recover asked reply).steps, s.clause = (i : ℤ) → mayDrop asked s = true := by
  intro asked
  have listed : i ∈ asked.unmet :=
    mem_askedFor (ledgerAfter_clauses p.plan.clauses ops) inRange open_ before
  rcases recover_serves asked reply inRange listed before with
    ⟨s, member, clause⟩ | ⟨name, j, later, claimed⟩
  · by_cases removable :
        ∀ s ∈ (recover asked reply).steps, s.clause = (i : ℤ) → mayDrop asked s = true
    · exact .inr (.inr removable)
    · push Not at removable
      obtain ⟨other, inSteps, serves, stays⟩ := removable
      exact .inl (newSteps_serves inSteps serves (Bool.eq_false_iff.mpr stays))
  · exact .inr (.inl ⟨name, j, later, clamped_of_recover claimed⟩)

/-- The robot holds the cup and is asked to put it down on the plate. -/
def holdingCup : ReplanInput where
  plan :=
    { subgoals :=
        [⟨"grasp", "grasp the cup", "the cup is held", "cup", [], 0, 5⟩,
          ⟨"put", "put the cup on the plate", "the cup is on the plate", "cup", [], 1, 5⟩]
      clauses := ["hold the cup", "the cup is put down"]
      rationale := ""
      boxed_on := []
      boxed_at := none
      boxes_kept_from := []
      recoverable := true
      names_nodup := by decide }
  keep := 0
  tail := []
  unmet := []
  strict := false
  holding := true
  rebox := []
  since := none
  doneNames := []
  replans := 1
  camera_names := ["front"]
  frame_clock_s := 0

def graspOnly : Reply where
  subgoals := [⟨"grasp", "grasp the cup", "the cup is held", "cup", [], 0, 5⟩]
  rationale := ""
  recoverable := true

def graspAndOpen : Reply where
  subgoals :=
    [⟨"grasp", "grasp the cup", "the cup is held", "cup", [], 0, 5⟩,
      ⟨"release", "open the gripper", "the jaws are open", "", [], 1, 5⟩]
  rationale := ""
  recoverable := true

structure FirstReply where
  subgoals : List Subgoal
  rationale : String
  clauses : List String

/-- The first plan; without clauses the task is the one clause. -/
def firstPlan (task : String) (camera_names : List String) (frame_clock_s : ℚ)
    (reply : FirstReply) : Option NamedPlan :=
  let unclaused := reply.clauses.isEmpty
  let steps :=
    dedupe [] (if unclaused then reply.subgoals.map fun s => { s with clause := 0 }
      else reply.subgoals)
  let boxed := steps.any fun s => !s.target_boxes.isEmpty
  if steps.isEmpty then none
  else
    some
      { subgoals := steps
        clauses :=
          if unclaused then [String.ofList (Operator.trim task.toList)]
          else reply.clauses
        rationale := reply.rationale
        boxed_on := if boxed then fixedCameras camera_names else []
        boxed_at := if boxed then some frame_clock_s else none
        boxes_kept_from := []
        recoverable := true
        names_nodup := (dedupe_fresh [] _).1 }

/-- The finished steps alone, kept when a replan found nothing to do. -/
def NamedPlan.truncated (plan : NamedPlan) (keep : ℕ) : NamedPlan :=
  { plan with
    subgoals := plan.subgoals.take keep
    names_nodup :=
      plan.names_nodup.sublist
        ((List.take_sublist keep plan.subgoals).map Subgoal.name) }

theorem merged_sublist (p : ReplanInput) (reply : Reply) (met : Finset ℕ) :
    List.Sublist
      (p.kept ++ freshSteps (replanned p reply).plan.subgoals p.keep met)
      (replanned p reply).plan.subgoals := by
  have dropped : List.Sublist ((p.kept ++ newSteps p reply).drop p.keep) (newSteps p reply) := by
    have short : p.kept.length ≤ p.keep := by simp [ReplanInput.kept]
    rw [List.drop_append, List.drop_of_length_le short]
    exact List.drop_sublist _ _
  exact
    (List.Sublist.refl p.kept).append ((List.filter_sublist).trans dropped)

/-- The plan the mission goes on with: the finished steps and the new ones,
less those for clauses already met. -/
def Replanned.merged (p : ReplanInput) (reply : Reply) (met : Finset ℕ) : NamedPlan :=
  { (replanned p reply).plan with
    subgoals := p.kept ++ freshSteps (replanned p reply).plan.subgoals p.keep met
    names_nodup :=
      (replanned p reply).plan.names_nodup.sublist ((merged_sublist p reply met).map Subgoal.name) }

theorem merged_serves {met : Finset ℕ} (open_ : i ∉ met) (inside : p.keep ≤ p.plan.subgoals.length)
    (served : Serves (newSteps p reply) i) : Serves (Replanned.merged p reply met).subgoals i := by
  obtain ⟨s, member, clause⟩ := served
  have length : p.kept.length = p.keep := by simpa [ReplanInput.kept] using inside
  have fresh : (replanned p reply).plan.subgoals.drop p.keep = newSteps p reply := by
    show (p.kept ++ newSteps p reply).drop p.keep = newSteps p reply
    rw [← length]
    exact List.drop_left
  refine ⟨s, mem_append_right _ ?_, clause⟩
  unfold freshSteps
  rw [fresh]
  refine List.mem_filter.mpr ⟨member, ?_⟩
  simp [clause, open_]

end PiEmbodied.Motormind.Planner
