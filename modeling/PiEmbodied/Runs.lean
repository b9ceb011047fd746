import PiEmbodied.Instances

/-!
# Runs of a machine

Two shapes of machine appear in the development.  An operation machine takes
operations one at a time and always has a next state; its runs are left folds.
A loop reads one input per iteration and either goes on or stops with a result.
The rules below turn a fact about one step into a fact about a whole run.
-/

namespace Runs

universe u v w

/-! ## Operation machines -/

section Operations

variable {State : Type u} {Operation : Type v} (step : State → Operation → State)

def after (start : State) (operations : List Operation) : State :=
  operations.foldl step start

@[simp]
theorem after_nil (start : State) : after step start [] = start :=
  rfl

@[simp]
theorem after_cons (start : State) (operation : Operation) (operations : List Operation) :
    after step start (operation :: operations) = after step (step start operation) operations :=
  rfl

theorem after_append (start : State) (first second : List Operation) :
    after step start (first ++ second) = after step (after step start first) second := by
  exact List.foldl_append

variable {operations : List Operation}

theorem after_preserves (allowed : Operation → Prop) (invariant : State → Prop)
    (stepPreserves :
      ∀ state operation, allowed operation → invariant state → invariant (step state operation)) :
    ∀ {start : State}, invariant start → (∀ operation ∈ operations, allowed operation) →
      invariant (after step start operations) := by
  induction operations with
  | nil =>
    intro start holds _
    exact holds
  | cons operation rest ih =>
    intro start holds allAllowed
    rw [after_cons]
    apply ih
    · exact stepPreserves start operation (allAllowed operation List.mem_cons_self) holds
    · intro later laterMember
      exact allAllowed later (List.mem_cons_of_mem operation laterMember)

variable {start : State}

/-- The same with no restriction on the operations. -/
theorem after_invariant (invariant : State → Prop)
    (stepPreserves : ∀ state operation, invariant state → invariant (step state operation))
    (holds : invariant start) (operations : List Operation) :
    invariant (after step start operations) :=
  after_preserves step (fun _ => True) invariant
    (fun state operation _ => stepPreserves state operation)
    holds (fun _ _ => trivial)

/-- Every operation of a run is allowed in the state it meets. -/
def AllAllowed (allowed : State → Operation → Prop) (start : State) : List Operation → Prop
  | [] => True
  | operation :: rest => allowed start operation ∧ AllAllowed allowed (step start operation) rest

instance decidableAllAllowed (allowed : State → Operation → Prop)
    [∀ state operation, Decidable (allowed state operation)] :
    ∀ (operations : List Operation) (start : State),
      Decidable (AllAllowed step allowed start operations)
  | [], _ => isTrue trivial
  | operation :: rest, start =>
    have := decidableAllAllowed allowed rest (step start operation)
    inferInstanceAs
      (Decidable (allowed start operation ∧ AllAllowed step allowed (step start operation) rest))

/-- The run rule where what is allowed depends on the state met. -/
theorem after_of_allAllowed {allowed : State → Operation → Prop} {invariant : State → Prop}
    (stepPreserves :
      ∀ state operation, allowed state operation →
        invariant state → invariant (step state operation)) :
    ∀ {start : State}, invariant start → AllAllowed step allowed start operations →
      invariant (after step start operations) := by
  induction operations with
  | nil =>
    intro start holds _
    exact holds
  | cons operation rest ih =>
    intro start holds allAllowed
    obtain ⟨here, later⟩ := allAllowed
    rw [after_cons]
    exact ih (stepPreserves start operation here holds) later

/-- What every operation of an allowed run satisfies may be added to what is
allowed. -/
theorem allAllowed_and {allowed : State → Operation → Prop} {property : Operation → Prop}
    (allAllowed : AllAllowed step allowed start operations)
    (all : ∀ operation ∈ operations, property operation) :
    AllAllowed step (fun state operation => allowed state operation ∧ property operation)
      start operations := by
  induction operations generalizing start with
  | nil => trivial
  | cons operation rest ih =>
    obtain ⟨here, later⟩ := allAllowed
    refine ⟨⟨here, all operation List.mem_cons_self⟩, ?_⟩
    exact ih later fun other member => all other (List.mem_cons_of_mem operation member)

/-- Two machines that one allowed operation keeps related, a run of allowed
operations keeps related. -/
theorem after_related {Other : Type*} (otherStep : Other → Operation → Other)
    {allowed : State → Operation → Prop} {related : State → Other → Prop}
    (stepPreserves :
      ∀ state other operation, allowed state operation → related state other →
        related (step state operation) (otherStep other operation)) :
    ∀ {start : State} {other : Other}, related start other →
      AllAllowed step allowed start operations →
      related (after step start operations) (after otherStep other operations) := by
  induction operations with
  | nil =>
    intro start other holds _
    exact holds
  | cons operation rest ih =>
    intro start other holds allAllowed
    obtain ⟨here, later⟩ := allAllowed
    rw [after_cons, after_cons]
    exact ih (stepPreserves start other operation here holds) later

theorem allAllowed_append {allowed : State → Operation → Prop} {first second : List Operation} :
    AllAllowed step allowed start (first ++ second) ↔
      AllAllowed step allowed start first ∧
        AllAllowed step allowed (after step start first) second := by
  induction first generalizing start with
  | nil => exact ⟨fun all => ⟨trivial, all⟩, fun both => both.2⟩
  | cons operation rest ih =>
    rw [List.cons_append, AllAllowed, AllAllowed, ih, and_assoc]
    exact Iff.rfl

/-- A run of small operations, each operation standing for several. -/
theorem after_flatMap {Whole : Type*} (parts : Whole → List Operation)
    (start : State) (wholes : List Whole) :
    after step start (wholes.flatMap parts) =
      after (fun state whole => after step state (parts whole)) start
        wholes := by
  induction wholes generalizing start with
  | nil => rfl
  | cons whole rest ih => rw [List.flatMap_cons, after_append, ih, after_cons]

/-- Where an operation is allowed exactly when it leads to a good state, a run
is allowed exactly when every state on its way is good. -/
theorem allAllowed_iff_always_good
    {allowed : State → Operation → Prop} {invariant good : State → Prop}
    (stepPreserves : ∀ state operation, invariant state → invariant (step state operation))
    (stepGood :
      ∀ state operation, invariant state → good state →
        (allowed state operation ↔ good (step state operation))) :
    ∀ {start : State}, invariant start → good start →
      (AllAllowed step allowed start operations ↔
        ∀ taken, taken <+: operations → good (after step start taken)) := by
  induction operations with
  | nil =>
    intro start _ startGood
    constructor
    · intro _ taken isPrefix
      rw [List.prefix_nil.mp isPrefix]
      exact startGood
    · intro _
      trivial
  | cons operation rest ih =>
    intro start holds startGood
    have later := stepPreserves start operation holds
    have here := stepGood start operation holds startGood
    constructor
    · rintro ⟨allowedHere, allowedLater⟩ taken isPrefix
      have nextGood := here.mp allowedHere
      cases taken with
      | nil => exact startGood
      | cons first tail =>
        obtain ⟨rfl, tailPrefix⟩ := List.cons_prefix_cons.mp isPrefix
        exact (ih later nextGood).mp allowedLater tail tailPrefix
    · intro always
      have nextGood := always [operation] (List.prefix_append [operation] rest)
      refine ⟨here.mpr nextGood, ?_⟩
      apply (ih later nextGood).mpr
      intro tail tailPrefix
      exact always (operation :: tail) (List.cons_prefix_cons.mpr ⟨rfl, tailPrefix⟩)

end Operations

section Loops

variable {State : Type u} {Input : Type v} {Result : Type w} (body : State → Input → State ⊕ Result)

/-- At most `n` iterations of a loop whose iteration `k` reads `inputs k`. -/
def loop (inputs : ℕ → Input) : ℕ → State → State ⊕ Result
  | 0, state => .inl state
  | n + 1, state =>
    match body state (inputs 0) with
    | .inl next => loop (fun k => inputs (k + 1)) n next
    | .inr result => .inr result

theorem loop_stops {Measure : Type*} [LT Measure] [WellFoundedLT Measure]
    (measure : State → Measure)
    (decreases : ∀ state input next, body state input = .inl next → measure next < measure state)
    (state : State) : ∀ inputs : ℕ → Input, ∃ n result, loop body inputs n state = .inr result := by
  induction state using (InvImage.wf measure wellFounded_lt).induction with
  | _ state ih =>
    intro inputs
    cases taken : body state (inputs 0) with
    | inl next =>
      obtain ⟨n, result, stopped⟩ :=
        ih next (decreases state (inputs 0) next taken) (fun k => inputs (k + 1))
      exact ⟨n + 1, result, by rw [loop, taken]; exact stopped⟩
    | inr result => exact ⟨1, result, by rw [loop, taken]⟩

/-- A loop stops within the bound of a measure in `ℕ` that every iteration
decreases, where only some inputs are allowed. -/
theorem loop_stops_within {allowed : Input → Prop} (measure : State → ℕ)
    (decreases :
      ∀ state input next, allowed input →
        body state input = .inl next → measure next < measure state) :
    ∀ (bound : ℕ) (state : State) (inputs : ℕ → Input),
      measure state < bound → (∀ k, allowed (inputs k)) →
      ∃ n ≤ bound, ∃ result, loop body inputs n state = .inr result := by
  intro bound
  induction bound with
  | zero =>
    intro state inputs small
    exact absurd small (Nat.not_lt_zero _)
  | succ bound ih =>
    intro state inputs small allAllowed
    cases taken : body state (inputs 0) with
    | inl next =>
      have less := decreases state (inputs 0) next (allAllowed 0) taken
      obtain ⟨n, within, result, stopped⟩ :=
        ih next (fun k => inputs (k + 1)) (by omega) (fun k => allAllowed (k + 1))
      refine ⟨n + 1, Nat.succ_le_succ within, result, ?_⟩
      rw [loop, taken]
      exact stopped
    | inr result =>
      refine ⟨1, Nat.succ_le_succ (Nat.zero_le bound), result, ?_⟩
      rw [loop, taken]

end Loops

end Runs
