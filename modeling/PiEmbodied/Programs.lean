import PiEmbodied.Instances

/-!
# Programs that drive a device

A program reads the replies of a device one after the other, changes a state,
and returns or raises; the state it leaves is kept where it raises.  `running`
is a loop that has not ended in the iterations it was given.
-/

namespace Programs

inductive Outcome (Error Value : Type) where
  | returned (value : Value)
  | raised (error : Error)
  | running
deriving DecidableEq

/-- The replies by number, the number of the next one, and the state. -/
def Program (Reply Error State Value : Type) : Type :=
  (ℕ → Reply) → ℕ → State → Outcome Error Value × ℕ × State

namespace Program

variable {Reply Error State Value Next : Type}

/-- Every run of the program from the state, whatever the replies: it returns
with `post` or raises with `raises`. -/
def Meets (program : Program Reply Error State Value)
    (post : Value → State → Prop) (raises : Error → State → Prop) (state : State) : Prop :=
  ∀ replies now,
    match program replies now state with
    | (.returned value, _, next) => post value next
    | (.raised error, _, next) => raises error next
    | (.running, _, _) => True

/-! ## The programs -/

instance : Monad (Program Reply Error State) where
  pure value := fun _ now state => (.returned value, now, state)
  bind first next := fun replies now state =>
    match first replies now state with
    | (.returned value, later, between) => next value replies later between
    | (.raised error, later, between) => (.raised error, later, between)
    | (.running, later, between) => (.running, later, between)

def raise (error : Error) : Program Reply Error State Value :=
  fun _ now state => (.raised error, now, state)

def get : Program Reply Error State State :=
  fun _ now state => (.returned state, now, state)

def modify (change : State → State) : Program Reply Error State Unit :=
  fun _ now state => (.returned (), now, change state)

/-- The next reply of the device, as the caller takes it. -/
def ask (take : Reply → Except Error Value) :
    Program Reply Error State Value :=
  fun replies now state =>
    match take (replies now) with
    | .ok value => (.returned value, now + 1, state)
    | .error error => (.raised error, now + 1, state)

def outOfFuel : Program Reply Error State Value :=
  fun _ now state => (.running, now, state)

/-- `try`, with what is done where it raises. -/
def attempt (program : Program Reply Error State Value)
    (handle : Error → Program Reply Error State Value) :
    Program Reply Error State Value :=
  fun replies now state =>
    match program replies now state with
    | (.returned value, later, next) => (.returned value, later, next)
    | (.raised error, later, next) => handle error replies later next
    | (.running, later, next) => (.running, later, next)

/-! ## Their rules -/

variable {post : Value → State → Prop} {raises : Error → State → Prop} {state : State}
  {value : Value}

theorem meets_pure (holds : post value state) :
    Meets (pure value : Program Reply Error State Value) post raises state :=
  fun _ _ => holds

variable {first : Program Reply Error State Value}
  {next : Value → Program Reply Error State Next}

theorem meets_bind {nextPost : Next → State → Prop}
    (holds :
      first.Meets
        (fun value between => (next value).Meets nextPost raises between)
        raises state) : (first >>= next).Meets nextPost raises state := by
  intro replies now
  have before := holds replies now
  dsimp only [bind]
  split at before
  · exact before replies _
  · exact before
  · trivial

variable {error : Error}

theorem meets_raise (holds : raises error state) :
    Meets (raise error : Program Reply Error State Value) post raises state :=
  fun _ _ => holds

theorem meets_get {statePost : State → State → Prop} (holds : statePost state state) :
    Meets (get : Program Reply Error State State) statePost raises state :=
  fun _ _ => holds

variable {change : State → State}

theorem meets_modify {unitPost : Unit → State → Prop} (holds : unitPost () (change state)) :
    Meets (modify change : Program Reply Error State Unit) unitPost raises
      state :=
  fun _ _ => holds

theorem meets_outOfFuel : Meets (outOfFuel : Program Reply Error State Value) post raises state :=
  fun _ _ => trivial

variable {program : Program Reply Error State Value}

theorem meets_attempt {handle : Error → Program Reply Error State Value}
    (holds :
      program.Meets post (fun error between => (handle error).Meets post raises between) state) :
    (attempt program handle).Meets post raises state := by
  intro replies now
  have before := holds replies now
  unfold attempt
  split at before
  · exact before
  · exact before replies _
  · trivial

theorem Meets.imp {weaker : Value → State → Prop} {weakerRaises : Error → State → Prop}
    (holds : program.Meets post raises state)
    (returns : ∀ value next, post value next → weaker value next)
    (fails : ∀ error next, raises error next → weakerRaises error next) :
    program.Meets weaker weakerRaises state := by
  intro replies now
  have before := holds replies now
  split at before
  · exact returns _ _ before
  · exact fails _ _ before
  · trivial

theorem meets_trivial (program : Program Reply Error State Value) (state : State) :
    program.Meets (fun _ _ => True) (fun _ _ => True) state := by
  intro replies now
  split
  · trivial
  · trivial
  · trivial

theorem Meets.and {other : Value → State → Prop} {otherRaises : Error → State → Prop}
    (holds : program.Meets post raises state) (otherHolds : program.Meets other otherRaises state) :
    program.Meets (fun value next => post value next ∧ other value next)
      (fun error next => raises error next ∧ otherRaises error next)
      state := by
  intro replies now
  have first := holds replies now
  have second := otherHolds replies now
  split at first
  · rename_i isProgram
    rw [isProgram] at second
    exact ⟨first, second⟩
  · rename_i isProgram
    rw [isProgram] at second
    exact ⟨first, second⟩
  · trivial

/-! ## Programs that end -/

/-- `Meets`, and every run ends. -/
def Ensures (program : Program Reply Error State Value)
    (post : Value → State → Prop) (raises : Error → State → Prop) (state : State) : Prop :=
  ∀ replies now,
    match program replies now state with
    | (.returned value, _, next) => post value next
    | (.raised error, _, next) => raises error next
    | (.running, _, _) => False

theorem ensures_pure (holds : post value state) :
    Ensures (pure value : Program Reply Error State Value) post raises state :=
  fun _ _ => holds

theorem ensures_bind {nextPost : Next → State → Prop}
    (holds :
      first.Ensures
        (fun value between => (next value).Ensures nextPost raises between)
        raises state) : (first >>= next).Ensures nextPost raises state := by
  intro replies now
  have before := holds replies now
  dsimp only [bind]
  split at before
  · exact before replies _
  · exact before
  · exact before.elim

theorem ensures_raise (holds : raises error state) :
    Ensures (raise error : Program Reply Error State Value) post raises
      state :=
  fun _ _ => holds

theorem ensures_get {statePost : State → State → Prop} (holds : statePost state state) :
    Ensures (get : Program Reply Error State State) statePost raises state :=
  fun _ _ => holds

theorem ensures_modify {unitPost : Unit → State → Prop} (holds : unitPost () (change state)) :
    Ensures (modify change : Program Reply Error State Unit) unitPost raises
      state :=
  fun _ _ => holds

theorem ensures_ask {take : Reply → Except Error Value} (holds : ∀ value, post value state)
    (fails : ∀ error, raises error state) :
    Ensures (ask take : Program Reply Error State Value) post raises
      state := by
  intro replies now
  unfold ask
  cases take (replies now) with
  | ok value => exact holds value
  | error error => exact fails error

theorem Ensures.imp {weaker : Value → State → Prop} {weakerRaises : Error → State → Prop}
    (ensures : program.Ensures post raises state)
    (returns : ∀ value next, post value next → weaker value next)
    (fails : ∀ error next, raises error next → weakerRaises error next) :
    program.Ensures weaker weakerRaises state := by
  intro replies now
  have before := ensures replies now
  split at before
  · exact returns _ _ before
  · exact fails _ _ before
  · exact before.elim

end Program

end Programs
