import PiEmbodied.Services.Ur5eRuns

/-!
# The async register of a UR5e

What the control script writes to the register that `_await_motion` reads, and
what the driver sees of it, each change as late as may be.
-/

namespace PiEmbodied.Services.Ur5e

open Programs Programs.Program

/-! ## The control script -/

/-- An async operation starts or ends, or the script is uploaded. -/
inductive Change where
  | starts
  | ends
  | uploads
deriving DecidableEq

def Change.write : ℤ × Bool → Change → ℤ × Bool
  | (id, _), .starts => ((id + 1) % 128, true)
  | (id, _), .ends => (id, false)
  | _, .uploads => (0, false)

/-- The register after the first `count` changes. -/
def register (log : List Change) (count : ℕ) : ℤ × Bool :=
  (log.take count).foldl Change.write (0, false)

def shown (value : ℤ × Bool) : Register :=
  (some value.1, value.2)

/-- The operation that starts as change `own` has started and does not run. -/
def Finished (log : List Change) (own count : ℕ) : Prop :=
  own < count ∧ ∃ later < count, own < later ∧ ∃ change ∈ log[later]?, change ≠ .starts

/-- A run of the script, one operation at a time, as the driver sees it: after
`seen` changes at each call.  The start of the operation that was issued is
change `own`, where it comes to start. -/
structure Watched {Rotation : Type} (log : List Change) (own : ℕ) (seen : ℕ → ℕ)
    (replies : ℕ → Reply Rotation) : Prop where
  single : ∀ count, log[count]? = some .starts → (register log count).2 = false
  issued : ∀ change ∈ log[own]?, change = .starts
  orderly : Monotone seen
  within : ∀ call, seen call ≤ log.length
  shows : ∀ call now, (replies call).asyncStatus = .ok now → now = shown (register log (seen call))

/-- Nothing that the register showed as `before` was read hides an earlier
operation's start; and where it hides an upload, the id is not the last. -/
def ReadFresh (log : List Change) (own read : ℕ) : Prop :=
  ∀ count, read ≤ count → count < own → ∀ change ∈ log[count]?,
    change ≠ .starts ∧ (change = .uploads → (register log read).1 ≠ 127)

variable {Rotation : Type} {log : List Change} {own read count later : ℕ} {seen : ℕ → ℕ}
  {replies : ℕ → Reply Rotation} {change : Change}

theorem register_succ (written : log[count]? = some change) :
    register log (count + 1) = change.write (register log count) := by
  rw [register, List.take_add_one, written, Option.toList_some, List.foldl_append]
  rfl

theorem register_fits (count : ℕ) : 0 ≤ (register log count).1 ∧ (register log count).1 < 128 := by
  induction count with
  | zero => exact ⟨le_rfl, (by decide : (0 : ℤ) < 128)⟩
  | succ count ih =>
    cases written : log[count]? with
    | none =>
      have past := List.getElem?_eq_none_iff.1 written
      rw [register, List.take_of_length_le (by omega)]
      rwa [register, List.take_of_length_le past] at ih
    | some change =>
      rw [register_succ written]
      cases change with
      | starts => exact ⟨Int.emod_nonneg _ (by decide), Int.emod_lt_of_pos _ (by decide)⟩
      | ends => exact ih
      | uploads => exact ⟨le_rfl, (by decide : (0 : ℤ) < 128)⟩

/-- What the register shows before the own start: the id that was read, or an
upload. -/
def Shows (log : List Change) (read count : ℕ) : Prop :=
  (register log count).1 = (register log read).1 ∨
    (register log read).1 ≠ 127 ∧ register log count = (0, false)

theorem ReadFresh.shows (fresh : ReadFresh log own read) (after : read ≤ count)
    (shows : Shows log read count) (le : count ≤ later) (early : later ≤ own)
    (within : later ≤ log.length) :
    Shows log read later ∧ (register log count = (0, false) → register log later = (0, false)) := by
  induction later, le using Nat.le_induction with
  | base => exact ⟨shows, id⟩
  | succ later le ih =>
    obtain ⟨shows, idle⟩ := ih (by omega) (by omega)
    obtain ⟨change, written⟩ : ∃ change, log[later]? = some change :=
      ⟨_, List.getElem?_eq_getElem within⟩
    obtain ⟨notStart, upload⟩ := fresh later (after.trans le) early _ written
    rw [Shows, register_succ written]
    cases change with
    | starts => exact absurd rfl notStart
    | ends =>
      refine ⟨shows.imp_right fun shown => ⟨shown.1, ?_⟩, fun was => ?_⟩
      · rw [shown.2]; rfl
      · rw [idle was]; rfl
    | uploads => exact ⟨.inr ⟨upload rfl, rfl⟩, fun _ => rfl⟩

/-! ## The wait -/

/-- The loop compares with the id that was read, or with that of an upload. -/
def Waits (log : List Change) (own read count : ℕ) (before : Register) (started : Bool) : Prop :=
  count ≤ own →
    started = false ∧ read ≤ count ∧ Shows log read count ∧
      (before.1 = some (register log read).1 ∨ before.1 = some 0 ∧ register log count = (0, false))

variable {before : Register} {started : Bool}

theorem asyncPhase_running (id : ℤ) : asyncPhase before (some id, true) started ≠ .done := by
  rw [asyncPhase]
  split
  next =>
    split
    · exact Phase.noConfusion
    · exact Phase.noConfusion
  next => exact Phase.noConfusion

theorem asyncPhase_same {id : ℤ} {running : Bool} (same : before.1 = some id) :
    asyncPhase before (some id, running) started = .pending := by
  simp only [asyncPhase, same, if_true]

theorem asyncPhase_reset {id : ℤ} (same : before.1 = some id) (fits : 0 ≤ id ∧ id < 128)
    (notZero : id ≠ 0) (notLast : id ≠ 127) :
    asyncPhase before (some 0, false) false = .rebase := by
  have successor : ¬(0 : ℤ) = (id + 1) % 128 := by omega
  simp [asyncPhase, same, notZero.symm, successor]

theorem Waits.mono (fresh : ReadFresh log own read) (within : later ≤ log.length)
    (waits : Waits log own read count before started) (le : count ≤ later) :
    Waits log own read later before started := by
  intro early
  obtain ⟨notStarted, after, shows, base⟩ := waits (le.trans early)
  obtain ⟨shows, idle⟩ := fresh.shows after shows le early within
  exact ⟨notStarted, after.trans le, shows, base.imp_right fun zero => ⟨zero.1, idle zero.2⟩⟩

/-- No sample from before the own start is taken for its end, or its run. -/
theorem Waits.early (waits : Waits log own read count before started) (early : count ≤ own) :
    let now := shown (register log count)
    asyncPhase before now started = .pending ∨
      asyncPhase before now started = .rebase ∧ Waits log own read count now started := by
  obtain ⟨rfl, after, shows, base⟩ := waits early
  rcases base with same | ⟨zero, was⟩
  · rcases shows with sameId | ⟨notLast, reset⟩
    · left
      rw [shown, sameId]
      exact asyncPhase_same same
    · rw [reset]
      by_cases isZero : (register log read).1 = 0
      · exact .inl (asyncPhase_same (isZero ▸ same))
      · exact .inr ⟨asyncPhase_reset same (register_fits read) isZero notLast, fun _ =>
          ⟨rfl, after, .inr ⟨notLast, reset⟩, .inr ⟨rfl, reset⟩⟩⟩
  · left
    rw [was]
    exact asyncPhase_same zero

theorem Watched.finished (watched : Watched log own seen replies) (within : later ≤ log.length)
    (past : own < later) (done : asyncPhase before (shown (register log later)) started = .done) :
    Finished log own later := by
  have written := List.getElem?_eq_getElem (past.trans_le within)
  rw [watched.issued _ written] at written
  have runs : (register log (own + 1)).2 = true := by
    rw [register_succ written]
    rfl
  rcases Nat.eq_or_lt_of_le past with next | beyond
  · rw [← next, shown, runs] at done
    exact absurd done (asyncPhase_running _)
  · have hasNext := List.getElem?_eq_getElem (Nat.lt_of_lt_of_le beyond within)
    refine ⟨past, own + 1, beyond, Nat.lt_succ_self own, _, hasNext, fun isStart => ?_⟩
    rw [isStart] at hasNext
    rw [watched.single _ hasNext] at runs
    cases runs

theorem Finished.mono (finished : Finished log own count) (le : count ≤ later) :
    Finished log own later := by
  obtain ⟨started, next, early, rest⟩ := finished
  exact ⟨started.trans_le le, next, early.trans_le le, rest⟩

/-! ## The run -/

section Wait

variable {Value Next : Type} {value : Next} {c c' : Controller Rotation} {now last : ℕ}

theorem bind_returned {first : Action Rotation Value} {next : Value → Action Rotation Next}
    (result : (first >>= next) replies now c = (.returned value, last, c')) :
    ∃ a call between, first replies now c = (.returned a, call, between) ∧
      next a replies call between = (.returned value, last, c') := by
  simp only [bind] at result
  split at result
  next a call between isFirst => exact ⟨a, call, between, isFirst, result⟩
  next => cases result
  next => cases result

theorem driver_returned {call : Reply Rotation → Except String Next}
    (result : driver call replies now c = (.returned value, last, c')) :
    call (replies now) = .ok value ∧ last = now + 1 ∧ c' = c := by
  rw [driver, ask] at result
  cases replied : call (replies now) with
  | error why => rw [replied] at result; cases result
  | ok answer =>
    rw [replied] at result
    cases result
    exact ⟨rfl, rfl, rfl⟩

theorem halted_returned {ended : Option Interruption}
    (result : halted replies now c = (.returned ended, last, c')) : last = now + 1 := by
  obtain ⟨status, call, between, asked, result⟩ := bind_returned result
  obtain ⟨-, rfl, -⟩ := driver_returned asked
  cases stopped : safetyReason status with
  | some reason =>
    rw [stopped] at result
    cases result
    rfl
  | none =>
    rw [stopped] at result
    dsimp only at result
    split at result
    · cases result; rfl
    · cases result; rfl

theorem stopped_returned {run after : Run}
    (result : (stopMotion >>= fun _ => pure run) replies now c = (.returned after, last, c')) :
    after = run := by
  obtain ⟨_, _, _, -, returned⟩ := bind_returned result
  cases returned
  rfl

theorem awaitLoop_finished {limits : Limits} {began timeout : ℚ} {run after : Run}
    (watched : Watched log own seen replies) (fresh : ReadFresh log own read) (fuel : ℕ)
    (waits : Waits log own read (seen now) before run.started)
    (result : awaitLoop limits began timeout fuel before run replies now c =
      (.returned after, last, c'))
    (ended : after.ended) : Finished log own (seen last) := by
  induction fuel generalizing before run now c with
  | zero => cases result
  | succ fuel ih =>
    rw [awaitLoop] at result
    obtain ⟨stop, call, d, flag, result⟩ := bind_returned result
    obtain rfl : now + 1 = call := by
      cases flag
      rfl
    split at result
    · rw [stopped_returned result] at ended
      cases ended
    obtain ⟨sample, call, e, sampled, result⟩ := bind_returned result
    obtain ⟨replied, rfl, -⟩ := driver_returned sampled
    obtain rfl := watched.shows _ _ replied
    have within := watched.within (now + 1)
    have waits := waits.mono fresh within (watched.orderly (Nat.le_succ now))
    dsimp only at result
    split at result
    next done =>
      cases result
      refine Finished.mono ?_ (watched.orderly (Nat.le_succ (now + 1)))
      refine watched.finished within (not_le.1 fun early => ?_) done
      rcases waits.early early with pending | ⟨rebase, -⟩
      · rw [pending] at done; cases done
      · rw [rebase] at done; cases done
    next notDone =>
      obtain ⟨halt, call, f, halting, result⟩ := bind_returned result
      obtain rfl := halted_returned halting
      cases halt with
      | some interruption =>
        obtain ⟨_, _, _, -, returned⟩ := bind_returned result
        cases returned
        simp [Run.ended] at ended
      | none =>
        obtain ⟨time, call, g, timed, result⟩ := bind_returned result
        have isNext : call = now + 4 := by
          cases timed
          rfl
        split at result
        · rw [stopped_returned result] at ended
          simp [Run.ended] at ended
        split at result
        · rw [stopped_returned result] at ended
          simp [Run.ended] at ended
        refine ih ?_ result
        refine Waits.mono fresh (watched.within _) ?_ (watched.orderly (by omega : now + 1 ≤ call))
        intro early
        rcases waits.early early with pending | ⟨rebase, rebased⟩
        · simpa [pending] using waits early
        · simpa [rebase] using rebased early

end Wait

/-! ## The register of the operation that was issued -/

/-- Where the wait ends as done, the operation issued after the register was
read has started and does not run, so long as the register was read fresh. -/
theorem awaitMotion_done {limits : Limits} {timeout : ℚ} {run : Run} {fuel now last : ℕ}
    {c c' : Controller Rotation} (watched : Watched log own seen replies)
    (after : read ≤ seen now) (fresh : ReadFresh log own read)
    (result : awaitMotion limits fuel (shown (register log read)) timeout replies now c =
      (.returned run, last, c'))
    (done : run.ended) : Finished log own (seen last) := by
  obtain ⟨began, call, d, timed, result⟩ := bind_returned result
  have isNext : call = now + 1 := by
    cases timed
    rfl
  have within := watched.within call
  have le := after.trans (watched.orderly (by omega : now ≤ call))
  have waits : Waits log own read read (shown (register log read)) false :=
    fun _ => ⟨rfl, le_rfl, .inl rfl, .inl rfl⟩
  exact awaitLoop_finished watched fresh fuel (waits.mono fresh within le) result done

/-- A driver that answers with the register after the changes seen. -/
def registerDriver (log : List Change) (seen : ℕ → ℕ) (call : ℕ) : Reply Unit :=
  { quietDriver call with asyncStatus := .ok (shown (register log (seen call))) }

theorem awaitMotion_done_short : Finished [.starts, .ends] 0 2 := by
  have watched : Watched [.starts, .ends] 0 (fun _ => 2)
      (registerDriver [.starts, .ends] fun _ => 2) := by
    refine ⟨fun count written => ?_, fun _ written => (Option.some.inj written).symm,
      fun _ _ _ => le_rfl, fun _ => le_rfl, fun _ _ replied => (Except.ok.inj replied).symm⟩
    match count with
    | 0 => rfl
    | 1 | _ + 2 => cases written
  have fresh : ReadFresh [.starts, .ends] 0 0 :=
    fun _ _ early => absurd early (Nat.not_lt_zero _)
  have result : awaitMotion someLimits 1 (shown (register [.starts, .ends] 0)) 30
      (registerDriver [.starts, .ends] fun _ => 2) 0 (.initial Unit) =
        (.returned { Run.start with started := true }, 3, .initial Unit) :=
    rfl
  exact awaitMotion_done watched (Nat.zero_le 2) fresh result rfl

/-- As many operations as there are ids but one, and then an upload. -/
def lastId : List Change :=
  (List.replicate 127 [Change.starts, .ends]).flatten ++ [.uploads]

/-- The upload's reset, seen after the wait for it has given up, is taken for
the end of the operation that was just issued. -/
theorem reset_taken_for_end :
    Watched lastId 255 (fun _ => 255) (registerDriver lastId fun _ => 255) ∧
      (awaitMotion someLimits 1 (shown (register lastId 254)) 30
        (registerDriver lastId fun _ => 255) 0 (.initial Unit)).1 =
          .returned { Run.start with started := true } ∧
      ¬Finished lastId 255 255 := by
  have written : lastId.length = 255 := by decide +kernel
  have single : ∀ count < 255,
      lastId[count]? = some .starts → (register lastId count).2 = false := by
    decide +kernel
  refine ⟨⟨fun count starts => ?_, ?_, fun _ _ _ => le_rfl, fun _ => written.ge,
    fun _ _ replied => (Except.ok.inj replied).symm⟩, by decide +kernel,
    fun finished => lt_irrefl _ finished.1⟩
  · by_cases early : count < 255
    · exact single count early starts
    · rw [List.getElem?_eq_none (by omega)] at starts
      cases starts
  · rw [List.getElem?_eq_none (by omega)]
    exact fun _ member => nomatch member

end PiEmbodied.Services.Ur5e
