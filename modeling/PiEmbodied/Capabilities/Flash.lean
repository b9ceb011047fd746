import Mathlib.Data.List.Basic
import Mathlib.Algebra.Order.Ring.Int

/-!
# Flash

The walk over a recorded plan: a robot's hooks rewrite each planned call, the
calls run, and a pick that does not take hold is retried after its approach or
has its carry skipped.  What the hooks and the replies do is left open; the
walk keeps what it sent, entry by entry.
-/

namespace PiEmbodied.Flash

structure FlashCall (α : Type) where
  name : String
  arguments : α
  deriving DecidableEq

/-- A planned call, with whatever else a robot's plans carry. -/
structure FlashEntry (ε : Type) where
  action : String
  more : ε
  deriving DecidableEq

structure FlashPicks (ρ : Type) where
  isPick : String → Bool
  succeeded : ρ → Bool
  attempts : ℤ
  approach : List String
  keep : ℤ
  boundary : List String
  release : String

inductive Rewritten (α : Type) where
  | one (call : FlashCall α)
  | several (calls : List (FlashCall α))
  | skip
  | stop
  deriving DecidableEq

/-- A call sent, the latest reply it was sent over, and its own, none when the
call failed. -/
structure Send (ρ α : Type) where
  call : FlashCall α
  before : ρ
  reply : Option ρ
  deriving DecidableEq

/-- A retry: the approach sent again, and the pick unless the approach
failed. -/
structure Retry (ρ α : Type) where
  approach : List (Send ρ α)
  pick : Option (Send ρ α)
  deriving DecidableEq

structure Turn (ρ α : Type) where
  first : Send ρ α
  retries : List (Retry ρ α)
  deriving DecidableEq

/-- An entry passed over with the carry of a pick, or one the hook was asked
about. -/
inductive Visit (ρ α ε : Type) where
  | carried (entry : FlashEntry ε)
  | asked (entry : FlashEntry ε) (rewritten : Option (Rewritten α))
      (turns : List (Turn ρ α))
  deriving DecidableEq

variable {ρ α ε : Type}

/-! ## The walk -/

/-- `items.slice(start)` -/
def slice {β : Type} (items : List β) (start : ℤ) : List β :=
  items.drop
    (if start < 0 then (items.length + start).toNat else start.toNat)

def isPick (picks : Option (FlashPicks ρ)) (name : String) : Bool :=
  picks.any (·.isPick name)

def Rewritten.calls : Rewritten α → List (FlashCall α)
  | .one call => [call]
  | .several calls => calls
  | .skip | .stop => []

/-- The variables of `runFlash`, with the robot's latest reply and notes. -/
structure Run (ρ α : Type) where
  latest : ρ
  recent : List (FlashCall α)
  skipCarry : Bool
  notes : List String
  deriving DecidableEq

section Walk

variable (ended : ρ → Bool) (picks : Option (FlashPicks ρ))

/-- `for (const again of recent) await robot.move(again)`, from a latest reply
to the one it leaves, if no call fails. -/
inductive Resent :
    List (FlashCall α) → ρ → List (Send ρ α) → Option ρ → Prop where
  | done (latest) : Resent [] latest [] (some latest)
  | failed (again recent latest) :
      Resent (again :: recent) latest [⟨again, latest, none⟩] none
  | sent {again recent latest reply sends left}
      (rest : Resent recent reply sends left) :
      Resent (again :: recent) latest (⟨again, latest, some reply⟩ :: sends) left

/-- At most so many more attempts at a pick that failed. -/
inductive Attempts (rules : FlashPicks ρ) (recent : List (FlashCall α)) (call : FlashCall α) :
    ℕ → ρ → List (Retry ρ α) → Option ρ → Prop where
  | spent (latest) : Attempts rules recent call 0 latest [] (some latest)
  | ended {more latest} (ended : ended latest = true) :
      Attempts rules recent call (more + 1) latest [] (some latest)
  | unready {more latest approach} (start : ended latest = false)
      (resent : Resent recent latest approach none) :
      Attempts rules recent call (more + 1) latest [⟨approach, none⟩] none
  | failed {more latest approach ready} (start : ended latest = false)
      (resent : Resent recent latest approach (some ready)) :
      Attempts rules recent call (more + 1) latest [⟨approach, some ⟨call, ready, none⟩⟩] none
  | took {more latest approach ready reply} (start : ended latest = false)
      (resent : Resent recent latest approach (some ready))
      (took : rules.succeeded reply = true) :
      Attempts rules recent call (more + 1) latest
        [⟨approach, some ⟨call, ready, some reply⟩⟩] (some reply)
  | missed {more latest approach ready reply retries left}
      (start : ended latest = false)
      (resent : Resent recent latest approach (some ready))
      (missed : rules.succeeded reply = false)
      (rest : Attempts rules recent call more reply retries left) :
      Attempts rules recent call (more + 1) latest
        (⟨approach, some ⟨call, ready, some reply⟩⟩ :: retries) left

/-- What the pick's last reply leaves. -/
def settle (rules : FlashPicks ρ) (run : Run ρ α) (reply : ρ) : Run ρ α :=
  if rules.succeeded reply then { run with latest := reply }
  else
    { run with
      latest := reply
      notes := run.notes ++ ["pick unconfirmed, skipping its carry"]
      skipCarry := true }

/-- What follows a call's first reply. -/
inductive Judged (run : Run ρ α) (call : FlashCall α) (reply : ρ) :
    List (Retry ρ α) → Option (Run ρ α) → Prop where
  | fine
      (fine : ∀ rules ∈ picks, rules.isPick call.name = true → rules.succeeded reply = true) :
      Judged run call reply [] (some { run with latest := reply })
  | retried {rules retries left} (known : picks = some rules)
      (pick : rules.isPick call.name = true)
      (missed : rules.succeeded reply = false)
      (tried : Attempts ended rules run.recent call (rules.attempts - 1).toNat reply retries left) :
      Judged run call reply retries (left.map (settle rules run))

/-- The approach calls kept after a call was sent. -/
def keepRecent (recent : List (FlashCall α)) (call : FlashCall α) : List (FlashCall α) :=
  match picks with
  | none => recent
  | some picks =>
    if picks.isPick call.name || picks.boundary.contains call.name then []
    else if picks.approach.contains call.name then
      slice (recent ++ [call]) (-picks.keep)
    else recent

/-- A call of an entry, its retries and the hook after them, which may move the
robot itself.  A failed call or a hook that throws ends the replay. -/
inductive Sent (run : Run ρ α) (call : FlashCall α) :
    Turn ρ α → Option (Run ρ α) → Prop where
  | failed : Sent run call ⟨⟨call, run.latest, none⟩, []⟩ none
  | broke {reply retries left}
      (judged : Judged ended picks run call reply retries left) :
      Sent run call ⟨⟨call, run.latest, some reply⟩, retries⟩ none
  | done {reply retries next} (latest : ρ)
      (judged : Judged ended picks run call reply retries (some next)) :
      Sent run call ⟨⟨call, run.latest, some reply⟩, retries⟩
        (some { next with latest, recent := keepRecent picks next.recent call })

inductive SentAll :
    List (FlashCall α) → Run ρ α → List (Turn ρ α) → Option (Run ρ α) → Prop where
  | done (run) : SentAll [] run [] (some run)
  | ended {call calls run} (ended : ended run.latest = true) :
      SentAll (call :: calls) run [] (some run)
  | broke {call calls run turn} (start : ended run.latest = false)
      (sent : Sent ended picks run call turn none) :
      SentAll (call :: calls) run [turn] none
  | sent {call calls run turn next turns left}
      (start : ended run.latest = false)
      (sent : Sent ended picks run call turn (some next))
      (rest : SentAll calls next turns left) :
      SentAll (call :: calls) run (turn :: turns) left

/-- Whether an entry is passed over: what the run is after it. -/
def carry (run : Run ρ α) (entry : FlashEntry ε) : Option (Run ρ α) :=
  match run.skipCarry, picks with
  | true, some picks =>
    if entry.action = picks.release then
      some { run with skipCarry := false, recent := [] }
    else if picks.isPick entry.action then none
    else some run
  | _, _ => none

/-- The loop over the plan, from a run to the one it leaves, if nothing throws.
The hook that rewrites an entry may move the robot itself. -/
inductive Walked :
    List (FlashEntry ε) → Run ρ α → List (Visit ρ α ε) → Option (Run ρ α) → Prop where
  | done (run) : Walked [] run [] (some run)
  | ended {entry plan run} (ended : ended run.latest = true) :
      Walked (entry :: plan) run [] (some run)
  | carried {entry plan run next visits left}
      (start : ended run.latest = false)
      (passed : carry picks run entry = some next)
      (rest : Walked plan next visits left) :
      Walked (entry :: plan) run (.carried entry :: visits) left
  | threw {entry plan run} (start : ended run.latest = false)
      (kept : carry picks run entry = none) :
      Walked (entry :: plan) run [.asked entry none []] none
  | stopped {entry plan run} (latest : ρ) (start : ended run.latest = false)
      (kept : carry picks run entry = none) :
      Walked (entry :: plan) run [.asked entry (some .stop) []]
        (some { run with latest, skipCarry := false })
  | broke {entry plan run rewritten turns} (latest : ρ)
      (start : ended run.latest = false)
      (kept : carry picks run entry = none)
      (sent : SentAll ended picks rewritten.calls
        { run with latest, skipCarry := false } turns none) :
      Walked (entry :: plan) run [.asked entry (some rewritten) turns] none
  | asked {entry plan run rewritten turns next visits left} (latest : ρ)
      (start : ended run.latest = false)
      (kept : carry picks run entry = none)
      (goes : rewritten ≠ .stop)
      (sent : SentAll ended picks rewritten.calls
        { run with latest, skipCarry := false } turns (some next))
      (rest : Walked plan next visits left) :
      Walked (entry :: plan) run (.asked entry (some rewritten) turns :: visits) left

/-- The replay after the hook's `start` left the robot with a latest reply. -/
def RunFlash (latest : ρ) (plan : List (FlashEntry ε))
    (visits : List (Visit ρ α ε)) (left : Option (Run ρ α)) : Prop :=
  Walked ended picks plan ⟨latest, [], false, []⟩ visits left

/-- What `runFlash` returns. -/
def result (solved : ρ → Bool) (localized : ℕ)
    (plan : List (FlashEntry ε)) (left : Run ρ α) : Bool × ℕ × ℕ :=
  (solved left.latest, localized, plan.length)

end Walk

/-! ## What the log says -/

def Turn.call (turn : Turn ρ α) : FlashCall α :=
  turn.first.call

def Retry.sends (retry : Retry ρ α) : List (Send ρ α) :=
  retry.approach ++ retry.pick.toList

def Turn.sends (turn : Turn ρ α) : List (Send ρ α) :=
  turn.first :: turn.retries.flatMap Retry.sends

def Visit.entry : Visit ρ α ε → FlashEntry ε
  | .carried entry | .asked entry _ _ => entry

def Visit.turns : Visit ρ α ε → List (Turn ρ α)
  | .carried _ => []
  | .asked _ _ turns => turns

/-- The calls the hook gave for an entry. -/
def Visit.calls : Visit ρ α ε → List (FlashCall α)
  | .asked _ (some rewritten) _ => rewritten.calls
  | _ => []

def Visit.stops : Visit ρ α ε → Bool
  | .asked _ (some .stop) _ => true
  | _ => false

/-- The replies to a planned call and its repetitions. -/
def Turn.replies (turn : Turn ρ α) : List ρ :=
  turn.first.reply.toList ++
    turn.retries.flatMap fun retry => retry.pick.toList.flatMap fun send => send.reply.toList

section Spec

variable (ended : ρ → Bool) (picks : Option (FlashPicks ρ))

/-- A pick none of whose replies succeeded. -/
def Turn.missed (turn : Turn ρ α) : Bool :=
  picks.any fun picks => picks.isPick turn.call.name && !turn.replies.any picks.succeeded

/-- The last approach calls since the last pick or boundary. -/
def approachOf (picks : FlashPicks ρ) (sent : List (FlashCall α)) : List (FlashCall α) :=
  (((sent.reverse.takeWhile fun call =>
      !(picks.isPick call.name || picks.boundary.contains call.name)).filter
    fun call => picks.approach.contains call.name).take picks.keep.toNat).reverse

/-- A planned call and its retries, after the planned calls sent before. -/
structure Turn.Safe (sent : List (FlashCall α)) (turn : Turn ρ α) :
    Prop where
  ongoing : ∀ send ∈ turn.sends, ended send.before = false
  plain : isPick picks turn.call.name = false → turn.retries = []
  bounded : ∀ rules ∈ picks, rules.isPick turn.call.name →
    ((turn.retries.length + 1 : ℕ) : ℤ) ≤ rules.attempts
  approached : ∀ rules ∈ picks, ∀ retry ∈ turn.retries,
    retry.approach.map Send.call <+: approachOf rules sent
  again : ∀ rules ∈ picks, ∀ retry ∈ turn.retries, ∀ send ∈ retry.pick,
    send.call = turn.call ∧ retry.approach.map Send.call = approachOf rules sent

/-- The settings and replies a turn's safety rests on: no reply to an approach
sent again ends the episode. -/
structure Turn.Calm (turn : Turn ρ α) : Prop where
  attempts : ∀ rules ∈ picks, rules.isPick turn.call.name → 1 ≤ rules.attempts
  keep : ∀ rules ∈ picks, ∀ retry ∈ turn.retries, retry.approach ≠ [] → 1 ≤ rules.keep
  ongoing : ∀ retry ∈ turn.retries, ∀ send ∈ retry.approach,
    ∀ reply ∈ send.reply, ended reply = false

/-- Besides, no call of the same entry follows a pick that fails. -/
structure Visit.Calm (visit : Visit ρ α ε) : Prop where
  turns : ∀ turn ∈ visit.turns, turn.Calm ended picks
  last : ∀ before turn later,
    visit.turns = before ++ turn :: later → turn.missed picks = true → later = []

/-- An entry that ends a failed pick's carry. -/
def ends (entry : FlashEntry ε) : Prop :=
  ∃ rules ∈ picks, rules.isPick entry.action = true ∨ entry.action = rules.release

def AllSafe : List (FlashCall α) → List (Turn ρ α) → Prop
  | _, [] => True
  | sent, turn :: turns => turn.Safe ended picks sent ∧ AllSafe (sent ++ [turn.call]) turns

/-- Entries are passed over after a failed pick, up to the one that ends its
carry, and no others. -/
def Carries : Bool → List (Visit ρ α ε) → Prop
  | _, [] => True
  | pending, .carried entry :: visits =>
    pending = true ∧
      ((ends picks entry ∧ Carries false visits) ∨ (¬ ends picks entry ∧ Carries true visits))
  | pending, .asked entry _ turns :: visits =>
    (pending = true → ∀ rules ∈ picks, rules.isPick entry.action = true) ∧
      Carries (turns.any (Turn.missed picks)) visits

/-- A replay that keeps its retries and skips safe. -/
structure Safe (plan : List (FlashEntry ε)) (visits : List (Visit ρ α ε))
    (left : Option (Run ρ α)) : Prop where
  turns : AllSafe ended picks [] (visits.flatMap Visit.turns)
  carry : Carries picks false visits
  last : ∀ visit ∈ visits, ∀ before turn later,
    visit.turns = before ++ turn :: later → turn.missed picks = true → later = []
  planned : visits.map Visit.entry <+: plan
  sent : ∀ before visit later, visits = before ++ visit :: later →
    visit.turns.map Turn.call <+: visit.calls ∧
      (later ≠ [] → visit.turns.map Turn.call = visit.calls)
  whole : ∀ run ∈ left, ended run.latest = false →
    (∀ visit ∈ visits, visit.stops = false) →
      visits.map Visit.entry = plan ∧ ∀ visit ∈ visits, visit.turns.map Turn.call = visit.calls

end Spec

/-! ## Retries -/

section Retries

variable {ended : ρ → Bool} {picks : Option (FlashPicks ρ)}
  {recent : List (FlashCall α)} {latest : ρ} {left : Option ρ}

/-- The approach is sent again in order, wholly unless a call fails. -/
theorem Resent.calls {sends : List (Send ρ α)} (resent : Resent recent latest sends left) :
    sends.map Send.call <+: recent ∧ (left.isSome → sends.map Send.call = recent) := by
  induction resent with
  | done | failed => simp
  | sent _ ih => simpa using ih

/-- Where no reply of it ends the episode, the approach is sent over replies
that do not, and leaves one. -/
theorem Resent.ongoing {sends : List (Send ρ α)} (resent : Resent recent latest sends left)
    (start : ended latest = false)
    (calm : ∀ send ∈ sends, ∀ reply ∈ send.reply, ended reply = false) :
    (∀ send ∈ sends, ended send.before = false) ∧ ∀ ready ∈ left, ended ready = false := by
  induction resent with
  | done | failed => simpa using start
  | sent _ ih =>
    simp only [List.mem_cons, forall_eq_or_imp] at calm ⊢
    obtain ⟨rest, last⟩ := ih (calm.1 _ rfl) calm.2
    exact ⟨⟨start, rest⟩, last⟩

section Attempts

variable {rules : FlashPicks ρ} {recent : List (FlashCall α)}
  {call : FlashCall α} {more : ℕ} {latest : ρ} {retries : List (Retry ρ α)} {left : Option ρ}

/-- What every retry is, whatever the replies. -/
theorem Attempts.shape (tried : Attempts ended rules recent call more latest retries left) :
    retries.length ≤ more ∧
      ∀ retry ∈ retries,
        retry.approach.map Send.call <+: recent ∧
          ∀ send ∈ retry.pick, send.call = call ∧ retry.approach.map Send.call = recent := by
  induction tried with
  | spent | ended => simp
  | unready _ resent => simp [resent.calls.1]
  | failed _ resent | took _ resent => simp [resent.calls.2 rfl]
  | missed _ resent _ _ ih =>
    obtain ⟨bound, rest⟩ := ih
    exact ⟨Nat.succ_le_succ bound, List.forall_mem_cons.mpr ⟨by simp [resent.calls.2 rfl], rest⟩⟩

theorem Attempts.ongoing (tried : Attempts ended rules recent call more latest retries left)
    (calm : ∀ retry ∈ retries, ∀ send ∈ retry.approach, ∀ reply ∈ send.reply, ended reply = false) :
    ∀ send ∈ retries.flatMap Retry.sends, ended send.before = false := by
  have each {latest ready : ρ} {approach : List (Send ρ α)}
      {reply : Option ρ} (start : ended latest = false)
      (resent : Resent recent latest approach (some ready))
      (calm : ∀ send ∈ approach, ∀ reply ∈ send.reply, ended reply = false) :
      ∀ send ∈ Retry.sends ⟨approach, some ⟨call, ready, reply⟩⟩, ended send.before = false := by
    have going := resent.ongoing start calm
    simpa [Retry.sends, or_imp, forall_and] using going
  induction tried with
  | spent | ended => simp
  | unready start resent => simpa [Retry.sends] using (resent.ongoing start (by simpa using calm)).1
  | failed start resent | took start resent => simpa using each start resent (by simpa using calm)
  | missed start resent _ _ ih =>
    simp only [List.mem_cons, forall_eq_or_imp] at calm
    simp only [List.flatMap_cons, List.mem_append, or_imp, forall_and]
    exact ⟨each start resent calm.1, ih calm.2⟩

theorem Attempts.succeeded {reply : ρ}
    (tried : Attempts ended rules recent call more latest retries (some reply))
    (failed : rules.succeeded latest = false) :
    (retries.flatMap fun retry => retry.pick.toList.flatMap fun send =>
      send.reply.toList).any rules.succeeded = rules.succeeded reply := by
  generalize known : some reply = left at tried
  induction tried with
  | spent | ended =>
    cases known
    simp [failed]
  | unready | failed => cases known
  | took _ _ took =>
    cases known
    simp [took]
  | missed _ _ missed _ ih => simpa [missed] using ih missed known

end Attempts

/-! ## Turns -/

theorem Sent.next {run next : Run ρ α} {call : FlashCall α} {turn : Turn ρ α}
    (sent : Sent ended picks run call turn (some next)) :
    next.recent = keepRecent picks run.recent call ∧
      next.skipCarry = (run.skipCarry || turn.missed picks) := by
  cases sent with
  | done latest judged =>
    rename_i reply retries judgedRun
    generalize known : some judgedRun = left at judged
    cases judged with
    | fine fine =>
      cases known
      have took : Turn.missed picks ⟨⟨call, run.latest, some reply⟩, []⟩ = false := by
        rcases picks with _ | rules
        · rfl
        · simpa [Turn.missed, Turn.call, Turn.replies] using fine
      simp [took]
    | retried same pick missed tried =>
      subst same
      obtain ⟨last, rfl, rfl⟩ := Option.map_eq_some_iff.mp known.symm
      rename_i rules
      have found : Turn.missed (some rules)
          ⟨⟨call, run.latest, some reply⟩, retries⟩ = !rules.succeeded last := by
        simp [Turn.missed, Turn.call, Turn.replies, pick, missed,
          ← tried.succeeded missed, List.any_flatMap]
      rw [found, settle]
      split <;> simp_all

variable {run : Run ρ α} {left : Option (Run ρ α)} {turn : Turn ρ α}

theorem Sent.call {call : FlashCall α} (sent : Sent ended picks run call turn left) :
    turn.call = call := by
  cases sent <;> rfl

theorem Judged.safe {call : FlashCall α} {reply : ρ} {sent : List (FlashCall α)}
    {retries : List (Retry ρ α)} (judged : Judged ended picks run call reply retries left)
    (start : ended run.latest = false)
    (calm : Turn.Calm ended picks ⟨⟨call, run.latest, some reply⟩, retries⟩)
    (recents : ∀ rules ∈ picks, 1 ≤ rules.keep → run.recent = approachOf rules sent) :
    Turn.Safe ended picks sent ⟨⟨call, run.latest, some reply⟩, retries⟩ := by
  cases judged with
  | fine =>
    exact
      { ongoing := by simpa [Turn.sends] using start
        plain := fun _ => rfl
        bounded := by simpa using calm.attempts
        approached := by simp
        again := by simp }
  | retried known pick missed tried =>
    subst known
    rename_i rules _
    obtain ⟨length, shape⟩ := tried.shape
    -- With nothing to keep, a calm turn has sent no approach again.
    have recent : ∀ retry ∈ retries,
        retry.approach.map Send.call <+: approachOf rules sent ∧
          ∀ send ∈ retry.pick, send.call = call ∧
            retry.approach.map Send.call = approachOf rules sent := by
      intro retry member
      by_cases keep : 1 ≤ rules.keep
      · rw [← recents rules rfl keep]
        exact shape retry member
      · have empty : retry.approach = [] := by
          by_contra some
          exact keep (calm.keep rules rfl retry member some)
        have zero : rules.keep.toNat = 0 := by omega
        have nothing : approachOf rules sent = [] := by simp [approachOf, zero]
        rw [empty, nothing]
        exact ⟨List.prefix_refl _, fun send pick => ⟨((shape retry member).2 send pick).1, rfl⟩⟩
    exact
      { ongoing := by
          simp only [Turn.sends, List.mem_cons, forall_eq_or_imp]
          exact ⟨start, tried.ongoing calm.ongoing⟩
        plain := by simp [isPick, Turn.call, pick]
        bounded := by
          have enough := calm.attempts rules rfl pick
          simp only [Option.mem_def, Option.some.injEq, forall_eq', Turn.call]
          omega
        approached := by simpa using fun retry member => (recent retry member).1
        again := by simpa [Turn.call] using fun retry member => (recent retry member).2 }

variable {before : List (FlashCall α)}

theorem Sent.safe {call : FlashCall α} {turn : Turn ρ α} {before : List (FlashCall α)}
    (sent : Sent ended picks run call turn left)
    (start : ended run.latest = false) (calm : turn.Calm ended picks)
    (recents : ∀ rules ∈ picks, 1 ≤ rules.keep → run.recent = approachOf rules before) :
    turn.Safe ended picks before := by
  cases sent with
  | failed =>
    exact
      { ongoing := by simpa [Turn.sends] using start
        plain := fun _ => rfl
        bounded := by simpa using calm.attempts
        approached := by simp
        again := by simp }
  | broke judged | done _ judged => exact judged.safe start calm recents

theorem slice_reverse {β : Type} (items : List β) {keep : ℤ} (positive : 1 ≤ keep) :
    (slice items (-keep)).reverse = items.reverse.take keep.toNat := by
  have start : (items.length + -keep).toNat = items.length - keep.toNat := by omega
  rw [slice, if_pos (by omega), start, List.take_reverse]

theorem keepRecent_approachOf {rules : FlashPicks ρ} {sent : List (FlashCall α)}
    (positive : 1 ≤ rules.keep) (call : FlashCall α) :
    keepRecent (some rules) (approachOf rules sent) call = approachOf rules (sent ++ [call]) := by
  obtain ⟨more, size⟩ : ∃ more, rules.keep.toNat = more + 1 :=
    ⟨rules.keep.toNat - 1, by omega⟩
  have last : approachOf rules (sent ++ [call]) =
      (((if !(rules.isPick call.name || rules.boundary.contains call.name)
        then call :: sent.reverse.takeWhile fun call =>
          !(rules.isPick call.name || rules.boundary.contains call.name)
        else []).filter fun call => rules.approach.contains call.name).take
          (more + 1)).reverse := by
    simp only [approachOf, List.reverse_append, List.reverse_singleton,
      List.singleton_append, List.takeWhile_cons, size]
  rw [last]
  simp only [keepRecent]
  split
  · rename_i fresh
    rw [fresh]
    rfl
  rename_i goes
  rw [Bool.not_eq_true] at goes
  rw [goes, Bool.not_false, if_pos rfl]
  split
  · rename_i approach
    rw [← List.reverse_inj, slice_reverse _ positive, List.filter_cons,
      if_pos approach]
    simp [approachOf, size, List.take_take]
  · rename_i other
    rw [List.filter_cons, if_neg other, approachOf, size]

/-! ## Entries -/

theorem AllSafe.append {sent : List (FlashCall α)} {first second : List (Turn ρ α)}
    (safe : AllSafe ended picks sent first)
    (rest : AllSafe ended picks (sent ++ first.map Turn.call) second) :
    AllSafe ended picks sent (first ++ second) := by
  induction first generalizing sent with
  | nil => simpa using rest
  | cons turn turns ih => exact ⟨safe.1, ih safe.2 (by simpa using rest)⟩

/-- What the calls of one entry leave. -/
theorem SentAll.next {calls : List (FlashCall α)} {run : Run ρ α} {turns : List (Turn ρ α)}
    {left : Option (Run ρ α)} (sent : SentAll ended picks calls run turns left) :
    turns.map Turn.call <+: calls ∧
      ∀ next ∈ left, (ended next.latest = false → turns.map Turn.call = calls) ∧
        next.skipCarry = (run.skipCarry || turns.any (Turn.missed picks)) := by
  induction sent with
  | done => simp
  | ended ended => simp [ended]
  | broke _ sent => simp [sent.call]
  | sent _ sent _ ih =>
    obtain ⟨order, rest⟩ := ih
    refine ⟨by simpa [sent.call] using order, fun next member => ?_⟩
    obtain ⟨whole, carries⟩ := rest next member
    refine ⟨fun going => by simp [sent.call, whole going], ?_⟩
    rw [carries, sent.next.2, List.any_cons, Bool.or_assoc]

theorem SentAll.safe {calls before : List (FlashCall α)} {turns : List (Turn ρ α)}
    (sent : SentAll ended picks calls run turns left) (calm : ∀ turn ∈ turns, turn.Calm ended picks)
    (recents : ∀ rules ∈ picks, 1 ≤ rules.keep → run.recent = approachOf rules before) :
    AllSafe ended picks before turns ∧
      ∀ next ∈ left, ∀ rules ∈ picks, 1 ≤ rules.keep →
        next.recent = approachOf rules (before ++ turns.map Turn.call) := by
  induction sent generalizing before with
  | done | ended => simpa [AllSafe] using recents
  | broke start sent => exact ⟨⟨sent.safe start (by simpa using calm) recents, trivial⟩, by simp⟩
  | @sent _ _ _ turn next _ _ start sent _ ih =>
    simp only [List.mem_cons, forall_eq_or_imp] at calm
    have kept : ∀ rules ∈ picks, 1 ≤ rules.keep →
        next.recent = approachOf rules (before ++ [turn.call]) := by
      rintro rules rfl keep
      rw [sent.next.1, recents rules rfl keep, keepRecent_approachOf keep, sent.call]
    obtain ⟨safe, rest⟩ := ih calm.2 kept
    exact ⟨⟨sent.safe start calm.1 recents, safe⟩, by simpa using rest⟩

theorem of_carry {next : Run ρ α} {entry : FlashEntry ε}
    (passed : carry picks run entry = some next) :
    run.skipCarry = true ∧
      ((ends picks entry ∧ next.skipCarry = false ∧ next.recent = []) ∨
        (¬ ends picks entry ∧ next = run)) := by
  simp only [carry] at passed
  split at passed
  · rename_i rules skips
    refine ⟨skips, ?_⟩
    split at passed
    · rename_i release
      cases passed
      exact .inl ⟨⟨rules, rfl, .inr release⟩, rfl, rfl⟩
    · rename_i other
      split at passed
      · cases passed
      · rename_i plain
        cases passed
        exact .inr ⟨by simp [ends, plain, other], rfl⟩
  · cases passed

theorem of_carry_none {entry : FlashEntry ε} (kept : carry picks run entry = none)
    (skips : run.skipCarry = true) : ∀ rules ∈ picks, rules.isPick entry.action = true := by
  rintro rules rfl
  simp only [carry, skips] at kept
  split at kept
  · cases kept
  · split at kept
    · assumption
    · cases kept

section Walks

variable {plan : List (FlashEntry ε)} {run : Run ρ α}
  {visits : List (Visit ρ α ε)} {left : Option (Run ρ α)}

theorem Walked.planned (walk : Walked ended picks plan run visits left) :
    visits.map Visit.entry <+: plan := by
  induction walk with
  | done | ended => simp
  | carried _ _ _ ih | asked _ _ _ _ _ _ ih => simpa [Visit.entry] using ih
  | threw | stopped | broke => simp [Visit.entry]

theorem of_single {only visit : Visit ρ α ε} {before later : List (Visit ρ α ε)}
    (split : [only] = before ++ visit :: later) : visit = only ∧ later = [] := by
  rcases List.cons_eq_append_iff.mp split with ⟨-, same⟩ | ⟨more, -, same⟩
  · exact List.cons_eq_cons.mp same
  · simp at same

theorem Walked.going (walk : Walked ended picks plan run visits left)
    (more : visits ≠ [] ∨ ∀ final ∈ left, ended final.latest = false) :
    ended run.latest = false := by
  cases walk with
  | done | ended => simpa using more
  | carried start | threw start | stopped _ start | broke _ start
  | asked _ start => exact start

theorem Walked.sent (walk : Walked ended picks plan run visits left)
    {before later : List (Visit ρ α ε)} {visit : Visit ρ α ε}
    (split : visits = before ++ visit :: later) :
    visit.turns.map Turn.call <+: visit.calls ∧
      (later ≠ [] → visit.turns.map Turn.call = visit.calls) := by
  induction walk generalizing before with
  | done | ended => simp at split
  | carried _ _ _ ih =>
    rcases List.cons_eq_append_iff.mp split with ⟨rfl, same⟩ | ⟨more, rfl, same⟩
    · cases same
      simp [Visit.turns, Visit.calls]
    · exact ih same
  | threw | stopped =>
    obtain ⟨rfl, rfl⟩ := of_single split
    simp [Visit.turns, Visit.calls]
  | broke _ _ _ sent =>
    obtain ⟨rfl, rfl⟩ := of_single split
    exact ⟨sent.next.1, fun more => absurd rfl more⟩
  | asked _ _ _ _ sent rest ih =>
    rcases List.cons_eq_append_iff.mp split with ⟨rfl, same⟩ | ⟨more, rfl, same⟩
    · cases same
      obtain ⟨order, after⟩ := sent.next
      exact ⟨order, fun more => (after _ rfl).1 (rest.going (.inl more))⟩
    · exact ih same

theorem Walked.whole (walk : Walked ended picks plan run visits left) (isSome : left.isSome = true)
    (going : ∀ final ∈ left, ended final.latest = false)
    (goes : ∀ visit ∈ visits, visit.stops = false) :
    visits.map Visit.entry = plan ∧ ∀ visit ∈ visits, visit.turns.map Turn.call = visit.calls := by
  induction walk with
  | done => simp
  | ended ended => simp [ended] at going
  | threw | broke => cases isSome
  | stopped => simp [Visit.stops] at goes
  | carried _ _ _ ih =>
    obtain ⟨entries, calls⟩ := ih isSome going (List.forall_mem_cons.mp goes).2
    exact ⟨by simp [Visit.entry, entries], List.forall_mem_cons.mpr ⟨rfl, calls⟩⟩
  | asked _ _ _ _ sent rest ih =>
    obtain ⟨entries, calls⟩ := ih isSome going (List.forall_mem_cons.mp goes).2
    exact ⟨by simp [Visit.entry, entries], List.forall_mem_cons.mpr
      ⟨(sent.next.2 _ rfl).1 (rest.going (.inr going)), calls⟩⟩

theorem approachOf_missed {rules : FlashPicks ρ} {sent : List (FlashCall α)}
    {turns : List (Turn ρ α)}
    (last : ∀ before turn later, turns = before ++ turn :: later →
      turn.missed (some rules) = true → later = [])
    (missed : turns.any (Turn.missed (some rules)) = true) :
    approachOf rules (sent ++ turns.map Turn.call) = [] := by
  obtain ⟨turn, member, failed⟩ := List.any_eq_true.mp missed
  obtain ⟨before, later, rfl⟩ := List.append_of_mem member
  obtain rfl := last before turn later rfl failed
  have pick : rules.isPick turn.call.name = true := by
    simp only [Turn.missed, Option.any_some, Bool.and_eq_true] at failed
    exact failed.1
  simp [approachOf, pick]

theorem Walked.safe (walk : Walked ended picks plan run visits left) {before : List (FlashCall α)}
    (calm : ∀ visit ∈ visits, visit.Calm ended picks)
    (recents : ∀ rules ∈ picks, 1 ≤ rules.keep → run.recent = approachOf rules before)
    (clear : run.skipCarry = true → ∀ rules ∈ picks, approachOf rules before = []) :
    AllSafe ended picks before (visits.flatMap Visit.turns) := by
  induction walk generalizing before with
  | done | ended | threw | stopped => trivial
  | carried _ passed _ ih =>
    simp only [List.mem_cons, forall_eq_or_imp] at calm
    obtain ⟨skips, ⟨-, off, empty⟩ | ⟨-, rfl⟩⟩ := of_carry passed
    · refine ih calm.2 (fun rules known _ => ?_) (by simp [off])
      rw [empty, clear skips rules known]
    · exact ih calm.2 recents clear
  | broke _ _ _ sent =>
    simp only [List.mem_singleton, forall_eq] at calm
    simpa [Visit.turns] using (sent.safe calm.turns recents).1
  | asked _ _ _ _ sent _ ih =>
    simp only [List.mem_cons, forall_eq_or_imp] at calm
    obtain ⟨safe, recent⟩ := sent.safe calm.1.turns recents
    rw [List.flatMap_cons]
    refine safe.append (ih calm.2 (recent _ rfl) ?_)
    rintro skips rules rfl
    rw [(sent.next.2 _ rfl).2, Bool.false_or] at skips
    exact approachOf_missed calm.1.last skips

theorem Walked.carries (walk : Walked ended picks plan run visits left) :
    Carries picks run.skipCarry visits := by
  induction walk with
  | done | ended => trivial
  | carried _ passed _ ih =>
    obtain ⟨skips, ⟨ends, off, -⟩ | ⟨goes, rfl⟩⟩ := of_carry passed
    · exact ⟨skips, .inl ⟨ends, off ▸ ih⟩⟩
    · exact ⟨skips, .inr ⟨goes, skips ▸ ih⟩⟩
  | threw _ kept | stopped _ _ kept | broke _ _ kept => exact ⟨of_carry_none kept, trivial⟩
  | asked _ _ kept _ sent _ ih =>
    refine ⟨of_carry_none kept, ?_⟩
    rwa [(sent.next.2 _ rfl).2, Bool.false_or] at ih

end Walks

end Retries

/-! ## The whole replay -/

/-- The picks of a toy robot whose replies say whether the episode is done and
whether it holds something. -/
def toyPicks : FlashPicks (Bool × Bool) where
  isPick := (· = "grab")
  succeeded := Prod.snd
  attempts := 3
  approach := ["go"]
  keep := 2
  boundary := ["drop"]
  release := "drop"

def toyCall (name : String) : FlashCall Unit := ⟨name, ()⟩

def toyPlan : List (FlashEntry Unit) := [⟨"go", ()⟩, ⟨"grab", ()⟩]

/-- A grab fails and holds once retried, after the approach was answered so. -/
def toyVisits (ready : Bool × Bool) : List (Visit (Bool × Bool) Unit Unit) :=
  [.asked ⟨"go", ()⟩ (some (.one (toyCall "go")))
      [⟨⟨toyCall "go", (false, false), some (false, false)⟩, []⟩],
    .asked ⟨"grab", ()⟩ (some (.one (toyCall "grab")))
      [⟨⟨toyCall "grab", (false, false), some (false, false)⟩,
        [⟨[⟨toyCall "go", (false, false), some ready⟩],
          some ⟨toyCall "grab", ready, some (false, true)⟩⟩]⟩]]

theorem toy_ran (ready : Bool × Bool) :
    ∃ left, RunFlash Prod.fst (some toyPicks) (false, false) toyPlan (toyVisits ready) left := by
  have gone : Judged Prod.fst (some toyPicks)
      ⟨(false, false), [], false, []⟩ (toyCall "go") (false, false) [] _ :=
    .fine (by simp [toyPicks, toyCall])
  have tried : Attempts Prod.fst toyPicks [toyCall "go"] (toyCall "grab") 2
      (false, false) _ (some (false, true)) :=
    .took rfl (.sent (.done ready)) rfl
  have grabbed : Judged Prod.fst (some toyPicks)
      ⟨(false, false), [toyCall "go"], false, []⟩ (toyCall "grab")
      (false, false) _ _ :=
    .retried rfl rfl rfl tried
  exact ⟨_, .asked (false, false) rfl rfl nofun (.sent rfl (.done (false, false) gone) (.done _))
    (.asked (false, false) rfl rfl nofun
      (.sent rfl (.done (false, true) grabbed) (.done _)) (.done _))⟩

end PiEmbodied.Flash
