import PiEmbodied.Robot.Calls

/-!
# After the end

The gate admits a call before its body begins.  The agent's call may still wait
in the lock when the episode ends, and nothing asks again at its turn; an
operator's call is asked again.
-/

namespace PiEmbodied.Robot

namespace Session

variable {flags : Flags} (r : Session)

/-! ## Calls past their gate -/

def Kind.unasked : Kind → Bool
  | .agent _ | .observation => true
  | .operator _ | .startup => false

def waitsUnasked (l : Lock Kind) : Prop :=
  ∃ call ∈ l.calls, (call.phase = .waiting ∨ call.phase = .granted) ∧ Kind.unasked call.kind = true

def Pending (r : Session) : Prop :=
  (∃ name, Called.robot name ∈ r.admitted) ∨ r.units ≠ 0 ∨ waitsUnasked r.lock

variable {l : Lock Kind}

theorem waitsUnasked_setPhase {l : Lock Kind} {k : ℕ} {phase : Phase}
    (turns : phase = .granted → l.phaseAt k = some .waiting) (notWaiting : phase ≠ .waiting)
    (waits : waitsUnasked (l.setPhase k phase)) : waitsUnasked l := by
  obtain ⟨call, member, isPhase, unasked⟩ := waits
  obtain ⟨i, found⟩ := List.mem_iff_getElem?.mp member
  rw [Lock.setPhase, List.getElem?_modify] at found
  obtain ⟨old, isOld, rfl⟩ := Option.map_eq_some_iff.mp found
  have oldMember := List.mem_of_getElem? isOld
  by_cases here : k = i
  · subst here
    simp only [if_pos] at isPhase unasked
    rcases isPhase with isWaiting | granted
    · exact absurd isWaiting notWaiting
    · have waiting := turns granted
      rw [Lock.phaseAt, isOld] at waiting
      exact ⟨old, oldMember, .inl (Option.some.inj waiting), unasked⟩
  · simp only [if_neg here] at isPhase unasked
    exact ⟨old, oldMember, isPhase, unasked⟩

theorem Locks.waitsUnasked {t : Lock Kind} (locks : Locks l t) (waits : waitsUnasked t) :
    waitsUnasked l := by
  cases locks with
  | same => exact waits
  | turn k =>
    rw [Lock.turn] at waits
    split at waits
    · rename_i both
      exact waitsUnasked_setPhase (fun _ => both.1) (by decide) waits
    · exact waits
  | abort k | begin_ k | settle k =>
    simp only [Lock.abort, Lock.begin_, Lock.settle] at waits
    split at waits
    · exact waitsUnasked_setPhase (fun isGranted => by cases isGranted) (by decide) waits
    · exact waits

theorem waitsUnasked_arrive {kind : Kind} {aborted : Bool}
    (waits : waitsUnasked (l.arrive kind aborted)) : waitsUnasked l ∨ Kind.unasked kind = true := by
  obtain ⟨call, member, isPhase, unasked⟩ := waits
  rcases List.mem_append.mp member with old | new
  · exact .inl ⟨call, old, isPhase, unasked⟩
  · rw [List.mem_singleton.mp new] at unasked
    exact .inr unasked

/-- An event that sets `ended` or `broken`. -/
def Ends (flags : Flags) (r : Session) : Event → Prop
  | .timer | .serverExit _ | .oracleRan => True
  | .bodyEnd k unavailable => unavailable ≠ none ∧ r.lock.phaseAt k = some .running
  | .execute place _ => r.admitted[place]? = some .finish
  | .toolCall tool now => r.episode.exhausted flags now tool
  | .unitCall now _ => r.episode.exhausted flags now (.robot "act")
  | .operate name now refuses _ late _ =>
    r.episode.exhausted flags now (.robot name) ∨
      (refuses = false ∧ r.lock.robotCalls = 0 ∧ r.episode.exhausted flags late (.robot name))
  | .resume k now _ =>
    ∃ call name, r.lock.calls[k]? = some call ∧ call.phase = .granted ∧ call.kind = .operator name ∧
      r.episode.exhausted flags now (.robot name)
  | _ => False

/-- The verifier of an admitted `finish` lifts a gripper. -/
def Lifts (r : Session) : Event → Prop
  | .lift place => r.admitted[place]? = some .finish
  | _ => False

/-- The episode ends only while no call is past its gate with its body still to
begin, and no gripper is lifted after the end. -/
def EndsApart (flags : Flags) (r : Session) (event : Event) : Prop :=
  (r.episode.over = false → Ends flags r event → ¬Pending r) ∧
    (Lifts r event → r.episode.over = false)

/-- At most one result is written, and only after an end or at a shutdown. -/
structure Reports (r : Session) : Prop where
  unreported : r.episode.reported = false → r.results = []
  single : r.results.length ≤ 1
  ended : ∀ entry ∈ r.results, entry.ended = true ∨ entry.shutdown = true

theorem reports_report (reports : Reports r) (shutdown : Bool)
    (due : r.episode.ended = true ∨ shutdown = true) : Reports (r.report shutdown) := by
  rw [report]
  split
  · exact reports
  · rename_i written
    rw [not_or] at written
    have none_ := reports.unreported (Bool.eq_false_iff.mpr written.1)
    refine ⟨(fun unreported => by cases unreported), ?_, ?_⟩
    · rw [none_]
      exact Nat.le_refl 1
    · intro entry member
      rw [none_, List.nil_append] at member
      rw [List.mem_singleton.mp member]
      exact due

/-! ## What a step can do -/

/-- What the end, the calls past their gate, the bodies and the results of the
next state come from. -/
structure Leads (flags : Flags) (r : Session) (event : Event) (next : Session) :
    Prop where
  «over» :
    next.episode.over = true → r.episode.over = true ∨ Ends flags r event
  pending : Pending next → Pending r ∨ (r.episode.over = false ∧ next.episode.over = false)
  starts :
    ∀ start ∈ next.starts,
      start ∈ r.starts ∨ start.over = false ∨ start.caller = some .startup ∨
        (start.over = r.episode.over ∧ (Pending r ∨ Lifts r event))
  reports : Reports r → Reports next

variable {event : Event}

theorem leads_of_same {r : Session} {next : Session}
    (leaves :
      next.episode.over = true → r.episode.over = true ∨ Ends flags r event)
    (admitted : ∀ name, Called.robot name ∈ next.admitted → Called.robot name ∈ r.admitted)
    (units : next.units ≠ 0 → r.units ≠ 0) (locks : Locks r.lock next.lock)
    (starts : next.starts = r.starts) (reports : Reports r → Reports next) :
    Leads flags r event next where
  «over» := leaves
  pending := by
    intro pending
    left
    rcases pending with ⟨name, isAdmitted⟩ | some_ | waits
    · exact .inl ⟨name, admitted _ isAdmitted⟩
    · exact .inr (.inl (units some_))
    · exact .inr (.inr (locks.waitsUnasked waits))
  starts := by
    intro start member
    exact .inl (starts ▸ member)
  reports := reports

/-- A step that changes only what the gates, the lock and the results do not
read. -/
theorem leads_of_episode {r : Session} (e : Episode)
    (leaves : e.over = true → r.episode.over = true ∨ Ends flags r event)
    (reported : e.reported = r.episode.reported) : Leads flags r event { r with episode := e } :=
  leads_of_same leaves (fun _ member => member) id (.same _) rfl
    fun reports =>
      ⟨fun unreported => reports.unreported (reported ▸ unreported), reports.single, reports.ended⟩

variable {now : ℚ}

theorem over_of_refusal {e next : Episode} {why : Option Refusal} {tool : Called}
    (gate : e.refusal flags now tool = (next, why)) :
    (next.over = true → e.over = true ∨ e.exhausted flags now tool) ∧
      next.reported = e.reported ∧
      (why = none → next = e ∧ (tool = .finish ∨ e.over = false)) := by
  rcases e.refusal_cases flags now tool with
    ⟨other, isOther, passes⟩ | ⟨exhausted, which, refused⟩
  · rw [isOther, Prod.mk.injEq] at gate
    obtain ⟨rfl, rfl⟩ := gate
    exact ⟨.inl, rfl, fun isNone => ⟨rfl, passes isNone⟩⟩
  · rw [refused, Prod.mk.injEq] at gate
    obtain ⟨rfl, rfl⟩ := gate
    exact ⟨fun _ => .inr exhausted, rfl, fun isNone => by cases isNone⟩

theorem enter_leads (k : ℕ) (kind : Kind) (now : ℚ) (refuses : Bool) :
    ((r.enter flags k kind now refuses).episode.over = true →
        r.episode.over = true ∨ ∃ name, kind = .operator name ∧
          r.episode.exhausted flags now (.robot name)) ∧
      (r.enter flags k kind now refuses).episode.reported = r.episode.reported ∧
      ∀ start ∈ (r.enter flags k kind now refuses).starts,
        start ∈ r.starts ∨ start.over = false ∨
          (start.over = r.episode.over ∧ start.caller = some kind ∧
            (kind = .startup ∨ Kind.unasked kind = true)) := by
  have began (e : Episode) :
      ∀ start ∈ (beginBody { r with episode := e } k kind).starts,
        start ∈ r.starts ∨ start = ⟨some kind, e.over⟩ := by
    intro start member
    rcases List.mem_append.mp member with old | new
    · exact .inl old
    · exact .inr (List.mem_singleton.mp new)
  cases kind with
  | operator name =>
    rw [enter]
    cases gate : r.episode.refusal flags now (.robot name) with
    | mk e why =>
      obtain ⟨leaves, reported, passes⟩ := over_of_refusal gate
      have named (isOver : e.over = true) :
          r.episode.over = true ∨ ∃ other,
            Kind.operator name = .operator other ∧
              r.episode.exhausted flags now (.robot other) := by
        rcases leaves isOver with before | exhausted
        · exact .inl before
        · exact .inr ⟨name, rfl, exhausted⟩
      cases why with
      | some why => exact ⟨named, reported, fun start member => .inl member⟩
      | none =>
        dsimp only
        split
        · exact ⟨named, reported, fun start member => .inl member⟩
        · obtain ⟨rfl, isFinish | alive⟩ := passes rfl
          · cases isFinish
          · refine ⟨named, reported, ?_⟩
            intro start member
            rcases began _ start member with old | rfl
            · exact .inl old
            · exact .inr (.inl alive)
  | agent name | observation =>
    refine ⟨.inl, rfl, ?_⟩
    intro start member
    rcases began r.episode start member with old | rfl
    · exact .inl old
    · exact .inr (.inr ⟨rfl, rfl, .inr rfl⟩)
  | startup =>
    refine ⟨.inl, rfl, ?_⟩
    intro start member
    rcases began r.episode start member with old | rfl
    · exact .inl old
    · exact .inr (.inr ⟨rfl, rfl, .inl rfl⟩)

theorem exclusive_leads (kind : Kind) (aborted : Bool) (now : ℚ) (refuses : Bool) :
    ((r.exclusive flags kind aborted now refuses).episode.over = true →
        r.episode.over = true ∨ ∃ name, kind = .operator name ∧ r.lock.robotCalls = 0 ∧
          r.episode.exhausted flags now (.robot name)) ∧
      (r.exclusive flags kind aborted now refuses).episode.reported = r.episode.reported ∧
      ∀ start ∈ (r.exclusive flags kind aborted now refuses).starts,
        start ∈ r.starts ∨ start.over = false ∨
          (start.over = r.episode.over ∧ start.caller = some kind ∧
            (kind = .startup ∨ Kind.unasked kind = true)) := by
  rw [exclusive]
  split
  · rename_i free
    obtain ⟨leaves, reported, starts⟩ :=
      @enter_leads flags { r with lock := r.lock.arrive kind aborted }
        r.lock.calls.length kind now refuses
    refine ⟨?_, reported, starts⟩
    intro isOver
    rcases leaves isOver with before | ⟨name, isKind, exhausted⟩
    · exact .inl before
    · exact .inr ⟨name, isKind, free, exhausted⟩
  · exact ⟨.inl, rfl, fun start member => .inl member⟩

theorem leads_of_exclusive {e : Episode} {admitted : List Called} {kind : Kind} {aborted : Bool}
    {refuses : Bool} (leaves : e.over = true → r.episode.over = true ∨ Ends flags r event)
    (sameOver : kind ≠ .startup → Kind.unasked kind = true → e.over = r.episode.over)
    (reported : e.reported = r.episode.reported)
    (admittedBefore : ∀ tool ∈ admitted, tool ∈ r.admitted)
    (gated : Kind.unasked kind = true → Pending r)
    (ends :
      ∀ name, kind = .operator name → r.lock.robotCalls = 0 →
        e.exhausted flags now (.robot name) → Ends flags r event) :
    Leads flags r event
      ({ r with episode := e, admitted := admitted }.exclusive flags kind aborted now refuses) := by
  obtain ⟨leadsOver, sameReported, starts⟩ :=
    @exclusive_leads flags { r with episode := e, admitted := admitted } kind aborted now refuses
  obtain ⟨_, sameAdmitted, sameUnits, sameResults⟩ :=
    @exclusive_rest { r with episode := e, admitted := admitted } flags kind aborted now refuses
  refine ⟨?_, ?_, ?_, ?_⟩
  · intro isOver
    rcases leadsOver isOver with before | ⟨name, isKind, free, exhausted⟩
    · exact leaves before
    · exact .inr (ends name isKind free exhausted)
  · intro pending
    left
    rcases pending with ⟨name, isAdmitted⟩ | some_ | waits
    · rw [sameAdmitted] at isAdmitted
      exact .inl ⟨name, admittedBefore _ isAdmitted⟩
    · rw [sameUnits] at some_
      exact .inr (.inl some_)
    · have arrived := (exclusive_locks _ kind aborted now refuses).waitsUnasked waits
      rcases waitsUnasked_arrive arrived with before | unasked
      · exact .inr (.inr before)
      · exact gated unasked
  · intro start member
    rcases starts start member with old | alive | ⟨isOver, isCaller, how⟩
    · exact .inl old
    · exact .inr (.inl alive)
    · rcases how with rfl | unasked
      · exact .inr (.inr (.inl isCaller))
      · by_cases isStartup : kind = .startup
        · exact .inr (.inr (.inl (isStartup ▸ isCaller)))
        · exact .inr (.inr (.inr
            ⟨isOver.trans (sameOver isStartup unasked), .inl (gated unasked)⟩))
  · intro reports
    refine ⟨?_, ?_, ?_⟩
    · intro unreported
      rw [sameReported] at unreported
      rw [sameResults]
      exact reports.unreported (reported ▸ unreported)
    · rw [sameResults]
      exact reports.single
    · rw [sameResults]
      exact reports.ended

theorem leads_of_direct {units : ℕ} (unitsBefore : units ≠ 0 → r.units ≠ 0)
    (gated : Pending r ∨ Lifts r event) :
    Leads flags r event { r with units := units }.beginDirect where
  «over» := .inl
  pending := by
    intro pending
    left
    rcases pending with admitted | some_ | waits
    · exact .inl admitted
    · exact .inr (.inl (unitsBefore some_))
    · exact .inr (.inr waits)
  starts := by
    intro start member
    rcases List.mem_append.mp member with old | new
    · exact .inl old
    · rw [List.mem_singleton.mp new]
      exact .inr (.inr (.inr ⟨rfl, gated⟩))
  reports := fun reports => ⟨reports.unreported, reports.single, reports.ended⟩

theorem leads_of_enter {k : ℕ} {call : Call Kind} {refuses : Bool}
    (found : r.lock.calls[k]? = some call) (granted : call.phase = .granted) :
    Leads flags r (.resume k now refuses) (r.enter flags k call.kind now refuses) := by
  obtain ⟨leaves, sameReported, starts⟩ := @enter_leads flags r k call.kind now refuses
  obtain ⟨_, sameAdmitted, sameUnits, sameResults⟩ := @enter_rest r flags k call.kind now refuses
  have isMember := List.mem_of_getElem? found
  refine ⟨?_, ?_, ?_, ?_⟩
  · intro isOver
    rcases leaves isOver with before | ⟨name, isKind, exhausted⟩
    · exact .inl before
    · exact .inr ⟨call, name, found, granted, isKind, exhausted⟩
  · intro pending
    left
    rcases pending with ⟨name, isAdmitted⟩ | some_ | waits
    · exact .inl ⟨name, sameAdmitted ▸ isAdmitted⟩
    · exact .inr (.inl (sameUnits ▸ some_))
    · exact .inr (.inr ((locks_of_enter r k call.kind now refuses).waitsUnasked waits))
  · intro start member
    rcases starts start member with old | alive | ⟨isOver, isCaller, how⟩
    · exact .inl old
    · exact .inr (.inl alive)
    · rcases how with isStartup | unasked
      · exact .inr (.inr (.inl (isStartup ▸ isCaller)))
      · exact .inr (.inr (.inr ⟨isOver,
          .inl (.inr (.inr ⟨call, isMember, .inr granted, unasked⟩))⟩))
  · intro reports
    refine ⟨?_, ?_, ?_⟩
    · intro unreported
      rw [sameReported] at unreported
      rw [sameResults]
      exact reports.unreported unreported
    · rw [sameResults]
      exact reports.single
    · rw [sameResults]
      exact reports.ended

theorem leads_of_report (shutdown : Bool) (due : r.episode.ended = true ∨ shutdown = true) :
    Leads flags r event (r.report shutdown) := by
  have written (reports : Reports r) := reports_report r reports shutdown due
  rw [report] at written ⊢
  split
  · exact leads_of_episode r.episode .inl rfl
  · rename_i unwritten
    rw [if_neg unwritten] at written
    exact leads_of_same .inl (fun _ member => member) id (.same _) rfl written

theorem step_leads (event : Event) : Leads flags r event (r.step flags event) := by
  cases event with
  | sessionStart =>
    exact leads_of_same (fun isOver => by cases isOver) (fun _ member => member) id (.same _) rfl
      fun _ => ⟨fun _ => rfl, Nat.zero_le 1, fun _ member => by cases member⟩
  | started failed =>
    cases failed with
    | none | some why => exact leads_of_episode _ .inl rfl
  | startup =>
    exact leads_of_exclusive r .inl (fun _ _ => rfl) rfl
      (fun _ member => member) (fun unasked => by cases unasked)
      (fun name isKind => by cases isKind)
  | promptSent now | agentStart | messageEnd cost tokens | turnEnd =>
    exact leads_of_episode _ .inl rfl
  | timer =>
    rw [step]
    split
    · exact leads_of_episode r.episode .inl rfl
    · exact leads_of_episode _ (fun _ => .inr trivial) rfl
  | toolCall tool now =>
    rw [step]
    cases gate : r.episode.refusal flags now tool with
    | mk e why =>
      obtain ⟨leaves, reported, passes⟩ := over_of_refusal gate
      cases why with
      | some why => exact leads_of_episode e leaves reported
      | none =>
        obtain ⟨rfl, alive⟩ := passes rfl
        cases tool with
        | finish =>
          refine leads_of_same .inl ?_ id (.same _) rfl
            fun reports => ⟨reports.unreported, reports.single, reports.ended⟩
          intro name member
          rcases List.mem_append.mp member with old | new
          · exact old
          · cases List.mem_singleton.mp new
        | robot name =>
          have isAlive := alive.resolve_left (fun isFinish => by cases isFinish)
          exact
            ⟨.inl, fun _ => .inr ⟨isAlive, isAlive⟩, fun _ member => .inl member,
              fun reports => ⟨reports.unreported, reports.single, reports.ended⟩⟩
  | block place =>
    exact leads_of_same .inl (fun _ member => List.mem_of_mem_eraseIdx member) id (.same _) rfl
      fun reports => ⟨reports.unreported, reports.single, reports.ended⟩
  | execute place aborted =>
    rw [step]
    cases called : r.admitted[place]? with
    | none => exact leads_of_episode r.episode .inl rfl
    | some tool =>
      cases tool with
      | finish =>
        exact leads_of_same (fun _ => .inr called)
          (fun _ member => List.mem_of_mem_eraseIdx member) id (.same _)
          rfl
          fun reports => ⟨reports.unreported, reports.single, reports.ended⟩
      | robot name =>
        exact leads_of_exclusive r .inl (fun _ _ => rfl) rfl
          (fun _ member => List.mem_of_mem_eraseIdx member)
          (fun _ => .inl ⟨name, List.mem_of_getElem? called⟩)
          (fun name isKind => by cases isKind)
  | observe place aborted =>
    rw [step]
    cases called : r.admitted[place]? with
    | none => exact leads_of_episode r.episode .inl rfl
    | some tool =>
      cases tool with
      | finish => exact leads_of_episode r.episode .inl rfl
      | robot name =>
        dsimp only
        split
        · exact leads_of_exclusive r .inl (fun _ _ => rfl) rfl (fun _ member => member)
            (fun _ => .inl ⟨name, List.mem_of_getElem? called⟩)
            (fun name isKind => by cases isKind)
        · exact leads_of_episode r.episode .inl rfl
  | lift place =>
    rw [step]
    cases called : r.admitted[place]? with
    | none => exact leads_of_episode r.episode .inl rfl
    | some tool =>
      cases tool with
      | finish => exact leads_of_direct r id (.inr called)
      | robot name => exact leads_of_episode r.episode .inl rfl
  | operate name now refuses aborted late refusesLate =>
    rw [step]
    cases gate : r.episode.refusal flags now (.robot name) with
    | mk e why =>
      obtain ⟨leaves, reported, passes⟩ := over_of_refusal gate
      have ends (isOver : e.over = true) :
          r.episode.over = true ∨ Ends flags r
            (.operate name now refuses aborted late refusesLate) :=
        (leaves isOver).imp_right .inl
      cases why with
      | some why => exact leads_of_episode e ends reported
      | none =>
        dsimp only
        split
        · exact leads_of_episode e ends reported
        · rename_i passed
          obtain ⟨rfl, _⟩ := passes rfl
          refine leads_of_exclusive r ends (fun _ _ => rfl) rfl
            (fun _ member => member) (fun unasked => by cases unasked) ?_
          intro other isKind free exhausted
          cases isKind
          exact .inr ⟨Bool.eq_false_iff.mpr passed, free, exhausted⟩
  | unitCall now refuses =>
    rw [step]
    cases gate : r.episode.refusal flags now (.robot "act") with
    | mk e why =>
      obtain ⟨leaves, reported, passes⟩ := over_of_refusal gate
      cases why with
      | some why => exact leads_of_episode e leaves reported
      | none =>
        dsimp only
        split
        · exact leads_of_episode e leaves reported
        · obtain ⟨rfl, isFinish | alive⟩ := passes rfl
          · cases isFinish
          · exact
              ⟨.inl, fun _ => .inr ⟨alive, alive⟩, fun _ member => .inl member,
                fun reports => ⟨reports.unreported, reports.single, reports.ended⟩⟩
  | unitDropped =>
    exact leads_of_same .inl (fun _ member => member)
      (fun some_ isZero => some_ (by rw [step, isZero])) (.same _) rfl
      fun reports => ⟨reports.unreported, reports.single, reports.ended⟩
  | unitStart =>
    rw [step]
    split
    · exact leads_of_episode r.episode .inl rfl
    · rename_i some_
      exact leads_of_direct r (fun _ => some_) (.inl (.inr (.inl some_)))
  | directEnd =>
    exact leads_of_same .inl (fun _ member => member) id (.same _) rfl
      fun reports => ⟨reports.unreported, reports.single, reports.ended⟩
  | abort k =>
    exact leads_of_same .inl (fun _ member => member) id (.abort _ k) rfl
      fun reports => ⟨reports.unreported, reports.single, reports.ended⟩
  | turn k =>
    exact leads_of_same .inl (fun _ member => member) id (.turn _ k) rfl
      fun reports => ⟨reports.unreported, reports.single, reports.ended⟩
  | resume k now refuses =>
    rw [step]
    cases found : r.lock.calls[k]? with
    | none => exact leads_of_episode r.episode .inl rfl
    | some call =>
      dsimp only
      split
      · rename_i granted
        exact leads_of_enter r found granted
      · exact leads_of_same .inl (fun _ member => member) id (.settle _ k)
          rfl
          fun reports => ⟨reports.unreported, reports.single, reports.ended⟩
      · exact leads_of_episode r.episode .inl rfl
  | bodyEnd k unavailable =>
    dsimp only [step]
    split
    · rename_i running
      cases unavailable with
      | none =>
        exact leads_of_same .inl (fun _ member => member) id (.settle _ k)
          rfl
          fun reports => ⟨reports.unreported, reports.single, reports.ended⟩
      | some why =>
        exact leads_of_same (fun _ => .inr ⟨Option.some_ne_none why, running⟩)
          (fun _ member => member) id (.settle _ k) rfl
          fun reports => ⟨reports.unreported, reports.single, reports.ended⟩
    · exact leads_of_episode r.episode .inl rfl
  | serverExit why | oracleRan => exact leads_of_episode _ (fun _ => .inr trivial) rfl
  | agentEnd =>
    rw [step]
    split
    · rename_i isEnded
      exact leads_of_report r false (.inl isEnded)
    · exact leads_of_episode r.episode .inl rfl
  | shutdown => exact leads_of_report r true (.inr rfl)

/-! ## Runs -/

/-- No body begins after the end, and a session writes at most one result, after
an end or at a shutdown. -/
structure NothingAfterEnd (r : Session) : Prop where
  starts : ∀ start ∈ r.starts, start.caller ≠ some .startup → start.over = false
  single : r.results.length ≤ 1
  ended : ∀ entry ∈ r.results, entry.ended = true ∨ entry.shutdown = true

/-- What every step keeps: after the end no call is past its gate. -/
structure Closed (r : Session) : Prop where
  «over» : r.episode.over = true → ¬Pending r
  starts : ∀ start ∈ r.starts, start.caller ≠ some .startup → start.over = false

theorem closed_step (event : Event) (apart : EndsApart flags r event) (closed : Closed r) :
    Closed (r.step flags event) := by
  have leads : Leads flags r event (r.step flags event) := step_leads r event
  refine ⟨?_, ?_⟩
  · intro isOver pending
    rcases leads.pending pending with before | ⟨_, alive⟩
    · cases wasOver : r.episode.over with
      | true => exact closed.over wasOver before
      | false =>
        rcases leads.over isOver with isOld | ends
        · rw [wasOver] at isOld
          cases isOld
        · exact apart.1 wasOver ends before
    · rw [alive] at isOver
      cases isOver
  · intro start member notStartup
    rcases leads.starts start member with old | alive | isStartup | ⟨isOver, how⟩
    · exact closed.starts start old notStartup
    · exact alive
    · exact absurd isStartup notStartup
    · rw [isOver]
      rcases how with pending | lifts
      · cases wasOver : r.episode.over with
        | true => exact absurd pending (closed.over wasOver)
        | false => rfl
      · exact apart.2 lifts

theorem reports_initial : Reports initial where
  unreported := fun _ => rfl
  single := Nat.zero_le 1
  ended := fun _ member => absurd member List.not_mem_nil

theorem closed_initial : Closed initial where
  «over» := fun isOver => by cases isOver
  starts := fun _ member => absurd member List.not_mem_nil

theorem reports_after (flags : Flags) (events : List Event) : Reports (after flags events) :=
  Runs.after_invariant (step flags) Reports
    (fun r event reports => (@step_leads flags r event).reports reports)
    reports_initial events

theorem not_pending_running :
    ¬Pending
      (after unlimited
        [.started none, .agentStart, .toolCall (.robot "look") 0, .execute 0 false]) := by
  rintro (⟨name, member⟩ | some_ | ⟨call, member, isPhase, _⟩)
  · exact absurd member List.not_mem_nil
  · exact some_ rfl
  · rw [List.mem_singleton.mp member] at isPhase
    rcases isPhase with waiting | granted
    · cases waiting
    · cases granted

end Session

end PiEmbodied.Robot
