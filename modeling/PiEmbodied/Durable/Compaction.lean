import PiEmbodied.Durable.ContextReads

/-!
# Where a compaction cuts

A compaction keeps the entries of a context from a cut on: its summary is a head
marker whose head is the first of them.  A cut is an entry that starts with a
user or an assistant message and that no result of an earlier call follows.
-/

namespace PiEmbodied.Durable.Context

open List (any_eq_true cons_append filter_append filter_congr filter_cons filter_filter
  mem_of_mem_filter nil_append)

variable {β : Type}

/-! ## Candidates -/

/-- The calls of the last assistant message; the contributions are given from
the latest. -/
def precedingCalls : List (List (Located β)) → List String
  | [] => []
  | contribution :: earlier =>
    match contribution.reverse.find? isAssistant with
    | none => precedingCalls earlier
    | some assistant => assistant.message.calls.map Prod.fst

/-- Whether no result of these calls comes before the next assistant message;
the first message of the candidate does not count as one. -/
def unanswered (calls : List String) (isFirst : Bool) : List (Located β) → Bool
  | [] => true
  | message :: rest =>
    if isAssistant message && !isFirst then true
    else if calls.any fun call => message.message.isResultOf call then false
    else unanswered calls false rest

def isCandidate (contributions : List (List (Located β))) (index : ℕ) : Bool :=
  match (contributions[index]?.getD []).head? with
  | none => false
  | some first =>
    match first.role with
    | .assistant => true
    | .user =>
      let calls := precedingCalls (contributions.take index).reverse
      if calls.length = 0 then true
      else unanswered calls true (contributions.drop index).flatten
    | _ => false

/-- The walk back from the tail: the index where enough is kept; the
contributions are given from the latest, with the index of each. -/
def enoughFrom (estimate : Message β → ℕ) (keepRecentTokens : ℚ) (kept : ℕ) :
    List (List (Located β) × ℕ) → Option ℕ
  | [] => none
  | (contribution, index) :: earlier =>
    let kept := kept + (contribution.map fun located => estimate located.message).sum
    if (kept : ℚ) < keepRecentTokens then
      enoughFrom estimate keepRecentTokens kept earlier
    else some index

def selectCut (estimate : Message β → ℕ) (view : ContextView β)
    (keepRecentTokens : ℚ) : Option ℕ := do
  let contributions := view.contributions
  let start := if view.head.isNone then 0 else 1
  let candidates :=
    (List.range contributions.length).filter fun index =>
      start ≤ index && isCandidate contributions index
  let index ← enoughFrom estimate keepRecentTokens 0 (contributions.zipIdx.drop start).reverse
  let cut ← (candidates.find? (index ≤ ·)).or candidates.getLast?
  if ((contributions.take cut).drop start).any fun contribution =>
      contribution ≠ [] then
    some cut
  else none

def summarizedMessages (view : ContextView β) (cut : ℕ) : List (Located β) :=
  orderToolResults (view.contributions.take cut).flatten

/-- The summary entry that a compaction places; `text` is its message. -/
def summaryDraft (firstKept : ℕ) (text : Message β) : EntryDraft β :=
  { kind := "pi.compaction"
    model := some [text]
    head := some (.entry firstKept) }

/-! ## Tool results on both sides -/

def lastCalls (messages : List (Located β)) : List String :=
  match messages.reverse.find? isAssistant with
  | none => []
  | some assistant => assistant.message.calls.map Prod.fst

theorem precedingCalls_eq (contributions : List (List (Located β))) :
    precedingCalls contributions = lastCalls contributions.reverse.flatten := by
  induction contributions with
  | nil => rfl
  | cons contribution earlier ih =>
    have isSplit :
        (contribution :: earlier).reverse.flatten.reverse.find? isAssistant =
          (contribution.reverse.find? isAssistant).or
            (earlier.reverse.flatten.reverse.find? isAssistant) := by
      rw [List.reverse_cons, List.flatten_append, List.flatten_singleton,
        List.reverse_append, List.find?_append]
    rw [precedingCalls, lastCalls, isSplit]
    cases contribution.reverse.find? isAssistant with
    | some assistant => rfl
    | none =>
      rw [Option.none_or]
      exact ih

theorem lastCalls_cons (first : Located β) (rest : List (Located β)) :
    lastCalls (first :: rest) =
      if rest.any isAssistant then lastCalls rest
      else if isAssistant first then first.message.calls.map Prod.fst
      else [] := by
  have isSplit :
      (first :: rest).reverse.find? isAssistant =
        (rest.reverse.find? isAssistant).or ([first].find? isAssistant) := by
    rw [List.reverse_cons, List.find?_append]
  rw [lastCalls, isSplit]
  cases found : rest.reverse.find? isAssistant with
  | some assistant =>
    have some : rest.any isAssistant = true := by
      rw [any_eq_true]
      exact ⟨assistant, List.mem_reverse.mp (List.mem_of_find?_eq_some found),
        List.find?_some found⟩
    rw [if_pos some, lastCalls, found]
    rfl
  | none =>
    have absent : ¬ rest.any isAssistant = true := by
      rw [any_eq_true]
      rintro ⟨message, member, passes⟩
      exact List.find?_eq_none.mp found message (List.mem_reverse.mpr member) passes
    rw [if_neg absent, Option.none_or, List.find?_cons, List.find?_nil]
    cases isAssistant first with
    | true | false => rfl

theorem orderToolResults_split (earlier later : List (Located β))
    (unanswered : ∀ call ∈ lastCalls earlier,
      ∀ message ∈ later.takeWhile fun next => next.role ≠ .assistant,
        message.message.isResultOf call = false) :
    orderToolResults (earlier ++ later) = orderToolResults earlier ++ orderToolResults later := by
  induction earlier with
  | nil => rfl
  | cons first rest ih =>
    rw [lastCalls_cons] at unanswered
    have isRest :
        orderToolResults (rest ++ later) = orderToolResults rest ++ orderToolResults later := by
      apply ih
      intro call member
      by_cases some : rest.any isAssistant = true
      · rw [if_pos some] at unanswered
        exact unanswered call member
      · have nothing : lastCalls rest = [] := by
          have absent : rest.reverse.find? isAssistant = none := by
            rw [List.find?_eq_none]
            intro message isMessage passes
            apply some
            rw [any_eq_true]
            exact ⟨message, List.mem_reverse.mp isMessage, passes⟩
          rw [lastCalls, absent]
        rw [nothing] at member
        cases member
    rw [cons_append, orderToolResults]
    conv_rhs => rw [orderToolResults]
    by_cases isResult : first.role = .toolResult
    · rw [if_pos isResult, if_pos isResult]
      exact isRest
    · rw [if_neg isResult, if_neg isResult]
      dsimp only
      rw [isRest]
      have sameResults : ∀ call ∈ first.message.calls,
          ((rest ++ later).takeWhile fun next => decide (next.role ≠ .assistant)).find?
              (fun candidate => candidate.message.isResultOf call.1) =
            (rest.takeWhile fun next => decide (next.role ≠ .assistant)).find?
              fun candidate => candidate.message.isResultOf call.1 := by
        intro call isCall
        by_cases some : rest.any isAssistant = true
        · obtain ⟨message, member, passes⟩ := List.any_eq_true.mp some
          obtain ⟨before, after, isSplit⟩ := List.append_of_mem member
          have stops : decide (message.role ≠ .assistant) = false := by
            have isRole : message.role = .assistant := of_decide_eq_true passes
            rw [isRole]
            rfl
          have stopsThere :=
            takeWhile_stops (fun next : Located β => next.role ≠ .assistant) stops before
          rw [isSplit, List.append_assoc, cons_append, stopsThere, stopsThere]
        · have others : ∀ message ∈ rest,
              decide (message.role ≠ .assistant) = true := by
            intro message member
            rw [decide_eq_true_eq]
            intro isRole
            apply some
            rw [any_eq_true]
            exact ⟨message, member, decide_eq_true isRole⟩
          have isWhole :
              (rest ++ later).takeWhile (fun next => decide (next.role ≠ .assistant)) =
                rest ++ later.takeWhile fun next => decide (next.role ≠ .assistant) :=
            List.takeWhile_append_of_pos others
          have restWhole :
              rest.takeWhile
                  (fun next => decide (next.role ≠ .assistant)) = rest := by
            have isAlone :=
              @List.takeWhile_append_of_pos _
                (fun next : Located β => decide (next.role ≠ .assistant))
                rest [] others
            rwa [List.append_nil, List.takeWhile_nil, List.append_nil] at isAlone
          have isFirst : isAssistant first = true := by
            cases isRole : first.message with
            | assistant content stopReason timestamp body =>
              rw [isAssistant, Located.role, isRole]
              rfl
            | system body | user body | toolResult callId name content isError timestamp =>
              rw [isRole] at isCall
              cases isCall
          rw [if_neg some, if_pos isFirst] at unanswered
          have absent :
              (later.takeWhile fun next => decide (next.role ≠ .assistant)).find?
                (fun candidate =>
                  candidate.message.isResultOf call.1) = none := by
            rw [List.find?_eq_none]
            intro message member
            rw [unanswered call.1 (List.mem_map_of_mem isCall) message member]
            exact Bool.false_ne_true
          rw [isWhole, restWhole, List.find?_append, absent, Option.or_none]
      have sameCalls :
          (first.message.calls.map fun call =>
              (((rest ++ later).takeWhile fun next => decide (next.role ≠ .assistant)).find?
                fun candidate => candidate.message.isResultOf call.1).getD
                (missingResult call first.message.timestamp)) =
            first.message.calls.map fun call =>
              ((rest.takeWhile fun next => decide (next.role ≠ .assistant)).find?
                fun candidate => candidate.message.isResultOf call.1).getD
                (missingResult call first.message.timestamp) :=
        List.map_congr_left fun call isCall => by rw [sameResults call isCall]
      rw [sameCalls, List.append_assoc]

theorem unanswered_spec {calls : List String} {isFirst : Bool} {messages : List (Located β)}
    (isUnanswered : unanswered calls isFirst messages = true)
    (first : isFirst = true → ∀ message ∈ messages.head?, isAssistant message = false) :
    ∀ call ∈ calls,
      ∀ message ∈ messages.takeWhile fun next => next.role ≠ .assistant,
        message.message.isResultOf call = false := by
  induction messages generalizing isFirst with
  | nil =>
    intro call _ message member
    cases member
  | cons message rest ih =>
    intro call isCall found member
    rw [List.takeWhile_cons] at member
    split at member
    · rename_i isOther
      have notAssistant : isAssistant message = false := by simpa [isAssistant] using isOther
      rw [unanswered, notAssistant] at isUnanswered
      simp only [Bool.false_and, Bool.false_eq_true, if_false] at isUnanswered
      split at isUnanswered
      · cases isUnanswered
      · rename_i notResult
        rcases List.mem_cons.mp member with rfl | later
        · rw [any_eq_true] at notResult
          rw [← Bool.not_eq_true]
          exact fun isResult => notResult ⟨call, isCall, isResult⟩
        · exact ih isUnanswered (fun isTrue => by cases isTrue) call isCall found later
    · cases member

variable {index : ℕ} {contributions : List (List (Located β))}

theorem candidate_parts (candidate : isCandidate contributions index = true) :
    orderToolResults contributions.flatten =
      orderToolResults (contributions.take index).flatten ++
        orderToolResults (contributions.drop index).flatten := by
  have isSplit :
      contributions.flatten =
        (contributions.take index).flatten ++ (contributions.drop index).flatten := by
    rw [← List.flatten_append, List.take_append_drop]
  rw [isSplit]
  rw [isCandidate] at candidate
  cases isFirst : (contributions[index]?.getD []).head? with
  | none =>
    rw [isFirst] at candidate
    cases candidate
  | some first =>
    rw [isFirst] at candidate
    simp only at candidate
    cases isContribution : contributions[index]? with
    | none =>
      rw [isContribution] at isFirst
      cases isFirst
    | some contribution =>
      obtain ⟨inside, isHere⟩ := List.getElem?_eq_some_iff.mp isContribution
      rw [isContribution, Option.getD_some] at isFirst
      obtain ⟨others, isCons⟩ : ∃ others, contribution = first :: others := by
        cases contribution with
        | nil => cases isFirst
        | cons head others =>
          cases isFirst
          exact ⟨others, rfl⟩
      have isDrop :
          (contributions.drop index).flatten =
            first :: (others ++ (contributions.drop (index + 1)).flatten) := by
        rw [List.drop_eq_getElem_cons inside, isHere, isCons, List.flatten_cons, cons_append]
      cases isRole : first.role with
      | system | toolResult =>
        rw [isRole] at candidate
        cases candidate
      | assistant =>
        rw [isDrop]
        exact orderToolResults_append (decide_eq_true isRole) _ _
      | user =>
        rw [isRole] at candidate
        simp only at candidate
        have sameCalls :
            precedingCalls (contributions.take index).reverse =
              lastCalls (contributions.take index).flatten := by
          rw [precedingCalls_eq, List.reverse_reverse]
        rw [sameCalls] at candidate
        apply orderToolResults_split
        split at candidate
        · rename_i noCalls
          rw [List.length_eq_zero_iff.mp noCalls]
          intro call member
          cases member
        · apply unanswered_spec candidate
          intro _ message isMessage
          rw [isDrop] at isMessage
          cases isMessage
          rw [isAssistant, isRole]
          rfl

variable {view : ContextView β} {cut : ℕ}

theorem selectCut_spec {estimate : Message β → ℕ} {keepRecentTokens : ℚ}
    (selected : selectCut estimate view keepRecentTokens = some cut) :
    (if view.head.isNone then 0 else 1) ≤ cut ∧
      isCandidate view.contributions cut = true ∧
      ∃ contribution ∈ (view.contributions.take cut).drop (if view.head.isNone then 0 else 1),
        contribution ≠ [] := by
  simp only [selectCut, Option.bind_eq_bind, Option.bind_eq_some_iff] at selected
  generalize (if view.head.isNone = true then 0 else 1) = start at selected ⊢
  obtain ⟨index, _, found, isCut, isSelected⟩ := selected
  split at isSelected
  · rename_i some
    cases isSelected
    have member :
        cut ∈ (List.range view.contributions.length).filter fun index =>
          start ≤ index && isCandidate view.contributions index := by
      rcases Option.or_eq_some_iff.mp isCut with isFound | ⟨_, isLast⟩
      · exact List.mem_of_find?_eq_some isFound
      · exact List.mem_of_getLast? isLast
    have passes := (List.mem_filter.mp member).2
    rw [Bool.and_eq_true, decide_eq_true_eq] at passes
    obtain ⟨contribution, isMember, nonempty⟩ := List.any_eq_true.mp some
    exact ⟨passes.1, passes.2, contribution, isMember, of_decide_eq_true nonempty⟩
  · cases isSelected

/-! ## The context after the summary -/

def Event.EditsEarlier : Event β → Prop
  | .append id draft => ∀ edit ∈ draft.edits.getD [], edit.target ≤ id
  | .read _ _ => True

structure Settled (history : List (EntryRecord β)) : Prop where
  ordered : Ordered history
  earlier : ∀ entry ∈ history, ∀ winner ∈ entry.winners, winner.1 ≤ entry.id

variable {history : List (EntryRecord β)} {entry : EntryRecord β}

theorem ordered_append {history : List (EntryRecord β)} (ordered : Ordered history)
    (after : ∀ other ∈ history, other.id < entry.id) : Ordered (history ++ [entry]) := by
  apply List.pairwise_append.mpr
  refine ⟨ordered, List.pairwise_singleton _ _, ?_⟩
  intro other member last isLast
  rw [List.mem_singleton.mp isLast]
  exact after other member

theorem settled_run {events : List (Event β)} (earlier : ∀ event ∈ events, event.EditsEarlier) :
    Settled (run events).history := by
  apply Runs.after_preserves Conversation.step Event.EditsEarlier
    (fun conversation => Settled conversation.history) _ _ earlier
  · intro conversation event isEarlier settled
    cases event with
    | read at_ previous =>
      simp only [Conversation.step]
      split
      · exact settled
      · exact settled
    | append id draft =>
      simp only [Conversation.step]
      split
      · rename_i minted
        rw [List.all_eq_true] at minted
        refine ⟨ordered_append settled.ordered fun other member =>
          of_decide_eq_true (minted other member), ?_⟩
        intro entry member winner isWinner
        rcases List.mem_append.mp member with isOld | isNew
        · exact settled.earlier entry isOld winner isWinner
        · rw [List.mem_singleton.mp isNew] at isWinner ⊢
          rw [EntryRecord.winners, List.mem_mapIdx] at isWinner
          obtain ⟨index, inside, rfl⟩ := isWinner
          exact isEarlier _ (List.getElem_mem inside)
      · exact settled
  · exact ⟨List.Pairwise.nil, fun _ member => absurd member List.not_mem_nil⟩

theorem get_winners (winners : List (ℕ × Winner β)) (target : ℕ)
    {edits others : List (ℕ × Winner β)}
    (same : Entries.get edits target = Entries.get others target) :
    Entries.get
        (winners.foldl (fun edits edit => Entries.set edits edit.1 edit.2) edits) target =
      Entries.get
        ((winners.filter fun edit => edit.1 = target).foldl
          (fun edits edit => Entries.set edits edit.1 edit.2) others)
        target := by
  induction winners generalizing edits others with
  | nil => exact same
  | cons winner rest ih =>
    rw [List.foldl_cons, filter_cons]
    by_cases isTarget : winner.1 = target
    · rw [if_pos (by simpa using isTarget), List.foldl_cons]
      apply ih
      rw [Entries.get_set, Entries.get_set, same]
    · rw [if_neg (by simpa using isTarget)]
      apply ih
      rw [Entries.get_set, if_neg (Ne.symm isTarget), same]

theorem drop_eq_filter (ordered : Ordered history) (isEntry : history[index]? = some entry) :
    history.drop index = history.filter fun other => entry.id ≤ other.id := by
  induction history generalizing index with
  | nil => cases isEntry
  | cons first rest ih =>
    obtain ⟨less, orderedRest⟩ := List.pairwise_cons.mp ordered
    cases index with
    | zero =>
      cases isEntry
      have all :
          (entry :: rest).filter (fun other => entry.id ≤ other.id) =
            entry :: rest := by
        rw [List.filter_eq_self]
        intro other member
        rw [decide_eq_true_eq]
        rcases List.mem_cons.mp member with rfl | later
        · exact Nat.le_refl _
        · exact Nat.le_of_lt (less other later)
      rw [all, List.drop_zero]
    | succ index =>
      have isLater : first.id < entry.id := less entry (List.mem_of_getElem? isEntry)
      rw [List.drop_succ_cons, ih orderedRest isEntry,
        filter_cons, if_neg (by simpa using isLater)]

def winnerOf (scanned : List (EntryRecord β)) (target : ℕ) : Option (Winner β) :=
  Entries.get
    ((scanned.flatMap EntryRecord.winners).foldl
      (fun edits edit => Entries.set edits edit.1 edit.2) [])
    target

theorem winnerOf_from (settled : Settled history) {lower upper target : ℕ} (below : lower ≤ upper)
    (inside : upper ≤ target) :
    winnerOf (history.filter fun entry => lower ≤ entry.id) target =
      winnerOf (history.filter fun entry => upper ≤ entry.id) target := by
  have sameEdits :
      ((history.filter fun entry => lower ≤ entry.id).flatMap
          EntryRecord.winners).filter (fun edit => edit.1 = target) =
        ((history.filter fun entry => upper ≤ entry.id).flatMap
          EntryRecord.winners).filter fun edit => edit.1 = target := by
    have earlier := settled.earlier
    clear settled
    induction history with
    | nil => rfl
    | cons entry rest ih =>
      have isRest := ih fun later member => earlier later (List.mem_cons_of_mem _ member)
      have own := earlier entry List.mem_cons_self
      by_cases isUpper : upper ≤ entry.id
      · have isLower : lower ≤ entry.id := Nat.le_trans below isUpper
        simp only [filter_cons, isUpper, isLower, decide_true, if_true,
          List.flatMap_cons, filter_append, isRest]
      · by_cases isLower : lower ≤ entry.id
        · have nothing : entry.winners.filter (fun edit => edit.1 = target) = [] := by
            rw [List.filter_eq_nil_iff]
            intro edit member isTarget
            have isOwn := own edit member
            rw [decide_eq_true_eq] at isTarget
            omega
          simp only [filter_cons, isUpper, isLower, decide_true,
            decide_false, if_true, Bool.false_eq_true, if_false,
            List.flatMap_cons, filter_append, nothing,
            nil_append, isRest]
        · simp only [filter_cons, isUpper, isLower, decide_false,
            Bool.false_eq_true, if_false, isRest]
  rw [winnerOf, winnerOf, get_winners _ target rfl, sameEdits, ← get_winners _ target rfl]

theorem captureContextBounds_tail (earlier : List (EntryRecord β)) (newest : EntryRecord β) :
    captureContextBounds (earlier ++ [newest]) none =
      .ok
        (some ⟨findLatestHeadMarker (earlier ++ [newest]) newest.id, newest.id⟩) := by
  have isAll : (earlier ++ [newest]).filter (within none none) = earlier ++ [newest] := by
    rw [List.filter_eq_self]
    intro entry _
    simp [within]
  simp [captureContextBounds, scanEntries, isAll]

def rangeStart (head : Option (EntryRecord β)) : ℕ :=
  (head.bind EntryRecord.head).getD 0

/-- The context at the tail: the head marker and the entries that are none, from
the start of its range on. -/
theorem context_tail {earlier : List (EntryRecord β)} {newest : EntryRecord β}
    (ordered : Ordered (earlier ++ [newest]))
    (isView : readContext (earlier ++ [newest]) none = .ok view) :
    view.head = findLatestHeadMarker (earlier ++ [newest]) newest.id ∧
      view.entries =
        view.head.toList ++
          ((earlier ++ [newest]).filter fun entry => rangeStart view.head ≤ entry.id).filter
            (fun entry => entry.head.isNone) ∧
      view.contributions = view.entries.map fun entry =>
        contribute entry
          (winnerOf ((earlier ++ [newest]).filter fun entry => rangeStart view.head ≤ entry.id)
            entry.id) := by
  have isLast : ∀ entry ∈ earlier ++ [newest], entry.id ≤ newest.id := by
    intro entry member
    rcases List.mem_append.mp member with before | isNewest
    · exact Nat.le_of_lt
        ((List.pairwise_append.mp ordered).2.2 entry before newest (List.mem_singleton_self newest))
    · rw [List.mem_singleton.mp isNewest]
  rw [readContext, captureContextBounds_tail] at isView
  cases isView
  cases isHead : findLatestHeadMarker (earlier ++ [newest]) newest.id with
  | none =>
    have noHeads : ∀ entry ∈ earlier ++ [newest], entry.head.isNone = true := by
      intro entry member
      rw [findLatestHeadMarker, List.getLast?_eq_none_iff, List.filter_eq_nil_iff] at isHead
      have notMarker := isHead entry member
      simpa [isLast entry member] using notMarker
    have isScan :
        scanRange (earlier ++ [newest]) (rangeQuery (⟨none, newest.id⟩ : ContextBounds β)) =
          (earlier ++ [newest]).filter fun entry => 0 ≤ entry.id := by
      rw [scanRange_eq ordered]
      apply filter_congr
      intro entry member
      simp [rangeQuery, within, isLast entry member]
    have allKept :
        ((earlier ++ [newest]).filter (fun entry => 0 ≤ entry.id)).filter
            (fun entry => entry.head.isNone) =
          (earlier ++ [newest]).filter fun entry => 0 ≤ entry.id := by
      rw [List.filter_eq_self]
      intro entry member
      exact noHeads entry (mem_of_mem_filter member)
    have start : rangeStart (none : Option (EntryRecord β)) = 0 := rfl
    refine ⟨rfl, ?_, ?_⟩
    · simp only [deriveContext, isScan, deriveRange, selectActive, start,
        allKept, Option.toList_none, nil_append]
    · simp only [deriveContext, isScan, deriveRange, start]
      rfl
  | some marker =>
    obtain ⟨_, _, hasHead⟩ := mem_of_marker isHead
    obtain ⟨lower, isLower⟩ := Option.isSome_iff_exists.mp hasHead
    have isScan :
        scanRange (earlier ++ [newest]) (rangeQuery ⟨some marker, newest.id⟩) =
          (earlier ++ [newest]).filter fun entry => lower ≤ entry.id := by
      rw [scanRange_eq ordered]
      apply filter_congr
      intro entry member
      simp [rangeQuery, within, isLower, isLast entry member]
    have start : rangeStart (some marker) = lower := by
      rw [rangeStart, Option.bind_some, isLower, Option.getD_some]
    refine ⟨rfl, ?_, ?_⟩
    · simp only [deriveContext, isScan, deriveRange, selectActive, start,
        Option.toList_some, cons_append, nil_append]
    · simp only [deriveContext, isScan, deriveRange, start]
      rfl

theorem readContext_empty (isView : readContext ([] : List (EntryRecord β)) none = .ok view) :
    view = emptyView := by
  cases isView
  rfl

theorem winnerOf_snoc (scanned : List (EntryRecord β)) {entry : EntryRecord β}
    (noEdits : entry.edits = none) (target : ℕ) :
    winnerOf (scanned ++ [entry]) target = winnerOf scanned target := by
  rw [winnerOf, flatMap_winners_added, winnerOf]
  intro other member
  rw [List.mem_singleton.mp member]
  exact noEdits

theorem context_after_summary
    (settled : Settled history) (isView : readContext history none = .ok view)
    {firstKept : EntryRecord β} (past : (if view.head.isNone then 0 else 1) ≤ cut)
    (isFirst : view.entries[cut]? = some firstKept) {id : ℕ}
    (minted : ∀ entry ∈ history, entry.id < id) (text : Message β) :
    ∃ after : ContextView β,
      readContext
          (history ++ [(summaryDraft firstKept.id text).record id]) none =
          .ok after ∧
        after.head = some ((summaryDraft firstKept.id text).record id) ∧
        after.entries = (summaryDraft firstKept.id text).record id :: view.entries.drop cut ∧
        after.contributions.drop 1 = view.contributions.drop cut := by
  obtain ⟨earlier, newest, isHistory⟩ : ∃ earlier newest, history = earlier ++ [newest] := by
    rcases List.eq_nil_or_concat history with isEmpty | ⟨earlier, newest, is⟩
    · subst isEmpty
      rw [readContext_empty isView] at isFirst
      cases isFirst
    · exact ⟨earlier, newest, by rw [is, List.concat_eq_append]⟩
  subst isHistory
  obtain ⟨_, isEntries, isContributions⟩ := context_tail settled.ordered isView
  generalize rangeStart view.head = lower at isEntries isContributions
  -- The summary is the newest entry, and a head marker.
  have orderedAfter :
      Ordered (earlier ++ [newest] ++ [(summaryDraft firstKept.id text).record id]) :=
    ordered_append settled.ordered minted
  have isMarker :
      findLatestHeadMarker (earlier ++ [newest] ++
          [(summaryDraft firstKept.id text).record id]) id =
        some ((summaryDraft firstKept.id text).record id) := by
    rw [findLatestHeadMarker, filter_append]
    simp [summaryDraft, EntryDraft.record]
  obtain ⟨after, isAfter⟩ :
      ∃ after, readContext (earlier ++ [newest] ++
        [(summaryDraft firstKept.id text).record id]) none = .ok after := by
    rw [readContext, captureContextBounds_tail]
    exact ⟨_, rfl⟩
  obtain ⟨afterHead, afterEntries, afterContributions⟩ := context_tail orderedAfter isAfter
  have isSummary : after.head = some ((summaryDraft firstKept.id text).record id) :=
    afterHead.trans isMarker
  have isStart : rangeStart after.head = firstKept.id := by
    rw [isSummary]
    rfl
  rw [isStart] at afterEntries afterContributions
  -- The first kept entry is none of the markers.
  have startLength : view.head.toList.length = if view.head.isNone then 0 else 1 := by
    cases view.head with
    | none | some marker => rfl
  have isKept :
      (((earlier ++ [newest]).filter fun entry => lower ≤ entry.id).filter
          fun entry => entry.head.isNone)[cut - view.head.toList.length]? =
        some firstKept := by
    rwa [isEntries, List.getElem?_append_right (by omega)] at isFirst
  have isMember := List.mem_of_getElem? isKept
  have inHistory : firstKept ∈ earlier ++ [newest] :=
    mem_of_mem_filter (mem_of_mem_filter isMember)
  have aboveLower : lower ≤ firstKept.id :=
    of_decide_eq_true
      (List.mem_filter.mp (mem_of_mem_filter isMember)).2
  have isDrop :
      view.entries.drop cut =
        ((earlier ++ [newest]).filter fun entry => firstKept.id ≤ entry.id).filter
          fun entry => entry.head.isNone := by
    have orderedKept :
        Ordered (((earlier ++ [newest]).filter fun entry => lower ≤ entry.id).filter
          fun entry => entry.head.isNone) :=
      (settled.ordered.filter _).filter _
    rw [isEntries, List.drop_append, List.drop_eq_nil_of_le (by omega),
      nil_append, drop_eq_filter orderedKept isKept, filter_filter,
      filter_filter, filter_filter]
    apply filter_congr
    intro entry _
    rw [Bool.eq_iff_iff]
    simp only [Bool.and_eq_true, decide_eq_true_eq]
    constructor
    · rintro ⟨⟨fromKept, isOther⟩, _⟩
      exact ⟨isOther, fromKept⟩
    · rintro ⟨isOther, fromKept⟩
      exact ⟨⟨fromKept, isOther⟩, Nat.le_trans aboveLower fromKept⟩
  have isScan :
      (earlier ++ [newest] ++ [(summaryDraft firstKept.id text).record id]).filter
          (fun entry => firstKept.id ≤ entry.id) =
        (earlier ++ [newest]).filter (fun entry => firstKept.id ≤ entry.id) ++
          [(summaryDraft firstKept.id text).record id] := by
    have isLess := minted firstKept inHistory
    rw [filter_append, List.filter_singleton]
    simp [summaryDraft, EntryDraft.record, Nat.le_of_lt isLess]
  have isAfterEntries :
      after.entries =
        (summaryDraft firstKept.id text).record id ::
          view.entries.drop cut := by
    rw [afterEntries, isSummary, isScan, filter_append, isDrop]
    simp [summaryDraft, EntryDraft.record]
  refine ⟨after, isAfter, isSummary, isAfterEntries, ?_⟩
  rw [afterContributions, isAfterEntries, List.map_cons, List.drop_succ_cons,
    List.drop_zero, isContributions, ← List.map_drop]
  apply List.map_congr_left
  intro entry member
  have isLater : firstKept.id ≤ entry.id := by
    rw [isDrop] at member
    exact of_decide_eq_true (List.mem_filter.mp (mem_of_mem_filter member)).2
  rw [isScan, winnerOf_snoc _ rfl, winnerOf_from settled aboveLower isLater]

theorem candidate_inside (candidate : isCandidate contributions index = true) :
    index < contributions.length := by
  by_contra outside
  have isNone : contributions[index]? = none := List.getElem?_eq_none (Nat.le_of_not_lt outside)
  simp [isCandidate, isNone] at candidate

theorem length_contributions
    (ordered : Ordered history) (isView : readContext history none = .ok view) :
    view.contributions.length = view.entries.length := by
  rcases List.eq_nil_or_concat history with isEmpty | ⟨earlier, newest, is⟩
  · subst isEmpty
    rw [readContext_empty isView]
    rfl
  · rw [List.concat_eq_append] at is
    subst is
    obtain ⟨_, _, isContributions⟩ := context_tail ordered isView
    rw [isContributions, List.length_map]

/-- A compaction keeps the tail of the context where edits are of their own or
an earlier entry. -/
theorem selectCut_keeps_tail (events : List (Event β))
    (earlier : ∀ event ∈ events, event.EditsEarlier)
    (estimate : Message β → ℕ) (keepRecentTokens : ℚ) {view : ContextView β}
    (isView : readContext (run events).history none = .ok view) {cut : ℕ}
    (selected : selectCut estimate view keepRecentTokens = some cut) :
    orderToolResults view.contributions.flatten =
        summarizedMessages view cut ++ orderToolResults (view.contributions.drop cut).flatten ∧
      (∃ contribution ∈ (view.contributions.take cut).drop (if view.head.isNone then 0 else 1),
        contribution ≠ []) ∧
      ∃ firstKept, view.entries[cut]? = some firstKept ∧
        ∀ id text, (∀ entry ∈ (run events).history, entry.id < id) →
          ∃ after,
            readContext
                (run (events ++ [.append id (summaryDraft firstKept.id text)])).history
                none = .ok after ∧
              after.head = some ((summaryDraft firstKept.id text).record id) ∧
              after.entries = (summaryDraft firstKept.id text).record id :: view.entries.drop cut ∧
              after.contributions.drop 1 = view.contributions.drop cut := by
  have settled := settled_run earlier
  obtain ⟨past, candidate, nonempty⟩ := selectCut_spec selected
  refine ⟨candidate_parts candidate, nonempty, ?_⟩
  have inside : cut < view.entries.length := by
    rw [← length_contributions settled.ordered isView]
    exact candidate_inside candidate
  have isFirst := List.getElem?_eq_getElem inside
  refine ⟨view.entries[cut], isFirst, ?_⟩
  intro id text minted
  have isHistory :
      (run (events ++ [.append id (summaryDraft view.entries[cut].id text)])).history =
        (run events).history ++ [(summaryDraft view.entries[cut].id text).record id] := by
    have allMinted : ((run events).history.all fun entry => entry.id < id) = true := by
      rw [List.all_eq_true]
      exact fun entry member => decide_eq_true (minted entry member)
    have isStep :
        run (events ++ [.append id (summaryDraft view.entries[cut].id text)]) =
          (run events).step (.append id (summaryDraft view.entries[cut].id text)) := by
      rw [run, Runs.after_append]
      rfl
    rw [isStep, Conversation.step, if_pos allMinted]
  rw [isHistory]
  exact context_after_summary settled isView past isFirst minted text

def twoTurns : List (Event Unit) :=
  [.append 2 ⟨"pi.user", some [.user ()], none, none⟩,
    .append 3 ⟨"pi.assistant", some [.assistant [.other ()] .stop 0 ()], none, none⟩,
    .append 4 ⟨"pi.user", some [.user ()], none, none⟩,
    .append 5 ⟨"pi.assistant", some [.assistant [.other ()] .stop 0 ()], none, none⟩]

theorem selectCut_keeps_tail_twoTurns :
    ∃ view : ContextView Unit,
      readContext (run twoTurns).history none = .ok view ∧
        selectCut (fun _ => 10) view 15 = some 2 ∧
        orderToolResults view.contributions.flatten =
          summarizedMessages view 2 ++ orderToolResults (view.contributions.drop 2).flatten :=
  ⟨deriveContext (run twoTurns).history (some ⟨none, 5⟩), rfl,
    by decide +kernel,
    (selectCut_keeps_tail twoTurns (by simp [twoTurns, Event.EditsEarlier]) (fun _ => 10) 15
      rfl (by decide +kernel)).1⟩

def editsLater : List (Event Unit) :=
  [.append 2 ⟨"pi.user", some [.user ()], none, some [⟨5, .omit⟩]⟩,
    .append 3 ⟨"pi.assistant", some [.assistant [.other ()] .stop 0 ()], none, none⟩,
    .append 4 ⟨"pi.user", some [.user ()], none, none⟩,
    .append 5 ⟨"pi.assistant", some [.assistant [.other ()] .stop 0 ()], none, none⟩]

/-- A summary drops such an edit, and the entry it omits comes back. -/
theorem summary_drops_edit :
    ¬ ∀ (events : List (Event Unit)) (view : ContextView Unit) (cut : ℕ)
        (firstKept : EntryRecord Unit) (after : ContextView Unit),
      readContext (run events).history none = .ok view →
        selectCut (fun _ => 10) view 5 = some cut →
          view.entries[cut]? = some firstKept →
            readContext
                (run (events ++ [.append 6 (summaryDraft firstKept.id (.user ()))])).history
                none = .ok after →
              after.contributions.drop 1 = view.contributions.drop cut := by
  intro all
  have same :=
    all editsLater (deriveContext (run editsLater).history (some ⟨none, 5⟩)) 2
      ⟨4, "pi.user", some [.user ()], none, none⟩
      (deriveContext (run (editsLater ++ [.append 6 (summaryDraft 4 (.user ()))])).history
        (some ⟨some ((summaryDraft 4 (.user ())).record 6), 6⟩))
      rfl (by decide +kernel) (by decide +kernel) rfl
  revert same
  decide +kernel

end PiEmbodied.Durable.Context
