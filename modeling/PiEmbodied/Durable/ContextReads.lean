import PiEmbodied.Durable.Context
import PiEmbodied.Runs

/-!
# Context reads

A read that extends or cuts an earlier range gives what a derivation from the
whole scan gives.
-/

namespace PiEmbodied.Durable.Context

variable {β : Type}

/-! ## The last assistant -/

variable {α : Type} {test : α → Bool}

theorem findLastIndex_none {values : List α} (absent : ∀ value ∈ values, test value = false) :
    findLastIndex test values = none := by
  induction values with
  | nil => rfl
  | cons value rest ih =>
    have later := ih fun other member => absent other (List.mem_cons_of_mem value member)
    rw [findLastIndex, later]
    dsimp only
    rw [absent value List.mem_cons_self]
    rfl

variable {value : α}

theorem findLastIndex_last {later : List α} (isLast : test value = true)
    (absent : ∀ other ∈ later, test other = false) (earlier : List α) :
    findLastIndex test (earlier ++ value :: later) = some earlier.length := by
  induction earlier with
  | nil =>
    rw [List.nil_append, findLastIndex, findLastIndex_none absent]
    dsimp only
    rw [if_pos isLast]
    rfl
  | cons first rest ih =>
    rw [List.cons_append, findLastIndex, ih]
    rfl

theorem last_or_absent (test : α → Bool) (values : List α) :
    (∀ value ∈ values, test value = false) ∨
      ∃ earlier value later, values = earlier ++ value :: later ∧
        test value = true ∧ ∀ other ∈ later, test other = false := by
  induction values with
  | nil => exact Or.inl fun value member => absurd member List.not_mem_nil
  | cons first rest ih =>
    rcases ih with absent | ⟨earlier, value, later, isRest, passes, absent⟩
    · cases isFirst : test first with
      | true => exact Or.inr ⟨[], first, rest, rfl, isFirst, absent⟩
      | false =>
        left
        intro value member
        rcases List.mem_cons.mp member with rfl | isLater
        · exact isFirst
        · exact absent value isLater
    · right
      exact
        ⟨first :: earlier, value, later, by rw [isRest, List.cons_append], passes, absent⟩

def isAssistant (message : Located β) : Bool := message.role = .assistant

theorem takeWhile_stops (test : α → Bool) (stops : test value = false) (earlier later : List α) :
    (earlier ++ value :: later).takeWhile test = earlier.takeWhile test := by
  induction earlier with
  | nil =>
    rw [List.nil_append, List.takeWhile_cons, stops]
    rfl
  | cons first rest ih => rw [List.cons_append, List.takeWhile_cons, List.takeWhile_cons, ih]

variable {message : Located β}

theorem orderToolResults_append {message : Located β} (assistant : isAssistant message = true)
    (earlier later : List (Located β)) :
    orderToolResults (earlier ++ message :: later) =
      orderToolResults earlier ++ orderToolResults (message :: later) := by
  have stops : decide (message.role ≠ .assistant) = false := by
    have isRole : message.role = .assistant := of_decide_eq_true assistant
    rw [isRole]
    rfl
  induction earlier with
  | nil => rfl
  | cons first rest ih =>
    rw [List.cons_append, orderToolResults]
    conv_rhs => rw [orderToolResults]
    by_cases isResult : first.role = .toolResult
    · rw [if_pos isResult, if_pos isResult]
      exact ih
    · rw [if_neg isResult, if_neg isResult]
      dsimp only
      have sameResults :
          (rest ++ message :: later).takeWhile (fun next => decide (next.role ≠ .assistant)) =
            rest.takeWhile fun next => decide (next.role ≠ .assistant) :=
        takeWhile_stops (fun next : Located β => next.role ≠ .assistant) stops rest later
      rw [sameResults, ih, ← List.append_assoc]

variable (settled : List (Located β)) (head : Option (EntryRecord β))
  (entries : List (EntryRecord β))

theorem settle_absent {open_ : List (Located β)}
    (absent : ∀ message ∈ open_, isAssistant message = false) :
    settle settled open_ = (settled, open_) := by
  have nowhere :
      findLastIndex (fun message : Located β => message.role = .assistant) open_ = none :=
    findLastIndex_none absent
  rw [settle, nowhere]

theorem settle_last {later : List (Located β)} (earlier : List (Located β))
    (assistant : isAssistant message = true) (absent : ∀ other ∈ later, isAssistant other = false) :
    settle settled (earlier ++ message :: later) =
      if earlier = [] then (settled, message :: later)
      else (settled ++ orderToolResults earlier, message :: later) := by
  have isLast :
      findLastIndex (fun message : Located β => message.role = .assistant)
        (earlier ++ message :: later) = some earlier.length :=
    findLastIndex_last assistant absent earlier
  rw [settle, isLast]
  cases earlier with
  | nil => rfl
  | cons first rest =>
    rw [if_neg (List.cons_ne_nil first rest), List.length_cons]
    dsimp only
    have split :
        (first :: rest ++ message :: later).take (rest.length + 1) =
          first :: rest :=
      List.take_left' (List.length_cons)
    have dropped :
        (first :: rest ++ message :: later).drop (rest.length + 1) =
          message :: later :=
      List.drop_left' (List.length_cons)
    rw [split, dropped]

theorem settle_more (messages added : List (Located β)) :
    settle (settle [] messages).1 ((settle [] messages).2 ++ added) =
      settle [] (messages ++ added) := by
  rcases last_or_absent isAssistant messages with absent | ⟨earlier, message,
    later, isMessages, assistant, absent⟩
  · rw [settle_absent [] absent]
  · rw [isMessages, settle_last [] earlier assistant absent]
    by_cases isFirst : earlier = []
    · rw [if_pos isFirst, isFirst]
      rfl
    · rw [if_neg isFirst, List.nil_append]
      dsimp only
      rcases last_or_absent isAssistant added with addedAbsent | ⟨addedEarlier,
        last, addedLater, isAdded, lastAssistant, addedAbsent⟩
      · have nothingLater : ∀ other ∈ later ++ added, isAssistant other = false := by
          exact List.forall_mem_append.mpr ⟨absent, addedAbsent⟩
        have here := settle_last (orderToolResults earlier) [] assistant nothingLater
        have there := settle_last [] earlier assistant nothingLater
        rw [if_pos rfl] at here
        rw [if_neg isFirst, List.nil_append] at there
        rw [List.append_assoc, List.cons_append, there]
        exact here
      · have here :=
          settle_last (orderToolResults earlier)
            (message :: later ++ addedEarlier) lastAssistant addedAbsent
        have there :=
          settle_last [] (earlier ++ (message :: later ++ addedEarlier)) lastAssistant addedAbsent
        rw [if_neg (List.append_ne_nil_of_left_ne_nil (List.cons_ne_nil _ _) _)] at here
        have nonempty : earlier ++ (message :: later ++ addedEarlier) ≠ [] := by
          intro isEmpty
          exact isFirst (List.append_eq_nil_iff.mp isEmpty).1
        rw [if_neg nonempty, List.nil_append, List.cons_append,
          orderToolResults_append assistant] at there
        have leftShape :
            message :: later ++ added =
              message :: later ++ addedEarlier ++ last :: addedLater := by
          rw [isAdded, List.append_assoc]
        have rightShape :
            earlier ++ message :: later ++ added =
              earlier ++ (message :: (later ++ addedEarlier)) ++
                last :: addedLater := by
          rw [isAdded]
          simp only [List.append_assoc, List.cons_append]
        rw [leftShape, rightShape, here, there]
        rfl

/-! ## Scans -/

def Ordered (history : List (EntryRecord β)) : Prop :=
  history.Pairwise fun first second => first.id < second.id

def visible (history : List (EntryRecord β)) (range : Option ℤ × Option ℤ)
    (cursor : Option ℕ) : List (EntryRecord β) :=
  (history.filter fun entry =>
    within range.1 range.2 entry &&
      decide (∀ after ∈ cursor, entry.id < after)).reverse

theorem within_cursor (entry : EntryRecord β) (minEntryId maxEntryId : Option ℤ) (after : ℕ) :
    within minEntryId (some (min (maxEntryId.getD after) ((after : ℤ) - 1))) entry =
      (within minEntryId maxEntryId entry &&
        decide (∀ bound ∈ some after, entry.id < bound)) := by
  unfold within
  rw [Bool.eq_iff_iff]
  simp only [Bool.and_eq_true, decide_eq_true_eq, Option.mem_some_iff, forall_eq', and_assoc]
  refine and_congr_right fun _ => ?_
  cases maxEntryId with
  | none =>
    simp only [Option.getD_none, Option.not_mem_none, false_imp_iff, implies_true, true_and]
    omega
  | some bound =>
    simp only [Option.getD_some, Option.mem_some_iff, forall_eq']
    omega

theorem scanEntries_eq (history : List (EntryRecord β)) (range : Option ℤ × Option ℤ) (limit : ℕ)
    (cursor : Option ℕ) :
    scanEntries history range.1 range.2 limit cursor =
      { items := (visible history range cursor).take limit
        next :=
          if (visible history range cursor).length ≤ limit then none
          else
            ((visible history range cursor).take limit).getLast?.map EntryRecord.id } := by
  cases cursor with
  | none =>
    have same : visible history range none = (history.filter (within range.1 range.2)).reverse := by
      unfold visible
      congr 2
      funext entry
      simp
    rw [same]
    rfl
  | some after =>
    have same :
        visible history range (some after) =
          (history.filter (within range.1
            (some (min (range.2.getD after) ((after : ℤ) - 1))))).reverse := by
      unfold visible
      congr 2
      funext entry
      rw [within_cursor]
    rw [same]
    rfl

variable {history : List (EntryRecord β)}

section

variable (ordered : Ordered history)
include ordered

theorem visible_descending (range : Option ℤ × Option ℤ) (cursor : Option ℕ) :
    (visible history range cursor).Pairwise fun first second =>
      second.id < first.id := by
  unfold visible
  rw [List.pairwise_reverse]
  exact ordered.sublist List.filter_sublist

theorem visible_next (range : Option ℤ × Option ℤ) {cursor : Option ℕ}
    {earlier later : List (EntryRecord β)} {last : EntryRecord β}
    (isVisible : visible history range cursor = earlier ++ last :: later) :
    visible history range (some last.id) = later := by
  have descending := visible_descending ordered range cursor
  have narrowed :
      visible history range (some last.id) =
        (visible history range cursor).filter fun entry =>
          decide (entry.id < last.id) := by
    have isMember : last ∈ visible history range cursor := by
      rw [isVisible]
      exact List.mem_append_right _ List.mem_cons_self
    have isBefore : ∀ after ∈ cursor, last.id < after := by
      unfold visible at isMember
      rw [List.mem_reverse, List.mem_filter, Bool.and_eq_true,
        decide_eq_true_eq] at isMember
      exact isMember.2.2
    unfold visible
    rw [List.filter_reverse, List.filter_filter]
    congr 2
    funext entry
    rw [Bool.eq_iff_iff]
    simp only [Bool.and_eq_true, decide_eq_true_eq, Option.mem_some_iff, forall_eq']
    constructor
    · rintro ⟨inRange, less⟩
      refine ⟨less, inRange, ?_⟩
      intro after isCursor
      exact Nat.lt_trans less (isBefore after isCursor)
    · rintro ⟨less, inRange, _⟩
      exact ⟨inRange, less⟩
  rw [narrowed, isVisible]
  rw [isVisible, List.pairwise_append, List.pairwise_cons] at descending
  obtain ⟨_, ⟨afterLast, _⟩, across⟩ := descending
  rw [List.filter_append, List.filter_cons, if_neg (by simp)]
  have nothing : earlier.filter (fun entry => entry.id < last.id) = [] := by
    rw [List.filter_eq_nil_iff]
    intro entry member
    have less := across entry member last List.mem_cons_self
    simp only [decide_eq_true_eq]
    omega
  have all : later.filter (fun entry => entry.id < last.id) = later := by
    rw [List.filter_eq_self]
    intro entry member
    exact decide_eq_true (afterLast entry member)
  rw [nothing, all, List.nil_append]

theorem scanPages_eq (range : Option ℤ × Option ℤ) (steps : ℕ) :
    ∀ cursor, (visible history range cursor).length < steps →
      scanPages history range.1 range.2 steps cursor =
        visible history range cursor := by
  induction steps with
  | zero =>
    intro cursor less
    exact absurd less (Nat.not_lt_zero _)
  | succ steps ih =>
    intro cursor less
    rw [scanPages, scanEntries_eq]
    dsimp only
    by_cases fits : (visible history range cursor).length ≤ SCAN_PAGE_SIZE
    · rw [if_pos fits]
      exact List.take_of_length_le fits
    · rw [if_neg fits]
      have long : 256 < (visible history range cursor).length := Nat.lt_of_not_le fits
      generalize isItems : (visible history range cursor).take SCAN_PAGE_SIZE = items
      have length : items.length = 256 := by
        rw [← isItems, List.length_take]
        exact Nat.min_eq_left (Nat.le_of_lt long)
      have split :
          items ++ (visible history range cursor).drop SCAN_PAGE_SIZE =
            visible history range cursor := by
        rw [← isItems]
        exact List.take_append_drop _ _
      have nonempty : items ≠ [] := by
        intro isEmpty
        rw [isEmpty] at length
        cases length
      obtain ⟨earlier, last, isEnd⟩ := List.eq_nil_or_concat items |>.resolve_left nonempty
      rw [List.concat_eq_append] at isEnd
      have isVisible :
          visible history range cursor =
            earlier ++
              last :: (visible history range cursor).drop SCAN_PAGE_SIZE := by
        conv_lhs => rw [← split]
        rw [isEnd, List.append_assoc]
        rfl
      have rest := visible_next ordered range isVisible
      have shorter : (visible history range (some last.id)).length < steps := by
        rw [rest, List.length_drop]
        have positive : 0 < SCAN_PAGE_SIZE := Nat.succ_pos 255
        omega
      rw [isEnd, List.getLast?_concat]
      dsimp only [Option.map_some]
      rw [ih (some last.id) shorter, rest, ← isEnd]
      exact split

theorem scanRange_eq (range : Option ℤ × Option ℤ) :
    scanRange history range = history.filter (within range.1 range.2) := by
  have shape : visible history range none = (history.filter (within range.1 range.2)).reverse := by
    unfold visible
    congr 2
    funext entry
    simp
  have short : (visible history range none).length < history.length + 1 := by
    rw [shape, List.length_reverse]
    exact Nat.lt_succ_of_le (List.length_filter_le _ _)
  rw [scanRange, scanPages_eq ordered range _ none short, shape, List.reverse_reverse]

end

structure Fresh (history : List (EntryRecord β)) (range : ContextRange β) :
    Prop where
  tail : ∃ entry ∈ history, entry.id = range.bounds.tail
  head : range.bounds.head = findLatestHeadMarker history range.bounds.tail
  derived : range = deriveRange range.bounds (scanRange history (rangeQuery range.bounds))

def Selecting (history : List (EntryRecord β)) : Prop :=
  ∀ entry ∈ history, ∀ head ∈ entry.head, head ≤ entry.id

variable {tail : ℕ}

theorem mem_of_marker {marker : EntryRecord β}
    (found : findLatestHeadMarker history tail = some marker) :
    marker ∈ history ∧ marker.id ≤ tail ∧ marker.head.isSome := by
  have member := List.mem_of_getLast? found
  obtain ⟨isEntry, passes⟩ := List.mem_filter.mp member
  rw [Bool.and_eq_true, decide_eq_true_eq] at passes
  exact ⟨isEntry, passes.2, passes.1⟩

theorem eq_of_same_id (ordered : Ordered history) {first second : EntryRecord β}
    (isFirst : first ∈ history) (isSecond : second ∈ history) (same : first.id = second.id) :
    first = second := by
  have unique : (history.map EntryRecord.id).Nodup :=
    List.pairwise_map.mpr (ordered.imp fun less => Nat.ne_of_lt less)
  exact List.inj_on_of_nodup_map unique isFirst isSecond same

/-! ## Extending -/

variable {entry : EntryRecord β}

theorem winners_nothing (noEdits : entry.edits = none) : entry.winners = [] := by
  unfold EntryRecord.winners
  rw [noEdits]
  rfl

variable {added : List (EntryRecord β)}

theorem flatMap_winners_added (noEdits : ∀ entry ∈ added, entry.edits = none) :
    (entries ++ added).flatMap EntryRecord.winners = entries.flatMap EntryRecord.winners := by
  have nothing : added.flatMap EntryRecord.winners = [] :=
    List.flatMap_eq_nil_iff.mpr fun entry member => winners_nothing (noEdits entry member)
  rw [List.flatMap_append, nothing, List.append_nil]

theorem selectActive_added (noHeads : ∀ entry ∈ added, entry.head = none) :
    selectActive head (entries ++ added) = selectActive head entries ++ added := by
  cases head with
  | none => rfl
  | some marker =>
    have all : added.filter (fun entry => entry.head.isNone) = added := by
      rw [List.filter_eq_self]
      intro entry member
      rw [noHeads entry member]
      rfl
    rw [selectActive, List.filter_append, all, selectActive, List.cons_append]

theorem findBaseline_added (added : List (EntryRecord β)) :
    findBaseline head (entries ++ added) =
      (findBaseline head entries).getD (findBaseline head added) := by
  induction entries with
  | nil => rfl
  | cons entry rest ih =>
    rw [List.cons_append, findBaseline, findBaseline]
    by_cases isBefore : (head.any fun marker => entry.id ≤ marker.id) = true
    · rw [if_pos isBefore, if_pos isBefore]
      exact ih
    · rw [if_neg isBefore, if_neg isBefore]
      by_cases isSystem : isSystemEntry entry = true
      · rw [if_pos isSystem, if_pos isSystem]
        cases entry.ownMessages.find? fun located =>
          located.role = .system with
        | none | some message => rfl
      · rw [if_neg isSystem, if_neg isSystem]
        by_cases carries : (head.isNone && carriesSystemMessage entry) = true
        · rw [if_pos carries, if_pos carries]
          rfl
        · rw [if_neg carries, if_neg carries]
          exact ih

variable {bounds : ContextBounds β}

theorem extendRange_eq {previousBounds : ContextBounds β}
    (sameHead : bounds.head = previousBounds.head) (entries added : List (EntryRecord β)) :
    extendRange (deriveRange previousBounds entries) bounds added =
      deriveRange bounds (entries ++ added) := by
  unfold extendRange
  have isEntries : (deriveRange previousBounds entries).entries = entries := rfl
  rw [isEntries]
  split
  · rfl
  · rename_i unchanged
    have each :
        ∀ entry ∈ added, entry.edits = none ∧ entry.head = none ∧
          entry.id ∉ (deriveRange previousBounds entries).edited := by
      intro entry member
      have unchangedHere :
          ¬(entry.edits.isSome || entry.head.isSome ||
            decide (entry.id ∈ (deriveRange previousBounds entries).edited)) =
              true :=
        fun changed => unchanged (List.any_eq_true.mpr ⟨entry, member, changed⟩)
      rw [Bool.or_eq_true, Bool.or_eq_true, decide_eq_true_eq] at unchangedHere
      push Not at unchangedHere
      obtain ⟨⟨noEdits, noHead⟩, notEdited⟩ := unchangedHere
      exact
        ⟨Option.not_isSome_iff_eq_none.mp noEdits,
          Option.not_isSome_iff_eq_none.mp noHead, notEdited⟩
    have sameEdits := flatMap_winners_added entries fun entry member => (each entry member).1
    have sameActive :=
      selectActive_added bounds.head entries fun entry member => (each entry member).2.1
    unfold deriveRange
    rw [sameEdits, sameActive]
    generalize isEdits :
      (entries.flatMap EntryRecord.winners).foldl
        (fun edits edit => Entries.set edits edit.1 edit.2) [] = edits
    have addedContributions :
        (added.map fun entry => contribute entry (Entries.get edits entry.id)) =
          added.map fun entry => contribute entry none := by
      apply List.map_congr_left
      intro entry member
      have notEdited : entry.id ∉ Entries.keys edits := by
        rw [← isEdits]
        exact (each entry member).2.2
      rw [← Entries.has_iff_mem_keys, Entries.has, Bool.not_eq_true,
        Option.isSome_eq_false_iff, Option.isNone_iff_eq_none] at notEdited
      rw [notEdited]
    dsimp only
    rw [← sameHead, List.map_append, addedContributions, List.flatten_append,
      settle_more, findBaseline_added]

/-! ## Reads -/

theorem within_iff {minEntryId maxEntryId : Option ℤ} :
    within minEntryId maxEntryId entry = true ↔
      (∀ bound ∈ minEntryId, bound ≤ (entry.id : ℤ)) ∧
        ∀ bound ∈ maxEntryId, (entry.id : ℤ) ≤ bound := by
  rw [within, Bool.and_eq_true, decide_eq_true_eq, decide_eq_true_eq]

theorem filter_split (ordered : Ordered history) (middle : ℕ) (test : EntryRecord β → Bool) :
    history.filter test =
      (history.filter fun entry => test entry && decide (entry.id ≤ middle)) ++
        history.filter fun entry =>
          test entry && decide (middle < entry.id) := by
  induction history with
  | nil => rfl
  | cons entry rest ih =>
    obtain ⟨less, orderedRest⟩ := List.pairwise_cons.mp ordered
    have split := ih orderedRest
    by_cases isEarly : entry.id ≤ middle
    · have notLate : ¬middle < entry.id := Nat.not_lt_of_le isEarly
      cases passes : test entry with
      | true => simp [passes, isEarly, notLate, split]
      | false => simp [passes, split]
    · have isLate : middle < entry.id := Nat.lt_of_not_le isEarly
      have nothing :
          (rest.filter fun other =>
            test other && decide (other.id ≤ middle)) = [] := by
        rw [List.filter_eq_nil_iff]
        intro other member passes
        rw [Bool.and_eq_true, decide_eq_true_eq] at passes
        have after := less other member
        omega
      rw [nothing, List.nil_append] at split
      cases passes : test entry with
      | true => simp [passes, isEarly, isLate, nothing, split]
      | false => simp [passes, nothing, split]

theorem within_tail {head : Option ℤ} :
    within head (some (tail : ℤ)) entry = (within head none entry && decide (entry.id ≤ tail)) := by
  rw [Bool.eq_iff_iff, Bool.and_eq_true, within_iff, within_iff,
    decide_eq_true_eq]
  simp

structure Captured (history : List (EntryRecord β)) (bounds : ContextBounds β) :
    Prop where
  tail : ∃ entry ∈ history, entry.id = bounds.tail
  head : bounds.head = findLatestHeadMarker history bounds.tail

theorem captured_of_bounds {at_ : Option ℕ}
    (captured : captureContextBounds history at_ = .ok (some bounds)) :
    Captured history bounds := by
  cases at_ with
  | none =>
    unfold captureContextBounds at captured
    dsimp only at captured
    split at captured
    · cases captured
    · rename_i newest isNewest
      cases captured
      refine ⟨⟨newest, ?_, rfl⟩, rfl⟩
      have member := List.mem_of_mem_head? isNewest
      have scanned := @scanEntries_eq β history (none, none) 1 none
      dsimp only at scanned
      rw [scanned] at member
      have isVisible := List.mem_of_mem_take member
      unfold visible at isVisible
      exact (List.mem_filter.mp (List.mem_reverse.mp isVisible)).1
  | some at_ =>
    unfold captureContextBounds at captured
    dsimp only at captured
    split at captured
    · cases captured
    · rename_i isVisible
      cases captured
      rw [Option.isNone_iff_eq_none] at isVisible
      obtain ⟨entry, found⟩ := Option.ne_none_iff_exists'.mp isVisible
      have passes := List.find?_some found
      exact
        ⟨⟨entry, List.mem_of_find?_eq_some found, of_decide_eq_true passes⟩,
          rfl⟩

theorem same_head (ordered : Ordered history) {first second : ContextBounds β}
    (isFirst : Captured history first) (isSecond : Captured history second)
    (same : first.head.map EntryRecord.id = second.head.map EntryRecord.id) :
    first.head = second.head := by
  cases firstHead : first.head with
  | none =>
    rw [firstHead] at same
    exact (Option.map_eq_none_iff.mp same.symm).symm
  | some marker =>
    cases secondHead : second.head with
    | none =>
      rw [firstHead, secondHead] at same
      cases same
    | some other =>
      rw [firstHead, secondHead] at same
      have isMarker := mem_of_marker (isFirst.head.symm.trans firstHead)
      have isOther := mem_of_marker (isSecond.head.symm.trans secondHead)
      rw [eq_of_same_id ordered isMarker.1 isOther.1 (Option.some.inj same)]

theorem rangeFrom_eq {history : List (EntryRecord β)} (ordered : Ordered history)
    (selecting : Selecting history) {bounds : ContextBounds β} (captured : Captured history bounds)
    {previous : Option (ContextRange β)} (fresh : ∀ range ∈ previous, Fresh history range) :
    rangeFrom history bounds previous =
      deriveRange bounds (scanRange history (rangeQuery bounds)) := by
  cases previous with
  | none => rfl
  | some previous =>
    obtain ⟨previousTail, previousHead, derived⟩ := fresh previous rfl
    have previousCaptured : Captured history previous.bounds :=
      ⟨previousTail, previousHead⟩
    rw [rangeFrom]
    by_cases other : previous.bounds.head.map EntryRecord.id ≠ bounds.head.map EntryRecord.id
    · rw [if_pos other]
    · rw [if_neg other]
      have sameHead : bounds.head = previous.bounds.head :=
        same_head ordered captured previousCaptured (not_not.mp other).symm
      have isEntries : previous.entries = scanRange history (rangeQuery previous.bounds) :=
        congrArg ContextRange.entries derived
      have query (other : ContextBounds β) :
          scanRange history (rangeQuery other) =
            history.filter (within (rangeQuery other).1 (some (other.tail : ℤ))) :=
        scanRange_eq ordered _
      by_cases sameTail : bounds.tail = previous.bounds.tail
      · rw [if_pos sameTail]
        have sameBounds : bounds = previous.bounds := by
          obtain ⟨head, tail⟩ := bounds
          dsimp only at sameHead sameTail
          rw [sameHead, sameTail]
        rw [sameBounds]
        exact derived
      · rw [if_neg sameTail]
        by_cases earlier : bounds.tail < previous.bounds.tail
        · rw [if_pos earlier]
          congr 1
          rw [isEntries, query, query, List.filter_filter]
          apply List.filter_congr
          intro entry _
          rw [rangeQuery, rangeQuery, sameHead, within_tail, within_tail, Bool.eq_iff_iff]
          simp only [Bool.and_eq_true, decide_eq_true_eq]
          constructor
          · rintro ⟨inside, atStart, _⟩
            exact ⟨atStart, inside⟩
          · rintro ⟨atStart, inside⟩
            exact ⟨inside, atStart, by omega⟩
        · rw [if_neg earlier]
          have later : previous.bounds.tail < bounds.tail := by omega
          rw [derived, extendRange_eq sameHead]
          congr 1
          have added :
              scanRange history (some ((previous.bounds.tail : ℤ) + 1), some (bounds.tail : ℤ)) =
                history.filter (within (some ((previous.bounds.tail : ℤ) + 1))
                  (some (bounds.tail : ℤ))) :=
            scanRange_eq ordered _
          have derivedBounds :
              (deriveRange previous.bounds
                (scanRange history (rangeQuery previous.bounds))).bounds =
                previous.bounds :=
            rfl
          rw [derivedBounds, added, query, query,
            filter_split ordered previous.bounds.tail (within (rangeQuery bounds).1 _)]
          congr 1
          · apply List.filter_congr
            intro entry _
            rw [rangeQuery, rangeQuery, sameHead, within_tail, within_tail, Bool.eq_iff_iff]
            simp only [Bool.and_eq_true, decide_eq_true_eq]
            constructor
            · rintro ⟨atStart, inside⟩
              exact ⟨⟨atStart, by omega⟩, inside⟩
            · rintro ⟨⟨atStart, _⟩, inside⟩
              exact ⟨atStart, inside⟩
          · apply List.filter_congr
            intro entry _
            rw [rangeQuery, within_tail, within_tail, Bool.eq_iff_iff]
            simp only [Bool.and_eq_true, decide_eq_true_eq, within_iff,
              Option.mem_some_iff, forall_eq', Option.not_mem_none,
              false_imp_iff, implies_true, and_true]
            constructor
            · rintro ⟨start, inside⟩
              refine ⟨⟨?_, inside⟩, by omega⟩
              intro bound isBound
              have isMapped :
                  (bounds.head.bind EntryRecord.head).map
                      (fun head : ℕ => (head : ℤ)) = some bound :=
                isBound
              obtain ⟨head, isHead, rfl⟩ := Option.map_eq_some_iff.mp isMapped
              obtain ⟨marker, isMarker, isMarkerHead⟩ := Option.bind_eq_some_iff.mp isHead
              rw [sameHead] at isMarker
              obtain ⟨member, notLater, _⟩ := mem_of_marker (previousHead.symm.trans isMarker)
              have selects := selecting marker member head isMarkerHead
              omega
            · rintro ⟨⟨_, inside⟩, isLater⟩
              exact ⟨by omega, inside⟩

/-! ## Runs -/

structure Kept (conversation : Conversation β) : Prop where
  ordered : Ordered conversation.history
  selecting : Selecting conversation.history
  fresh : ∀ range ∈ conversation.ranges, Fresh conversation.history range

/-- Appended head markers select themselves or an earlier entry. -/
def Event.Selects : Event β → Prop
  | .append id draft => ∀ entry, draft.head = some (.entry entry) → entry ≤ id
  | .read _ _ => True

theorem fresh_append {range : ContextRange β} (ordered : Ordered (history ++ [entry]))
    (fresh : Fresh history range) : Fresh (history ++ [entry]) range := by
  obtain ⟨orderedBefore, _, after⟩ := List.pairwise_append.mp ordered
  obtain ⟨tail, isTail, sameTail⟩ := fresh.tail
  have isLater : range.bounds.tail < entry.id := by
    rw [← sameTail]
    exact after tail isTail entry (List.mem_singleton_self entry)
  refine ⟨⟨tail, List.mem_append_left _ isTail, sameTail⟩, ?_, ?_⟩
  · have skipped :
        ([entry].filter fun other =>
          other.head.isSome && decide (other.id ≤ range.bounds.tail)) = [] := by
      rw [List.filter_eq_nil_iff]
      intro other member passes
      rw [List.mem_singleton.mp member, Bool.and_eq_true,
        decide_eq_true_eq] at passes
      omega
    rw [findLatestHeadMarker, List.filter_append, skipped, List.append_nil]
    exact fresh.head
  · have skipped :
        [entry].filter (within (rangeQuery range.bounds).1 (rangeQuery range.bounds).2) = [] := by
      rw [List.filter_eq_nil_iff]
      intro other member passes
      rw [List.mem_singleton.mp member, rangeQuery, within_tail,
        Bool.and_eq_true, decide_eq_true_eq] at passes
      omega
    rw [scanRange_eq ordered, List.filter_append, skipped, List.append_nil,
      ← scanRange_eq orderedBefore]
    exact fresh.derived

variable {conversation : Conversation β}

section

variable (kept : Kept conversation)
include kept

theorem read_spec (at_ previous : Option ℕ) :
    conversation.read at_ previous =
      (do
        match ← captureContextBounds conversation.history at_ with
        | none => return (emptyView, none)
        | some bounds =>
          let range := deriveRange bounds (scanRange conversation.history (rangeQuery bounds))
          return (range.view, some range)) := by
  unfold Conversation.read readContextFrom
  cases captured : captureContextBounds conversation.history at_ with
  | error => rfl
  | ok bounds =>
    cases bounds with
    | none => rfl
    | some bounds =>
      have same :=
        @rangeFrom_eq β conversation.history kept.ordered kept.selecting
          bounds (captured_of_bounds captured)
          (previous.bind fun index => conversation.ranges[index]?) ?_
      · change
          Except.ok
              ((rangeFrom conversation.history bounds
                (previous.bind fun index =>
                  conversation.ranges[index]?)).view, some _) =
            Except.ok _
        rw [same]
      · intro range reused
        obtain ⟨index, _, isRange⟩ := Option.bind_eq_some_iff.mp reused
        exact kept.fresh range (List.mem_of_getElem? isRange)

theorem kept_append {id : ℕ} {draft : EntryDraft β} (selects : (Event.append id draft).Selects) :
    Kept (conversation.step (.append id draft)) := by
  unfold Conversation.step
  dsimp only
  split
  · rename_i minted
    rw [List.all_eq_true] at minted
    have ordered : Ordered (conversation.history ++ [draft.record id]) := by
      apply List.pairwise_append.mpr
      refine ⟨kept.ordered, List.pairwise_singleton _ _, ?_⟩
      intro entry member other isOther
      rw [List.mem_singleton.mp isOther]
      exact of_decide_eq_true (minted entry member)
    refine ⟨ordered, ?_, ?_⟩
    · intro entry member head isHead
      rcases List.mem_append.mp member with isOld | isNew
      · exact kept.selecting entry isOld head isHead
      · rw [List.mem_singleton.mp isNew] at isHead ⊢
        obtain ⟨drafted, isDrafted, rfl⟩ := Option.map_eq_some_iff.mp isHead
        cases drafted with
        | self => exact Nat.le_refl _
        | entry selected => exact selects selected isDrafted
    · intro range member
      exact fresh_append ordered (kept.fresh range member)
  · exact kept

theorem kept_read (at_ previous : Option ℕ) :
    Kept (conversation.step (.read at_ previous)) := by
  have spec := read_spec kept at_ previous
  unfold Conversation.step
  dsimp only
  split
  · rename_i view range isRead
    refine ⟨kept.ordered, kept.selecting, ?_⟩
    intro other member
    rcases List.mem_append.mp member with isOld | isNew
    · exact kept.fresh other isOld
    · rw [List.mem_singleton.mp isNew]
      rw [spec] at isRead
      cases captured : captureContextBounds conversation.history at_ with
      | error =>
        rw [captured] at isRead
        cases isRead
      | ok bounds =>
        rw [captured] at isRead
        cases bounds with
        | none => cases isRead
        | some bounds =>
          cases isRead
          have isCaptured := captured_of_bounds captured
          exact ⟨isCaptured.tail, isCaptured.head, rfl⟩
  · exact kept

end

def run (events : List (Event β)) : Conversation β :=
  Runs.after Conversation.step Conversation.initial events

theorem kept_run {events : List (Event β)} (selects : ∀ event ∈ events, event.Selects) :
    Kept (run events) := by
  apply Runs.after_preserves Conversation.step Event.Selects Kept _ _ selects
  · intro conversation event selectsHere kept
    cases event with
    | append id draft => exact kept_append kept selectsHere
    | read at_ previous => exact kept_read kept at_ previous
  · exact
      ⟨List.Pairwise.nil, fun _ member => absurd member List.not_mem_nil,
        fun _ member => absurd member List.not_mem_nil⟩

/-- Where head markers select themselves or earlier entries, every read gives
what a derivation from scratch gives. -/
theorem read_eq_readContext (events : List (Event β)) (selects : ∀ event ∈ events, event.Selects)
    (at_ previous : Option ℕ) :
    ((run events).read at_ previous).map Prod.fst = readContext (run events).history at_ := by
  rw [read_spec (kept_run selects)]
  unfold readContext
  cases captureContextBounds (run events).history at_ with
  | error => rfl
  | ok bounds =>
    cases bounds with
    | none | some bounds => rfl

/-- A call, its late result and a second read that extends the first. -/
def callThenResult : List (Event Unit) :=
  [.append 2 ⟨"pi.user", some [.user ()], none, none⟩,
    .append 3
      ⟨"pi.assistant", some [.assistant [.toolCall "a" "read" ()] .toolUse 0 ()], none, none⟩,
    .read none none,
    .append 5 ⟨"pi.tool-result", some [.toolResult "a" "read" (.given ()) false 0], none, none⟩]

theorem read_eq_readContext_callThenResult :
    ((run callThenResult).read none (some 0)).map Prod.fst =
      readContext (run callThenResult).history none :=
  read_eq_readContext callThenResult (by simp [callThenResult, Event.Selects]) none (some 0)

/-- A marker that selects an entry after the range read so far. -/
def selectsLater : List (Event Unit) :=
  [.append 2 ⟨"pi.compaction", none, some (.entry 4), none⟩, .read none none,
    .append 3 ⟨"pi.user", some [.user ()], none, none⟩]

/-- Reads that extend a range miss that the marker skips the entries before the
one it selects. -/
theorem extended_read_ignores_later_head :
    ¬∀ (events : List (Event Unit)) (at_ previous : Option ℕ),
      ((run events).read at_ previous).map Prod.fst = readContext (run events).history at_ := by
  intro always
  have same := always selectsLater none (some 0)
  revert same
  decide +kernel

end PiEmbodied.Durable.Context
