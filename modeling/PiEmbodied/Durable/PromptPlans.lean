import PiEmbodied.Durable.Compaction
import PiEmbodied.Durable.Prompt

/-!
# Contexts after planned system entries

The context that the planned `pi.system` entries leave, and when it has the
wanted sections and tools, so that nothing more is planned.
-/

namespace PiEmbodied.Durable.Prompt

open Context

variable {α : Type}

/-! ## System messages of a context -/

theorem systemMessages_append (first second : List (Located (Body α))) :
    systemMessages (first ++ second) = systemMessages first ++ systemMessages second :=
  List.filterMap_append

theorem systemOf_of_role {message : Message (Body α)} (notSystem : message.role ≠ .system) :
    systemOf message = none := by
  cases message with
  | system body => exact absurd rfl notSystem
  | user body | assistant content stopReason timestamp body
  | toolResult toolCallId toolName content isError timestamp => rfl

theorem systemMessages_nothing {messages : List (Located (Body α))}
    (noSystem : ∀ located ∈ messages, located.role ≠ .system) : systemMessages messages = [] := by
  rw [systemMessages, List.filterMap_eq_nil_iff]
  intro located member
  exact systemOf_of_role (noSystem located member)

theorem role_of_result (rest : List (Located (Body α))) (call : String × String) (timestamp : ℕ) :
    ((rest.find? fun candidate => candidate.message.isResultOf call.1).getD
        (missingResult call timestamp)).role ≠ .system := by
  cases found : rest.find? fun candidate => candidate.message.isResultOf call.1 with
  | none =>
    rw [Option.getD_none]
    exact fun same => by cases same
  | some candidate =>
    have isResult := List.find?_some found
    rw [Option.getD_some, Located.role]
    cases isMessage : candidate.message with
    | system body =>
      rw [isMessage] at isResult
      cases isResult
    | user body | assistant content stopReason timestamp body
    | toolResult toolCallId toolName content isError timestamp => exact fun same => by cases same

variable (messages : List (Located (Body α))) (sections : Option (List (String × Option String)))

theorem systemMessages_orderToolResults :
    systemMessages (orderToolResults messages) = systemMessages messages := by
  induction messages with
  | nil => rfl
  | cons message rest ih =>
    have split :
        systemMessages (message :: rest) = systemMessages [message] ++ systemMessages rest :=
      systemMessages_append [message] rest
    rw [orderToolResults]
    split_ifs with isResult
    · have nothing : systemMessages [message] = [] := by
        apply systemMessages_nothing
        intro located member
        rw [List.mem_singleton.mp member, isResult]
        exact fun same => by cases same
      rw [ih, split, nothing, List.nil_append]
    · have nothing (results : List (Located (Body α))) :
          systemMessages
              (message.message.calls.map fun call =>
                (results.find? fun candidate =>
                  candidate.message.isResultOf call.1).getD
                    (missingResult call message.message.timestamp)) = [] := by
        apply systemMessages_nothing
        intro located member
        obtain ⟨call, _, rfl⟩ := List.mem_map.mp member
        exact role_of_result results call _
      rw [List.cons_append, ← List.singleton_append, systemMessages_append,
        systemMessages_append, nothing, ih,
        List.nil_append, split]

theorem systemMessages_settle (settled open_ : List (Located (Body α))) :
    systemMessages (settle settled open_).1 ++ systemMessages (settle settled open_).2 =
      systemMessages settled ++ systemMessages open_ := by
  rw [settle]
  split
  · rename_i last _
    rw [systemMessages_append, systemMessages_orderToolResults,
      List.append_assoc, ← systemMessages_append, List.take_append_drop]
  · rfl

theorem systemMessages_leadWithSystem (baseline : Baseline (Body α)) :
    systemMessages (leadWithSystem messages baseline) =
      systemMessages messages := by
  rw [leadWithSystem]
  split
  · rfl
  · rfl
  · rename_i index isFirst
    obtain ⟨inside, _, before⟩ := List.findIdx?_eq_some_iff_getElem.mp isFirst
    rw [List.getElem?_eq_getElem inside]
    dsimp only
    split_ifs
    · rfl
    · have nothing : systemMessages (messages.take (index + 1)) = [] := by
        apply systemMessages_nothing
        intro located member
        obtain ⟨place, placeInside, rfl⟩ := List.mem_take_iff_getElem.mp member
        have notSystem := before place (by omega)
        simpa using notSystem
      have parts :
          messages =
            messages.take (index + 1) ++ (messages[index + 1] :: messages.drop (index + 2)) := by
        rw [← List.drop_eq_getElem_cons inside, List.take_append_drop]
      conv_rhs => rw [parts, systemMessages_append, nothing, List.nil_append]
      rw [List.cons_append, ← List.singleton_append, systemMessages_append,
        systemMessages_append, nothing, List.nil_append,
        ← systemMessages_append, List.singleton_append]

theorem systemMessages_derived
    (bounds : ContextBounds (Body α)) (entries : List (EntryRecord (Body α))) :
    systemMessages (deriveRange bounds entries).view.messages =
      systemMessages
        (deriveRange bounds entries).view.contributions.flatten := by
  have both := systemMessages_settle [] (deriveRange bounds entries).view.contributions.flatten
  rw [deriveRange] at both ⊢
  dsimp only at both ⊢
  rw [systemMessages_leadWithSystem, systemMessages_append, systemMessages_orderToolResults]
  exact both

/-! ## Contexts at the tail -/

structure Newest (history : List (EntryRecord (Body α))) (view : ContextView (Body α)) : Prop where
  head : view.head = (history.filter fun entry => entry.head.isSome).getLast?
  entries :
    view.entries =
      view.head.toList ++
        (history.filter fun entry => rangeStart view.head ≤ entry.id).filter
          fun entry => entry.head.isNone
  contributions :
    view.contributions = view.entries.map fun entry =>
      contribute entry
        (winnerOf (history.filter fun entry => rangeStart view.head ≤ entry.id) entry.id)
  system : systemMessages view.messages = systemMessages view.contributions.flatten

variable {history : List (EntryRecord (Body α))} {view : ContextView (Body α)}

theorem readContext_newest
    (ordered : Ordered history) (isView : readContext history none = .ok view) :
    Newest history view := by
  rcases List.eq_nil_or_concat history with isEmpty | ⟨earlier, newest, is⟩
  · subst isEmpty
    rw [readContext_empty isView]
    exact ⟨rfl, rfl, rfl, rfl⟩
  · rw [List.concat_eq_append] at is
    subst is
    obtain ⟨isHead, isEntries, isContributions⟩ := context_tail ordered isView
    refine ⟨?_, isEntries, isContributions, ?_⟩
    · rw [isHead, findLatestHeadMarker]
      congr 1
      apply List.filter_congr
      intro entry member
      have isLast : entry.id ≤ newest.id := by
        rcases List.mem_append.mp member with before | isNewest
        · exact Nat.le_of_lt
            ((List.pairwise_append.mp ordered).2.2 entry before newest
              (List.mem_singleton_self newest))
        · rw [List.mem_singleton.mp isNewest]
      simp [isLast]
    · rw [readContext, captureContextBounds_tail] at isView
      cases isView
      exact systemMessages_derived _ _

theorem exists_view (history : List (EntryRecord (Body α))) :
    ∃ view, readContext history none = .ok view := by
  rcases List.eq_nil_or_concat history with isEmpty | ⟨earlier, newest, is⟩
  · subst isEmpty
    exact ⟨emptyView, rfl⟩
  · rw [is, List.concat_eq_append, readContext, captureContextBounds_tail]
    exact ⟨_, rfl⟩

/-- New entries that are no head markers extend the context. -/
structure Extends (history added : List (EntryRecord (Body α))) : Prop where
  ordered : Ordered (history ++ added)
  noHeads : ∀ entry ∈ added, entry.head = none

theorem Newest.head_mem (newest : Newest history view) {marker : EntryRecord (Body α)}
    (isHead : view.head = some marker) : marker ∈ history := by
  have isLast := newest.head.symm.trans isHead
  exact List.mem_of_mem_filter (List.mem_of_getLast? isLast)

variable {after : ContextView (Body α)} {added : List (EntryRecord (Body α))}

theorem Newest.append (newest : Newest history view) (newestAfter : Newest (history ++ added) after)
    (selecting : Selecting history) (extends_ : Extends history added) :
    after.head = view.head ∧ after.entries = view.entries ++ added ∧
      ((history ++ added).filter fun entry =>
          rangeStart after.head ≤ entry.id) =
        (history.filter fun entry => rangeStart view.head ≤ entry.id) ++
          added := by
  have sameHead : after.head = view.head := by
    have noMarkers : (added.filter fun entry => entry.head.isSome) = [] := by
      rw [List.filter_eq_nil_iff]
      intro entry member
      rw [extends_.noHeads entry member]
      exact Bool.false_ne_true
    rw [newestAfter.head, newest.head, List.filter_append, noMarkers, List.append_nil]
  have isLater : ∀ entry ∈ added, rangeStart view.head ≤ entry.id := by
    intro entry member
    cases isHead : view.head with
    | none => exact Nat.zero_le _
    | some marker =>
      have isEntry := newest.head_mem isHead
      have less := (List.pairwise_append.mp extends_.ordered).2.2 marker isEntry entry member
      rw [rangeStart, Option.bind_some]
      cases isStart : marker.head with
      | none => exact Nat.zero_le _
      | some start =>
        have before := selecting marker isEntry start isStart
        exact Nat.le_trans before (Nat.le_of_lt less)
  have isScan :
      ((history ++ added).filter fun entry =>
          rangeStart after.head ≤ entry.id) =
        (history.filter fun entry => rangeStart view.head ≤ entry.id) ++
          added := by
    have all :
        (added.filter fun entry => rangeStart view.head ≤ entry.id) =
          added := by
      rw [List.filter_eq_self]
      intro entry member
      exact decide_eq_true (isLater entry member)
    rw [sameHead, List.filter_append, all]
  have others : (added.filter fun entry => entry.head.isNone) = added := by
    rw [List.filter_eq_self]
    intro entry member
    rw [extends_.noHeads entry member]
    rfl
  refine ⟨sameHead, ?_, isScan⟩
  rw [newestAfter.entries, isScan, sameHead, List.filter_append, others,
    newest.entries, List.append_assoc]

/-! ## Planned entries -/

def entryOf (message : SystemMessage) : EntryDraft (Body α) :=
  { kind := "pi.system", model := some [.system (.system message)] }

def messageOf (sections : Option (List (String × Option String)))
    (tools : Option ToolChanges) (timestamp : ℕ) : SystemMessage :=
  { content := ""
    sections := sections
    toolsRemoved := (tools.map ToolChanges.toolsRemoved).filter fun removed => !removed.isEmpty
    toolsAdded := (tools.map ToolChanges.toolsAdded).filter fun added => !added.isEmpty
    timestamp := timestamp }

theorem systemEntry_eq (tools : Option ToolChanges) (timestamp : ℕ) :
    (systemEntry sections tools timestamp : EntryDraft (Body α)) =
      entryOf (messageOf sections tools timestamp) :=
  rfl

theorem getD_nonempty {β : Type} (items : List β) :
    ((some items).filter fun items => !items.isEmpty).getD [] = items := by
  cases items with
  | nil | cons item rest => rfl

theorem offer_messageOf (changes : ToolChanges) (timestamp : ℕ) (tools : OrderedMap String Tool) :
    (messageOf sections (some changes) timestamp).offer tools =
      changes.apply tools := by
  rw [offer_eq, ToolChanges.apply, messageOf]
  simp only [Option.map_some, getD_nonempty]

theorem foldl_patches (sections : List (List (String × Option String))) (timestamp : ℕ) :
    (∀ shown : OrderedMap String String,
        (sections.map fun patch =>
            messageOf (some patch) none timestamp).foldl SystemMessage.show
            shown =
          sections.foldl OrderedMap.patch shown) ∧
      ∀ tools : OrderedMap String Tool,
        (sections.map fun patch =>
            messageOf (some patch) none timestamp).foldl SystemMessage.offer
            tools =
          tools := by
  constructor
  · intro shown
    rw [List.foldl_map]
    rfl
  · intro tools
    induction sections with
    | nil => rfl
    | cons patch rest ih => exact ih

theorem planned_spec (noBaseline : needsBaseline view = false)
    (desired : OrderedMap String String) (tools : List Tool) (timestamp : ℕ) :
    ∃ messages : List SystemMessage,
      planSystemEntries view desired tools timestamp = messages.map entryOf ∧
        (∀ shown,
          messages.foldl SystemMessage.show shown =
            (planSections (replaySections view.messages) desired).foldl OrderedMap.patch shown) ∧
        ∀ offered,
          messages.foldl SystemMessage.offer offered =
            (planTools (getCurrentTools view.messages) tools).apply
              offered := by
  rw [planSystemEntries, noBaseline]
  generalize planSections (replaySections view.messages) desired = sections
  generalize planTools (getCurrentTools view.messages) tools = changes
  dsimp only
  rw [if_neg Bool.false_ne_true]
  split
  · rename_i noChanges
    rw [Bool.and_eq_true, List.isEmpty_iff, List.isEmpty_iff] at noChanges
    have nothing : changes = ⟨[], []⟩ := by
      cases changes
      rw [ToolChanges.mk.injEq]
      exact noChanges
    obtain ⟨patches, same⟩ := foldl_patches sections timestamp
    refine ⟨sections.map fun patch => messageOf (some patch) none timestamp, ?_, patches, ?_⟩
    · rw [List.map_map]
      rfl
    · intro offered
      rw [same, nothing]
      rfl
  · split
    · rename_i noSections
      rw [List.isEmpty_iff] at noSections
      subst noSections
      refine ⟨[messageOf none (some changes) timestamp], rfl, ?_, ?_⟩
      · intro shown
        rfl
      · intro offered
        exact offer_messageOf none changes timestamp offered
    · rename_i someSections
      obtain ⟨earlier, last, isSections⟩ : ∃ earlier last, sections = earlier ++ [last] := by
        rcases List.eq_nil_or_concat sections with isEmpty | ⟨earlier, last, is⟩
        · rw [isEmpty] at someSections
          exact absurd rfl someSections
        · exact ⟨earlier, last, by rw [is, List.concat_eq_append]⟩
      subst isSections
      have init :
          (earlier.mapIdx fun index patch =>
              (systemEntry (some patch)
                (if index = (earlier ++ [last]).length - 1 then some changes
                  else none)
                timestamp : EntryDraft (Body α))) =
            earlier.map fun patch =>
              entryOf (messageOf (some patch) none timestamp) := by
        apply List.ext_getElem
        · rw [List.length_mapIdx, List.length_map]
        · intro index inside _
          rw [List.length_mapIdx] at inside
          have notLast : index ≠ (earlier ++ [last]).length - 1 := by
            rw [List.length_append, List.length_singleton]
            omega
          rw [List.getElem_mapIdx, List.getElem_map, if_neg notLast, systemEntry_eq]
      obtain ⟨patches, same⟩ := foldl_patches earlier timestamp
      refine
        ⟨(earlier.map fun patch => messageOf (some patch) none timestamp) ++
          [messageOf (some last) (some changes) timestamp], ?_, ?_, ?_⟩
      · rw [List.mapIdx_concat, init, List.map_append, List.map_map,
          if_pos (by simp), systemEntry_eq]
        rfl
      · intro shown
        rw [List.foldl_append, patches, List.foldl_append]
        rfl
      · intro offered
        rw [List.foldl_append, same]
        exact offer_messageOf (some last) changes timestamp offered

/-! ## The context after a plan -/

def appended (history : List (EntryRecord (Body α)))
    (drafts : List (EntryDraft (Body α))) (mint : ℕ → ℕ) :
    List (EntryRecord (Body α)) :=
  history ++ drafts.mapIdx fun index draft => draft.record (mint index)

structure Minting (history : List (EntryRecord (Body α))) (mint : ℕ → ℕ) :
    Prop where
  ascending : ∀ first second, first < second → mint first < mint second
  fresh : ∀ entry ∈ history, ∀ index, entry.id < mint index

variable {mint : ℕ → ℕ}

theorem extends_appended (settled : Settled history) (minting : Minting history mint)
    {drafts : List (EntryDraft (Body α))} (noHeads : ∀ draft ∈ drafts, draft.head = none) :
    Extends history (drafts.mapIdx fun index draft => draft.record (mint index)) := by
  constructor
  · apply List.pairwise_append.mpr
    refine ⟨settled.ordered, ?_, ?_⟩
    · rw [List.pairwise_iff_getElem]
      intro first second firstInside secondInside less
      rw [List.getElem_mapIdx, List.getElem_mapIdx]
      exact minting.ascending first second less
    · intro entry member new isNew
      obtain ⟨index, inside, rfl⟩ := List.mem_mapIdx.mp isNew
      exact minting.fresh entry member index
  · intro entry member
    obtain ⟨index, inside, rfl⟩ := List.mem_mapIdx.mp member
    rw [EntryDraft.record, noHeads _ (List.getElem_mem inside)]
    rfl

theorem winnerOf_later (settled : Settled history) {target : ℕ}
    (later : ∀ entry ∈ history, entry.id < target) (test : EntryRecord (Body α) → Bool) :
    winnerOf (history.filter test) target = none := by
  have nothing :
      ((history.filter test).flatMap EntryRecord.winners).filter (fun edit => edit.1 = target) =
        [] := by
    rw [List.filter_eq_nil_iff]
    intro edit member isTarget
    obtain ⟨entry, isEntry, isEdit⟩ := List.mem_flatMap.mp member
    have inHistory := List.mem_of_mem_filter isEntry
    have before := settled.earlier entry inHistory edit isEdit
    have less := later entry inHistory
    rw [decide_eq_true_eq] at isTarget
    omega
  rw [winnerOf, get_winners _ target rfl, nothing]
  rfl

theorem systemMessages_flatten (contributions : List (List (Located (Body α)))) :
    systemMessages contributions.flatten = (contributions.map systemMessages).flatten :=
  List.filterMap_flatten

theorem systemMessages_extended (settled : Settled history) (selecting : Selecting history)
    (newest : Newest history view) (newestAfter : Newest (history ++ added) after)
    (extends_ : Extends history added) (noEdits : ∀ entry ∈ added, entry.edits = none) :
    systemMessages after.messages =
      systemMessages view.messages ++
        added.flatMap fun entry => systemMessages (contribute entry none) := by
  obtain ⟨sameHead, isEntries, isScan⟩ := newest.append newestAfter selecting extends_
  have sameWinner (target : ℕ) :
      winnerOf ((history ++ added).filter fun entry => rangeStart after.head ≤ entry.id) target =
        winnerOf (history.filter fun entry => rangeStart view.head ≤ entry.id) target := by
    rw [isScan, winnerOf, flatMap_winners_added _ noEdits, winnerOf]
  have isAdded :
      (added.map fun entry =>
          systemMessages
            (contribute entry
              (winnerOf (history.filter fun entry => rangeStart view.head ≤ entry.id)
                entry.id))).flatten =
        added.flatMap fun entry => systemMessages (contribute entry none) := by
    rw [List.flatMap_def]
    congr 1
    apply List.map_congr_left
    intro entry member
    rw [winnerOf_later settled]
    exact fun other isOther =>
      (List.pairwise_append.mp extends_.ordered).2.2 other isOther entry member
  rw [newestAfter.system, newestAfter.contributions, isEntries,
    newest.system, newest.contributions, systemMessages_flatten,
    systemMessages_flatten, List.map_map, List.map_map, List.map_append,
    List.flatten_append]
  simp only [Function.comp_def, sameWinner]
  rw [isAdded]

theorem systemMessages_appended (settled : Settled history) (selecting : Selecting history)
    (newest : Newest history view) (minting : Minting history mint) (messages : List SystemMessage)
    (newestAfter : Newest (appended history (messages.map entryOf) mint) after) :
    systemMessages after.messages = systemMessages view.messages ++ messages := by
  have noHeads : ∀ draft ∈ (messages.map entryOf : List (EntryDraft (Body α))),
      draft.head = none ∧ draft.edits = none := by
    intro draft member
    obtain ⟨message, _, rfl⟩ := List.mem_map.mp member
    exact ⟨rfl, rfl⟩
  have extends_ := extends_appended settled minting fun draft member => (noHeads draft member).1
  rw [systemMessages_extended settled selecting newest newestAfter extends_]
  · congr 1
    rw [List.flatMap_def]
    have each :
        (((messages.map entryOf : List (EntryDraft (Body α))).mapIdx
              fun index draft => draft.record (mint index)).map fun entry =>
            systemMessages (contribute entry none)) =
          messages.map fun message => [message] := by
      apply List.ext_getElem
      · simp
      · intro index inside _
        simp only [List.getElem_map, List.getElem_mapIdx]
        rfl
    rw [each, ← List.flatMap_def]
    exact List.flatMap_singleton' messages
  · intro entry member
    obtain ⟨index, inside, rfl⟩ := List.mem_mapIdx.mp member
    exact (noHeads _ (List.getElem_mem inside)).2

/-- The messages that stay when a baseline omits the `pi.system` entries: those
of the entries of other kinds. -/
def keptMessages (view : ContextView (Body α)) : List (Located (Body α)) :=
  (((view.entries.zip view.contributions).filter fun entry =>
      !isSystemEntry entry.1).map Prod.snd).flatten

theorem get_omitted (omitted : List ℕ) (edits : List (ℕ × Winner (Body α))) (target : ℕ) :
    Entries.get
        ((omitted.map fun id => (id, Winner.omit)).foldl
          (fun edits edit => Entries.set edits edit.1 edit.2) edits)
        target =
      if target ∈ omitted then some .omit else Entries.get edits target := by
  induction omitted generalizing edits with
  | nil => rfl
  | cons id rest ih =>
    rw [List.map_cons, List.foldl_cons, ih, Entries.get_set]
    by_cases isLater : target ∈ rest
    · simp [isLater]
    · by_cases isFirst : target = id
      · simp [isFirst]
      · simp [isLater, isFirst]

theorem flatten_map_filter {β γ : Type} {items : List β} {part : β → List γ} {keep : β → Bool}
    (nothing : ∀ item ∈ items, keep item = false → part item = []) :
    (items.map part).flatten = ((items.filter keep).map part).flatten := by
  induction items with
  | nil => rfl
  | cons item rest ih =>
    have isRest := ih fun later member => nothing later (List.mem_cons_of_mem _ member)
    rw [List.map_cons, List.flatten_cons, isRest, List.filter_cons]
    cases isKept : keep item with
    | true => rw [if_pos rfl, List.map_cons, List.flatten_cons]
    | false =>
      rw [nothing item List.mem_cons_self isKept, List.nil_append, if_neg Bool.false_ne_true]

theorem systemMessages_baseline (settled : Settled history) (selecting : Selecting history)
    (newest : Newest history view) (minting : Minting history mint)
    (message : SystemMessage) {edits : Option (List (ContextEdit (Body α)))}
    (omits : edits.getD [] = (view.entries.filter isSystemEntry).map fun entry => ⟨entry.id, .omit⟩)
    (newestAfter :
      Newest
        (appended history [{ entryOf message with edits := edits }] mint)
        after) :
    systemMessages after.messages = systemMessages (keptMessages view) ++ [message] := by
  let baseline : EntryRecord (Body α) :=
    { (entryOf message : EntryDraft (Body α)) with edits := edits }.record (mint 0)
  have noHeads :
      ∀ draft ∈ [({ entryOf message with edits := edits } : EntryDraft (Body α))],
        draft.head = none := by
    intro draft member
    rw [List.mem_singleton.mp member]
    rfl
  have extends_ : Extends history [baseline] := extends_appended settled minting noHeads
  have isHistory :
      appended history [{ entryOf message with edits := edits }] mint = history ++ [baseline] :=
    rfl
  rw [isHistory] at newestAfter
  obtain ⟨_, isEntries, isScan⟩ := newest.append newestAfter selecting extends_
  have inHistory : ∀ entry ∈ view.entries, entry ∈ history := by
    intro entry member
    rw [newest.entries] at member
    rcases List.mem_append.mp member with isHead | isOther
    · rw [Option.mem_toList] at isHead
      exact newest.head_mem isHead
    · exact List.mem_of_mem_filter (List.mem_of_mem_filter isOther)
  have isWinners :
      baseline.winners =
        ((view.entries.filter isSystemEntry).map EntryRecord.id).map fun id =>
          (id, Winner.omit) := by
    have isEdits : baseline.edits.getD [] = edits.getD [] := rfl
    rw [EntryRecord.winners, isEdits, omits]
    apply List.ext_getElem
    · simp
    · intro index inside _
      simp
  have omitted (target : ℕ) :
      winnerOf
          ((history.filter fun entry => rangeStart view.head ≤ entry.id) ++ [baseline])
          target =
        if target ∈ (view.entries.filter isSystemEntry).map EntryRecord.id then
          some .omit
        else
          winnerOf
            (history.filter fun entry => rangeStart view.head ≤ entry.id)
            target := by
    rw [winnerOf, List.flatMap_append, List.foldl_append,
      List.flatMap_singleton, isWinners, get_omitted, winnerOf]
  have ownContribution :
      contribute baseline
          (winnerOf ((history.filter fun entry => rangeStart view.head ≤ entry.id) ++ [baseline])
            baseline.id) =
        contribute baseline none := by
    have notOmitted : baseline.id ∉ (view.entries.filter isSystemEntry).map EntryRecord.id := by
      intro member
      obtain ⟨entry, isEntry, sameId⟩ := List.mem_map.mp member
      have less := minting.fresh entry (inHistory entry (List.mem_of_mem_filter isEntry)) 0
      exact Nat.ne_of_lt less sameId
    have isNone :=
      winnerOf_later settled (fun entry member => minting.fresh entry member 0)
        fun entry => rangeStart view.head ≤ entry.id
    have isId : baseline.id = mint 0 := rfl
    rw [omitted, if_neg notOmitted, isId, isNone]
  have isKept :
      (view.entries.map fun entry =>
          systemMessages
            (contribute entry
              (winnerOf
                ((history.filter fun entry => rangeStart view.head ≤ entry.id) ++ [baseline])
                entry.id))).flatten =
        systemMessages (keptMessages view) := by
    have isZip :
        (view.entries.zip view.contributions).filter (fun entry => !isSystemEntry entry.1) =
          (view.entries.filter fun entry => !isSystemEntry entry).map
            fun entry =>
              (entry,
                contribute entry
                  (winnerOf (history.filter fun entry => rangeStart view.head ≤ entry.id)
                    entry.id)) := by
      rw [newest.contributions, ← List.map_prod_left_eq_zip, List.filter_map]
      rfl
    have parts :=
      @flatten_map_filter _ _ view.entries
        (fun entry =>
          systemMessages
            (contribute entry
              (winnerOf
                ((history.filter fun entry => rangeStart view.head ≤ entry.id) ++ [baseline])
                entry.id)))
        fun entry => !isSystemEntry entry
    rw [keptMessages, isZip, systemMessages_flatten, List.map_map, List.map_map, parts]
    · congr 1
      apply List.map_congr_left
      intro entry member
      obtain ⟨isEntry, isOther⟩ := List.mem_filter.mp member
      have notOmitted : entry.id ∉ (view.entries.filter isSystemEntry).map EntryRecord.id := by
        intro isOmitted
        obtain ⟨other, isSystem, sameId⟩ := List.mem_map.mp isOmitted
        obtain ⟨inView, ofKind⟩ := List.mem_filter.mp isSystem
        have same :=
          eq_of_same_id settled.ordered (inHistory other inView) (inHistory entry isEntry) sameId
        rw [same] at ofKind
        rw [ofKind] at isOther
        cases isOther
      rw [omitted, if_neg notOmitted]
      rfl
    · intro entry member isSystem
      rw [Bool.not_eq_false'] at isSystem
      have isOmitted : entry.id ∈ (view.entries.filter isSystemEntry).map EntryRecord.id :=
        List.mem_map_of_mem (List.mem_filter.mpr ⟨member, isSystem⟩)
      rw [omitted, if_pos isOmitted]
      rfl
  rw [newestAfter.system, newestAfter.contributions, isEntries, isScan,
    systemMessages_flatten, List.map_map, List.map_append, List.flatten_append]
  have isBaseline :
      ([baseline].map
          (systemMessages ∘ fun entry =>
            contribute entry
              (winnerOf
                ((history.filter fun entry => rangeStart view.head ≤ entry.id) ++ [baseline])
                entry.id))).flatten =
        [message] := by
    rw [List.map_singleton, Function.comp_apply, ownContribution]
    rfl
  rw [isBaseline, ← isKept]
  rfl

/-! ## Convergence -/

/-- A context whose system messages give the wanted sections and tools, so that
nothing more is planned. -/
structure InEffect (view : ContextView (Body α))
    (desired : OrderedMap String String) (tools : List Tool) : Prop where
  shown : replaySections view.messages = desired
  offered : (getCurrentTools view.messages).map Tool.declaration = tools.map Tool.declaration
  again : ∀ timestamp, planSystemEntries view desired tools timestamp = []

def Converges (view : ContextView (Body α))
    (desired : OrderedMap String String) (tools : List Tool) : Prop :=
  if needsBaseline view then
    Follows (replaySections (keptMessages view)).keys desired.keys ∧
      (getCurrentTools (keptMessages view)).map Tool.name <+: tools.map Tool.name
  else SectionsSettle (replaySections view.messages) desired

instance (view : ContextView (Body α)) (desired : OrderedMap String String)
    (tools : List Tool) : Decidable (Converges view desired tools) :=
  inferInstanceAs
    (Decidable
      (if needsBaseline view then
        Follows (replaySections (keptMessages view)).keys desired.keys ∧
          (getCurrentTools (keptMessages view)).map Tool.name <+: tools.map Tool.name
      else SectionsSettle (replaySections view.messages) desired))

variable {tools : List Tool}

theorem plan_nothing (noBaseline : needsBaseline view = false) {desired : OrderedMap String String}
    (distinct : (tools.map Tool.name).Nodup) (sections : replaySections view.messages = desired)
    (same : (getCurrentTools view.messages).map Tool.declaration = tools.map Tool.declaration)
    (timestamp : ℕ) : planSystemEntries view desired tools timestamp = [] := by
  rw [planSystemEntries, noBaseline, sections, planSections_same, planTools_same distinct same]
  rfl

theorem noBaseline_appended (sameHead : after.head = view.head)
    (isEntries : after.entries = view.entries ++ added)
    (isLater :
      needsBaseline view = true → ∀ head ∈ view.head,
        ∃ entry ∈ added, isSystemEntry entry = true ∧ head.id < entry.id) :
    needsBaseline after = false := by
  rw [needsBaseline, sameHead]
  cases isHead : view.head with
  | none => rfl
  | some head =>
    dsimp only
    rw [Bool.not_eq_false', isEntries, List.any_append, Bool.or_eq_true]
    cases isBaseline : needsBaseline view with
    | false =>
      rw [needsBaseline, isHead] at isBaseline
      dsimp only at isBaseline
      exact Or.inl ((Bool.not_eq_false' _).mp isBaseline)
    | true =>
      obtain ⟨entry, member, isSystem, less⟩ := isLater isBaseline head isHead
      apply Or.inr
      rw [List.any_eq_true]
      refine ⟨entry, member, ?_⟩
      rw [isSystem, Bool.true_and]
      exact decide_eq_true less

theorem replay_appended (first : List SystemMessage) (added : List SystemMessage) :
    (first ++ added).foldl SystemMessage.show .empty =
      added.foldl SystemMessage.show (first.foldl SystemMessage.show .empty) :=
  List.foldl_append

theorem baseline_spec (isBaseline : needsBaseline view = true)
    (desired : OrderedMap String String) (tools : List Tool) (timestamp : ℕ) :
    ∃ edits : Option (List (ContextEdit (Body α))),
      planSystemEntries view desired tools timestamp =
          [{ entryOf
              (messageOf
                (some (fromEntries (desired.entries.map fun entry => (entry.1, some entry.2))))
                (some ⟨[], tools.map toToolDeclaration⟩) timestamp) with
              edits := edits }] ∧
        edits.getD [] =
          (view.entries.filter isSystemEntry).map fun entry =>
            ⟨entry.id, .omit⟩ := by
  rw [planSystemEntries, isBaseline, if_pos rfl]
  dsimp only
  split
  · rename_i noEdits
    rw [List.isEmpty_iff] at noEdits
    exact ⟨none, rfl, noEdits.symm⟩
  · exact ⟨some _, rfl, rfl⟩

theorem plan_noHeads (view : ContextView (Body α)) (desired : OrderedMap String String)
    (tools : List Tool) (timestamp : ℕ) :
    ∀ draft ∈ planSystemEntries view desired tools timestamp, draft.head = none := by
  intro draft member
  cases isBaseline : needsBaseline view with
  | true =>
    obtain ⟨edits, isPlan, _⟩ := baseline_spec isBaseline desired tools timestamp
    rw [isPlan] at member
    rw [List.mem_singleton.mp member]
    rfl
  | false =>
    obtain ⟨messages, isPlan, _⟩ := planned_spec isBaseline desired tools timestamp
    rw [isPlan] at member
    obtain ⟨message, _, rfl⟩ := List.mem_map.mp member
    rfl

theorem patched_converges_iff (settled : Settled history) (selecting : Selecting history)
    (newest : Newest history view) (noBaseline : needsBaseline view = false)
    (minting : Minting history mint) (desired : OrderedMap String String)
    (distinct : (tools.map Tool.name).Nodup) (timestamp : ℕ)
    (newestAfter :
      Newest
        (appended history (planSystemEntries view desired tools timestamp) mint)
        after) :
    InEffect after desired tools ↔ SectionsSettle (replaySections view.messages) desired := by
  have noHeads := plan_noHeads view desired tools timestamp
  obtain ⟨messages, isPlan, shows, offers⟩ := planned_spec noBaseline desired tools timestamp
  rw [isPlan] at newestAfter noHeads
  have isReplay := systemMessages_appended settled selecting newest minting messages newestAfter
  obtain ⟨sameHead, isEntries, _⟩ :=
    newest.append newestAfter selecting (extends_appended settled minting noHeads)
  have stillNone : needsBaseline after = false := by
    apply noBaseline_appended sameHead isEntries
    intro isBaseline
    rw [noBaseline] at isBaseline
    cases isBaseline
  have isSections :
      replaySections after.messages =
        (planSections (replaySections view.messages) desired).foldl
          OrderedMap.patch (replaySections view.messages) := by
    rw [replaySections, isReplay, replay_appended, ← replaySections, shows]
  have isTools :
      (getCurrentTools after.messages).map Tool.declaration = tools.map Tool.declaration := by
    have named := named_replayed (systemMessages view.messages)
    have planned := planTools_spec named distinct
    rw [getCurrentTools, isReplay, List.foldl_append, offers]
    exact planned
  rw [← planSections_iff, ← isSections]
  constructor
  · intro inEffect
    exact inEffect.shown
  · intro same
    exact ⟨same, isTools, plan_nothing stillNone distinct same isTools⟩

theorem baseline_converges_iff (settled : Settled history) (selecting : Selecting history)
    (newest : Newest history view) (isBaseline : needsBaseline view = true)
    (minting : Minting history mint) (desired : OrderedMap String String)
    (distinct : (tools.map Tool.name).Nodup) (timestamp : ℕ)
    (newestAfter :
      Newest
        (appended history (planSystemEntries view desired tools timestamp) mint)
        after) :
    InEffect after desired tools ↔
      Follows (replaySections (keptMessages view)).keys desired.keys ∧
        (getCurrentTools (keptMessages view)).map Tool.name <+: tools.map Tool.name := by
  have noHeads := plan_noHeads view desired tools timestamp
  obtain ⟨edits, isPlan, omits⟩ := baseline_spec isBaseline desired tools timestamp
  rw [isPlan] at newestAfter noHeads
  have isReplay := systemMessages_baseline settled selecting newest minting _ omits newestAfter
  obtain ⟨sameHead, isEntries, _⟩ :=
    newest.append newestAfter selecting (extends_appended settled minting noHeads)
  have stillNone : needsBaseline after = false := by
    apply noBaseline_appended sameHead isEntries
    intro _ head isHead
    have inHistory := newest.head_mem (Option.mem_def.mp isHead)
    exact ⟨_, List.mem_singleton_self _, rfl, minting.fresh head inHistory 0⟩
  have isSections :
      replaySections after.messages =
        (replaySections (keptMessages view)).patch
          (fromEntries (desired.entries.map fun entry => (entry.1, some entry.2))) := by
    rw [replaySections, isReplay, replay_appended, ← replaySections]
    rfl
  have isTools :
      getCurrentTools after.messages =
        ((⟨[], tools.map toToolDeclaration⟩ : ToolChanges).apply
          ((systemMessages (keptMessages view)).foldl SystemMessage.offer .empty)).values := by
    rw [getCurrentTools, isReplay, List.foldl_append]
    exact congrArg OrderedMap.values (offer_messageOf _ _ _ _)
  have named := named_replayed (systemMessages (keptMessages view))
  have names :
      (getCurrentTools (keptMessages view)).map Tool.name =
        ((systemMessages (keptMessages view)).foldl SystemMessage.offer .empty).keys :=
    named.keys.symm
  rw [← patch_whole_iff, ← isSections, names, ← all_added_iff named distinct, ← isTools]
  constructor
  · intro inEffect
    exact ⟨inEffect.shown, inEffect.offered⟩
  · rintro ⟨shown, offered⟩
    exact ⟨shown, offered, plan_nothing stillNone distinct shown offered⟩

/-- The entries planned for a context put the wanted sections and tools in
effect exactly if what stays shown lets them: under a baseline the system
messages of entries of other kinds, and else the sections that are patched. -/
theorem plan_converges_iff {history : List (EntryRecord (Body α))} (settled : Settled history)
    (selecting : Selecting history) {view : ContextView (Body α)}
    (isView : readContext history none = .ok view)
    (desired : OrderedMap String String) {tools : List Tool}
    (distinct : (tools.map Tool.name).Nodup) (timestamp : ℕ) {mint : ℕ → ℕ}
    (minting : Minting history mint) :
    (∃ after,
        readContext
            (appended history (planSystemEntries view desired tools timestamp) mint)
            none = .ok after ∧
          InEffect after desired tools) ↔
      Converges view desired tools := by
  obtain ⟨after, isAfter⟩ :=
    exists_view
      (appended history (planSystemEntries view desired tools timestamp) mint)
  have noHeads := plan_noHeads view desired tools timestamp
  have newest := readContext_newest settled.ordered isView
  have newestAfter := readContext_newest (extends_appended settled minting noHeads).ordered isAfter
  have isEffect :
      (∃ after,
          readContext
              (appended history (planSystemEntries view desired tools timestamp) mint)
              none = .ok after ∧
            InEffect after desired tools) ↔
        InEffect after desired tools := by
    constructor
    · rintro ⟨other, isOther, inEffect⟩
      rw [isAfter, Except.ok.injEq] at isOther
      exact isOther ▸ inEffect
    · intro inEffect
      exact ⟨after, isAfter, inEffect⟩
  rw [isEffect, Converges]
  cases isBaseline : needsBaseline view with
  | true =>
    rw [if_pos rfl]
    exact baseline_converges_iff settled selecting newest isBaseline minting
      desired distinct timestamp newestAfter
  | false =>
    rw [if_neg Bool.false_ne_true]
    exact patched_converges_iff settled selecting newest isBaseline minting
      desired distinct timestamp newestAfter

/-- A prompt in effect stays so, and nothing is planned for it, while the entries
that follow give no system message, edit nothing and are no head markers. -/
theorem stays_in_effect (settled : Settled history) (selecting : Selecting history)
    (isView : readContext history none = .ok view) {desired : OrderedMap String String}
    (distinct : (tools.map Tool.name).Nodup) (inEffect : InEffect view desired tools)
    (extends_ : Extends history added) (noEdits : ∀ entry ∈ added, entry.edits = none)
    (silent : ∀ entry ∈ added, ∀ message ∈ entry.model.getD [], message.role ≠ .system) :
    ∃ after, readContext (history ++ added) none = .ok after ∧ InEffect after desired tools := by
  obtain ⟨after, isAfter⟩ := exists_view (history ++ added)
  refine ⟨after, isAfter, ?_⟩
  have newest := readContext_newest settled.ordered isView
  have newestAfter := readContext_newest extends_.ordered isAfter
  have noBaseline : needsBaseline view = false := by
    by_contra isBaseline
    obtain ⟨edits, isPlan, _⟩ := baseline_spec (by simpa using isBaseline) desired tools 0
    rw [inEffect.again] at isPlan
    cases isPlan
  obtain ⟨sameHead, isEntries, _⟩ := newest.append newestAfter selecting extends_
  have stillNone : needsBaseline after = false := by
    apply noBaseline_appended sameHead isEntries
    intro isBaseline
    rw [noBaseline] at isBaseline
    cases isBaseline
  have nothing : (added.flatMap fun entry => systemMessages (contribute entry none)) = [] := by
    rw [List.flatMap_eq_nil_iff]
    intro entry member
    apply systemMessages_nothing
    intro located isLocated
    obtain ⟨index, _, rfl⟩ := List.mem_mapIdx.mp (List.mem_of_mem_filter isLocated)
    exact silent entry member _ (List.getElem_mem _)
  have same : systemMessages after.messages = systemMessages view.messages := by
    rw [systemMessages_extended settled selecting newest newestAfter extends_ noEdits, nothing,
      List.append_nil]
  have shown : replaySections after.messages = desired := by
    rw [replaySections, same]
    exact inEffect.shown
  have offered :
      (getCurrentTools after.messages).map Tool.declaration = tools.map Tool.declaration := by
    rw [getCurrentTools, same]
    exact inEffect.offered
  exact ⟨shown, offered, plan_nothing stillNone distinct shown offered⟩

/-- A message, a section and a tool that are no longer wanted so. -/
def oneTurn : List (EntryRecord (Body Unit)) :=
  [{ id := 1, kind := "pi.user", model := some [.user (.other ())] },
    { id := 2
      kind := "pi.system"
      model := some [.system (.system
        { content := ""
          sections := some [("cwd", some "/repo")]
          toolsAdded := some [⟨"read", "Read", [], none⟩]
          timestamp := 7 })] }]

def wantedSections : OrderedMap String String :=
  ⟨[("preamble", "You help."), ("cwd", "/repo")], by decide⟩

theorem plan_converges_oneTurn :
    ∃ view, readContext oneTurn none = .ok view ∧
      ∃ after,
        readContext
            (appended oneTurn
              (planSystemEntries view wantedSections [⟨"read", "Read a file", [], none⟩] 8)
              fun index => index + 3)
            none = .ok after ∧
          InEffect after wantedSections [⟨"read", "Read a file", [], none⟩] := by
  obtain ⟨view, isView⟩ := exists_view oneTurn
  have settled : Settled oneTurn :=
    ⟨by simp [Ordered, oneTurn], by decide +kernel⟩
  have selecting : Selecting oneTurn := by
    intro entry member head isHead
    have none_ : ∀ entry ∈ oneTurn, entry.head = none := by decide +kernel
    rw [none_ entry member] at isHead
    cases isHead
  have minting : Minting oneTurn fun index => index + 3 := by
    constructor
    · intro first second less
      exact Nat.add_lt_add_right less 3
    · intro entry member index
      have small : ∀ entry ∈ oneTurn, entry.id < 3 := by decide +kernel
      exact Nat.lt_of_lt_of_le (small entry member) (Nat.le_add_left 3 index)
  refine ⟨view, isView, (plan_converges_iff settled selecting isView
    wantedSections (by decide) 8 minting).mpr ?_⟩
  cases isView
  decide +kernel

theorem stays_in_effect_oneTurn :
    ∃ after,
      readContext (oneTurn ++ [{ id := 3, kind := "pi.user", model := some [.user (.other ())] }])
          none = .ok after ∧
        InEffect after ⟨[("cwd", "/repo")], by decide⟩ [⟨"read", "Read", [], none⟩] := by
  refine stays_in_effect ⟨by simp [Ordered, oneTurn], by decide +kernel⟩ ?_ rfl (by decide)
    ⟨by decide +kernel, by decide +kernel, fun _ => rfl⟩
    ⟨by simp [Ordered, oneTurn], by decide +kernel⟩ (by decide +kernel) (by decide +kernel)
  intro entry member head isHead
  have none_ : ∀ entry ∈ oneTurn, entry.head = none := by decide +kernel
  rw [none_ entry member] at isHead
  cases isHead

def keptNote : List (EntryRecord (Body Unit)) :=
  [{ id := 1
     kind := "host.note"
     model := some [.system (.system
      { content := "", sections := some [("mode", some "plan")],
        timestamp := 1 })] },
    { id := 2
      kind := "pi.compaction"
      model := some [.user (.other ())]
      head := some 1 }]

/-- The note's section stays under the baseline, which the next plan removes. -/
theorem plan_leaves_keptNote :
    ∃ view, readContext keptNote none = .ok view ∧
      ∃ after,
        readContext
            (appended keptNote
              (planSystemEntries view ⟨[("preamble", "You help.")], by decide⟩ [] 8)
              fun index => index + 3)
            none = .ok after ∧
          (replaySections after.messages).entries = [("mode", "plan"), ("preamble", "You help.")] ∧
          ¬InEffect after ⟨[("preamble", "You help.")], by decide⟩ [] := by
  refine ⟨_, rfl, _, rfl, by decide +kernel, ?_⟩
  intro inEffect
  have shown := congrArg OrderedMap.entries inEffect.shown
  exact absurd shown (by decide +kernel)

end PiEmbodied.Durable.Prompt
