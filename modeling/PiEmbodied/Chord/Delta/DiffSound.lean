import PiEmbodied.Chord.Delta.Matches
import PiEmbodied.Chord.Delta.Turns

/-!
# Diffs are sound

Every step of the comparison emits operations that turn the part it compares,
as it is when they are applied, into a value deep-equal to the new one.
-/

namespace PiEmbodied.Chord.Delta

open Alignment

/-! ## What a step emits -/

def emitAll (ops : List (Op Unit)) (batch : Batch) : Batch :=
  ops.foldl (fun batch op => emitOperation op batch) batch

/-- The step emits these operations, as far as the batch takes them. -/
def Emits (step : Batch → Batch) (ops : List (Op Unit)) : Prop :=
  ∀ batch, step batch = emitAll ops batch

variable {batch : Batch}

theorem emitOperation_overflowed (overflowed : batch.overflowed = true) (op : Op Unit) :
    emitOperation op batch = batch := by
  rw [emitOperation, if_pos overflowed]

theorem emitAll_overflowed {batch : Batch} (overflowed : batch.overflowed = true)
    (ops : List (Op Unit)) : emitAll ops batch = batch := by
  induction ops with
  | nil => rfl
  | cons op rest ih =>
    rw [emitAll, List.foldl_cons, emitOperation_overflowed overflowed]
    exact ih

theorem emitAll_spec (ops : List (Op Unit)) :
    ∀ batch : Batch, batch.overflowed = false →
      (emitAll ops batch).overflowed = true ∨
        emitAll ops batch = ⟨batch.operations ++ ops, false⟩ := by
  induction ops with
  | nil =>
    intro batch fits
    right
    rw [List.append_nil, ← fits]
    rfl
  | cons op rest ih =>
    intro batch fits
    rw [emitAll, List.foldl_cons]
    by_cases full : MAX_DELTA_OPERATIONS ≤ batch.operations.length
    · left
      have overflows : emitOperation op batch = { batch with overflowed := true } := by
        rw [emitOperation, fits, if_neg Bool.false_ne_true, if_pos full]
      have stays := @emitAll_overflowed { batch with overflowed := true } rfl rest
      rw [overflows]
      unfold emitAll at stays
      rw [stays]
    · have taken :
          emitOperation op batch = { batch with operations := batch.operations ++ [op] } := by
        rw [emitOperation, fits, if_neg Bool.false_ne_true, if_neg full]
      rw [taken]
      rcases ih { batch with operations := batch.operations ++ [op] } fits with
        overflowed | all
      · exact .inl overflowed
      · right
        rwa [List.append_assoc, List.singleton_append] at all

theorem emits_nothing : Emits (fun batch => batch) [] :=
  fun _ => rfl

theorem emits_operation (op : Op Unit) : Emits (emitOperation op) [op] :=
  fun _ => rfl

variable {ops : List (Op Unit)}

theorem emits_append {first second : Batch → Batch} {later : List (Op Unit)}
    (here : Emits first ops) (there : Emits second later) :
    Emits (fun batch => second (first batch)) (ops ++ later) := by
  intro batch
  dsimp only
  rw [there, here, emitAll, emitAll, emitAll, List.foldl_append]

variable {step : Batch → Batch}

theorem emits_guarded {guarded : Batch → Batch} (emits : Emits step ops)
    (skips : ∀ batch, batch.overflowed = true → guarded batch = batch)
    (goesOn : ∀ batch, batch.overflowed = false → guarded batch = step batch) :
    Emits guarded ops := by
  intro batch
  cases overflowed : batch.overflowed with
  | true => rw [skips batch overflowed, emitAll_overflowed overflowed]
  | false => rw [goesOn batch overflowed, emits batch]

def Diffs (step : Batch → Batch) (path : Path) (before after : JsonValue) :
    Prop :=
  ∃ ops, Emits step ops ∧ Turns path before ops after

def DiffsRange (step : Batch → Batch) (path : Path) (offset : ℕ)
    (old new : List JsonValue) : Prop :=
  ∃ ops, Emits step ops ∧ TurnsRange path offset old ops new

def Revises (step : Batch → Batch) (path : Path) (before after : JsonValue) :
    Prop :=
  Diffs step path before after ∨ (path = [] ∧ Emits step [.r after])

variable {path : Path} {before after : JsonValue}

theorem diffs_of_revises (nonempty : path ≠ []) (revises : Revises step path before after) :
    Diffs step path before after := by
  rcases revises with diffs | ⟨atRoot, _⟩
  · exact diffs
  · exact absurd atRoot nonempty

theorem diffs_nothing (equal : DeepEqual before after) :
    Diffs (fun batch => batch) path before after :=
  ⟨[], emits_nothing, turns_nothing equal⟩

variable {offset : ℕ} {old new : List JsonValue}

theorem diffsRange_nothing (equal : List.Forall₂ DeepEqual old new) :
    DiffsRange (fun batch => batch) path offset old new :=
  ⟨[], emits_nothing, turnsRange_nothing equal⟩

theorem diffsRange_append {laterOffset : ℕ} {later laterNew : List JsonValue}
    {first second : Batch → Batch} (here : DiffsRange first path offset old new)
    (there : DiffsRange second path laterOffset later laterNew)
    (isNext : laterOffset = offset + new.length) :
    DiffsRange (fun batch => second (first batch)) path offset (old ++ later)
      (new ++ laterNew) := by
  obtain ⟨ops, emits, turns⟩ := here
  obtain ⟨laterOps, laterEmits, laterTurns⟩ := there
  rw [isNext] at laterTurns
  exact
    ⟨ops ++ laterOps, emits_append emits laterEmits, turnsRange_append turns laterTurns⟩

theorem diffsRange_splice {path : Path} {offset : ℕ} {old new : List JsonValue}
    (safe : SafePath path) :
    DiffsRange (emitOperation (.edit path (.p offset old.length new))) path
      offset old new :=
  ⟨_, emits_operation _, turnsRange_splice safe⟩

theorem diffsRange_element (diffs : Diffs step (path ++ [.index offset]) before after) :
    DiffsRange step path offset [before] [after] := by
  obtain ⟨ops, emits, turns⟩ := diffs
  exact ⟨ops, emits, turnsRange_element turns⟩

theorem emitString_diffs (before after : Text) (safe : SafePath path) (nonempty : path ≠ []) :
    Diffs (emitString before after path) path (.str before) (.str after) := by
  have single :
      ∀ change : Edit Unit, change.Valid → overwritten (.str before) change = some (.str after) →
        Diffs (emitOperation (.edit path change)) path (.str before) (.str after) := by
    intro change valid writes
    refine ⟨_, emits_operation _, ?_⟩
    exact
      turns_overwrite ⟨safe, .inr nonempty, valid⟩ nonempty writes (DeepEqual.same _)
  unfold emitString
  by_cases same : before = after
  · simp only [same, if_true]
    exact diffs_nothing (DeepEqual.same _)
  · simp only [same, if_false]
    by_cases appends : before.length < after.length ∧ after.take before.length = before
    · simp only [appends, and_self, if_true]
      apply single
      · trivial
      · have joined : before ++ after.drop before.length = after := by
          conv_lhs => rw [← appends.2]
          rw [appends.2, ← appends.2, List.length_take, Nat.min_eq_left (Nat.le_of_lt appends.1)]
          exact List.take_append_drop _ _
        simp only [overwritten, joined]
    · simp only [appends, if_false]
      generalize isShared : overlap before after DEFAULT_OVERLAP_SCAN 64 8 = shared
      have overlaps := overlap_spec before after DEFAULT_OVERLAP_SCAN 64 8
      rw [isShared] at overlaps
      obtain ⟨inBefore, inAfter, common⟩ := overlaps
      by_cases none_ : shared = 0
      · simp only [none_, if_true]
        apply single
        · trivial
        · rfl
      · simp only [none_, if_false]
        by_cases more : shared < after.length
        · simp only [more, if_true]
          refine ⟨_, emits_append (emits_operation _) (emits_operation _), ?_⟩
          have valid :
              Op.Valid
                (.edit path (.t (before.length - shared)) : Op Unit) :=
            ⟨safe, .inr nonempty, trivial⟩
          have later :
              Turns path (.str (after.take shared))
                [.edit path (.a (after.drop shared))] (.str after) := by
            refine
              turns_overwrite ⟨safe, .inr nonempty, trivial⟩ nonempty ?_ (DeepEqual.same _)
            simp only [overwritten, List.take_append_drop]
          refine turns_trans ?_ ?_ ?_ later
          · intro root found
            refine ⟨_, ?_, becomes_put found _⟩
            rw [applyOps_singleton, applyOp_of_valid valid]
            apply applyEdit_overwrites nonempty found
            simp only [overwritten, common]
          · intro op member
            rw [List.mem_singleton.mp member]
            exact valid
          · intro op member
            rw [List.mem_singleton.mp member]
            rfl
        · simp only [more, if_false]
          apply single
          · trivial
          · have whole : after.take shared = after := by
              apply List.take_of_length_le
              omega
            simp only [overwritten, common, whole]

section Values

variable {ι : Type}

theorem emitSet_revises {path : Path} (safe : SafePath path) (before : JsonValue) (after : Json ι) :
    Revises (emitSet path after) path before after.erase := by
  by_cases atRoot : path = []
  · right
    refine ⟨atRoot, ?_⟩
    intro batch
    rw [emitSet, if_pos atRoot]
    rfl
  · left
    refine ⟨[.edit path (.s after.erase)], ?_, ?_⟩
    · intro batch
      rw [emitSet, if_neg atRoot]
      rfl
    · exact turns_overwrite ⟨safe, .inr atRoot, trivial⟩ atRoot rfl (DeepEqual.same _)

end Values

variable {ι : Type} [DecidableEq ι] {heap : ι → Json ι}

def Known (heap : ι → Json ι) (values : List (Json ι)) : Prop :=
  ∀ value ∈ values, value.Coherent heap

def range (values : List (Json ι)) (start stop : ℕ) : List JsonValue :=
  (slice values start stop).map Json.erase

variable {values : List (Json ι)} {index : ℕ}

omit [DecidableEq ι] in
theorem getElem?_element (inside : index < values.length) :
    values[index]? = some (element values index) := by
  rw [element, List.getD_eq_getElem?_getD, List.getElem?_eq_getElem inside]
  rfl

omit [DecidableEq ι] in
theorem known_element (known : Known heap values) (inside : index < values.length) :
    (element values index).Coherent heap :=
  known _ (List.mem_of_getElem? (getElem?_element inside))

variable {start stop : ℕ}

omit [DecidableEq ι] in
theorem range_split (values : List (Json ι)) {middle : ℕ} (first : start ≤ middle)
    (second : middle ≤ stop) :
    range values start stop = range values start middle ++ range values middle stop := by
  unfold range
  rw [slice_split values first second, List.map_append]

omit [DecidableEq ι] in
theorem range_single {values : List (Json ι)} {index : ℕ} (inside : index < values.length) :
    range values index (index + 1) = [(element values index).erase] := by
  unfold range
  rw [slice_single (getElem?_element inside)]
  rfl

omit [DecidableEq ι] in
theorem range_nil (values : List (Json ι)) (nothing : stop ≤ start) :
    range values start stop = [] := by
  unfold range
  rw [slice_eq_nil nothing]
  rfl

omit [DecidableEq ι] in
theorem length_range (inside : stop ≤ values.length) :
    (range values start stop).length = stop - start := by
  unfold range
  rw [List.length_map, length_slice inside]

omit [DecidableEq ι] in
theorem weight_pos (value : Json ι) : 0 < weight value := by
  cases value with
  | arr label items | obj label fields => exact Nat.succ_pos _
  | _ => exact Nat.one_pos

omit [DecidableEq ι] in
theorem itemsWeight_append (first second : List (Json ι)) :
    itemsWeight (first ++ second) = itemsWeight first + itemsWeight second := by
  induction first with
  | nil => exact (Nat.zero_add _).symm
  | cons value rest ih => rw [List.cons_append, itemsWeight, itemsWeight, ih, Nat.add_assoc]

omit [DecidableEq ι] in
theorem length_le_itemsWeight (values : List (Json ι)) : values.length ≤ itemsWeight values := by
  induction values with
  | nil => exact Nat.le_refl _
  | cons value rest ih =>
    have positive := weight_pos value
    rw [List.length_cons, itemsWeight]
    omega

omit [DecidableEq ι] in
theorem itemsWeight_within
    {first last : ℕ} (inside : stop ≤ values.length) (isStart : start ≤ first)
    (ordered : first ≤ last) (isStop : last ≤ stop) (smaller : last - first < stop - start) :
    itemsWeight (slice values first last) < itemsWeight (slice values start stop) := by
  have firstPart := length_le_itemsWeight (slice values start first)
  have lastPart := length_le_itemsWeight (slice values last stop)
  rw [length_slice (by omega)] at firstPart
  rw [length_slice inside] at lastPart
  rw [slice_split values isStart (by omega : first ≤ stop),
    slice_split values ordered isStop, itemsWeight_append, itemsWeight_append]
  omega

omit [DecidableEq ι] in
theorem weight_element_le (inside : stop ≤ values.length) (isStart : start ≤ index)
    (isStop : index < stop) :
    weight (element values index) ≤ itemsWeight (slice values start stop) := by
  rw [slice_split values isStart (by omega : index ≤ stop),
    slice_split values (Nat.le_succ index) (by omega : index + 1 ≤ stop),
    slice_single (getElem?_element (by omega)), itemsWeight_append,
    itemsWeight_append, itemsWeight, itemsWeight]
  omega

omit [DecidableEq ι] in
theorem weight_field_le {fields : List (Text × Json ι)}
    {field : Text × Json ι} (member : field ∈ fields) : weight field.2 ≤ fieldsWeight fields := by
  induction fields with
  | nil => cases member
  | cons first rest ih =>
    rw [fieldsWeight]
    rcases List.mem_cons.mp member with rfl | later
    · exact Nat.le_add_right _ _
    · have less := ih later
      omega

/-! ## Common ends -/

variable {beforeEnd afterEnd : ℕ}

theorem commonStart_spec {before after : List (Json ι)} (known : Known heap before)
    (knownAfter : Known heap after) (beforeInside : beforeEnd ≤ before.length)
    (afterInside : afterEnd ≤ after.length) (steps : ℕ) :
    ∀ beforeStart afterStart count, beforeStart ≤ beforeEnd → afterStart ≤ afterEnd →
      commonStart before after beforeEnd afterEnd steps beforeStart afterStart = count →
      beforeStart + count ≤ beforeEnd ∧ afterStart + count ≤ afterEnd ∧
        List.Forall₂ DeepEqual (range before beforeStart (beforeStart + count))
          (range after afterStart (afterStart + count)) := by
  have nothing :
      ∀ beforeStart afterStart, beforeStart ≤ beforeEnd → afterStart ≤ afterEnd →
        beforeStart + 0 ≤ beforeEnd ∧ afterStart + 0 ≤ afterEnd ∧
          List.Forall₂ DeepEqual (range before beforeStart (beforeStart + 0))
            (range after afterStart (afterStart + 0)) := by
    intro beforeStart afterStart beforeOrdered afterOrdered
    rw [Nat.add_zero, Nat.add_zero, range_nil before (Nat.le_refl _), range_nil after (Nat.le_refl _)]
    exact ⟨beforeOrdered, afterOrdered, List.Forall₂.nil⟩
  induction steps with
  | zero =>
    intro beforeStart afterStart count beforeOrdered afterOrdered counted
    rw [← counted]
    exact nothing beforeStart afterStart beforeOrdered afterOrdered
  | succ steps ih =>
    intro beforeStart afterStart count beforeOrdered afterOrdered counted
    rw [commonStart] at counted
    split at counted
    · rename_i common
      obtain ⟨beforeMore, afterMore, same⟩ := common
      rw [← counted]
      have later := ih (beforeStart + 1) (afterStart + 1) _ (by omega) (by omega) rfl
      generalize commonStart before after beforeEnd afterEnd steps
        (beforeStart + 1) (afterStart + 1) = rest at later
      obtain ⟨beforeFits, afterFits, equal⟩ := later
      refine ⟨by omega, by omega, ?_⟩
      have beforeEnd_ : beforeStart + (rest + 1) = beforeStart + 1 + rest := by omega
      have afterEnd_ : afterStart + (rest + 1) = afterStart + 1 + rest := by omega
      rw [beforeEnd_, afterEnd_,
        range_split before (Nat.le_succ beforeStart) (Nat.le_add_right _ _),
        range_split after (Nat.le_succ afterStart) (Nat.le_add_right _ _),
        range_single (by omega), range_single (by omega)]
      apply List.Forall₂.cons _ equal
      exact
        deepEqual_of_sameValue (known_element known (by omega))
          (known_element knownAfter (by omega)) same
    · rw [← counted]
      exact nothing beforeStart afterStart beforeOrdered afterOrdered

variable {beforeStart afterStart : ℕ}

theorem commonEnd_spec {before after : List (Json ι)} (known : Known heap before)
    (knownAfter : Known heap after) (steps : ℕ) :
    ∀ beforeEnd afterEnd count, beforeEnd ≤ before.length →
      afterEnd ≤ after.length → beforeStart ≤ beforeEnd →
      afterStart ≤ afterEnd →
      commonEnd before after beforeStart afterStart steps beforeEnd afterEnd = count →
      beforeStart + count ≤ beforeEnd ∧ afterStart + count ≤ afterEnd ∧
        List.Forall₂ DeepEqual (range before (beforeEnd - count) beforeEnd)
          (range after (afterEnd - count) afterEnd) := by
  have nothing :
      ∀ beforeEnd afterEnd, beforeStart ≤ beforeEnd → afterStart ≤ afterEnd →
        beforeStart + 0 ≤ beforeEnd ∧ afterStart + 0 ≤ afterEnd ∧
          List.Forall₂ DeepEqual (range before (beforeEnd - 0) beforeEnd)
            (range after (afterEnd - 0) afterEnd) := by
    intro beforeEnd afterEnd beforeOrdered afterOrdered
    rw [Nat.sub_zero, Nat.sub_zero, range_nil before (Nat.le_refl _),
      range_nil after (Nat.le_refl _)]
    exact ⟨beforeOrdered, afterOrdered, List.Forall₂.nil⟩
  induction steps with
  | zero =>
    intro beforeEnd afterEnd count _ _ beforeOrdered afterOrdered counted
    rw [← counted]
    exact nothing beforeEnd afterEnd beforeOrdered afterOrdered
  | succ steps ih =>
    intro beforeEnd afterEnd count beforeInside afterInside beforeOrdered afterOrdered counted
    rw [commonEnd] at counted
    split at counted
    · rename_i common
      obtain ⟨beforeMore, afterMore, same⟩ := common
      rw [← counted]
      have earlier :=
        ih (beforeEnd - 1) (afterEnd - 1) _ (by omega) (by omega) (by omega) (by omega) rfl
      generalize commonEnd before after beforeStart afterStart steps
        (beforeEnd - 1) (afterEnd - 1) = rest at earlier
      obtain ⟨beforeFits, afterFits, equal⟩ := earlier
      refine ⟨by omega, by omega, ?_⟩
      have beforeStart_ : beforeEnd - (rest + 1) = beforeEnd - 1 - rest := by omega
      have afterStart_ : afterEnd - (rest + 1) = afterEnd - 1 - rest := by omega
      have beforeLast :
          range before (beforeEnd - 1) beforeEnd = [(element before (beforeEnd - 1)).erase] := by
        have last := @range_single ι before (beforeEnd - 1) (by omega)
        rwa [Nat.sub_add_cancel (by omega)] at last
      have afterLast :
          range after (afterEnd - 1) afterEnd = [(element after (afterEnd - 1)).erase] := by
        have last := @range_single ι after (afterEnd - 1) (by omega)
        rwa [Nat.sub_add_cancel (by omega)] at last
      rw [beforeStart_, afterStart_,
        range_split before (by omega : beforeEnd - 1 - rest ≤ beforeEnd - 1) (by omega),
        range_split after (by omega : afterEnd - 1 - rest ≤ afterEnd - 1) (by omega),
        beforeLast, afterLast]
      apply List.rel_append equal
      apply List.Forall₂.cons _ List.Forall₂.nil
      exact
        deepEqual_of_sameValue (known_element known (by omega))
          (known_element knownAfter (by omega)) same
    · rw [← counted]
      exact nothing beforeEnd afterEnd beforeOrdered afterOrdered

/-! ## Regions of arrays -/

theorem diffsRange_guarded {guarded : Batch → Batch} (diffs : DiffsRange step path offset old new)
    (skips : ∀ batch, batch.overflowed = true → guarded batch = batch)
    (goesOn : ∀ batch, batch.overflowed = false → guarded batch = step batch) :
    DiffsRange guarded path offset old new := by
  obtain ⟨ops, emits, turns⟩ := diffs
  exact ⟨ops, emits_guarded emits skips goesOn, turns⟩

/-- Matched elements with what lies between them, where every part of the
region and every pair of elements is turned. -/
theorem processArrayMatches_diffs {diffRegion : ℕ → ℕ → ℕ → ℕ → ℕ → Batch → Batch}
    {diffElement : Json ι → Json ι → Path → Batch → Batch}
    {before after : List (Json ι)} (known : Known heap before)
    (knownAfter : Known heap after) (beforeInside : beforeEnd ≤ before.length)
    (afterInside : afterEnd ≤ after.length)
    (regions :
      ∀ first last firstAfter lastAfter offset, beforeStart ≤ first →
        first ≤ last → last ≤ beforeEnd → afterStart ≤ firstAfter →
        firstAfter ≤ lastAfter → lastAfter ≤ afterEnd →
        last - first < beforeEnd - beforeStart →
        DiffsRange (diffRegion first last firstAfter lastAfter offset) path
          offset (range before first last) (range after firstAfter lastAfter))
    (elements :
      ∀ index other offset, beforeStart ≤ index → index < beforeEnd → other < afterEnd →
        Diffs
          (diffElement (element before index) (element after other) (path ++ [.index offset]))
          (path ++ [.index offset]) (element before index).erase
          (element after other).erase)
    (matched : List ArrayMatch) :
    ∀ beforeAt afterAt outputAt, beforeStart ≤ beforeAt →
      afterStart ≤ afterAt → (matched = [] → beforeStart < beforeAt) →
      Aligned beforeEnd afterEnd beforeAt afterAt matched →
      DiffsRange
        (processArrayMatches diffRegion diffElement before after path beforeEnd
          afterEnd matched beforeAt afterAt outputAt)
        path outputAt (range before beforeAt beforeEnd)
        (range after afterAt afterEnd) := by
  induction matched with
  | nil =>
    intro beforeAt afterAt outputAt isBefore isAfter moved aligned
    obtain ⟨beforeOrdered, afterOrdered⟩ := aligned
    have started := moved rfl
    apply diffsRange_guarded
      (regions beforeAt beforeEnd afterAt afterEnd outputAt isBefore
        beforeOrdered (Nat.le_refl _) isAfter afterOrdered (Nat.le_refl _)
        (by omega))
    · intro batch overflowed
      rw [processArrayMatches, if_pos overflowed]
    · intro batch fits
      rw [processArrayMatches, if_neg (by rw [fits]; exact Bool.false_ne_true)]
  | cons pair rest ih =>
    intro beforeAt afterAt outputAt isBefore isAfter _ aligned
    obtain ⟨beforeMatch, afterMatch⟩ := pair
    obtain ⟨isFirst, beforeFits, isFirstAfter, afterFits, later⟩ := aligned
    have between :=
      regions beforeAt beforeMatch afterAt afterMatch outputAt isBefore
        isFirst (by omega) isAfter isFirstAfter (by omega) (by omega)
    have betweenLength : (range after afterAt afterMatch).length = afterMatch - afterAt :=
      length_range (by omega)
    generalize isOffset : outputAt + (afterMatch - afterAt) = offset
    have pairDiffs :
        DiffsRange
          (fun batch =>
            if sameValue (element before beforeMatch)
                (element after afterMatch) then batch
            else
              diffElement (element before beforeMatch)
                (element after afterMatch) (path ++ [.index offset]) batch)
          path offset (range before beforeMatch (beforeMatch + 1))
          (range after afterMatch (afterMatch + 1)) := by
      rw [range_single (by omega), range_single (by omega)]
      by_cases same : sameValue (element before beforeMatch) (element after afterMatch) = true
      · simp only [same, if_true]
        apply diffsRange_nothing
        apply List.Forall₂.cons _ List.Forall₂.nil
        exact
          deepEqual_of_sameValue (known_element known (by omega))
            (known_element knownAfter (by omega)) same
      · simp only [same, Bool.false_eq_true, if_false]
        apply diffsRange_element
        exact
          elements beforeMatch afterMatch offset (by omega) beforeFits afterFits
    have restDiffs :=
      ih (beforeMatch + 1) (afterMatch + 1) (offset + 1)
        (by omega) (by omega) (fun _ => by omega) later
    have singleLength : (range after afterMatch (afterMatch + 1)).length = 1 := by
      rw [range_single (by omega)]
      rfl
    have pairAndRest := diffsRange_append pairDiffs restDiffs (by rw [singleLength])
    have all := diffsRange_append between pairAndRest (by rw [betweenLength, isOffset])
    rw [← range_split before (Nat.le_succ beforeMatch) (by omega),
      ← range_split after (Nat.le_succ afterMatch) (by omega),
      ← range_split before isFirst (by omega),
      ← range_split after isFirstAfter (by omega)] at all
    apply diffsRange_guarded all
    · intro batch overflowed
      rw [processArrayMatches, if_pos overflowed]
    · intro batch fits
      rw [processArrayMatches, if_neg (by rw [fits]; exact Bool.false_ne_true), ← isOffset]

def RegionDiffs (heap : ι → Json ι) (depth : ℕ) : Prop :=
  ∀ (before after : List (Json ι)) (path : Path)
    (beforeStart beforeEnd afterStart afterEnd outputStart : ℕ),
    Known heap before → Known heap after → SafePath path →
    beforeStart ≤ beforeEnd → beforeEnd ≤ before.length →
    afterStart ≤ afterEnd → afterEnd ≤ after.length →
    2 * itemsWeight (slice before beforeStart beforeEnd) + 1 < depth →
    DiffsRange
      (diffArrayRegion depth before after path beforeStart beforeEnd
        afterStart afterEnd outputStart)
      path outputStart (range before beforeStart beforeEnd)
      (range after afterStart afterEnd)

def ValueRevises (heap : ι → Json ι) (depth : ℕ) : Prop :=
  ∀ (before after : Json ι) (path : Path), before.Coherent heap →
    after.Coherent heap → SafePath path → 2 * weight before < depth →
    Revises (diffValue depth before after path) path before.erase after.erase

theorem safePath_snoc {segment : Seg} (safe : SafePath path) (segmentSafe : segment.Safe) :
    SafePath (path ++ [segment]) := by
  intro other member
  rcases List.mem_append.mp member with isOld | isNew
  · exact safe other isOld
  · rw [List.mem_singleton.mp isNew]
    exact segmentSafe

theorem snoc_ne_nil (path : Path) (segment : Seg) : path ++ [segment] ≠ [] :=
  List.append_ne_nil_of_right_ne_nil path (List.cons_ne_nil segment [])

variable {depth : ℕ}

theorem trimmed_diffs (regions : RegionDiffs heap depth) (values : ValueRevises heap depth)
    {before after : List (Json ι)} (outputStart : ℕ) (known : Known heap before)
    (knownAfter : Known heap after) (safe : SafePath path) (beforeOrdered : beforeStart ≤ beforeEnd)
    (beforeInside : beforeEnd ≤ before.length) (afterOrdered : afterStart ≤ afterEnd)
    (afterInside : afterEnd ≤ after.length)
    (deep : 2 * itemsWeight (slice before beforeStart beforeEnd) < depth) :
    DiffsRange
      (fun batch =>
        let beforeCount := beforeEnd - beforeStart
        let afterCount := afterEnd - afterStart
        let items := (slice after afterStart afterEnd).map Json.erase
        if beforeCount = 0 ∧ afterCount = 0 then batch
        else if beforeCount = 0 ∨ afterCount = 0 then
          emitOperation (.edit path (.p outputStart beforeCount items)) batch
        else
          let found := regionMatches before beforeStart beforeEnd after afterStart afterEnd
          if found ≠ [] then
            processArrayMatches (diffArrayRegion depth before after path)
              (diffValue depth) before after path beforeEnd afterEnd found
              beforeStart afterStart outputStart batch
          else if beforeCount = 1 ∧ afterCount = 1 then
            diffValue depth (element before beforeStart)
              (element after afterStart) (path ++ [.index outputStart]) batch
          else
            emitOperation (.edit path (.p outputStart beforeCount items)) batch)
      path outputStart (range before beforeStart beforeEnd)
      (range after afterStart afterEnd) := by
  have spliced :
      DiffsRange
        (emitOperation
          (.edit path
            (.p outputStart (beforeEnd - beforeStart)
              ((slice after afterStart afterEnd).map Json.erase))))
        path outputStart (range before beforeStart beforeEnd)
        (range after afterStart afterEnd) := by
    have splice_ :=
      @diffsRange_splice path outputStart (range before beforeStart beforeEnd)
        (range after afterStart afterEnd) safe
    rwa [length_range beforeInside] at splice_
  have elements :
      ∀ index other offset, beforeStart ≤ index → index < beforeEnd → other < afterEnd →
        Diffs
          (diffValue depth (element before index) (element after other) (path ++ [.index offset]))
          (path ++ [.index offset]) (element before index).erase
          (element after other).erase := by
    intro index other offset isStart isEnd isOther
    have lighter := weight_element_le beforeInside isStart isEnd
    apply diffs_of_revises (snoc_ne_nil _ _)
    apply values
    · exact known_element known (by omega)
    · exact known_element knownAfter (by omega)
    · exact safePath_snoc safe trivial
    · omega
  dsimp only
  by_cases bothEmpty : beforeEnd - beforeStart = 0 ∧ afterEnd - afterStart = 0
  · simp only [bothEmpty, and_self, if_true]
    apply diffsRange_nothing
    rw [range_nil before (by omega), range_nil after (by omega)]
    exact List.Forall₂.nil
  · simp only [bothEmpty, if_false]
    by_cases oneEmpty : beforeEnd - beforeStart = 0 ∨ afterEnd - afterStart = 0
    · simp only [oneEmpty, if_true]
      exact spliced
    · simp only [oneEmpty, if_false]
      have aligned :=
        @regionMatches_aligned ι _ before after beforeStart beforeEnd afterStart
          afterEnd beforeOrdered afterOrdered beforeInside afterInside
      generalize regionMatches before beforeStart beforeEnd after afterStart
        afterEnd = found at aligned
      by_cases none_ : found = []
      · simp only [none_, ne_eq, not_true_eq_false, if_false]
        by_cases single : beforeEnd - beforeStart = 1 ∧ afterEnd - afterStart = 1
        · simp only [single, and_self, if_true]
          have beforeEnd_ : beforeEnd = beforeStart + 1 := by omega
          have afterEnd_ : afterEnd = afterStart + 1 := by omega
          have pair :=
            elements beforeStart afterStart outputStart (Nat.le_refl _) (by omega) (by omega)
          rw [beforeEnd_, afterEnd_, range_single (by omega), range_single (by omega)]
          exact diffsRange_element pair
        · simp only [single, if_false]
          exact spliced
      · simp only [none_, ne_eq, not_false_eq_true, if_true]
        refine
          processArrayMatches_diffs known knownAfter beforeInside afterInside
            ?_ elements found beforeStart afterStart outputStart
            (Nat.le_refl _) (Nat.le_refl _) (fun isEmpty => absurd isEmpty none_)
            aligned
        intro first last firstAfter lastAfter offset isStart ordered isEnd
          _ orderedAfter isEndAfter smaller
        have lighter := itemsWeight_within beforeInside isStart ordered isEnd smaller
        apply regions before after path first last firstAfter lastAfter
          offset known knownAfter safe ordered (by omega) orderedAfter
          (by omega)
        omega

theorem diffArrayRegion_diffs
    (regions : RegionDiffs heap depth) (values : ValueRevises heap depth) :
    RegionDiffs heap (depth + 1) := by
  intro before after path beforeStart beforeEnd afterStart afterEnd outputStart
    known knownAfter safe beforeOrdered beforeInside afterOrdered afterInside
    deep
  have starts :=
    commonStart_spec known knownAfter beforeInside afterInside
      (beforeEnd - beforeStart) beforeStart afterStart _ beforeOrdered
      afterOrdered rfl
  generalize isStart :
    commonStart before after beforeEnd afterEnd (beforeEnd - beforeStart)
      beforeStart afterStart = start at starts
  obtain ⟨startFits, startFitsAfter, startEqual⟩ := starts
  have ends :=
    commonEnd_spec known knownAfter (beforeEnd - (beforeStart + start))
      beforeEnd afterEnd _ beforeInside afterInside startFits startFitsAfter rfl
  generalize isEnd :
    commonEnd before after (beforeStart + start) (afterStart + start)
      (beforeEnd - (beforeStart + start)) beforeEnd afterEnd = end_ at ends
  obtain ⟨endFits, endFitsAfter, endEqual⟩ := ends
  have lighter :
      itemsWeight
          (slice before (beforeStart + start) (beforeEnd - end_)) ≤
        itemsWeight (slice before beforeStart beforeEnd) := by
    rw [slice_split before (Nat.le_add_right beforeStart start) startFits,
      slice_split before (by omega : beforeStart + start ≤ beforeEnd - end_)
        (Nat.sub_le beforeEnd end_), itemsWeight_append, itemsWeight_append]
    omega
  have middle :=
    trimmed_diffs regions values (outputStart + start) known knownAfter safe
      (by omega : beforeStart + start ≤ beforeEnd - end_) (by omega)
      (by omega : afterStart + start ≤ afterEnd - end_) (by omega) (by omega)
  have startLength : (range after afterStart (afterStart + start)).length = start := by
    rw [length_range (by omega)]
    omega
  have all :=
    diffsRange_append (diffsRange_nothing startEqual)
      (diffsRange_append middle (diffsRange_nothing endEqual) rfl)
      (by rw [startLength])
  rw [← range_split before (by omega) (Nat.sub_le beforeEnd end_),
    ← range_split after (by omega) (Nat.sub_le afterEnd end_),
    ← range_split before (Nat.le_add_right _ _) startFits,
    ← range_split after (Nat.le_add_right _ _) startFitsAfter] at all
  apply diffsRange_guarded all
  · intro batch overflowed
    rw [diffArrayRegion, if_pos overflowed]
  · intro batch fits
    rw [diffArrayRegion, if_neg (by rw [fits]; exact Bool.false_ne_true)]
    dsimp only
    rw [isStart, isEnd]

theorem reordered_eq {old new : List (Json ι)} {order : List ℕ} (known : Known heap old)
    (knownNew : Known heap new)
    (matched :
      List.Forall₂
        (fun index (value : Json ι) =>
          ∃ found : Json ι, old[index]? = some found ∧ found.ident = value.ident)
        order new) : order.filterMap ((old.map Json.erase)[·]?) = new.map Json.erase := by
  induction matched with
  | nil => rfl
  | cons here _ ih =>
    rename_i index value rest others _
    obtain ⟨found, isFound, sameIdent⟩ := here
    have isValue : found = value := by
      apply Json.eq_of_same
      · exact known found (List.mem_of_getElem? isFound)
      · exact knownNew value List.mem_cons_self
      · exact decide_eq_true sameIdent
    have element_ : (old.map Json.erase)[index]? = some value.erase := by
      rw [List.getElem?_map, isFound, isValue]
      rfl
    rw [List.filterMap_cons, element_, List.map_cons,
      ih fun other member => knownNew other (List.mem_cons_of_mem value member)]

theorem diffArray_diffs (regions : RegionDiffs heap depth) {label otherLabel : ι}
    {old new : List (Json ι)} (known : (Json.arr label old).Coherent heap)
    (knownNew : (Json.arr otherLabel new).Coherent heap) (safe : SafePath path)
    (deep : 2 * itemsWeight old + 1 < depth) :
    Diffs
      (diffArray (diffArrayRegion depth) (.arr label old) (.arr otherLabel new) path)
      path (Json.arr label old).erase (Json.arr otherLabel new).erase := by
  have knownItems : Known heap old :=
    fun value member => Json.coherent_item known member
  have knownNewItems : Known heap new :=
    fun value member => Json.coherent_item knownNew member
  unfold diffArray
  by_cases equal :
      ((Json.arr label old).same (.arr otherLabel new) ||
        equalJson (.arr label old) (.arr otherLabel new)) = true
  · simp only [equal, if_true]
    exact diffs_nothing (deepEqual_of_sameValue known knownNew equal)
  · simp only [equal, Bool.false_eq_true, if_false, Json.items]
    rw [Json.erase_arr, Json.erase_arr]
    have whole :
        Diffs
          (diffArrayRegion depth old new path 0 old.length 0 new.length 0) path
          (.arr () (old.map Json.erase)) (.arr () (new.map Json.erase)) := by
      have region :=
        regions old new path 0 old.length 0 new.length 0 knownItems
          knownNewItems safe (Nat.zero_le _) (Nat.le_refl _) (Nat.zero_le _)
          (Nat.le_refl _) (by rw [slice_all]; exact deep)
      unfold range at region
      rw [slice_all, slice_all] at region
      obtain ⟨ops, emits, turns⟩ := region
      exact ⟨ops, emits, turns_array turns⟩
    split
    · rename_i order isOrder
      obtain ⟨length, isPermutation, matched⟩ :=
        permutation_spec (Option.ite_none_right_eq_some.mp isOrder).2
      refine ⟨_, emits_operation _, turns_reorder safe isPermutation ?_ ?_⟩
      · rw [List.length_map, length]
      · exact reordered_eq knownItems knownNewItems matched
    · exact whole

/-! ## Objects -/

/-- Operations on the object at a path, by what its keys hold before and
after. -/
structure TurnsFields (path : Path) (ops : List (Op Unit)) (ready : List (Text × JsonValue) → Prop)
    (change : List (Text × JsonValue) → List (Text × JsonValue) → Prop) :
    Prop where
  valid : ∀ op ∈ ops, op.Valid
  edits : ∀ op ∈ ops, isReplace op = false
  applied :
    ∀ root fields, get path root = some (.obj () fields) → ready fields →
      ∃ changed next, applyOps root ops = .ok next ∧
        Becomes path root (.obj () changed) next ∧ change fields changed

theorem turnsFields_nothing {ready : List (Text × JsonValue) → Prop}
    {change : List (Text × JsonValue) → List (Text × JsonValue) → Prop}
    (unchanged : ∀ fields, ready fields → change fields fields) :
    TurnsFields path [] ready change where
  valid := fun _ member => absurd member List.not_mem_nil
  edits := fun _ member => absurd member List.not_mem_nil
  applied := fun root fields found isReady =>
    ⟨fields, root, rfl, becomes_self found, unchanged fields isReady⟩

theorem turnsFields_append {laterOps : List (Op Unit)}
    {ready laterReady : List (Text × JsonValue) → Prop}
    {change laterChange whole :
      List (Text × JsonValue) → List (Text × JsonValue) → Prop}
    (here : TurnsFields path ops ready change)
    (there : TurnsFields path laterOps laterReady laterChange)
    (then_ : ∀ fields middle, ready fields → change fields middle → laterReady middle)
    (both :
      ∀ fields middle last, change fields middle → laterChange middle last → whole fields last) :
    TurnsFields path (ops ++ laterOps) ready whole where
  valid := List.forall_mem_append.mpr ⟨here.valid, there.valid⟩
  edits := List.forall_mem_append.mpr ⟨here.edits, there.edits⟩
  applied := by
    intro root fields found isReady
    obtain ⟨middle, middleRoot, applied, becomes, changed⟩ := here.applied root fields found isReady
    obtain ⟨last, next, appliedLater, becomesLater, changedLater⟩ :=
      there.applied middleRoot middle becomes.found (then_ fields middle isReady changed)
    refine
      ⟨last, next, ?_, becomes_trans becomes becomesLater,
        both fields middle last changed changedLater⟩
    rw [applyOps_append applied]
    exact appliedLater

theorem turnsFields_edit {key : Text} {edit : Edit Unit}
    {write : List (Text × JsonValue) → List (Text × JsonValue)}
    (valid : Op.Valid (.edit (path ++ [.key key]) edit))
    (applied :
      ∀ root fields, get path root = some (.obj () fields) →
        applyEdit root (path ++ [.key key]) edit = .ok (put path root (.obj () (write fields))))
    (ready : List (Text × JsonValue) → Prop)
    {change : List (Text × JsonValue) → List (Text × JsonValue) → Prop}
    (changed : ∀ fields, ready fields → change fields (write fields)) :
    TurnsFields path [.edit (path ++ [.key key]) edit] ready change where
  valid := by
    intro op member
    rw [List.mem_singleton.mp member]
    exact valid
  edits := by
    intro op member
    rw [List.mem_singleton.mp member]
    rfl
  applied := by
    intro root fields found isReady
    refine ⟨write fields, _, ?_, becomes_put found _, changed fields isReady⟩
    rw [applyOps_singleton, applyOp_of_valid valid]
    exact applied root fields found

/-- A key ends up with a value deep-equal to this one, and no other changes. -/
def SetsKey (key : Text) (value : JsonValue) (fields changed : List (Text × JsonValue)) : Prop :=
  ∃ result, DeepEqual result value ∧
    ∀ name, Entries.get changed name =
      if name = key then some result else Entries.get fields name

variable {diffChild : Json ι → Json ι → Path → Batch → Batch}

omit [DecidableEq ι] in
theorem diffKey_turns {before : List (Text × Json ι)} (safe : SafePath path)
    {field : Text × Json ι} (safeKey : field.1 ∉ RESERVED_SEGMENTS)
    (children :
      ∀ old, Entries.get before field.1 = some old →
        Diffs (diffChild old field.2 (path ++ [.key field.1]))
          (path ++ [.key field.1]) old.erase field.2.erase) :
    ∃ ops,
      Emits (fun batch => diffKey diffChild before path batch field) ops ∧
        TurnsFields path ops
          (fun fields => Entries.get fields field.1 = (Entries.get before field.1).map Json.erase)
          (SetsKey field.1 field.2.erase) := by
  have safeChild : SafePath (path ++ [.key field.1]) := safePath_snoc safe safeKey
  cases isOld : Entries.get before field.1 with
  | some old =>
    obtain ⟨ops, emits, turns⟩ := children old isOld
    refine ⟨ops, ?_, turns.valid, turns.edits, ?_⟩
    · apply emits_guarded emits
      · intro batch overflowed
        rw [diffKey, if_pos overflowed]
      · intro batch fits
        rw [diffKey, if_neg (by rw [fits]; exact Bool.false_ne_true), isOld]
    · intro root fields found isReady
      obtain ⟨result, next, equal, applied, becomes⟩ := turns.applied root (get_child found isReady)
      obtain ⟨changed, becomesFields, looked⟩ := becomes_key found isReady becomes
      exact ⟨changed, next, applied, becomesFields, result, equal, looked⟩
  | none =>
    have valid :
        Op.Valid
          (.edit (path ++ [.key field.1]) (.s field.2.erase) : Op Unit) :=
      ⟨safeChild, .inr (snoc_ne_nil _ _), trivial⟩
    refine
      ⟨[.edit (path ++ [.key field.1]) (.s field.2.erase)], ?_,
        turnsFields_edit valid (fun root fields found => applyEdit_setKey found) _ ?_⟩
    · apply emits_guarded (emits_operation _)
      · intro batch overflowed
        rw [diffKey, if_pos overflowed]
      · intro batch fits
        rw [diffKey, if_neg (by rw [fits]; exact Bool.false_ne_true), isOld]
        dsimp only
        rw [emitSet, if_neg (snoc_ne_nil _ _)]
    · intro fields _
      exact
        ⟨_, DeepEqual.same _, fun name => Entries.get_set fields field.1 name _⟩

/-- The listed keys end up with values deep-equal to the listed ones, and no
other changes. -/
def SetsKeys (listed : List (Text × Json ι)) (fields changed : List (Text × JsonValue)) : Prop :=
  (∀ field ∈ listed, ∃ result, Entries.get changed field.1 = some result ∧
    DeepEqual result field.2.erase) ∧
    ∀ name, name ∉ Entries.keys listed → Entries.get changed name = Entries.get fields name

omit [DecidableEq ι] in
theorem diffKeys_turns {before : List (Text × Json ι)} (safe : SafePath path)
    (listed : List (Text × Json ι)) :
    (Entries.keys listed).Nodup → (∀ field ∈ listed, field.1 ∉ RESERVED_SEGMENTS) →
    (∀ field ∈ listed, ∀ old, Entries.get before field.1 = some old →
      Diffs (diffChild old field.2 (path ++ [.key field.1]))
        (path ++ [.key field.1]) old.erase field.2.erase) →
    ∃ ops,
      Emits
        (fun batch => listed.foldl (diffKey diffChild before path) batch) ops ∧
        TurnsFields path ops
          (fun fields =>
            ∀ field ∈ listed,
              Entries.get fields field.1 = (Entries.get before field.1).map Json.erase)
          (SetsKeys listed) := by
  induction listed with
  | nil =>
    intro _ _ _
    refine ⟨[], emits_nothing, turnsFields_nothing ?_⟩
    intro fields _
    exact ⟨fun field member => absurd member List.not_mem_nil, fun _ _ => rfl⟩
  | cons first rest ih =>
    intro unique safeKeys children
    obtain ⟨isNew, uniqueRest⟩ := List.nodup_cons.mp unique
    obtain ⟨ops, emits, turns⟩ :=
      diffKey_turns safe (safeKeys first List.mem_cons_self) (children first List.mem_cons_self)
    obtain ⟨laterOps, laterEmits, laterTurns⟩ :=
      ih uniqueRest (fun field member => safeKeys field (List.mem_cons_of_mem first member))
        (fun field member => children field (List.mem_cons_of_mem first member))
    have other : ∀ field ∈ rest, field.1 ≠ first.1 := by
      intro field member same
      apply isNew
      rw [← same]
      exact List.mem_map_of_mem member
    have here : TurnsFields path ops
        (fun fields =>
          ∀ field ∈ first :: rest,
            Entries.get fields field.1 = (Entries.get before field.1).map Json.erase)
        (fun fields changed =>
          SetsKey first.1 first.2.erase fields changed ∧
            ∀ field ∈ rest,
              Entries.get fields field.1 = (Entries.get before field.1).map Json.erase) := by
      refine ⟨turns.valid, turns.edits, ?_⟩
      intro root fields found isReady
      obtain ⟨changed, next, applied, becomes, sets⟩ :=
        turns.applied root fields found (isReady first List.mem_cons_self)
      exact
        ⟨changed, next, applied, becomes, sets, fun field member =>
          isReady field (List.mem_cons_of_mem first member)⟩
    refine
      ⟨ops ++ laterOps, emits_append emits laterEmits, turnsFields_append here laterTurns ?_ ?_⟩
    · intro fields middle _ changed field member
      obtain ⟨⟨_, _, looked⟩, ready⟩ := changed
      rw [looked, if_neg (other field member)]
      exact ready field member
    · intro fields middle last changed changedLater
      obtain ⟨⟨result, equal, looked⟩, _⟩ := changed
      obtain ⟨setLater, kept⟩ := changedLater
      refine ⟨?_, ?_⟩
      · intro field member
        rcases List.mem_cons.mp member with rfl | later
        · refine ⟨result, ?_, equal⟩
          rw [kept _ isNew, looked, if_pos rfl]
        · exact setLater field later
      · intro name notListed
        have notFirst : name ≠ first.1 := by
          rintro rfl
          exact notListed List.mem_cons_self
        rw [kept name fun isRest =>
          notListed (List.mem_cons_of_mem first.1 isRest), looked,
          if_neg notFirst]

theorem keys_cons {α : Type} (field : Text × α) (rest : List (Text × α)) :
    Entries.keys (field :: rest) = field.1 :: Entries.keys rest :=
  rfl

/-- The listed keys that `after` lacks are gone, and no other changes. -/
def DropsKeys (after listed : List (Text × Json ι))
    (fields changed : List (Text × JsonValue)) : Prop :=
  ∀ name, Entries.get changed name =
    if Entries.has after name = false ∧ name ∈ Entries.keys listed then none
    else Entries.get fields name

omit [DecidableEq ι] in
theorem diffGone_turns {after : List (Text × Json ι)} {path : Path} (safe : SafePath path)
    (listed : List (Text × Json ι)) :
    (∀ field ∈ listed, field.1 ∉ RESERVED_SEGMENTS) →
    ∃ ops,
      Emits (fun batch => listed.foldl (diffGone after path) batch) ops ∧
        TurnsFields path ops (fun _ => True) (DropsKeys after listed) := by
  induction listed with
  | nil =>
    intro _
    refine ⟨[], emits_nothing, turnsFields_nothing ?_⟩
    intro fields _ name
    rw [if_neg]
    intro gone
    exact absurd gone.2 List.not_mem_nil
  | cons first rest ih =>
    intro safeKeys
    obtain ⟨laterOps, laterEmits, laterTurns⟩ :=
      ih fun field member => safeKeys field (List.mem_cons_of_mem first member)
    have safeChild : SafePath (path ++ [.key first.1]) :=
      safePath_snoc safe (safeKeys first List.mem_cons_self)
    cases kept : Entries.has after first.1 with
    | true =>
      refine ⟨laterOps, ?_, laterTurns.valid, laterTurns.edits, ?_⟩
      · intro batch
        have stays : diffGone after path batch first = batch := by
          unfold diffGone
          rw [kept, if_pos rfl, ite_self]
        dsimp only
        rw [List.foldl_cons, stays]
        exact laterEmits batch
      · intro root fields found isReady
        obtain ⟨changed, next, applied, becomes, drops⟩ :=
          laterTurns.applied root fields found isReady
        refine ⟨changed, next, applied, becomes, ?_⟩
        intro name
        rw [drops name]
        by_cases same : name = first.1
        · rw [same, kept, if_neg (by simp), if_neg (by simp)]
        · have sameListed : name ∈ Entries.keys (first :: rest) ↔ name ∈ Entries.keys rest := by
            rw [keys_cons, List.mem_cons, or_iff_right same]
          simp only [sameListed]
    | false =>
      have valid : Op.Valid (.edit (path ++ [.key first.1]) .d : Op Unit) :=
        ⟨safeChild, .inr (snoc_ne_nil _ _), trivial⟩
      have here :
          TurnsFields path [.edit (path ++ [.key first.1]) .d] (fun _ => True)
            (fun fields changed =>
              changed = Entries.delete fields first.1) :=
        turnsFields_edit valid (fun root fields found => applyEdit_deleteKey found) _
          (fun _ _ => rfl)
      refine
        ⟨[.edit (path ++ [.key first.1]) .d] ++ laterOps, ?_,
          turnsFields_append here laterTurns (fun _ _ _ _ => trivial) ?_⟩
      · refine emits_append ?_ laterEmits
        apply emits_guarded (emits_operation _)
        · intro batch overflowed
          rw [diffGone, if_pos overflowed]
        · intro batch fits
          rw [diffGone, if_neg (by rw [fits]; exact Bool.false_ne_true),
            if_neg (by rw [kept]; exact Bool.false_ne_true)]
      · intro fields middle last deleted drops name
        rw [drops name, deleted, Entries.get_delete]
        by_cases same : name = first.1
        · have listed : first.1 ∈ Entries.keys (first :: rest) :=
            List.mem_cons_self
          rw [same, kept, if_pos rfl, ite_self, if_pos ⟨rfl, listed⟩]
        · have sameListed : name ∈ Entries.keys (first :: rest) ↔ name ∈ Entries.keys rest := by
            rw [keys_cons, List.mem_cons, or_iff_right same]
          simp only [sameListed, if_neg same]

theorem diffObject_revises {label otherLabel : ι} {old new : List (Text × Json ι)}
    (known : (Json.obj label old).Coherent heap)
    (knownNew : (Json.obj otherLabel new).Coherent heap) (safe : SafePath path)
    (children :
      ∀ field ∈ new, ∀ value, Entries.get old field.1 = some value → field.1 ∉ RESERVED_SEGMENTS →
        Diffs (diffChild value field.2 (path ++ [.key field.1]))
          (path ++ [.key field.1]) value.erase field.2.erase) :
    Revises (diffObject diffChild (.obj label old) (.obj otherLabel new) path)
      path (Json.obj label old).erase (Json.obj otherLabel new).erase := by
  unfold diffObject
  dsimp only [Json.fields]
  by_cases reserved : (Entries.keys old ++ Entries.keys new).any (· ∈ RESERVED_SEGMENTS) = true
  · simp only [reserved, if_true]
    by_cases equal : equalJson (.obj label old) (.obj otherLabel new) = true
    · simp only [equal, if_true]
      left
      exact diffs_nothing (deepEqual_of_equalJson _ _ known knownNew equal)
    · simp only [equal, Bool.false_eq_true, if_false]
      exact emitSet_revises safe _ _
  · simp only [reserved, Bool.false_eq_true, if_false]
    have safeKeys :
        ∀ key, key ∈ Entries.keys old ∨ key ∈ Entries.keys new → key ∉ RESERVED_SEGMENTS := by
      intro key isKey isReserved
      apply reserved
      apply List.any_eq_true.mpr
      exact ⟨key, List.mem_append.mpr isKey, decide_eq_true isReserved⟩
    have uniqueNew := knownNew.keys otherLabel new (Json.Part.self _)
    obtain ⟨ops, emits, turns⟩ :=
      diffKeys_turns safe new uniqueNew
        (fun field member => safeKeys field.1 (.inr (List.mem_map_of_mem member)))
        (fun field member value isValue =>
          children field member value isValue
            (safeKeys field.1 (.inr (List.mem_map_of_mem member))))
    obtain ⟨laterOps, laterEmits, laterTurns⟩ :=
      @diffGone_turns ι new path safe old fun field member =>
        safeKeys field.1 (.inl (List.mem_map_of_mem member))
    left
    refine ⟨ops ++ laterOps, emits_append emits laterEmits, ?_⟩
    rw [Json.erase_obj, Json.erase_obj]
    have both :
        TurnsFields path (ops ++ laterOps) _
          (fun fields last =>
            ∃ middle, SetsKeys new fields middle ∧ DropsKeys new old middle last) :=
      turnsFields_append turns laterTurns (fun _ _ _ _ => trivial)
        (fun fields middle last sets drops => ⟨middle, sets, drops⟩)
    refine ⟨both.valid, both.edits, ?_⟩
    intro root found
    obtain ⟨changed, next, applied, becomes, middle, sets, drops⟩ :=
      both.applied root _ found fun field _ => Entries.get_mapValues old Json.erase field.1
    refine ⟨.obj () changed, next, ?_, applied, becomes⟩
    have listedValue :
        ∀ key value, Entries.get new key = some value →
          ∃ result, Entries.get changed key = some result ∧ DeepEqual result value.erase := by
      intro key value isValue
      obtain ⟨result, isResult, equal⟩ := sets.1 (key, value) (Entries.mem_of_get isValue)
      refine ⟨result, ?_, equal⟩
      have isKept : ¬(Entries.has new key = false ∧ key ∈ Entries.keys old) := by
        rw [Entries.has, isValue]
        rintro ⟨isMissing, _⟩
        cases isMissing
      rw [drops key, if_neg isKept]
      exact isResult
    apply DeepEqual.obj
    · intro key
      rw [Json.erase_fields_has]
      cases isValue : Entries.get new key with
      | some value =>
        obtain ⟨result, isResult, _⟩ := listedValue key value isValue
        rw [Entries.has, Entries.has, isResult, isValue]
        rfl
      | none =>
        have missing : Entries.has new key = false := by
          rw [Entries.has, isValue]
          rfl
        have notNew : key ∉ Entries.keys new := by
          rw [← Entries.has_iff_mem_keys, missing]
          exact Bool.false_ne_true
        rw [missing, Entries.has, drops key]
        by_cases wasOld : key ∈ Entries.keys old
        · rw [if_pos ⟨missing, wasOld⟩]
          rfl
        · rw [if_neg fun gone => wasOld gone.2, sets.2 key notNew, Entries.get_mapValues]
          rw [← Entries.has_iff_mem_keys, Entries.has, Bool.not_eq_true,
            Option.isSome_eq_false_iff, Option.isNone_iff_eq_none] at wasOld
          rw [wasOld]
          rfl
    · intro key left right isLeft isRight
      obtain ⟨value, isValue, rfl⟩ := Json.erase_fields_get isRight
      obtain ⟨result, isResult, equal⟩ := listedValue key value isValue
      have same : left = result := Option.some.inj (isLeft.symm.trans isResult)
      rw [same]
      exact equal

/-! ## Values -/

theorem diffValue_skips {before after : Json ι} (depth : ℕ) (path : Path)
    (skips : (before.same after || batch.overflowed) = true) :
    diffValue (depth + 1) before after path batch = batch := by
  unfold diffValue
  rw [if_pos skips]

theorem diffValue_revises (regions : RegionDiffs heap depth) (values : ValueRevises heap depth) :
    ValueRevises heap (depth + 1) := by
  intro before after path known knownNew safe deep
  by_cases same : before.same after = true
  · left
    have equal : DeepEqual before.erase after.erase :=
      deepEqual_of_sameValue known knownNew (by
        rw [sameValue, same, Bool.true_or])
    refine ⟨[], ?_, turns_nothing equal⟩
    intro batch
    apply diffValue_skips
    rw [same, Bool.true_or]
  · have compared :
        ∀ step : Batch → Batch,
          (∀ batch, batch.overflowed = false →
            diffValue (depth + 1) before after path batch = step batch) →
          Revises step path before.erase after.erase →
          Revises (diffValue (depth + 1) before after path) path before.erase
            after.erase := by
      intro step goesOn revises
      have skips :
          ∀ batch : Batch, batch.overflowed = true →
            diffValue (depth + 1) before after path batch = batch := by
        intro batch overflowed
        apply diffValue_skips
        rw [overflowed, Bool.or_true]
      rcases revises with ⟨ops, emits, turns⟩ | ⟨atRoot, emits⟩
      · exact .inl ⟨ops, emits_guarded emits skips goesOn, turns⟩
      · exact .inr ⟨atRoot, emits_guarded emits skips goesOn⟩
    have opened :
        ∀ batch : Batch, batch.overflowed = false →
          ¬(before.same after || batch.overflowed) = true := by
      intro batch fits
      rw [fits, Bool.or_false]
      exact same
    cases before with
    | str old =>
      cases after with
      | str new =>
        by_cases atRoot : path = []
        · apply compared (emitSet path (.str new))
          · intro batch fits
            unfold diffValue
            rw [if_neg (opened batch fits)]
            exact if_pos atRoot
          · exact emitSet_revises safe _ _
        · apply compared (emitString old new path)
          · intro batch fits
            unfold diffValue
            rw [if_neg (opened batch fits)]
            exact if_neg atRoot
          · exact .inl (emitString_diffs old new safe atRoot)
      | _ =>
        apply compared (emitSet path _) _ (emitSet_revises safe _ _)
        intro batch fits
        unfold diffValue
        rw [if_neg (opened batch fits)]
    | arr label old =>
      cases after with
      | arr otherLabel new =>
        apply compared
          (diffArray (diffArrayRegion depth) (.arr label old) (.arr otherLabel new) path)
        · intro batch fits
          unfold diffValue
          rw [if_neg (opened batch fits)]
        · left
          apply diffArray_diffs regions known knownNew safe
          rw [weight] at deep
          omega
      | _ =>
        apply compared (emitSet path _) _ (emitSet_revises safe _ _)
        intro batch fits
        unfold diffValue
        rw [if_neg (opened batch fits)]
    | obj label old =>
      cases after with
      | obj otherLabel new =>
        apply compared (diffObject (diffValue depth) (.obj label old) (.obj otherLabel new) path)
        · intro batch fits
          unfold diffValue
          rw [if_neg (opened batch fits)]
        · apply diffObject_revises known knownNew safe
          intro field member value isValue safeKey
          have lighter := weight_field_le (Entries.mem_of_get isValue)
          rw [weight] at deep
          apply diffs_of_revises (snoc_ne_nil _ _)
          apply values
          · exact Json.coherent_field known (Entries.mem_of_get isValue)
          · exact Json.coherent_field knownNew member
          · exact safePath_snoc safe safeKey
          · dsimp only at lighter
            omega
      | _ =>
        apply compared (emitSet path _) _ (emitSet_revises safe _ _)
        intro batch fits
        unfold diffValue
        rw [if_neg (opened batch fits)]
    | _ =>
      apply compared (emitSet path _) _ (emitSet_revises safe _ _)
      intro batch fits
      unfold diffValue
      rw [if_neg (opened batch fits)]

theorem diffs_at_depth (depth : ℕ) : RegionDiffs heap depth ∧ ValueRevises heap depth := by
  induction depth with
  | zero =>
    constructor
    · intro _ _ _ _ _ _ _ _ _ _ _ _ _ _ _ deep
      omega
    · intro _ _ _ _ _ _ deep
      omega
  | succ depth ih =>
    obtain ⟨regions, values⟩ := ih
    exact
      ⟨diffArrayRegion_diffs regions values, diffValue_revises regions values⟩

/-! ## Batches -/

/-- A strict JSON value whose containers are those of the heap. -/
structure Revision (heap : ι → Json ι) where
  value : Json ι
  coherent : value.Coherent heap

/-- A batch of valid operations from one value to another, in which a
replacement comes first. -/
structure Sound (before after : JsonValue) (ops : List (Op Unit)) : Prop where
  valid : ∀ op ∈ ops, op.Valid
  first : ∀ (k : ℕ) (op : Op Unit), ops[k]? = some op → isReplace op = true → k = 0
  applied : ∃ result, applyOps before ops = .ok result ∧ DeepEqual result after

theorem sound_replace (before after : JsonValue) : Sound before after [.r after] where
  valid := by
    intro op member
    rw [List.mem_singleton.mp member]
    trivial
  first := by
    intro k op isOp _
    have inside := (List.getElem?_eq_some_iff.mp isOp).1
    rw [List.length_singleton] at inside
    omega
  applied := ⟨after, rfl, DeepEqual.same after⟩

theorem sound_turns (turns : Turns [] before ops after) : Sound before after ops where
  valid := turns.valid
  first := by
    intro k op isOp replaces
    have edits := turns.edits op (List.mem_of_getElem? isOp)
    rw [edits] at replaces
    cases replaces
  applied := by
    obtain ⟨result, next, equal, applied, becomes⟩ := turns.applied before rfl
    refine ⟨next, applied, ?_⟩
    have isResult : next = result := Option.some.inj becomes.found
    rw [isResult]
    exact equal

variable (numberLength : ℚ → ℕ)

theorem diffRevisions_cases {before after : Json ι}
    (isBatch : diffValue (2 * weight before + 1) before after [] ⟨[], false⟩ = batch) :
    diffRevisions numberLength before after = [.r after.erase] ∨
      batch.overflowed = false ∧ diffRevisions numberLength before after = batch.operations := by
  unfold diffRevisions
  rw [isBatch]
  by_cases overflowed : batch.overflowed = true
  · exact .inl (if_pos overflowed)
  · have fits : batch.overflowed = false := Bool.eq_false_iff.mpr overflowed
    rw [if_neg overflowed]
    split
    · rename_i isEmpty
      exact .inr ⟨fits, isEmpty.symm⟩
    · rename_i isReplaced
      exact .inr ⟨fits, isReplaced.symm⟩
    · split_ifs with cheap dear
      · exact .inr ⟨fits, rfl⟩
      · exact .inl rfl
      · exact .inr ⟨fits, rfl⟩

theorem sound_diff (before after : Revision heap) :
    Sound before.value.erase after.value.erase
      (diffRevisions numberLength before.value after.value) := by
  have revises :=
    (@diffs_at_depth _ _ heap (2 * weight before.value + 1)).2 before.value
      after.value [] before.coherent after.coherent
      (fun _ member => absurd member List.not_mem_nil) (Nat.lt_succ_self _)
  have taken :
      ∀ ops, Emits (diffValue (2 * weight before.value + 1) before.value after.value []) ops →
        Sound before.value.erase after.value.erase ops →
        Sound before.value.erase after.value.erase
          (diffRevisions numberLength before.value after.value) := by
    intro ops emits sound
    rcases diffRevisions_cases numberLength (emits ⟨[], false⟩) with
      replaced | ⟨fits, all⟩
    · rw [replaced]
      exact sound_replace _ _
    · rcases emitAll_spec ops ⟨[], false⟩ rfl with overflowed | whole
      · rw [overflowed] at fits
        cases fits
      · rw [all, whole]
        exact sound
  rcases revises with ⟨ops, emits, turns⟩ | ⟨_, emits⟩
  · exact taken ops emits (sound_turns turns)
  · exact taken _ emits (sound_replace _ _)

/-- What `diffRevisions` yields takes `applyImmutable` from one revision to the
other, passes `assertValidOp`, and replaces the whole value at most at its
start. -/
theorem diffRevisions_sound
    (numberLength : ℚ → ℕ) (owned : ℕ → Bool) (before after : Revision heap) :
    (∃ result,
      applyImmutable owned before.value.erase
          (diffRevisions numberLength before.value after.value) = .ok result ∧
        DeepEqual result after.value.erase) ∧
      (∀ op ∈ diffRevisions numberLength before.value after.value,
        assertValidOp op.toJson = .ok op) ∧
      ∀ (k : ℕ) (op : Op Unit),
        (diffRevisions numberLength before.value after.value)[k]? = some op →
          isReplace op = true → k = 0 := by
  have sound := sound_diff numberLength before after
  obtain ⟨result, applied, equal⟩ := sound.applied
  refine ⟨⟨result, applyImmutable_ok.mpr applied, equal⟩, ?_, sound.first⟩
  intro op member
  exact assertValidOp_ok.mpr ⟨rfl, sound.valid op member⟩

end PiEmbodied.Chord.Delta
