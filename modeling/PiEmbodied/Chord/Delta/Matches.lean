import PiEmbodied.Chord.Delta.Diff

/-!
# Matches, permutations and overlaps

Whatever two arrays hold, the matches found between two regions go up on both
sides within them; a permutation found takes every index once; an overlap found
is a suffix of one string and a prefix of the other.
-/

namespace PiEmbodied.Chord.Delta

open Alignment

variable {ι : Type} [DecidableEq ι]

/-! ## Binary search -/

theorem lowerBoundWithin_spec (values : List ℕ) (value steps : ℕ) :
    ∀ low high, low ≤ high → high ≤ values.length → high - low ≤ steps →
      (low = 0 ∨ values.getD (low - 1) 0 < value) →
      (high = values.length ∨ value ≤ values.getD high 0) →
      let at_ := lowerBoundWithin values value steps low high
      at_ ≤ values.length ∧ (at_ = 0 ∨ values.getD (at_ - 1) 0 < value) ∧
        (at_ = values.length ∨ value ≤ values.getD at_ 0) := by
  induction steps with
  | zero =>
    intro low high ordered inside enough below above
    have met : low = high := by omega
    subst met
    exact ⟨inside, below, above⟩
  | succ steps ih =>
    intro low high ordered inside enough below above
    unfold lowerBoundWithin
    by_cases open_ : low < high
    · rw [if_pos open_]
      dsimp only
      by_cases less : values.getD ((low + high) / 2) 0 < value
      · rw [if_pos less]
        apply ih
        · omega
        · exact inside
        · omega
        · right
          rw [Nat.add_sub_cancel]
          exact less
        · exact above
      · rw [if_neg less]
        apply ih
        · omega
        · omega
        · omega
        · exact below
        · exact Or.inr (Nat.le_of_not_lt less)
    · rw [if_neg open_]
      have met : low = high := by omega
      subst met
      exact ⟨inside, below, above⟩

theorem lowerBound_spec (values : List ℕ) (value : ℕ) :
    lowerBound values value ≤ values.length ∧
      (lowerBound values value = 0 ∨ values.getD (lowerBound values value - 1) 0 < value) ∧
      (lowerBound values value = values.length ∨
        value ≤ values.getD (lowerBound values value) 0) := by
  apply lowerBoundWithin_spec
  · exact Nat.zero_le _
  · exact Nat.le_refl _
  · exact Nat.le_of_eq (Nat.sub_zero _)
  · exact Or.inl rfl
  · exact Or.inl rfl

/-! ## Subsequences -/

theorem scan_within (values : List (Json ι)) (stop : ℕ) (value : Json ι) (steps : ℕ) :
    ∀ index, index ≤ stop →
      index ≤ scan values stop value steps index ∧ scan values stop value steps index ≤ stop := by
  induction steps with
  | zero =>
    intro index inside
    exact ⟨Nat.le_refl _, inside⟩
  | succ steps ih =>
    intro index inside
    unfold scan
    split
    · rename_i goesOn
      have later := ih (index + 1) (by omega)
      exact ⟨by omega, later.2⟩
    · exact ⟨Nat.le_refl _, inside⟩

theorem subsequenceOf_aligned (whole : List (Json ι)) (wholeEnd : ℕ) (part : List (Json ι))
    (count : ℕ) :
    ∀ partIndex wholeIndex matched, wholeIndex ≤ wholeEnd →
      subsequenceOf whole wholeEnd part (List.range' partIndex count) wholeIndex = some matched →
      Aligned wholeEnd (partIndex + count) wholeIndex partIndex matched := by
  induction count with
  | zero =>
    intro partIndex wholeIndex matched inside found
    cases found
    exact ⟨inside, Nat.le_add_right _ _⟩
  | succ count ih =>
    intro partIndex wholeIndex matched inside found
    rw [List.range'_succ, subsequenceOf] at found
    have within :=
      scan_within whole wholeEnd (element part partIndex) (wholeEnd - wholeIndex) wholeIndex inside
    split at found
    · cases found
    · rename_i notEnd
      obtain ⟨later, isLater, rfl⟩ := Option.map_eq_some_iff.mp found
      have aligned := ih (partIndex + 1) _ later (by omega) isLater
      have sameEnd : partIndex + 1 + count = partIndex + (count + 1) := by omega
      rw [sameEnd] at aligned
      exact ⟨by omega, by omega, by omega, by omega, aligned⟩

variable {before : List (Json ι)}
  {beforeStart beforeEnd afterStart afterEnd : ℕ} {after : List (Json ι)}

theorem identitySubsequence_aligned
    {matched : List ArrayMatch} (beforeOrdered : beforeStart ≤ beforeEnd)
    (afterOrdered : afterStart ≤ afterEnd)
    (found :
      identitySubsequence before beforeStart beforeEnd after afterStart afterEnd = some matched) :
    Aligned beforeEnd afterEnd beforeStart afterStart matched := by
  unfold identitySubsequence at found
  dsimp only at found
  split at found
  · have aligned :=
      subsequenceOf_aligned before beforeEnd after _ afterStart beforeStart
        matched beforeOrdered found
    have sameEnd : afterStart + (afterEnd - afterStart) = afterEnd := by omega
    rwa [sameEnd] at aligned
  · split at found
    · obtain ⟨swapped, isSwapped, rfl⟩ := Option.map_eq_some_iff.mp found
      have aligned :=
        subsequenceOf_aligned after afterEnd before _ beforeStart afterStart
          swapped afterOrdered isSwapped
      have sameEnd : beforeStart + (beforeEnd - beforeStart) = beforeEnd := by omega
      rw [sameEnd] at aligned
      exact aligned_swap aligned
    · cases found

def Ascending (start stop : ℕ) (positions : List (Ident ι × List ℕ)) : Prop :=
  ∀ key indices, Entries.get positions key = some indices →
    indices.Pairwise (· < ·) ∧ ∀ index ∈ indices, start ≤ index ∧ index < stop

variable {start : ℕ}

theorem identityPositions_ascending (before : List (Json ι)) (count : ℕ) :
    ∀ next positions, start ≤ next → Ascending start next positions →
      Ascending start (next + count)
        (identityPositions before (List.range' next count) positions) := by
  induction count with
  | zero =>
    intro next positions _ ascending
    exact ascending
  | succ count ih =>
    intro next positions started ascending
    rw [List.range'_succ, identityPositions]
    have sameEnd : next + (count + 1) = next + 1 + count := by omega
    rw [sameEnd]
    apply ih (next + 1) _ (by omega)
    intro key indices isIndices
    rw [Entries.get_set] at isIndices
    have old :
        ∀ known, Entries.get positions key = some known →
          known.Pairwise (· < ·) ∧ ∀ index ∈ known, start ≤ index ∧ index < next + 1 := by
      intro known isKnown
      obtain ⟨sorted, inside⟩ := ascending key known isKnown
      refine ⟨sorted, ?_⟩
      intro index member
      have bounds := inside index member
      exact ⟨bounds.1, by omega⟩
    split at isIndices
    · rename_i isKey
      cases isIndices
      rw [← isKey]
      cases isKnown : Entries.get positions key with
      | none =>
        rw [Option.getD_none, List.nil_append]
        refine ⟨List.pairwise_singleton _ _, ?_⟩
        intro index member
        rw [List.mem_singleton.mp member]
        exact ⟨started, Nat.lt_succ_self next⟩
      | some known =>
        obtain ⟨sorted, inside⟩ := ascending key known isKnown
        rw [Option.getD_some]
        refine ⟨?_, ?_⟩
        · apply List.pairwise_append.mpr
          refine ⟨sorted, List.pairwise_singleton _ _, ?_⟩
          intro index member last isLast
          rw [List.mem_singleton.mp isLast]
          exact (inside index member).2
        · intro index member
          rcases List.mem_append.mp member with isOld | isLast
          · exact (old known isKnown).2 index isOld
          · rw [List.mem_singleton.mp isLast]
            exact ⟨started, Nat.lt_succ_self next⟩
    · exact old indices isIndices

variable {positions : List (Ident ι × List ℕ)}

theorem greedyIdentityAnchors_aligned {stop : ℕ} (ascending : Ascending start stop positions)
    (after : List (Json ι)) (ordered : start ≤ stop) (count : ℕ) :
    ∀ afterIndex next, next ≤ stop →
      Aligned stop (afterIndex + count) (max start next) afterIndex
        (greedyIdentityAnchors positions after (List.range' afterIndex count) next) := by
  induction count with
  | zero =>
    intro afterIndex next inside
    exact ⟨by omega, Nat.le_add_right _ _⟩
  | succ count ih =>
    intro afterIndex next inside
    rw [List.range'_succ, greedyIdentityAnchors]
    have sameEnd : afterIndex + (count + 1) = afterIndex + 1 + count := by omega
    rw [sameEnd]
    have skipped :
        Aligned stop (afterIndex + 1 + count) (max start next) afterIndex
          (greedyIdentityAnchors positions after (List.range' (afterIndex + 1) count) next) :=
      aligned_earlier (Nat.le_refl _) (Nat.le_succ _) (ih (afterIndex + 1) next inside)
    cases isCandidates : Entries.get positions (element after afterIndex).ident with
    | none => exact skipped
    | some candidates =>
      dsimp only
      cases isFound : candidates[lowerBound candidates next]? with
      | none => exact skipped
      | some beforeIndex =>
        dsimp only
        obtain ⟨_, within⟩ := ascending _ candidates isCandidates
        have bounds := within beforeIndex (List.mem_of_getElem? isFound)
        obtain ⟨_, _, above⟩ := lowerBound_spec candidates next
        have notBelow : next ≤ beforeIndex := by
          rcases above with isEnd | isAbove
          · rw [isEnd, List.getElem?_eq_none (Nat.le_refl _)] at isFound
            cases isFound
          · rwa [List.getD_eq_getElem?_getD, isFound] at isAbove
        have later := ih (afterIndex + 1) (beforeIndex + 1) (by omega)
        rw [Nat.max_eq_right (by omega)] at later
        exact ⟨by omega, bounds.2, Nat.le_refl _, by omega, later⟩

/-! ## Chains -/

variable {values : List ℕ} {at_ : ℕ}

theorem getElem?_assign (value : ℕ) (inside : at_ ≤ values.length) (other : ℕ) :
    (assign values at_ value)[other]? =
      if other = at_ then some value else values[other]? := by
  unfold assign
  by_cases overwrites : at_ < values.length
  · rw [if_pos overwrites, List.getElem?_set]
    by_cases same : at_ = other
    · rw [if_pos same, if_pos overwrites, if_pos same.symm]
    · rw [if_neg same, if_neg fun isSame => same isSame.symm]
  · rw [if_neg overwrites]
    have atEnd : at_ = values.length := by omega
    subst atEnd
    by_cases same : other = values.length
    · rw [if_pos same, same, List.getElem?_concat_length]
    · rw [if_neg same]
      by_cases before : other < values.length
      · rw [List.getElem?_append_left before]
      · rw [List.getElem?_eq_none, List.getElem?_eq_none]
        · omega
        · rw [List.length_append, List.length_singleton]
          omega

theorem length_assign (value : ℕ) (inside : at_ ≤ values.length) :
    (assign values at_ value).length = max values.length (at_ + 1) := by
  unfold assign
  split
  · rw [List.length_set]
    omega
  · rw [List.length_append, List.length_singleton]
    omega

/-- Candidates lie within their ranges and after the candidate before them on
both sides; the tails are candidates with their values. -/
structure Chains.Sound (beforeStart beforeEnd afterStart afterEnd : ℕ)
    (chains : Chains) : Prop where
  inside :
    ∀ (index : ℕ) (candidate : MatchCandidate), chains.candidates[index]? = some candidate →
      beforeStart ≤ candidate.before ∧ candidate.before < beforeEnd ∧
        afterStart ≤ candidate.after ∧ candidate.after < afterEnd
  ordered :
    ∀ (index : ℕ) (candidate : MatchCandidate), chains.candidates[index]? = some candidate →
      ∀ previous, candidate.previous = some previous →
        ∃ earlier : MatchCandidate, chains.candidates[previous]? = some earlier ∧
          earlier.before < candidate.before ∧
          earlier.after < candidate.after
  lengths : chains.tails.length = chains.tailValues.length
  tails :
    ∀ at_ tail : ℕ, chains.tails[at_]? = some tail →
      ∃ candidate : MatchCandidate, chains.candidates[tail]? = some candidate ∧
        chains.tailValues[at_]? = some candidate.before

variable {chains : Chains}

theorem chainFrom_aligned {beforeStart beforeEnd afterStart afterEnd : ℕ} {chains : Chains}
    (sound : chains.Sound beforeStart beforeEnd afterStart afterEnd) (steps : ℕ) :
    ∀ (index : ℕ) (candidate : MatchCandidate), chains.candidates[index]? = some candidate →
      Aligned candidate.before candidate.after beforeStart afterStart
        (chainFrom chains.candidates steps candidate.previous).reverse := by
  induction steps with
  | zero =>
    intro index candidate isCandidate
    have bounds := sound.inside index candidate isCandidate
    exact ⟨bounds.1, bounds.2.2.1⟩
  | succ steps ih =>
    intro index candidate isCandidate
    have bounds := sound.inside index candidate isCandidate
    cases isPrevious : candidate.previous with
    | none => exact ⟨bounds.1, bounds.2.2.1⟩
    | some previous =>
      obtain ⟨earlier, isEarlier, before, after⟩ :=
        sound.ordered index candidate isCandidate previous isPrevious
      rw [chainFrom, isEarlier]
      dsimp only
      rw [List.reverse_cons]
      exact
        aligned_snoc before after (ih previous earlier isEarlier)

variable {index : ℕ} {candidate : MatchCandidate}

theorem getElem?_candidates (candidates : List MatchCandidate) (new : MatchCandidate)
    (isCandidate : (candidates ++ [new])[index]? = some candidate) :
    candidates[index]? = some candidate ∨ (index = candidates.length ∧ candidate = new) := by
  by_cases before : index < candidates.length
  · rw [List.getElem?_append_left before] at isCandidate
    exact Or.inl isCandidate
  · right
    rw [List.getElem?_append_right (by omega)] at isCandidate
    have atEnd : index - candidates.length = 0 := by
      by_contra later
      rw [List.getElem?_eq_none] at isCandidate
      · cases isCandidate
      · rw [List.length_singleton]
        omega
    rw [atEnd] at isCandidate
    cases isCandidate
    exact ⟨by omega, rfl⟩

theorem getElem?_candidates_old {candidates : List MatchCandidate} (new : MatchCandidate)
    (isCandidate : candidates[index]? = some candidate) :
    (candidates ++ [new])[index]? = some candidate := by
  obtain ⟨before, _⟩ := List.getElem?_eq_some_iff.mp isCandidate
  rw [List.getElem?_append_left before]
  exact isCandidate

variable {afterIndex : ℕ}

/-- A candidate of the current index of `after`: those before it at this index
lie further on in `before`. -/
theorem Chains.sound_add {beforeIndex : ℕ}
    (sound : chains.Sound beforeStart beforeEnd afterStart (afterIndex + 1))
    (within : beforeStart ≤ beforeIndex ∧ beforeIndex < beforeEnd)
    (started : afterStart ≤ afterIndex)
    (descending : ∀ (index : ℕ) (candidate : MatchCandidate),
      chains.candidates[index]? = some candidate →
        candidate.after = afterIndex → beforeIndex < candidate.before) :
    (chains.add beforeIndex afterIndex).Sound beforeStart beforeEnd afterStart
      (afterIndex + 1) := by
  obtain ⟨inside, below, _⟩ := lowerBound_spec chains.tailValues beforeIndex
  unfold Chains.add
  dsimp only
  generalize isAt : lowerBound chains.tailValues beforeIndex = at_ at inside below
  have insideTails : at_ ≤ chains.tails.length := by
    rw [sound.lengths]
    exact inside
  refine ⟨?_, ?_, ?_, ?_⟩
  · intro index candidate isCandidate
    rcases getElem?_candidates _ _ isCandidate with old | ⟨_, rfl⟩
    · exact sound.inside index candidate old
    · exact ⟨within.1, within.2, started, Nat.lt_succ_self _⟩
  · intro index candidate isCandidate previous isPrevious
    rcases getElem?_candidates _ _ isCandidate with old | ⟨_, rfl⟩
    · obtain ⟨earlier, isEarlier, less⟩ :=
        sound.ordered index candidate old previous isPrevious
      exact ⟨earlier, getElem?_candidates_old _ isEarlier, less⟩
    · dsimp only at isPrevious
      split at isPrevious
      · cases isPrevious
      · rename_i notFirst
        obtain ⟨earlier, isEarlier, isValue⟩ := sound.tails (at_ - 1) previous isPrevious
        have less : earlier.before < beforeIndex := by
          rcases below with isFirst | less
          · exact absurd isFirst notFirst
          · rwa [List.getD_eq_getElem?_getD, isValue] at less
        have bounds := sound.inside previous earlier isEarlier
        refine ⟨earlier, getElem?_candidates_old _ isEarlier, less, ?_⟩
        by_contra notLess
        have sameIndex : earlier.after = afterIndex := by
          dsimp only at notLess
          omega
        have more := descending previous earlier isEarlier sameIndex
        omega
  · rw [length_assign _ insideTails, length_assign _ inside, sound.lengths]
  · intro other tail isTail
    rw [getElem?_assign _ insideTails] at isTail
    rw [getElem?_assign _ inside]
    by_cases same : other = at_
    · rw [if_pos same] at isTail ⊢
      cases isTail
      exact ⟨_, List.getElem?_concat_length, rfl⟩
    · rw [if_neg same] at isTail ⊢
      obtain ⟨candidate, isCandidate, isValue⟩ := sound.tails other tail isTail
      exact ⟨candidate, getElem?_candidates_old _ isCandidate, isValue⟩

theorem Chains.sound_addIndices (started : afterStart ≤ afterIndex) (indices : List ℕ) :
    ∀ {chains : Chains}, chains.Sound beforeStart beforeEnd afterStart (afterIndex + 1) →
      indices.Pairwise (fun later earlier => earlier < later) →
      (∀ index ∈ indices, beforeStart ≤ index ∧ index < beforeEnd) →
      (∀ (at_ : ℕ) (candidate : MatchCandidate), chains.candidates[at_]? = some candidate →
        candidate.after = afterIndex →
        ∀ index ∈ indices, index < candidate.before) →
      (indices.foldl (fun chains beforeIndex =>
        chains.add beforeIndex afterIndex) chains).Sound beforeStart beforeEnd
          afterStart (afterIndex + 1) := by
  induction indices with
  | nil =>
    intro chains sound _ _ _
    exact sound
  | cons beforeIndex rest ih =>
    intro chains sound sorted within descending
    obtain ⟨less, sortedRest⟩ := List.pairwise_cons.mp sorted
    rw [List.foldl_cons]
    apply ih
    · apply Chains.sound_add sound
      · exact within beforeIndex List.mem_cons_self
      · exact started
      · intro at_ candidate isCandidate sameIndex
        exact
          descending at_ candidate isCandidate sameIndex beforeIndex List.mem_cons_self
    · exact sortedRest
    · intro index member
      exact within index (List.mem_cons_of_mem beforeIndex member)
    · intro at_ candidate isCandidate sameIndex index member
      rcases getElem?_candidates _ _ isCandidate with old | ⟨_, rfl⟩
      · exact descending at_ candidate old sameIndex index (List.mem_cons_of_mem beforeIndex member)
      · exact less index member

theorem Chains.sound_wider
    {later : ℕ} (sound : chains.Sound beforeStart beforeEnd afterStart afterEnd)
    (wider : afterEnd ≤ later) :
    chains.Sound beforeStart beforeEnd afterStart later :=
  { sound with
    inside := by
      intro index candidate isCandidate
      have bounds := sound.inside index candidate isCandidate
      exact ⟨bounds.1, bounds.2.1, bounds.2.2.1, by omega⟩ }

theorem Chains.sound_addAll (ascending : Ascending beforeStart beforeEnd positions)
    (after : List (Json ι)) (count : ℕ) :
    ∀ {afterIndex : ℕ} {chains : Chains}, afterStart ≤ afterIndex →
      chains.Sound beforeStart beforeEnd afterStart afterIndex →
      ((List.range' afterIndex count).foldl (Chains.addAll positions after)
        chains).Sound beforeStart beforeEnd afterStart (afterIndex + count) := by
  induction count with
  | zero =>
    intro afterIndex chains _ sound
    exact sound
  | succ count ih =>
    intro afterIndex chains started sound
    have sameEnd : afterIndex + (count + 1) = afterIndex + 1 + count := by omega
    rw [List.range'_succ, List.foldl_cons, sameEnd]
    apply ih (by omega)
    unfold Chains.addAll
    have noneYet : ∀ (at_ : ℕ) (candidate : MatchCandidate),
      chains.candidates[at_]? = some candidate → candidate.after ≠ afterIndex := by
      intro at_ candidate isCandidate
      have bounds := sound.inside at_ candidate isCandidate
      omega
    cases isIndices : Entries.get positions (element after afterIndex).ident with
    | none => exact Chains.sound_wider sound (Nat.le_succ _)
    | some indices =>
      obtain ⟨sorted, within⟩ := ascending _ indices isIndices
      rw [Option.getD_some]
      apply Chains.sound_addIndices started
      · exact Chains.sound_wider sound (Nat.le_succ _)
      · exact List.pairwise_reverse.mpr sorted
      · intro index member
        exact within index (List.mem_reverse.mp member)
      · intro at_ candidate isCandidate sameIndex
        exact absurd sameIndex (noneYet at_ candidate isCandidate)

theorem identityAnchors_aligned (before : List (Json ι)) (after : List (Json ι))
    (beforeOrdered : beforeStart ≤ beforeEnd) (afterOrdered : afterStart ≤ afterEnd) :
    Aligned beforeEnd afterEnd beforeStart afterStart
      (identityAnchors before beforeStart beforeEnd after afterStart afterEnd) := by
  have sameEnd : afterStart + (afterEnd - afterStart) = afterEnd := by omega
  have ascending :
      Ascending beforeStart beforeEnd
        (identityPositions before (List.range' beforeStart (beforeEnd - beforeStart)) []) := by
    have positioned :=
      identityPositions_ascending before (beforeEnd - beforeStart) beforeStart
        [] (Nat.le_refl _) (fun key indices none_ => by cases none_)
    have sameStop : beforeStart + (beforeEnd - beforeStart) = beforeEnd := by omega
    rwa [sameStop] at positioned
  unfold identityAnchors
  dsimp only
  generalize identityPositions before
    (List.range' beforeStart (beforeEnd - beforeStart)) [] = positions
    at ascending
  split
  · have greedy :=
      greedyIdentityAnchors_aligned ascending after beforeOrdered
        (afterEnd - afterStart) afterStart 0 (Nat.zero_le _)
    rwa [sameEnd, Nat.max_eq_left (Nat.zero_le _)] at greedy
  · split
    · exact ⟨beforeOrdered, afterOrdered⟩
    · have empty : Chains.Sound beforeStart beforeEnd afterStart afterStart ⟨[], [], []⟩ := by
        refine ⟨?_, ?_, rfl, ?_⟩
        · intro index candidate isCandidate
          cases isCandidate
        · intro index candidate isCandidate
          cases isCandidate
        · intro at_ tail isTail
          cases isTail
      have sound :=
        Chains.sound_addAll ascending after (afterEnd - afterStart) (Nat.le_refl _) empty
      rw [sameEnd] at sound
      generalize (List.range' afterStart (afterEnd - afterStart)).foldl
        (Chains.addAll positions after) ⟨[], [], []⟩ = chains at sound
      cases isTail : chains.tails.getLast? with
      | none =>
        cases chains.candidates.length with
        | zero | succ steps => exact ⟨beforeOrdered, afterOrdered⟩
      | some tail =>
        rw [List.getLast?_eq_getElem?] at isTail
        obtain ⟨candidate, isCandidate, _⟩ := sound.tails _ tail isTail
        have bounds := sound.inside tail candidate isCandidate
        cases chains.candidates.length with
        | zero => exact ⟨beforeOrdered, afterOrdered⟩
        | succ steps =>
          rw [chainFrom, isCandidate]
          dsimp only
          rw [List.reverse_cons]
          exact
            aligned_snoc bounds.2.1 bounds.2.2.2
              (chainFrom_aligned sound steps tail candidate isCandidate)

omit [DecidableEq ι] in
theorem lcsWalk_aligned (equal : Json ι → Json ι → Bool) (before after : List (Json ι))
    (lengths : List (List ℕ)) (steps : ℕ) :
    ∀ left right, left ≤ before.length → right ≤ after.length →
      Aligned before.length after.length left right
        (lcsWalk equal before after lengths steps left right) := by
  induction steps with
  | zero =>
    intro left right leftInside rightInside
    exact ⟨leftInside, rightInside⟩
  | succ steps ih =>
    intro left right leftInside rightInside
    unfold lcsWalk
    split
    · rename_i inside
      split
      · exact ⟨Nat.le_refl _, inside.1, Nat.le_refl _, inside.2, ih _ _ (by omega) (by omega)⟩
      · split
        · exact aligned_earlier (Nat.le_succ _) (Nat.le_refl _) (ih _ _ (by omega) rightInside)
        · exact aligned_earlier (Nat.le_refl _) (Nat.le_succ _) (ih _ _ leftInside (by omega))
    · exact ⟨leftInside, rightInside⟩

omit [DecidableEq ι] in
theorem lcsMatches_aligned (before after : List (Json ι)) (equal : Json ι → Json ι → Bool)
    (maxCells : ℕ) :
    Aligned before.length after.length 0 0 ((lcsMatches before after equal maxCells).getD []) := by
  unfold lcsMatches
  split
  · exact ⟨Nat.zero_le _, Nat.zero_le _⟩
  · split
    · exact ⟨Nat.zero_le _, Nat.zero_le _⟩
    · exact lcsWalk_aligned equal before after _ _ 0 0 (Nat.zero_le _) (Nat.zero_le _)

/-! ## The matches of a region -/

theorem aligned_offsets (kept : ℕ → Bool) (beforeStart afterStart count : ℕ) :
    ∀ start,
      Aligned (beforeStart + (start + count)) (afterStart + (start + count))
        (beforeStart + start) (afterStart + start)
        (((List.range' start count).filter kept).map fun offset =>
          (beforeStart + offset, afterStart + offset)) := by
  induction count with
  | zero =>
    intro start
    exact ⟨Nat.le_refl _, Nat.le_refl _⟩
  | succ count ih =>
    intro start
    have later := ih (start + 1)
    have sameEnd : start + (count + 1) = start + 1 + count := by omega
    rw [List.range'_succ, List.filter_cons, sameEnd]
    split
    · rw [List.map_cons]
      exact
        ⟨Nat.le_refl _, by omega, Nat.le_refl _, by omega, later⟩
    · exact aligned_earlier (by omega) (by omega) later

theorem positionalMatches_aligned (before : List (Json ι)) (beforeStart : ℕ) (after : List (Json ι))
    (afterStart count : ℕ) :
    Aligned (beforeStart + count) (afterStart + count) beforeStart afterStart
      (positionalMatches before beforeStart after afterStart count) := by
  have offsets :=
    aligned_offsets
      (fun offset =>
        sameValue (element before (beforeStart + offset)) (element after (afterStart + offset)))
      beforeStart afterStart count 0
  rwa [Nat.zero_add, Nat.add_zero, Nat.add_zero, ← List.range_eq_range'] at offsets

theorem regionMatches_aligned {before after : List (Json ι)} {beforeStart beforeEnd : ℕ}
    {afterStart afterEnd : ℕ} (beforeOrdered : beforeStart ≤ beforeEnd)
    (afterOrdered : afterStart ≤ afterEnd) (beforeInside : beforeEnd ≤ before.length)
    (afterInside : afterEnd ≤ after.length) :
    Aligned beforeEnd afterEnd beforeStart afterStart
      (regionMatches before beforeStart beforeEnd after afterStart afterEnd) := by
  have nothing : Aligned beforeEnd afterEnd beforeStart afterStart [] :=
    ⟨beforeOrdered, afterOrdered⟩
  have beforeStop : beforeStart + (beforeEnd - beforeStart) = beforeEnd := by omega
  have afterStop : afterStart + (afterEnd - afterStart) = afterEnd := by omega
  have either :
      ∀ (test : Prop) [Decidable test] (first second : List ArrayMatch),
        Aligned beforeEnd afterEnd beforeStart afterStart first →
        Aligned beforeEnd afterEnd beforeStart afterStart second →
        Aligned beforeEnd afterEnd beforeStart afterStart (if test then first else second) := by
    intro test _ first second isFirst isSecond
    by_cases holds : test
    · rw [if_pos holds]
      exact isFirst
    · rw [if_neg holds]
      exact isSecond
  have positional :
      Aligned beforeEnd afterEnd beforeStart afterStart
        (if beforeEnd - beforeStart = afterEnd - afterStart then
          positionalMatches before beforeStart after afterStart (beforeEnd - beforeStart)
        else []) := by
    by_cases sameCount : beforeEnd - beforeStart = afterEnd - afterStart
    · rw [if_pos sameCount]
      have matched :=
        positionalMatches_aligned before beforeStart after afterStart (beforeEnd - beforeStart)
      rwa [beforeStop, sameCount, afterStop, ← sameCount] at matched
    · rw [if_neg sameCount]
      exact nothing
  have subsequence :
      Aligned beforeEnd afterEnd beforeStart afterStart
        ((identitySubsequence before beforeStart beforeEnd after afterStart afterEnd).getD []) := by
    cases isFound : identitySubsequence before beforeStart beforeEnd after afterStart afterEnd with
    | none => exact nothing
    | some found => exact identitySubsequence_aligned beforeOrdered afterOrdered isFound
  have semantic :=
    aligned_shift beforeStart afterStart
      (lcsMatches_aligned (slice before beforeStart beforeEnd)
        (slice after afterStart afterEnd) semanticallyAligned
        MAX_SEMANTIC_CELLS)
  rw [length_slice beforeInside, length_slice afterInside, beforeStop, afterStop] at semantic
  have identity := identityAnchors_aligned before after beforeOrdered afterOrdered
  exact
    either _ _ _ positional (either _ _ _ subsequence (either _ _ _ identity semantic))

/-! ## Permutations -/

/-- The indices of a value are places where it stands, none twice. -/
def Placed (before : List (Json ι)) (positions : List (Ident ι × Positions)) :
    Prop :=
  ∀ key entry, Entries.get positions key = some entry →
    entry.indices.Nodup ∧
      ∀ index ∈ entry.indices, ∃ value : Json ι, before[index]? = some value ∧ value.ident = key

theorem placed_positionsFrom (rest : List (Json ι)) :
    ∀ index positions, before.drop index = rest → Placed before positions →
      (∀ key entry, Entries.get positions key = some entry →
        ∀ known ∈ entry.indices, known < index) →
      Placed before (positionsFrom rest index positions) := by
  induction rest with
  | nil =>
    intro index positions _ placed _
    exact placed
  | cons value rest ih =>
    intro index positions isRest placed earlier
    have here : before[index]? = some value := by
      have first := congrArg (fun values => values[0]?) isRest
      rwa [List.getElem?_drop] at first
    have isLater : before.drop (index + 1) = rest := by
      rw [← List.drop_drop, isRest]
      rfl
    rw [positionsFrom]
    generalize isEntry : addPosition (Entries.get positions value.ident) index = entry
    have isNew :
        entry.indices.Nodup ∧ (∀ known ∈ entry.indices, known < index + 1) ∧
          ∀ known ∈ entry.indices, ∃ found : Json ι,
            before[known]? = some found ∧ found.ident = value.ident := by
      rw [← isEntry]
      cases isKnown : Entries.get positions value.ident with
      | none =>
        dsimp only [addPosition]
        refine ⟨List.pairwise_singleton _ _, ?_, ?_⟩
        · intro known member
          rw [List.mem_singleton.mp member]
          exact Nat.lt_succ_self index
        · intro known member
          rw [List.mem_singleton.mp member]
          exact ⟨value, here, rfl⟩
      | some old =>
        obtain ⟨unique, places⟩ := placed value.ident old isKnown
        have before_ := earlier value.ident old isKnown
        dsimp only [addPosition]
        refine ⟨?_, ?_, ?_⟩
        · apply List.nodup_append.mpr
          refine ⟨unique, List.pairwise_singleton _ _, ?_⟩
          intro known member other isOther
          rw [List.mem_singleton.mp isOther]
          have less := before_ known member
          omega
        · intro known member
          rcases List.mem_append.mp member with isOld | isLast
          · have less := before_ known isOld
            omega
          · rw [List.mem_singleton.mp isLast]
            exact Nat.lt_succ_self index
        · intro known member
          rcases List.mem_append.mp member with isOld | isLast
          · exact places known isOld
          · rw [List.mem_singleton.mp isLast]
            exact ⟨value, here, rfl⟩
    apply ih (index + 1) _ isLater
    · intro key found isFound
      rw [Entries.get_set] at isFound
      split at isFound
      · rename_i isKey
        cases isFound
        rw [isKey]
        exact ⟨isNew.1, isNew.2.2⟩
      · exact placed key found isFound
    · intro key found isFound known member
      rw [Entries.get_set] at isFound
      split at isFound
      · cases isFound
        exact isNew.2.1 known member
      · have less := earlier key found isFound known member
        omega

theorem takePositions_spec (values : List (Json ι)) :
    ∀ positions order, Placed before positions → takePositions values positions = some order →
      order.Nodup ∧
        (∀ index ∈ order, ∃ key entry,
          Entries.get positions key = some entry ∧ index ∈ entry.indices.drop entry.used) ∧
        List.Forall₂
          (fun index (value : Json ι) =>
            ∃ found : Json ι, before[index]? = some found ∧ found.ident = value.ident)
          order values := by
  induction values with
  | nil =>
    intro positions order _ taken
    cases taken
    refine ⟨List.nodup_nil, ?_, List.Forall₂.nil⟩
    intro index member
    cases member
  | cons value rest ih =>
    intro positions order placed taken
    rw [takePositions] at taken
    cases isEntry : Entries.get positions value.ident with
    | none =>
      rw [isEntry] at taken
      cases taken
    | some entry =>
      rw [isEntry] at taken
      dsimp only at taken
      cases isIndex : entry.indices[entry.used]? with
      | none =>
        rw [isIndex] at taken
        cases taken
      | some index =>
        rw [isIndex] at taken
        obtain ⟨later, isLater, rfl⟩ := Option.map_eq_some_iff.mp taken
        obtain ⟨unique, places⟩ := placed value.ident entry isEntry
        obtain ⟨inside, isHere⟩ := List.getElem?_eq_some_iff.mp isIndex
        have dropped :
            entry.indices.drop entry.used =
              index :: entry.indices.drop (entry.used + 1) := by
          rw [List.drop_eq_getElem_cons inside, isHere]
        have isMember : index ∈ entry.indices := List.mem_of_getElem? isIndex
        have placedNext :
            Placed before
              (Entries.set positions value.ident { entry with used := entry.used + 1 }) := by
          intro key found isFound
          rw [Entries.get_set] at isFound
          split at isFound
          · rename_i isKey
            cases isFound
            rw [isKey]
            exact ⟨unique, places⟩
          · exact placed key found isFound
        obtain ⟨uniqueLater, unused, matched⟩ := ih _ later placedNext isLater
        refine ⟨?_, ?_, ?_⟩
        · apply List.nodup_cons.mpr
          refine ⟨?_, uniqueLater⟩
          intro again
          obtain ⟨key, found, isFound, isUnused⟩ := unused index again
          rw [Entries.get_set] at isFound
          split at isFound
          · cases isFound
            have uniqueRest :=
              List.Nodup.sublist
                (List.drop_sublist entry.used entry.indices) unique
            rw [dropped] at uniqueRest
            exact (List.nodup_cons.mp uniqueRest).1 isUnused
          · rename_i isOther
            obtain ⟨_, otherPlaces⟩ := placed key found isFound
            obtain ⟨first, isFirst, firstKey⟩ := places index isMember
            obtain ⟨second, isSecond, secondKey⟩ :=
              otherPlaces index (List.mem_of_mem_drop isUnused)
            have sameValue_ : second = first := Option.some.inj (isSecond.symm.trans isFirst)
            apply isOther
            rw [← secondKey, sameValue_, firstKey]
        · intro other member
          rcases List.mem_cons.mp member with rfl | isOther
          · refine ⟨value.ident, entry, isEntry, ?_⟩
            rw [dropped]
            exact List.mem_cons_self
          · obtain ⟨key, found, isFound, isUnused⟩ :=
              unused other isOther
            rw [Entries.get_set] at isFound
            split at isFound
            · rename_i isKey
              cases isFound
              refine ⟨value.ident, entry, isEntry, ?_⟩
              rw [dropped]
              exact List.mem_cons_of_mem index isUnused
            · exact ⟨key, found, isFound, isUnused⟩
        · exact List.Forall₂.cons (places index isMember) matched

/-- A permutation found takes every index of `before` once, to a value of the
same identity. -/
theorem permutation_spec {order : List ℕ} (found : permutation before after = some order) :
    before.length = order.length ∧ IsPermutation order ∧
      List.Forall₂
        (fun index (value : Json ι) =>
          ∃ known : Json ι, before[index]? = some known ∧ known.ident = value.ident)
        order after := by
  unfold permutation at found
  split at found
  · cases found
  · rename_i sameLength
    have empty : Placed before ([] : List (Ident ι × Positions)) := by
      intro key entry isEntry
      cases isEntry
    have placed :=
      placed_positionsFrom before 0 [] (List.drop_zero) empty
        (fun key entry isEntry => by cases isEntry)
    obtain ⟨unique, unused, matched⟩ := takePositions_spec after _ order placed found
    have length : before.length = order.length := by
      rw [matched.length_eq]
      exact not_not.mp sameLength
    refine ⟨length, ⟨unique, ?_⟩, matched⟩
    intro index member
    obtain ⟨key, entry, isEntry, isUnused⟩ := unused index member
    obtain ⟨_, places⟩ := placed key entry isEntry
    obtain ⟨value, isValue, _⟩ := places index (List.mem_of_mem_drop isUnused)
    obtain ⟨inside, _⟩ := List.getElem?_eq_some_iff.mp isValue
    rw [← length]
    exact inside

def Overlaps (a b : Text) (n : ℕ) : Prop :=
  n ≤ a.length ∧ n ≤ b.length ∧ a.drop (a.length - n) = b.take n

theorem overlaps_zero (a b : Text) : Overlaps a b 0 := by
  refine ⟨Nat.zero_le _, Nat.zero_le _, ?_⟩
  rw [Nat.sub_zero, List.drop_length, List.take_zero]

variable {b : Text} {n : ℕ}

theorem overlapAt_spec {tail head : Text} (candidates : ℕ) :
    ∀ at_, overlapAt tail b head candidates at_ = some n →
      Overlaps tail b n := by
  induction candidates with
  | zero =>
    intro at_ found
    cases found
  | succ candidates ih =>
    intro at_ found
    rw [overlapAt] at found
    split at found
    · cases found
    · rename_i k _
      dsimp only at found
      split at found
      · rename_i fits
        cases found
        by_cases inside : k ≤ tail.length
        · refine ⟨Nat.sub_le _ _, fits.1, ?_⟩
          have start : tail.length - (tail.length - k) = k := by omega
          rw [start]
          exact fits.2
        · have none_ : tail.length - k = 0 := by
            omega
          rw [none_]
          exact overlaps_zero tail b
      · exact ih _ found

theorem overlaps_of_tail {a : Text} {scan : ℕ} (short : scan < a.length)
    (found : Overlaps (a.drop (a.length - scan)) b n) : Overlaps a b n := by
  obtain ⟨inTail, inB, same⟩ := found
  rw [List.length_drop] at inTail same
  refine ⟨by omega, inB, ?_⟩
  rw [List.drop_drop] at same
  have start : a.length - scan + (a.length - (a.length - scan) - n) = a.length - n := by omega
  rwa [start] at same

theorem overlap_spec (a b : Text) (scan probe maxCandidates : ℕ) :
    Overlaps a b (overlap a b scan probe maxCandidates) := by
  have tailed :
      ∀ n, Overlaps (if scan < a.length then a.drop (a.length - scan) else a) b
        n → Overlaps a b n := by
    intro n found
    split at found
    · rename_i short
      exact overlaps_of_tail short found
    · exact found
  unfold overlap
  dsimp only
  split
  · exact overlaps_zero a b
  · split
    · rename_i found
      exact tailed _ (overlapAt_spec maxCandidates 0 found)
    · split
      · exact overlaps_zero a b
      · cases isFound :
            overlapAt (if scan < a.length then a.drop (a.length - scan) else a)
              b (b.take 1) maxCandidates 0 with
        | none => exact overlaps_zero a b
        | some n => exact tailed n (overlapAt_spec maxCandidates 0 isFound)

end PiEmbodied.Chord.Delta
