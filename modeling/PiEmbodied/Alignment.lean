import Mathlib.Data.List.Basic

/-!
# Alignments

Ranges of two sequences, and the matches between them that go up on both sides:
what lies between two matches can be treated on its own.
-/

namespace Alignment

universe u

variable {Element : Type u}

/-! ## Ranges -/

/-- The elements from `start` up to `stop`. -/
def slice (elements : List Element) (start stop : ℕ) : List Element :=
  (elements.take stop).drop start

variable {elements : List Element} {start stop : ℕ}

theorem slice_eq_nil (nothing : stop ≤ start) : slice elements start stop = [] := by
  apply List.drop_eq_nil_of_le
  rw [List.length_take]
  omega

theorem slice_all (elements : List Element) : slice elements 0 elements.length = elements := by
  rw [slice, List.take_length, List.drop_zero]

theorem length_slice (within : stop ≤ elements.length) :
    (slice elements start stop).length = stop - start := by
  rw [slice, List.length_drop, List.length_take]
  omega

theorem slice_split (elements : List Element) {middle : ℕ} (first : start ≤ middle)
    (second : middle ≤ stop) :
    slice elements start stop = slice elements start middle ++ slice elements middle stop := by
  have whole : elements.take stop = elements.take middle ++ slice elements middle stop := by
    have parts := List.take_append_drop middle (elements.take stop)
    rw [List.take_take, Nat.min_eq_left second] at parts
    exact parts.symm
  by_cases short : elements.length ≤ start
  · have empty : ∀ low high, start ≤ low → slice elements low high = [] := by
      intro low high later
      apply List.drop_eq_nil_of_le
      rw [List.length_take]
      omega
    rw [empty start stop (Nat.le_refl _), empty start middle (Nat.le_refl _),
      empty middle stop first]
    rfl
  · rw [slice, whole, List.drop_append_of_le_length]
    · rfl
    · rw [List.length_take]
      omega

theorem slice_single {at_ : ℕ} {element : Element} (found : elements[at_]? = some element) :
    slice elements at_ (at_ + 1) = [element] := by
  obtain ⟨inside, rfl⟩ := List.getElem?_eq_some_iff.mp found
  rw [slice, List.take_succ_eq_append_getElem inside, List.drop_append,
    List.length_take, Nat.min_eq_left (Nat.le_of_lt inside), Nat.sub_self,
    List.drop_zero, List.drop_eq_nil_of_le, List.nil_append]
  rw [List.length_take]
  omega

/-! ## Matches -/

/-- Matches within two ranges, each after the one before on both sides. -/
def Aligned (firstEnd secondEnd : ℕ) : ℕ → ℕ → List (ℕ × ℕ) → Prop
  | firstAt, secondAt, [] => firstAt ≤ firstEnd ∧ secondAt ≤ secondEnd
  | firstAt, secondAt, (first, second) :: rest =>
    firstAt ≤ first ∧ first < firstEnd ∧ secondAt ≤ second ∧ second < secondEnd ∧
      Aligned firstEnd secondEnd (first + 1) (second + 1) rest

variable {firstEnd secondEnd : ℕ} {matched : List (ℕ × ℕ)}

/-- A match may come after all the others. -/
theorem aligned_snoc {first second : ℕ} (firstInside : first < firstEnd)
    (secondInside : second < secondEnd) :
    ∀ {firstAt secondAt : ℕ}, Aligned first second firstAt secondAt matched →
      Aligned firstEnd secondEnd firstAt secondAt (matched ++ [(first, second)]) := by
  induction matched with
  | nil =>
    intro firstAt secondAt aligned
    obtain ⟨before, after⟩ := aligned
    exact
      ⟨before, firstInside, after, secondInside, by omega, by omega⟩
  | cons pair rest ih =>
    intro firstAt secondAt aligned
    obtain ⟨before, inside, after, insideAfter, later⟩ := aligned
    exact
      ⟨before, by omega, after, by omega, ih later⟩

/-- Ranges may start earlier. -/
theorem aligned_earlier {firstAt secondAt earlierFirst earlierSecond : ℕ}
    (first : earlierFirst ≤ firstAt) (second : earlierSecond ≤ secondAt)
    (aligned : Aligned firstEnd secondEnd firstAt secondAt matched) :
    Aligned firstEnd secondEnd earlierFirst earlierSecond matched := by
  cases matched with
  | nil =>
    obtain ⟨before, after⟩ := aligned
    exact ⟨by omega, by omega⟩
  | cons pair rest =>
    obtain ⟨before, inside, after, insideAfter, later⟩ := aligned
    exact ⟨by omega, inside, by omega, insideAfter, later⟩

/-- Ranges may be moved together. -/
theorem aligned_shift (firstShift secondShift : ℕ) :
    ∀ {firstAt secondAt : ℕ}, Aligned firstEnd secondEnd firstAt secondAt matched →
      Aligned (firstShift + firstEnd) (secondShift + secondEnd)
        (firstShift + firstAt) (secondShift + secondAt)
        (matched.map fun pair =>
          (firstShift + pair.1, secondShift + pair.2)) := by
  induction matched with
  | nil =>
    intro firstAt secondAt aligned
    obtain ⟨before, after⟩ := aligned
    exact ⟨by omega, by omega⟩
  | cons pair rest ih =>
    intro firstAt secondAt aligned
    obtain ⟨before, inside, after, insideAfter, later⟩ := aligned
    exact
      ⟨by omega, by omega, by omega, by omega, ih later⟩

theorem aligned_swap :
    ∀ {firstAt secondAt : ℕ}, Aligned firstEnd secondEnd firstAt secondAt matched →
      Aligned secondEnd firstEnd secondAt firstAt (matched.map Prod.swap) := by
  induction matched with
  | nil =>
    intro firstAt secondAt aligned
    exact ⟨aligned.2, aligned.1⟩
  | cons pair rest ih =>
    intro firstAt secondAt aligned
    obtain ⟨before, inside, after, insideAfter, later⟩ := aligned
    exact ⟨after, insideAfter, before, inside, ih later⟩

end Alignment
