import PiEmbodied.Instances

/-!
# Where a ray leaves a ball

A point moves along a unit vector `u` from `p`.  Its squared distance from the
centre is a quadratic in how far it moved, which `n = |p|²` and `b = ⟨p, u⟩`
determine; the way out of the ball is the larger root of that quadratic, found
with a square root.
-/

namespace Rays

variable {K : Type} [Field K] [LinearOrder K]

/-! ## Square roots -/

structure IsSquareRoot (sqrt : K → K) : Prop where
  nonneg : ∀ value, 0 ≤ sqrt value
  square : ∀ value, 0 ≤ value → sqrt value * sqrt value = value

namespace IsSquareRoot

variable [IsStrictOrderedRing K] {sqrt : K → K} (isRoot : IsSquareRoot sqrt)

include isRoot

theorem le_of_le_square {value bound : K} (nonneg : 0 ≤ value) (boundNonneg : 0 ≤ bound)
    (within : value ≤ bound * bound) : sqrt value ≤ bound := by
  by_contra beyond
  have square := isRoot.square value nonneg
  have less : bound * bound < sqrt value * sqrt value :=
    mul_self_lt_mul_self boundNonneg (lt_of_not_ge beyond)
  exact absurd (square ▸ less) (not_lt.2 within)

theorem mono {first second : K} (nonneg : 0 ≤ first) (less : first ≤ second) :
    sqrt first ≤ sqrt second := by
  apply isRoot.le_of_le_square nonneg (isRoot.nonneg second)
  rw [isRoot.square second (le_trans nonneg less)]
  exact less

theorem of_square {value : K} (nonneg : 0 ≤ value) : sqrt (value * value) = value := by
  have square := isRoot.square _ (mul_self_nonneg value)
  rcases mul_self_eq_mul_self_iff.1 square with same | opposite
  · exact same
  · have rootNonneg := isRoot.nonneg (value * value)
    linarith

end IsSquareRoot

/-! ## Along a ray -/

/-- The squared distance from the centre after moving `t`. -/
def squareAt (n b t : K) : K :=
  n + 2 * b * t + t * t

/-- How far the ball of radius `r` reaches along the ray. -/
def exit (sqrt : K → K) (n b r : K) : K :=
  max 0 (-b + sqrt (max 0 (b * b - n + r * r)))

theorem squareAt_zero (n b : K) : squareAt n b 0 = n := by
  unfold squareAt
  ring

theorem exit_nonneg (sqrt : K → K) (n b r : K) : 0 ≤ exit sqrt n b r :=
  le_max_left _ _

section

variable [IsStrictOrderedRing K] {sqrt : K → K} (isRoot : IsSquareRoot sqrt) {n b r t : K}

theorem squareAt_nonneg (cauchy : b * b ≤ n) : 0 ≤ squareAt n b t := by
  have completed : squareAt n b t = (t + b) * (t + b) + (n - b * b) := by
    unfold squareAt
    ring
  rw [completed]
  exact add_nonneg (mul_self_nonneg _) (sub_nonneg.2 cauchy)

include isRoot

/-- Up to the way out, the point is no farther than the ball's edge or than
where it started. -/
theorem squareAt_le_of_le_exit (nonneg : 0 ≤ t) (before : t ≤ exit sqrt n b r) :
    squareAt n b t ≤ max n (r * r) := by
  have completed : squareAt n b t = (t + b) * (t + b) + (n - b * b) := by
    unfold squareAt
    ring
  rcases le_total (t + b) 0 with approaching | leaving
  · -- nearer than the start: |t + b| ≤ |b|
    apply le_trans _ (le_max_left _ _)
    rw [completed]
    have shorter : 0 ≤ t * (-(t + b) - b) := by
      apply mul_nonneg nonneg
      linarith
    have expanded : t * (-(t + b) - b) = b * b - (t + b) * (t + b) := by ring
    linarith
  · rcases le_max_iff.1 before with atStart | beforeRoot
    · have isStart : t = 0 := le_antisymm atStart nonneg
      rw [isStart, squareAt_zero]
      exact le_max_left _ _
    · have withinRoot : t + b ≤ sqrt (max 0 (b * b - n + r * r)) := by
        linarith
      have squares := mul_self_le_mul_self leaving withinRoot
      rw [isRoot.square _ (le_max_left _ _)] at squares
      rw [completed]
      rcases le_max_iff.1 squares with none | some
      · apply le_trans _ (le_max_left _ _)
        have isSquare := mul_self_nonneg b
        linarith
      · apply le_trans _ (le_max_right _ _)
        linarith

/-- The distance grows by no more than what the point moved. -/
theorem distance_le_add {later : K} (cauchy : b * b ≤ n) (after : t ≤ later) :
    sqrt (squareAt n b later) ≤ sqrt (squareAt n b t) + (later - t) := by
  have rootNonneg := isRoot.nonneg (squareAt n b t)
  have square := isRoot.square _ (squareAt_nonneg (t := t) cauchy)
  apply isRoot.le_of_le_square (squareAt_nonneg cauchy)
  · linarith
  · have leads : b + t ≤ sqrt (squareAt n b t) := by
      by_contra less
      have both := mul_self_lt_mul_self rootNonneg (lt_of_not_ge less)
      rw [square] at both
      unfold squareAt at both
      linarith
    have moved : 0 ≤ (later - t) * (2 * (sqrt (squareAt n b t) - (b + t))) := by
      apply mul_nonneg
      · linarith
      · linarith
    have expanded :
        (sqrt (squareAt n b t) + (later - t)) * (sqrt (squareAt n b t) + (later - t)) =
          squareAt n b later + (later - t) * (2 * (sqrt (squareAt n b t) - (b + t))) := by
      rw [add_mul_self_eq, square]
      unfold squareAt
      ring
    rw [expanded]
    linarith

theorem distance_le_of_le_exit (cauchy : b * b ≤ n) (radiusNonneg : 0 ≤ r)
    (nonneg : 0 ≤ t) (before : t ≤ exit sqrt n b r) : sqrt (squareAt n b t) ≤ max (sqrt n) r := by
  have nNonneg : 0 ≤ n := le_trans (mul_self_nonneg b) cauchy
  have within := squareAt_le_of_le_exit isRoot nonneg before
  rcases le_max_iff.1 within with nearer | inside
  · exact le_trans (isRoot.mono (squareAt_nonneg cauchy) nearer) (le_max_left _ _)
  · exact
      le_trans
        (isRoot.le_of_le_square (squareAt_nonneg cauchy) radiusNonneg inside)
        (le_max_right _ _)

/-- A little past the way out, the point is at most that much farther. -/
theorem distance_le_of_le_exit_add {slack : K} (cauchy : b * b ≤ n) (radiusNonneg : 0 ≤ r)
    (slackNonneg : 0 ≤ slack) (nonneg : 0 ≤ t) (before : t ≤ exit sqrt n b r + slack) :
    sqrt (squareAt n b t) ≤ max (sqrt n) r + slack := by
  rcases le_total t (exit sqrt n b r) with inside | past
  · have within :=
      distance_le_of_le_exit isRoot cauchy radiusNonneg nonneg inside
    linarith
  · have atExit :=
      distance_le_of_le_exit isRoot cauchy radiusNonneg (exit_nonneg sqrt n b r) le_rfl
    have added := distance_le_add isRoot cauchy past
    linarith

/-- A point farther out than that has passed the way out by as much. -/
theorem exit_add_lt (slack : K) (cauchy : b * b ≤ n) (radiusNonneg : 0 ≤ r)
    (slackNonneg : 0 ≤ slack) (nonneg : 0 ≤ t)
    (beyond : max (sqrt n) r + slack < sqrt (squareAt n b t)) : exit sqrt n b r + slack < t := by
  by_contra before
  exact absurd
    (distance_le_of_le_exit_add isRoot cauchy radiusNonneg slackNonneg nonneg (not_lt.1 before))
    (not_le.2 beyond)

end

end Rays
