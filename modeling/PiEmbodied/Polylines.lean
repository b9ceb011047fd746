import PiEmbodied.Instances

/-!
# Lengths of polylines

A walk visits points one after the other; its length is the sum of the lengths
of its legs, by any length of vectors with the laws of a seminorm.
-/

namespace Polylines

variable {K E : Type} [Field K] [LinearOrder K] [AddCommGroup E] [Module K E]

/-- Where a walk ends. -/
def endpoint {E : Type} : E → List E → E
  | start, [] => start
  | _, stop :: rest => endpoint stop rest

theorem endpoint_append {E : Type} (start : E) (first second : List E) :
    endpoint start (first ++ second) = endpoint (endpoint start first) second := by
  induction first generalizing start with
  | nil => rfl
  | cons stop rest ih => exact ih stop

/-- Where it started does not matter, once it went on. -/
theorem endpoint_eq_of_ne_nil {E : Type} {path : List E} (nonempty : path ≠ []) (start other : E) :
    endpoint start path = endpoint other path := by
  cases path with
  | nil => exact absurd rfl nonempty
  | cons stop rest => rfl

/-- A length of vectors. -/
structure Length (K E : Type) [Field K] [LinearOrder K] [AddCommGroup E] [Module K E] where
  of : E → K
  triangle : ∀ u v, of (u + v) ≤ of u + of v
  scale : ∀ (t : K) (v : E), of (t • v) = |t| * of v

namespace Length

variable (length : Length K E)

theorem of_sub_le (u v w : E) : length.of (u - w) ≤ length.of (u - v) + length.of (v - w) := by
  have legs := length.triangle (u - v) (v - w)
  rwa [sub_add_sub_cancel] at legs

/-! ## Walks -/

/-- The length of the walk from a point through the others. -/
def walk : E → List E → K
  | _, [] => 0
  | start, stop :: rest => length.of (stop - start) + walk stop rest

variable (v start : E) (path : List E)

@[simp]
theorem walk_nil : length.walk start [] = 0 :=
  rfl

@[simp]
theorem walk_cons (stop : E) (rest : List E) :
    length.walk start (stop :: rest) = length.of (stop - start) + length.walk stop rest :=
  rfl

theorem walk_append (first second : List E) :
    length.walk start (first ++ second) =
      length.walk start first + length.walk (endpoint start first) second := by
  induction first generalizing start with
  | nil => exact (zero_add _).symm
  | cons stop rest ih =>
    rw [List.cons_append, walk_cons, walk_cons, ih, add_assoc]
    rfl

variable [IsStrictOrderedRing K]

@[simp]
theorem of_zero : length.of 0 = 0 := by
  have scaled := length.scale 0 0
  rwa [zero_smul, abs_zero, zero_mul] at scaled

theorem of_neg : length.of (-v) = length.of v := by
  have scaled := length.scale (-1) v
  rwa [neg_one_smul, abs_neg, abs_one, one_mul] at scaled

theorem of_nonneg : 0 ≤ length.of v := by
  have both := length.triangle v (-v)
  rw [add_neg_cancel, of_zero, of_neg] at both
  linarith

theorem walk_nonneg : 0 ≤ length.walk start path := by
  induction path generalizing start with
  | nil => exact le_rfl
  | cons stop rest ih => exact add_nonneg (length.of_nonneg _) (ih stop)

theorem walk_le_of_isPrefix {start : E} {path whole : List E} (isPart : path <+: whole) :
    length.walk start path ≤ length.walk start whole := by
  obtain ⟨rest, isWhole⟩ := isPart
  rw [← isWhole, walk_append]
  exact le_add_of_nonneg_right (length.walk_nonneg _ _)

theorem walk_le_shift (other : E) (path : List E) :
    length.walk other path ≤ length.of (start - other) + length.walk start path := by
  cases path with
  | nil => exact add_nonneg (length.of_nonneg _) le_rfl
  | cons stop rest =>
    have legs := length.of_sub_le stop start other
    rw [walk_cons, walk_cons]
    linarith

end Length

/-- The ends of the parts of a segment, from the `done`th on. -/
def parts (K : Type) [Field K] {E : Type} [AddCommGroup E] [Module K E]
    (start stop : E) (n : ℕ) : List E :=
  (List.range n).map fun k : ℕ => start + (((k + 1 : ℕ) : K) / (n : K)) • (stop - start)

namespace Length

variable [IsStrictOrderedRing K] (length : Length K E)

theorem walk_along (start direction : E) (fraction : ℕ → K)
    (further : ∀ k, fraction k ≤ fraction (k + 1)) (n : ℕ) :
    length.walk (start + fraction 0 • direction)
        ((List.range n).map fun k : ℕ =>
          start + fraction (k + 1) • direction) =
      (fraction n - fraction 0) * length.of direction ∧
      endpoint (start + fraction 0 • direction)
          ((List.range n).map fun k : ℕ =>
            start + fraction (k + 1) • direction) =
        start + fraction n • direction := by
  induction n with
  | zero =>
    constructor
    · rw [List.range_zero, List.map_nil, walk_nil, sub_self, zero_mul]
    · rfl
  | succ n ih =>
    obtain ⟨isLong, isEnd⟩ := ih
    have leg :
        start + fraction (n + 1) • direction - (start + fraction n • direction) =
          (fraction (n + 1) - fraction n) • direction := by
      module
    have up : |fraction (n + 1) - fraction n| = fraction (n + 1) - fraction n :=
      abs_of_nonneg (sub_nonneg.mpr (further n))
    constructor
    · rw [List.range_succ, List.map_append, walk_append, isLong, isEnd,
        List.map_cons, List.map_nil, walk_cons, walk_nil, leg, length.scale,
        up]
      ring
    · rw [List.range_succ, List.map_append, List.map_cons, List.map_nil, endpoint_append]
      rfl

/-- A segment in equal parts is as long as the segment. -/
theorem walk_parts (start stop : E) {n : ℕ} (someParts : 0 < n) :
    length.walk start (parts K start stop n) = length.of (stop - start) ∧
      endpoint start (parts K start stop n) = stop := by
  have nonzero : (n : K) ≠ 0 := Nat.cast_ne_zero.mpr someParts.ne'
  have further : ∀ k : ℕ, (k : K) / n ≤ ((k + 1 : ℕ) : K) / n := by
    intro k
    apply div_le_div_of_nonneg_right _ (Nat.cast_nonneg n)
    exact_mod_cast Nat.le_succ k
  have along := length.walk_along start (stop - start) (fun k : ℕ => (k : K) / n) further n
  have began : start + (((0 : ℕ) : K) / n) • (stop - start) = start := by
    rw [Nat.cast_zero, zero_div, zero_smul, add_zero]
  rwa [began, div_self nonzero, Nat.cast_zero, zero_div, sub_zero, one_mul,
    one_smul, add_sub_cancel] at along

end Length

end Polylines
