import PiEmbodied.Instances

/-!
# Turns about a fixed axis

An element with `k³ = -k` generates turns `1 + s k + (1 - c) k²`, where `c` and
`s` are the cosine and the sine of the angle.  Two turns about one axis compose
to a turn, whose cosine and sine are those of the sum of the angles.  The cross
product with a unit vector is such an element.
-/

namespace Turns

section Algebra

variable {R A : Type} [CommRing R] [Ring A] [Algebra R A]

/-- The turn that `k` generates, given its cosine and its sine. -/
def turn (k : A) (c s : R) : A :=
  1 + s • k + (1 - c) • (k * k)

theorem turn_mul {k : A} (cube : k * k * k = -k) (c s c' s' : R) :
    turn k c s * turn k c' s' = turn k (c * c' - s * s') (s * c' + c * s') := by
  have left : k * (k * k) = -k := by rw [← mul_assoc, cube]
  have fourth : k * k * (k * k) = -(k * k) := by rw [← mul_assoc, cube, neg_mul]
  unfold turn
  simp only [ mul_add, add_mul, one_mul, mul_one, smul_mul_smul_comm, cube, left, fourth]
  module

end Algebra

/-! ## The cross product -/

section Cross

variable {R : Type} [CommRing R]

/-- The matrix of the cross product with `(x, y, z)`. -/
def cross (x y z : R) : Matrix (Fin 3) (Fin 3) R :=
  !![0, -z, y; z, 0, -x; -y, x, 0]

theorem cross_cube (x y z : R) :
    cross x y z * cross x y z * cross x y z = -((x * x + y * y + z * z) • cross x y z) := by
  ext i j
  fin_cases i <;> fin_cases j <;>
    simp [cross, Matrix.mul_apply, Fin.sum_univ_three] <;> ring

variable {x y z : R}

theorem cross_cube_of_unit (isUnit : x * x + y * y + z * z = 1) :
    cross x y z * cross x y z * cross x y z = -cross x y z := by
  rw [cross_cube, isUnit, one_smul]

/-- The entries of a turn about a unit vector. -/
theorem turn_cross (isUnit : x * x + y * y + z * z = 1) (c s : R) :
    turn (cross x y z) c s =
      !![c + x * x * (1 - c), x * y * (1 - c) - z * s, x * z * (1 - c) + y * s;
        y * x * (1 - c) + z * s, c + y * y * (1 - c), y * z * (1 - c) - x * s;
        z * x * (1 - c) - y * s, z * y * (1 - c) + x * s,
        c + z * z * (1 - c)] := by
  ext i j
  fin_cases i <;> fin_cases j <;>
    simp [turn, cross]
  · linear_combination (c - 1) * isUnit
  · ring
  · ring
  · ring
  · linear_combination (c - 1) * isUnit
  · ring
  · ring
  · ring
  · linear_combination (c - 1) * isUnit

end Cross

end Turns
