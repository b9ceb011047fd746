import PiEmbodied.Instances

/-!
# Floating-point numbers

Numbers with a NaN and the infinities.  A comparison with a NaN is false; the
finite numbers are taken exactly.
-/

namespace Floats

inductive Num where
  | finite (value : ℚ)
  | nan
  | inf (negative : Bool)
deriving DecidableEq

namespace Num

def isFinite : Num → Bool
  | finite _ => true
  | _ => false

/-- `<` -/
def lt : Num → Num → Bool
  | nan, _ | _, nan => false
  | finite a, finite b => a < b
  | finite _, inf negative => !negative
  | inf negative, finite _ => negative
  | inf a, inf b => a && !b

/-- `<=` -/
def le : Num → Num → Bool
  | nan, _ | _, nan => false
  | finite a, finite b => a ≤ b
  | finite _, inf negative => !negative
  | inf negative, finite _ => negative
  | inf a, inf b => a || !b

def add : Num → Num → Num
  | nan, _ | _, nan => nan
  | finite a, finite b => finite (a + b)
  | finite _, inf negative | inf negative, finite _ => inf negative
  | inf a, inf b => if a = b then inf a else nan

/-- `==` with zero. -/
def isZero : Num → Bool
  | finite value => value = 0
  | _ => false

variable {a b : Num}

/-- Of two numbers that are no NaN, one is at most the other. -/
theorem le_of_not_lt (aNumber : a ≠ nan) (bNumber : b ≠ nan) (notLess : b.lt a = false) :
    a.le b = true := by
  cases a with
  | nan => exact absurd rfl aNumber
  | finite p =>
    cases b with
    | nan => exact absurd rfl bNumber
    | finite q =>
      have atMost : ¬ q < p := of_decide_eq_false notLess
      exact decide_eq_true (not_lt.mp atMost)
    | inf negative => simpa [lt, le] using notLess
  | inf first =>
    cases b with
    | nan => exact absurd rfl bNumber
    | finite q => simpa [lt, le] using notLess
    | inf second => cases first <;> cases second <;> simp_all [lt, le]

theorem not_nan_of_le (less : a.le b = true) : a ≠ nan ∧ b ≠ nan := by
  constructor
  · rintro rfl
    cases less
  · rintro rfl
    cases a <;> cases less

end Num

/-! ## Rounding -/

/-- To the nearest integer, a half to the even one. -/
def halfEven (x : ℚ) : ℤ :=
  let below := ⌊x⌋
  let rest := x - below
  if rest < 1 / 2 then below
  else if 1 / 2 < rest then below + 1
  else if below % 2 = 0 then below
  else below + 1

/-- `round(x, digits)` -/
def roundTo (digits : ℕ) (x : ℚ) : ℚ :=
  (halfEven (x * 10 ^ digits) : ℚ) / 10 ^ digits

def Num.roundTo (digits : ℕ) : Num → Num
  | .finite value => .finite (Floats.roundTo digits value)
  | x => x

@[simp]
theorem Num.isFinite_roundTo (digits : ℕ) (x : Num) : (x.roundTo digits).isFinite = x.isFinite := by
  cases x with
  | _ => rfl

theorem halfEven_intCast (n : ℤ) : halfEven (n : ℚ) = n := by
  unfold halfEven
  simp

end Floats
