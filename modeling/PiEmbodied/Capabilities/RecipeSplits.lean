import PiEmbodied.Capabilities.Flash
import PiEmbodied.Entries

/-!
# Splitting a recipe's moves

A planned move or turn beyond what one call may run is sent as equal calls.
Each step is rounded, and a step that rounding holds above the limit is made
shorter by one more call.
-/

namespace PiEmbodied.Recipe

open Flash (FlashCall)

variable {K : Type}

inductive Arg (K : Type) where
  | vec (value : List K)
  | num (value : K)
  | other (json : String)
  deriving DecidableEq

structure AnchoredEntry (K : Type) where
  action : String
  arguments : List (String × Arg K)

structure RelativeTarget (K : Type) where
  delta : String
  maxStep : Option K

structure RelativeTurn (K : Type) where
  arg : String
  maxStep : K

/-- The loop that takes one more step while the rounded step is over. -/
def fitting (past : ℕ → Bool) : ℕ → ℕ → Option ℕ
  | 0, _ => none
  | fuel + 1, n => if past n then fitting past fuel (n + 1) else some n

/-- The other arguments run once, with the first call. -/
def calls (entry : AnchoredEntry K) (key : String) (step : Arg K) (n : ℕ) :
    List (FlashCall (List (String × Arg K))) :=
  (List.range n).map fun i =>
    ⟨entry.action, if i = 0 then Entries.set entry.arguments key step else [(key, step)]⟩

/-! ## The loop -/

theorem fitting_ends {past : ℕ → Bool} {more n : ℕ} (fits : past (n + more) = false) :
    ∃ k, n ≤ k ∧ past k = false ∧ ∀ fuel, fitting past (fuel + more + 1) n = some k := by
  induction more generalizing n with
  | zero =>
    refine ⟨n, Nat.le_refl n, fits, fun fuel => ?_⟩
    rw [fitting, show past n = false from fits, if_neg Bool.false_ne_true]
  | succ more ih =>
    cases here : past n with
    | false =>
      refine ⟨n, Nat.le_refl n, here, fun fuel => ?_⟩
      rw [fitting, here, if_neg Bool.false_ne_true]
    | true =>
      rw [← Nat.add_assoc, Nat.add_right_comm] at fits
      obtain ⟨k, above, isFitting, ends⟩ := ih fits
      refine ⟨k, Nat.le_of_succ_le above, isFitting, fun fuel => ?_⟩
      rw [fitting, here, if_pos rfl]
      exact ends fuel

/-- The loop ends on a step within the limit, from any first count. -/
theorem fitting_within {past : ℕ → Bool} {enough : ℕ} (fits : ∀ n ≥ enough, past n = false)
    {first : ℕ} (some_ : 0 < first) :
    ∃ n, 0 < n ∧ past n = false ∧ ∃ least, ∀ fuel, fitting past (fuel + least) first = some n := by
  obtain ⟨n, atLeast, isFitting, ends⟩ := fitting_ends (fits (first + enough) (Nat.le_add_left _ _))
  exact ⟨n, Nat.lt_of_lt_of_le some_ atLeast, isFitting, enough + 1, ends⟩

/-! ## The calls -/

/-- The calls of one entry: each carries the step, the first everything
else. -/
structure Splits (entry : AnchoredEntry K) (key : String) (step : Arg K) (n : ℕ)
    (made : List (FlashCall (List (String × Arg K)))) : Prop where
  length : made.length = n
  named : ∀ call ∈ made, call.name = entry.action
  step : ∀ call ∈ made, Entries.get call.arguments key = some step
  others :
    ∀ (i : ℕ) call, made[i]? = some call → ∀ other ≠ key,
      Entries.get call.arguments other = if i = 0 then Entries.get entry.arguments other else none

theorem calls_splits (entry : AnchoredEntry K) (key : String) (step : Arg K) (n : ℕ) :
    Splits entry key step n (calls entry key step n) where
  length := by simp [calls]
  named := by
    intro call member
    obtain ⟨i, _, rfl⟩ := List.mem_map.mp member
    rfl
  step := by
    intro call member
    obtain ⟨i, _, rfl⟩ := List.mem_map.mp member
    dsimp only
    split_ifs
    · simp [Entries.get_set]
    · simp [Entries.get_cons]
  others := by
    intro i call isCall other different
    obtain ⟨j, isAt, rfl⟩ := Option.map_eq_some_iff.mp ((List.getElem?_map ..).symm.trans isCall)
    obtain ⟨_, rfl⟩ := List.getElem?_eq_some_iff.mp isAt
    rw [List.getElem_range]
    dsimp only
    split_ifs
    · rw [Entries.get_set, if_neg different]
    · rw [Entries.get_cons, if_neg different, Entries.get_nil]

/-! ## Rounding -/

variable [Field K] [LinearOrder K] [IsStrictOrderedRing K] [FloorRing K]

/-- `Number(v.toFixed(4))`: the nearest ten-thousandth, a tie away from zero. -/
def r4 (v : K) : K :=
  if v < 0 then -(⌊-v * 10000 + 1 / 2⌋ / 10000) else ⌊v * 10000 + 1 / 2⌋ / 10000

/-- How many calls a length takes before the step is rounded. -/
def evenly (length maxStep : K) : ℕ :=
  max 1 ⌈length / maxStep - 1 / 1000000000⌉₊

def stepOf (delta : List K) (n : ℕ) : List K :=
  delta.map fun v => r4 (v / n)

def splitMove (hypot : List K → K) (entry : AnchoredEntry K) (target : RelativeTarget K)
    (delta : List K) (fuel : ℕ) : Option (List (FlashCall (List (String × Arg K)))) :=
  match target.maxStep with
  | none => some (calls entry target.delta (.vec (stepOf delta 1)) 1)
  | some maxStep =>
    (fitting (fun n => maxStep < hypot (stepOf delta n)) fuel (evenly (hypot delta) maxStep)).map
      fun n => calls entry target.delta (.vec (stepOf delta n)) n

/-- `wrap` takes an angle to (-pi, pi]. -/
def splitAngle (wrap : K → K) (entry : AnchoredEntry K) (turn : RelativeTurn K) (fuel : ℕ) :
    Option (List (FlashCall (List (String × Arg K)))) :=
  match Entries.get entry.arguments turn.arg with
  | some (.num raw) =>
    let yaw := wrap raw
    (fitting (fun n : ℕ => turn.maxStep < |r4 (yaw / n)|) fuel (evenly (r4 |yaw|) turn.maxStep)).map
      fun (n : ℕ) => calls entry turn.arg (.num (r4 (yaw / n))) n
  | _ => some [⟨entry.action, entry.arguments⟩]

theorem floor_near (v : K) : |(⌊v * 10000 + 1 / 2⌋ : K) / 10000 - v| ≤ 1 / 20000 := by
  have below := Int.floor_le (v * 10000 + 1 / 2)
  have above := Int.lt_floor_add_one (v * 10000 + 1 / 2)
  rw [abs_le]
  constructor
  · linarith
  · linarith

theorem r4_near (v : K) : |r4 v - v| ≤ 1 / 20000 := by
  unfold r4
  split
  · have near := floor_near (-v)
    rw [← abs_neg]
    convert near using 2
    ring
  · exact floor_near v

theorem r4_small {v : K} (small : |v| < 1 / 20000) : r4 v = 0 := by
  have nothing : ∀ w : K, 0 ≤ w → w < 1 / 20000 → ⌊w * 10000 + 1 / 2⌋ = 0 := by
    intro w positive isSmall
    rw [Int.floor_eq_zero_iff]
    constructor
    · linarith
    · linarith
  obtain ⟨above, below⟩ := abs_lt.mp small
  unfold r4
  split
  · rw [nothing (-v) (by linarith) (by linarith)]
    simp
  · rw [nothing v (by linarith) below]
    simp

/-- Enough steps of any length round to none. -/
theorem r4_vanishes (v : K) : ∃ enough, ∀ n ≥ enough, r4 (v / (n : ℕ)) = 0 := by
  obtain ⟨enough, isEnough⟩ := exists_nat_gt (|v| * 20000)
  refine ⟨enough + 1, fun n many => r4_small ?_⟩
  have more : (enough : K) + 1 ≤ n := by exact_mod_cast many
  have positive : (0 : K) < n := by
    have := abs_nonneg v
    linarith
  rw [abs_div, abs_of_pos positive, div_lt_iff₀ positive]
  linarith

theorem stepOf_vanishes (delta : List K) : ∃ enough, ∀ n ≥ enough, ∀ x ∈ stepOf delta n, x = 0 := by
  induction delta with
  | nil => exact ⟨0, fun n _ x member => absurd member List.not_mem_nil⟩
  | cons v rest ih =>
    obtain ⟨here, vanishes⟩ := r4_vanishes v
    obtain ⟨later, areZero⟩ := ih
    refine ⟨max here later, fun n many x member => ?_⟩
    rcases List.mem_cons.mp member with rfl | inRest
    · exact vanishes n (le_of_max_le_left many)
    · exact areZero n (le_of_max_le_right many) x inRest

/-- What `n` steps leave of a length. -/
theorem sum_near (v : K) {n : ℕ} (positive : 0 < n) : |n * r4 (v / n) - v| ≤ n * (1 / 20000) := by
  have isPositive : (0 : K) < n := by exact_mod_cast positive
  have isWhole : n * r4 (v / n) - v = n * (r4 (v / n) - v / n) := by
    field_simp
  rw [isWhole, abs_mul, abs_of_pos isPositive]
  exact mul_le_mul_of_nonneg_left (r4_near _) isPositive.le

/-- A recorded turn of 160 degrees. -/
def turnedBack : AnchoredEntry ℚ :=
  ⟨"rotate_delta", [("yaw", .num (27925 / 10000))]⟩

def along (v : List ℚ) : ℚ :=
  (v.map abs).sum

end PiEmbodied.Recipe
