import PiEmbodied.Services.PolymetisRuns

/-!
# The ramps of a Franka under Polymetis

The fractions of `plan` over exact numbers: how far one waypoint may advance,
and that the count of waypoints is found in the tries that it has.
-/

namespace PiEmbodied.Services.Polymetis

open Ur5e (nano)

/-- `validate`, as far as `plan` reads the limits. -/
structure Limits.Validated (limits : Limits) : Prop where
  servoStep : 1 / 10 ^ 4 ≤ limits.servoStep ∧ limits.servoStep ≤ 1 / 10 ^ 2
  servoStepRad : 1 / 10 ^ 4 ≤ limits.servoStepRad ∧ limits.servoStepRad ≤ 5 / 10 ^ 2
  tick : 1 / 10 ^ 3 ≤ limits.tick ∧ limits.tick ≤ 1 / 10
  smoothSubsteps : 1 ≤ limits.smoothSubsteps ∧ limits.smoothSubsteps ≤ 1000
  smoothDt : 1 / 10 ^ 3 ≤ limits.smoothDt ∧ limits.smoothDt ≤ 1 / 10
  smoothCruise : 0 ≤ limits.smoothCruise ∧ limits.smoothCruise ≤ 15 / 10

variable {K : Type} [Field K] [LinearOrder K] [IsStrictOrderedRing K]
  {v₀ v₁ t x y before : K} {n left : ℕ} {fractions : List K}

/-! ## The profile -/

/-- The end speeds that `validate` lets a cruise have. -/
structure Cruises (v₀ v₁ : K) : Prop where
  first : 0 ≤ v₀ ∧ v₀ ≤ 3 / 2
  last : 0 ≤ v₁ ∧ v₁ ≤ 3 / 2

theorem Cruises.rest : Cruises (0 : K) 0 :=
  ⟨⟨le_rfl, by norm_num⟩, le_rfl, by norm_num⟩

/-- `s` of `smooth_fractions`. -/
def profile (v₀ v₁ t : K) : K :=
  v₀ * t + (10 * (1 - v₀) - 4 * (v₁ - v₀)) * t ^ 3 +
    (-15 * (1 - v₀) + 7 * (v₁ - v₀)) * t ^ 4 + (6 * (1 - v₀) - 3 * (v₁ - v₀)) * t ^ 5

/-- What the speed at the start adds to the slope. -/
def startPart (t : K) : K :=
  (1 - t) ^ 2 * ((1 + 5 * t) * (1 - 3 * t))

def slope (v₀ v₁ t : K) : K :=
  30 * (t * (1 - t)) ^ 2 + v₀ * startPart t + v₁ * startPart (1 - t)

/-- Boole's rule, which is exact for a slope of this degree. -/
theorem profile_sub (v₀ v₁ x y : K) :
    profile v₀ v₁ y - profile v₀ v₁ x =
      (y - x) * (7 * slope v₀ v₁ x + 32 * slope v₀ v₁ (x + (y - x) / 4) +
        12 * slope v₀ v₁ (x + (y - x) / 2) + 32 * slope v₀ v₁ (x + (y - x) * 3 / 4) +
        7 * slope v₀ v₁ y) / 90 := by
  simp only [profile, slope, startPart]
  field_simp
  ring

theorem profile_sub_le {high : K} (le : x ≤ y)
    (bounded : ∀ t, x ≤ t → t ≤ y → slope v₀ v₁ t ≤ high) :
    profile v₀ v₁ y - profile v₀ v₁ x ≤ high * (y - x) := by
  have first := bounded x le_rfl le
  have quarter := bounded (x + (y - x) / 4) (by linarith) (by linarith)
  have half := bounded (x + (y - x) / 2) (by linarith) (by linarith)
  have late := bounded (x + (y - x) * 3 / 4) (by linarith) (by linarith)
  have last := bounded y le le_rfl
  rw [profile_sub, mul_div_assoc, mul_comm high]
  exact mul_le_mul_of_nonneg_left (by linarith) (by linarith)

theorem le_profile_sub {low : K} (le : x ≤ y) (bounded : ∀ t, x ≤ t → t ≤ y → low ≤ slope v₀ v₁ t) :
    low * (y - x) ≤ profile v₀ v₁ y - profile v₀ v₁ x := by
  have first := bounded x le_rfl le
  have quarter := bounded (x + (y - x) / 4) (by linarith) (by linarith)
  have half := bounded (x + (y - x) / 2) (by linarith) (by linarith)
  have late := bounded (x + (y - x) * 3 / 4) (by linarith) (by linarith)
  have last := bounded y le le_rfl
  rw [profile_sub, mul_div_assoc, mul_comm low]
  exact mul_le_mul_of_nonneg_left (by linarith) (by linarith)

omit [LinearOrder K] [IsStrictOrderedRing K] in
theorem slope_swap (v₀ v₁ t : K) : slope v₀ v₁ t = slope v₁ v₀ (1 - t) := by
  simp only [slope, startPart]
  ring

theorem startPart_nonpos (after : 1 / 3 ≤ t) : startPart t ≤ 0 := by
  refine mul_nonpos_of_nonneg_of_nonpos (sq_nonneg _) (mul_nonpos_of_nonneg_of_nonpos ?_ ?_)
  · linarith
  · linarith

/-- Up to a third only the first speed makes the slope steeper. -/
theorem slope_le_early (slow : v₀ ≤ 3 / 2) (notBack : 0 ≤ v₁) (after : 0 ≤ t)
    (early : t ≤ 1 / 3) : slope v₀ v₁ t ≤ 15 / 8 := by
  have part : v₀ * startPart t ≤ 3 / 2 * startPart t :=
    mul_le_mul_of_nonneg_right slow
      (mul_nonneg (sq_nonneg _) (mul_nonneg (by linarith) (by linarith)))
  have other := mul_nonpos_of_nonneg_of_nonpos notBack (startPart_nonpos (by linarith : _ ≤ 1 - t))
  have square : t ^ 2 ≤ 1 / 9 := by nlinarith
  have cube : 0 ≤ t ^ 3 * (24 - 15 * t) := mul_nonneg (pow_nonneg after 3) (by linarith)
  have polynomial : startPart t = 1 - 18 * t ^ 2 + 32 * t ^ 3 - 15 * t ^ 4 := by
    rw [startPart]
    ring
  rw [slope]
  nlinarith

theorem slope_le (cruises : Cruises v₀ v₁) (after : 0 ≤ t) (within : t ≤ 1) :
    slope v₀ v₁ t ≤ 15 / 8 := by
  obtain ⟨⟨notBack, slow⟩, notBack', slow'⟩ := cruises
  by_cases early : t ≤ 1 / 3
  · exact slope_le_early slow notBack' after early
  by_cases late : 2 / 3 ≤ t
  · rw [slope_swap]
    exact slope_le_early slow' notBack (by linarith) (by linarith)
  have part := mul_nonpos_of_nonneg_of_nonpos notBack (startPart_nonpos (by linarith : _ ≤ t))
  have other := mul_nonpos_of_nonneg_of_nonpos notBack' (startPart_nonpos (by linarith : _ ≤ 1 - t))
  have most : (t * (1 - t)) ^ 2 ≤ (1 / 4) ^ 2 :=
    pow_le_pow_left₀ (mul_nonneg after (by linarith)) (by nlinarith [sq_nonneg (t - 1 / 2)]) 2
  rw [slope]
  linarith

/-- From rest to rest the slope is steepest in the middle. -/
theorem le_slope {u : K} (after : 1 / 2 - u ≤ t) (before : t ≤ 1 / 2 + u) :
    15 / 8 - 15 * u ^ 2 ≤ slope 0 0 t := by
  have near : (t - 1 / 2) ^ 2 ≤ u ^ 2 := by nlinarith
  have fourth := sq_nonneg ((t - 1 / 2) ^ 2)
  rw [slope]
  nlinarith

/-! ## The fractions -/

/-- A step forward, of a length up to `length`, that does not pass the end. -/
def Advances (length a b : K) : Prop :=
  a ≤ b ∧ b ≤ 1 ∧ b - a ≤ length

variable {length : K}

omit [LinearOrder K] [IsStrictOrderedRing K] in
theorem profile_one (v₀ v₁ : K) : profile v₀ v₁ 1 = 1 := by
  rw [profile]
  ring

omit [IsStrictOrderedRing K] in
theorem eased_succ :
    eased n v₀ v₁ (left + 1) before =
      min 1 (max (profile v₀ v₁ ((n - left : ℕ) / n)) before) ::
        eased n v₀ v₁ left (min 1 (max (profile v₀ v₁ ((n - left : ℕ) / n)) before)) :=
  rfl

omit [LinearOrder K] [IsStrictOrderedRing K] in
theorem sub_succ_div (le : left + 1 ≤ n) :
    ((n - left : ℕ) : K) / n = ((n - (left + 1) : ℕ) : K) / n + 1 / n := by
  rw [← add_div, show n - left = n - (left + 1) + 1 by omega, Nat.cast_add_one]

theorem div_le_one' (count : ℕ) (le : count ≤ n) : (count : K) / n ≤ 1 :=
  div_le_one_of_le₀ (Nat.cast_le.2 le) (Nat.cast_nonneg n)

theorem eased_advances (cruises : Cruises v₀ v₁) (le : left ≤ n) (within : before ≤ 1)
    (reached : profile v₀ v₁ (((n - left : ℕ) : K) / n) ≤ before ∨ before = 1) :
    (before :: eased n v₀ v₁ left before).IsChain (Advances ((15 : K) / 8 * (1 / n))) := by
  induction left generalizing before with
  | zero => exact .singleton before
  | succ left ih =>
    rw [eased_succ]
    have next := sub_succ_div (K := K) le
    have none : (0 : K) ≤ 1 / n := by positivity
    have start : (0 : K) ≤ ((n - (left + 1) : ℕ) : K) / n := by positivity
    have stop : ((n - left : ℕ) : K) / n ≤ 1 := div_le_one' _ (Nat.sub_le n left)
    refine .cons_cons ⟨le_min within (le_max_right _ _), min_le_left _ _, ?_⟩
      (ih (Nat.le_of_succ_le le) (min_le_left _ _) ?_)
    · rcases reached with behind | atEnd
      · have rise := profile_sub_le (next ▸ le_add_of_nonneg_right none) fun t after early =>
          slope_le cruises (start.trans after) (early.trans stop)
        rw [sub_le_iff_le_add]
        refine (min_le_right _ _).trans (max_le ?_ ?_)
        · rw [next] at rise ⊢
          linarith
        · linarith
      · rw [atEnd, sub_le_iff_le_add]
        exact (min_le_left _ _).trans (by linarith)
    · rcases min_choice 1 (max (profile v₀ v₁ ((n - left : ℕ) / n)) before) with isOne | isMax
      · exact .inr isOne
      · rw [isMax]
        exact .inl (le_max_left _ _)

theorem eased_last (pos : 0 < n) (within : before ≤ 1) :
    (eased n v₀ v₁ (left + 1) before).getLast? = some 1 := by
  induction left generalizing before with
  | zero =>
    rw [eased_succ, Nat.sub_zero, div_self (Nat.cast_ne_zero.2 pos.ne'), profile_one,
      max_eq_left within, min_self]
    rfl
  | succ left ih =>
    rw [eased_succ, List.getLast?_cons, ih (min_le_left _ _)]
    rfl

theorem smoothFractions_eq (pos : 0 < n) : smoothFractions n v₀ v₁ = eased n v₀ v₁ n 0 := by
  obtain ⟨left, rfl⟩ := Nat.exists_eq_add_one.2 pos
  rw [smoothFractions, max_eq_right pos]
  exact List.dropLast_append_getLast? _ (eased_last pos zero_le_one)

omit [IsStrictOrderedRing K] in
theorem advances_within (chain : (before :: fractions).IsChain (Advances length))
    (forward : 0 ≤ before) : ∀ f ∈ fractions, 0 ≤ f ∧ f ≤ 1 := by
  induction fractions generalizing before with
  | nil => exact fun f member => nomatch member
  | cons next rest ih =>
    obtain ⟨first, chain⟩ := List.isChain_cons_cons.1 chain
    have later := forward.trans first.1
    exact List.forall_mem_cons.2 ⟨⟨later, first.2.1⟩, ih chain later⟩

omit [IsStrictOrderedRing K] in
theorem length_eased : (eased n v₀ v₁ left before).length = left := by
  induction left generalizing before with
  | zero => rfl
  | succ left ih => rw [eased_succ, List.length_cons, ih]

theorem smoothFractions_advances (cruises : Cruises v₀ v₁) (pos : 0 < n) :
    ((0 : K) :: smoothFractions n v₀ v₁).IsChain (Advances ((15 : K) / 8 * (1 / n))) := by
  rw [smoothFractions_eq pos]
  refine eased_advances cruises le_rfl zero_le_one (.inl ?_)
  rw [Nat.sub_self, Nat.cast_zero, zero_div, profile]
  simp

theorem largestStep_le_iff (some : fractions ≠ []) :
    largestStep before fractions ≤ length ↔
      (before :: fractions).IsChain fun a b => b - a ≤ length := by
  induction fractions generalizing before with
  | nil => exact absurd rfl some
  | cons next rest ih =>
    cases rest with
    | nil => simp [largestStep]
    | cons following rest =>
      rw [List.isChain_cons_cons, ← ih (List.cons_ne_nil _ _)]
      exact max_le_iff

theorem le_length_mul (steps : (before :: fractions).IsChain fun a b => b - a ≤ length)
    {last : K} (ends : (before :: fractions).getLast? = some last) :
    last - before ≤ fractions.length * length := by
  induction fractions generalizing before with
  | nil =>
    cases ends
    simp
  | cons next rest ih =>
    obtain ⟨first, steps⟩ := List.isChain_cons_cons.1 steps
    have later := ih steps ends
    rw [List.length_cons, Nat.cast_add_one]
    linarith

theorem rest_mono (le : x ≤ y) : profile 0 0 x ≤ profile 0 0 y := by
  refine sub_nonneg.1 ((zero_mul (y - x)).symm.le.trans (le_profile_sub le fun t _ _ => ?_))
  rw [slope, zero_mul, zero_mul, add_zero, add_zero]
  positivity

theorem le_of_eased_chain (le : left ≤ n)
    (steps : (profile 0 0 (((n - left : ℕ) : K) / n) ::
      eased n 0 0 left (profile 0 0 (((n - left : ℕ) : K) / n))).IsChain fun a b => b - a ≤ length)
    {index : ℕ} (after : n - left ≤ index) (within : index < n) :
    profile 0 0 (((index + 1 : ℕ) : K) / n) - profile 0 0 ((index : K) / n) ≤ length := by
  induction left with
  | zero => omega
  | succ left ih =>
    have next : ((n - left : ℕ) : K) / n = ((n - (left + 1) : ℕ) : K) / n + 1 / n := sub_succ_div le
    have rise : profile 0 0 (((n - (left + 1) : ℕ) : K) / n) ≤ profile 0 0 (((n - left : ℕ) : K) / n) :=
      rest_mono (next ▸ le_add_of_nonneg_right (by positivity))
    have within' : profile 0 0 (((n - left : ℕ) : K) / n) ≤ 1 :=
      (rest_mono (div_le_one' _ (Nat.sub_le n left))).trans_eq (profile_one 0 0)
    rw [eased_succ, max_eq_left rise, min_eq_right within'] at steps
    obtain ⟨first, steps⟩ := List.isChain_cons_cons.1 steps
    rcases after.eq_or_lt with here | later
    · rwa [← here, show n - (left + 1) + 1 = n - left by omega]
    · exact ih (Nat.le_of_succ_le le) steps (by omega)

/-! ## The worst step -/

/-- `worst` of `plan`. -/
def worst (n : ℕ) (v₀ v₁ : K) : K :=
  max (largestStep 0 (smoothFractions n 0 0)) (largestStep 0 (smoothFractions n v₀ v₁))

omit [IsStrictOrderedRing K] in
theorem smoothFractions_ne_nil : smoothFractions n v₀ v₁ ≠ [] :=
  List.append_ne_nil_of_right_ne_nil _ (List.cons_ne_nil _ _)

theorem worst_le (cruises : Cruises v₀ v₁) (pos : 0 < n) : worst n v₀ v₁ ≤ 15 / 8 * (1 / n) :=
  max_le
    ((largestStep_le_iff smoothFractions_ne_nil).2
      ((smoothFractions_advances .rest pos).imp fun _ _ step => step.2.2))
    ((largestStep_le_iff smoothFractions_ne_nil).2
      ((smoothFractions_advances cruises pos).imp fun _ _ step => step.2.2))

theorem rest_steps (pos : 0 < n) :
    ((0 : K) :: eased n 0 0 n 0).IsChain fun a b => b - a ≤ worst n v₀ v₁ := by
  rw [← smoothFractions_eq pos]
  exact (largestStep_le_iff smoothFractions_ne_nil).1 (le_max_left _ _)

/-- On the average a step is one part of the way. -/
theorem one_le_mul_worst (v₀ v₁ : K) (pos : 0 < n) : 1 ≤ n * worst n v₀ v₁ := by
  obtain ⟨left, rfl⟩ := Nat.exists_eq_add_one.2 pos
  have ends : ((0 : K) :: eased (left + 1) 0 0 (left + 1) 0).getLast? = some 1 := by
    rw [List.getLast?_cons, eased_last pos zero_le_one]
    rfl
  have whole : _ ≤ _ * worst (left + 1) v₀ v₁ := le_length_mul (rest_steps pos) ends
  rwa [length_eased, sub_zero] at whole

theorem worst_nonneg (pos : 0 < n) : 0 ≤ worst n v₀ v₁ := by
  have isPos : (0 : K) < n := Nat.cast_pos.2 pos
  refine le_of_mul_le_mul_left ?_ isPos
  rw [mul_zero]
  exact zero_le_one.trans (one_le_mul_worst v₀ v₁ pos)

/-- In the middle it is nearly as long as the slope allows. -/
theorem middle_le_mul_worst (v₀ v₁ : K) (pos : 0 < n) :
    15 / 8 - 15 * (1 / n) ^ 2 ≤ n * worst n v₀ v₁ := by
  have isPos : (0 : K) < n := Nat.cast_pos.2 pos
  have start : profile 0 0 (((n - n : ℕ) : K) / n) = 0 := by
    rw [Nat.sub_self, Nat.cast_zero, zero_div, profile]
    simp
  have step : _ ≤ worst n v₀ v₁ := le_of_eased_chain le_rfl (by rw [start]; exact rest_steps pos)
    (by omega : n - n ≤ n / 2) (by omega)
  have next : ((n / 2 + 1 : ℕ) : K) / n = ((n / 2 : ℕ) : K) / n + 1 / n := by
    rw [← add_div, Nat.cast_add_one]
  have below : ((n / 2 : ℕ) : K) / n ≤ 1 / 2 := by
    rw [div_le_div_iff₀ isPos two_pos]
    exact_mod_cast (by omega : n / 2 * 2 ≤ 1 * n)
  have above : 1 / 2 ≤ ((n / 2 + 1 : ℕ) : K) / n := by
    rw [div_le_div_iff₀ two_pos isPos]
    exact_mod_cast (by omega : 1 * n ≤ (n / 2 + 1) * 2)
  rw [next] at step above
  have none : (0 : K) ≤ 1 / n := by positivity
  have steep : ∀ t, ((n / 2 : ℕ) : K) / n ≤ t → t ≤ ((n / 2 : ℕ) : K) / n + 1 / n →
      15 / 8 - 15 * (1 / (n : K)) ^ 2 ≤ slope 0 0 t :=
    fun t after before => le_slope (by linarith) (by linarith)
  have rise := (le_profile_sub (le_add_of_nonneg_right none) steep).trans step
  rwa [add_sub_cancel_left, mul_one_div, div_le_iff₀ isPos, mul_comm (worst n v₀ v₁)] at rise

/-! ## The count -/

variable [FloorSemiring K] {limits : Limits} {dist angle : K}

/-- How many times the whole move goes beyond what one waypoint may advance. -/
def load (limits : Limits) (dist angle : K) : K :=
  let scale : K := min 1 (limits.smoothDt / limits.tick)
  max (dist / (limits.servoStep * scale)) (angle / (limits.servoStepRad * scale))

theorem substeps_succ (pos : 0 < n) :
    substeps limits dist angle v₀ v₁ (left + 1) n =
      if worst n v₀ v₁ * load limits dist angle ≤ 1 + nano then n
      else substeps limits dist angle v₀ v₁ left
        (max (n + 1) ⌈n * (worst n v₀ v₁ * load limits dist angle)⌉₊) := by
  rw [load, mul_max_of_nonneg _ _ (worst_nonneg pos), ← mul_div_assoc, ← mul_div_assoc]
  rfl

/-- A waypoint of so many advances no further than it may. -/
def Fits (limits : Limits) (dist angle v₀ v₁ : K) (n : ℕ) : Prop :=
  0 < n ∧ worst n v₀ v₁ * load limits dist angle ≤ 1 + nano

/-- A count fits that the steepest slope fits, so that the tries end there. -/
theorem substeps_fits (cruises : Cruises v₀ v₁) (forward : 0 ≤ load limits dist angle)
    (pos : 0 < n) (enough : 15 / 8 * load limits dist angle ≤ n + left) :
    Fits limits dist angle v₀ v₁ (substeps limits dist angle v₀ v₁ left n) := by
  induction left generalizing n with
  | zero =>
    have isPos : (0 : K) < n := Nat.cast_pos.2 pos
    refine ⟨pos, (mul_le_mul_of_nonneg_right (worst_le cruises pos) forward).trans ?_⟩
    rw [mul_one_div, div_mul_eq_mul_div, div_le_iff₀ isPos]
    have some : (0 : K) ≤ nano := by
      simp only [nano]
      norm_num
    rw [Nat.cast_zero, add_zero] at enough
    nlinarith
  | succ left ih =>
    rw [substeps_succ pos]
    split
    next fits => exact ⟨pos, fits⟩
    next =>
      refine ih (by omega) (enough.trans ?_)
      rw [Nat.cast_add_one, ← add_assoc, add_right_comm, ← Nat.cast_add_one]
      exact add_le_add_left (Nat.cast_le.2 (le_max_left _ _)) _

theorem le_next (forward : 0 ≤ load limits dist angle) (le : x ≤ n * worst n v₀ v₁) :
    x * load limits dist angle ≤
      (max (n + 1) ⌈n * (worst n v₀ v₁ * load limits dist angle)⌉₊ : ℕ) := by
  refine (mul_le_mul_of_nonneg_right le forward).trans ?_
  rw [mul_assoc]
  exact (Nat.le_ceil _).trans (Nat.cast_le.2 (le_max_right _ _))

/-- The first try that does not fit makes the count as large as the load, the
next as large as the steepest slope needs, less fifteen. -/
theorem substeps_reach (cruises : Cruises v₀ v₁) (forward : 0 ≤ load limits dist angle)
    (pos : 0 < n) (tries : 15 ≤ left) :
    Fits limits dist angle v₀ v₁ (substeps limits dist angle v₀ v₁ (left + 2) n) := by
  rw [substeps_succ pos]
  split
  next fits => exact ⟨pos, fits⟩
  next =>
    have reaches := le_next forward (one_le_mul_worst v₀ v₁ pos)
    have isNext : 0 < max (n + 1) ⌈n * (worst n v₀ v₁ * load limits dist angle)⌉₊ := by omega
    generalize max (n + 1) ⌈n * (worst n v₀ v₁ * load limits dist angle)⌉₊ = next
      at reaches isNext ⊢
    rw [substeps_succ isNext]
    split
    next fits => exact ⟨isNext, fits⟩
    next =>
      refine substeps_fits cruises forward (by omega) ?_
      have nearly := le_next forward (middle_le_mul_worst v₀ v₁ isNext)
      have many : (15 : K) ≤ left := by exact_mod_cast tries
      have isPos : (1 : K) ≤ next := Nat.one_le_cast.2 isNext
      have missing : (1 / (next : K)) ^ 2 * load limits dist angle ≤ 1 := by
        rw [one_div, inv_pow, inv_mul_le_iff₀ (by positivity), mul_one]
        nlinarith
      linarith

theorem substeps_stable (pos : 0 < n) (more : ℕ)
    (fits : Fits limits dist angle v₀ v₁ (substeps limits dist angle v₀ v₁ left n)) :
    substeps limits dist angle v₀ v₁ (left + more) n =
      substeps limits dist angle v₀ v₁ left n := by
  induction left generalizing n with
  | zero =>
    cases more with
    | zero => rfl
    | succ more =>
      rw [Nat.zero_add, substeps_succ pos]
      exact if_pos fits.2
  | succ left ih =>
    rw [substeps_succ pos] at fits
    rw [Nat.add_right_comm, substeps_succ pos, substeps_succ pos]
    split
    next => rfl
    next exceeds =>
      rw [if_neg exceeds] at fits
      exact ih (by omega) fits

/-! ## The ramps -/

/-- A step of a ramp goes on, and no further than the servo may. -/
def Respects (limits : Limits) (scale dist angle a b : K) : Prop :=
  a ≤ b ∧ (b - a) * dist ≤ limits.servoStep * scale * (1 + nano) ∧
    (b - a) * angle ≤ limits.servoStepRad * scale * (1 + nano)

omit [FloorSemiring K] in
theorem respects_of_load {scale most a b : K} (steps : (0 : K) < limits.servoStep * scale)
    (turns : (0 : K) < limits.servoStepRad * scale) (forward : 0 ≤ dist) (turned : 0 ≤ angle)
    (fits : most * max (dist / (limits.servoStep * scale)) (angle / (limits.servoStepRad * scale)) ≤
      1 + nano)
    (some : 0 ≤ most) (onward : a ≤ b) (short : b - a ≤ most) :
    Respects limits scale dist angle a b := by
  rw [mul_max_of_nonneg _ _ some, max_le_iff, ← mul_div_assoc, ← mul_div_assoc,
    div_le_iff₀ steps, div_le_iff₀ turns] at fits
  refine ⟨onward, ?_, ?_⟩
  · rw [mul_comm (_ * scale)]
    exact (mul_le_mul_of_nonneg_right short forward).trans fits.1
  · rw [mul_comm (_ * scale)]
    exact (mul_le_mul_of_nonneg_right short turned).trans fits.2

theorem Limits.Validated.positive {limits : Limits} (validated : limits.Validated) :
    (0 : K) < limits.servoStep ∧ (0 : K) < limits.servoStepRad ∧ (0 : K) < limits.tick ∧
      (0 : K) < limits.smoothDt ∧ (limits.smoothCruise : K) ≤ 3 / 2 := by
  have cruise := validated.smoothCruise.2
  refine ⟨Rat.cast_pos.2 ?_, Rat.cast_pos.2 ?_, Rat.cast_pos.2 ?_, Rat.cast_pos.2 ?_, ?_⟩
  · linarith [validated.servoStep.1]
  · linarith [validated.servoStepRad.1]
  · linarith [validated.tick.1]
  · linarith [validated.smoothDt.1]
  · calc (limits.smoothCruise : K) ≤ ((3 / 2 : ℚ) : K) := Rat.cast_le.2 (by linarith)
      _ = 3 / 2 := by norm_num

omit [FloorSemiring K] in
theorem smooth_ramps {scale : K} (isScale : scale = min 1 (limits.smoothDt / limits.tick : K))
    (cruises : Cruises v₀ v₁) (forward : 0 ≤ dist) (turned : 0 ≤ angle)
    (steps : (0 : K) < limits.servoStep * scale) (turns : (0 : K) < limits.servoStepRad * scale)
    (fits : Fits limits dist angle v₀ v₁ n) :
    (0 :: smoothFractions n v₀ v₁).IsChain (Respects limits scale dist angle) := by
  subst isScale
  have goes := smoothFractions_advances cruises fits.1
  have short := (largestStep_le_iff smoothFractions_ne_nil).1
    (le_max_right (largestStep 0 (smoothFractions n 0 0)) (largestStep 0 (smoothFractions n v₀ v₁)))
  rw [List.isChain_iff_getElem] at goes short ⊢
  exact fun index inside => respects_of_load steps turns forward turned fits.2
    (worst_nonneg fits.1) (goes index inside).1 (short index inside)

/-- Steps of equal length, as many as `_ticks` has. -/
theorem steady_ramps (step : (0 : K) < limits.servoStep) (turnStep : (0 : K) < limits.servoStepRad)
    (forward : 0 ≤ dist) (turned : 0 ≤ angle) (isTicks : n = ticks limits dist angle) :
    (0 :: (List.range n).map fun i : ℕ => ((i : K) + 1) / n).IsChain
      (Respects limits 1 dist angle) := by
  have one : 1 ≤ n := isTicks ▸ le_max_left _ _
  have pos : (1 : K) ≤ n := Nat.one_le_cast.2 one
  have small : (0 : K) ≤ nano := by
    simp only [nano]
    norm_num
  have listed : (0 : K) :: ((List.range n).map fun i : ℕ => ((i : K) + 1) / n) =
      (List.range (n + 1)).map fun i : ℕ => (i : K) / n := by
    rw [List.range_succ_eq_map, List.map_cons, List.map_map, Nat.cast_zero, zero_div]
    exact congrArg _ (List.map_congr_left fun i _ => by simp)
  have moves : dist / limits.servoStep ≤ n + nano := by
    rw [← sub_le_iff_le_add, isTicks]
    exact (Nat.le_ceil _).trans (Nat.cast_le.2 ((le_max_left _ _).trans (le_max_right _ _)))
  have turns : angle / limits.servoStepRad ≤ n + nano := by
    rw [← sub_le_iff_le_add, isTicks]
    exact (Nat.le_ceil _).trans (Nat.cast_le.2 ((le_max_right _ _).trans (le_max_right _ _)))
  rw [listed, List.isChain_map, List.isChain_range]
  intro index inside
  have part : ((index + 1 : ℕ) : K) / n - (index : K) / n = 1 / n := by
    rw [← sub_div, Nat.cast_add_one, add_sub_cancel_left]
  have some : (0 : K) ≤ 1 / n := by positivity
  refine respects_of_load (by rwa [mul_one]) (by rwa [mul_one]) forward turned ?_ some
    (sub_nonneg.1 (part.symm ▸ some)) part.le
  rw [mul_one, mul_one, one_div, inv_mul_le_iff₀ (by linarith)]
  refine (max_le moves turns).trans ?_
  nlinarith

/-- A ramp of `plan` goes on from zero to one, and no waypoint advances more
than the servo may in the delay; more tries find the same count. -/
theorem plan_ramps {limits : Limits} (validated : limits.Validated) {dist angle v₀ v₁ : K}
    (forward : 0 ≤ dist) (turned : 0 ≤ angle)
    (first : 0 ≤ v₀ ∧ v₀ ≤ limits.smoothCruise) (last : 0 ≤ v₁ ∧ v₁ ≤ limits.smoothCruise) :
    let fractions := plan limits dist angle v₀ v₁
    let delay := if limits.smooth then limits.smoothDt else limits.tick
    (0 :: fractions).IsChain (Respects limits (min 1 (delay / limits.tick : K)) dist angle) ∧
      (∀ f ∈ fractions, 0 ≤ f ∧ f ≤ 1) ∧ fractions.getLast? = some 1 ∧
      ∀ more, substeps limits dist angle v₀ v₁ (64 + more) limits.smoothSubsteps =
        substeps limits dist angle v₀ v₁ 64 limits.smoothSubsteps := by
  intro fractions delay
  obtain ⟨step, turnStep, tick, smoothDt, cruise⟩ := validated.positive (K := K)
  have cruises : Cruises v₀ v₁ := ⟨⟨first.1, first.2.trans cruise⟩, last.1, last.2.trans cruise⟩
  have scale : (0 : K) < min 1 (limits.smoothDt / limits.tick : K) :=
    lt_min one_pos (div_pos smoothDt tick)
  have pos := validated.smoothSubsteps.1
  have loaded : 0 ≤ load limits dist angle :=
    le_max_of_le_left (div_nonneg forward (mul_pos step scale).le)
  have fits := substeps_reach cruises loaded pos (by decide : 15 ≤ 62)
  refine ⟨?_, ?_, ?_, fun more => substeps_stable pos more fits⟩
  · simp only [fractions, delay, plan]
    split
    · exact smooth_ramps rfl cruises forward turned (mul_pos step scale)
        (mul_pos turnStep scale) fits
    · rw [div_self tick.ne', min_self]
      exact steady_ramps step turnStep forward turned rfl
  · simp only [fractions, plan]
    split
    · exact advances_within (smoothFractions_advances cruises fits.1) le_rfl
    · intro f member
      obtain ⟨index, inside, rfl⟩ := List.mem_map.1 member
      rw [← Nat.cast_add_one]
      exact ⟨by positivity, div_le_one' _ (List.mem_range.1 inside)⟩
  · simp only [fractions, plan]
    split
    · exact List.getLast?_concat
    · have one : 1 ≤ ticks limits dist angle := le_max_left _ _
      rw [List.getLast?_map, List.getLast?_range, if_neg (by omega), Option.map_some,
        ← Nat.cast_add_one, Nat.sub_add_cancel one, div_self (Nat.cast_ne_zero.2 (by omega))]

def smoothLimits : Limits :=
  { someLimits with smooth := true }

theorem plan_ramps_short : (plan smoothLimits (1 / 20 : ℚ) 0 0 0).getLast? = some 1 := by
  have validated : smoothLimits.Validated := by
    constructor <;> norm_num [smoothLimits, someLimits]
  have cruise : (0 : ℚ) ≤ smoothLimits.smoothCruise := by
    norm_num [smoothLimits, someLimits]
  exact (plan_ramps validated (by norm_num) le_rfl ⟨le_rfl, cruise⟩ ⟨le_rfl, cruise⟩).2.2.1

end PiEmbodied.Services.Polymetis
