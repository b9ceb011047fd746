import PiEmbodied.Motormind.Limits

/-!
# The reach limit

Only the horizontal distance to the base counts, and a push ends the check.  A
translation may end within the reach or a little farther out than it starts;
one that would not is cut to what fits, and the rest is dropped.
-/

namespace PiEmbodied.Motormind.Command

open List (cons_append length_nil nil_append replicate)

section Definitions

variable {K : Type} [Field K] [LinearOrder K] [FloorRing K]

def hypot (js : Js K) (a b : K) : K :=
  js.sqrt (a * a + b * b)

def radius (js : Js K) (p : Vec3 K) : K :=
  hypot js (p 0) (p 1)

structure Fit (K : Type) where
  deltas : List (Delta K)
  shortened : Bool
  refused : Option String

/-- `p[0] * u[0] + p[1] * u[1]`, with `u` the axis in the plane. -/
def along (js : Js K) (p axis : Vec3 K) : K :=
  p 0 * (axis 0 / hypot js (axis 0) (axis 1)) + p 1 * (axis 1 / hypot js (axis 0) (axis 1))

def fittingReach (js : Js K) (caps : Caps K) (p axis : Vec3 K) : K :=
  let now := radius js p
  let b := along js p axis
  let inside := caps.reach_m * caps.reach_m - now * now + b * b
  max 0 (js.sqrt (max 0 inside) - b)

def fitsMm (js : Js K) (caps : Caps K) (p axis : Vec3 K) : ℤ :=
  ⌊fittingReach js caps p axis * 1000 + 1 / 10 ^ 9⌋

/-- The translations from the `i`th on, from where those before it ended. -/
def fitFrom (js : Js K) (caps : Caps K) (deltas : List (Delta K)) :
    ℕ → Vec3 K → List (Delta K) → Fit K
  | _, _, [] => ⟨deltas, false, none⟩
  | i, p, d :: rest =>
    match d.translation with
    | none => fitFrom js caps deltas (i + 1) p rest
    | some axis =>
      if d.push then ⟨deltas, false, none⟩
      else
        let stop := p + d.magnitude • axis
        let horizontal := hypot js (axis 0) (axis 1)
        let now := radius js p
        let out := radius js stop
        if horizontal < 1 / 10 ^ 12 ∨
            out ≤ max caps.reach_m (now + REACH_SLACK_M) + 1 / 10 ^ 12 then
          fitFrom js caps deltas (i + 1) stop rest
        else
          let fits := fitsMm js caps p axis
          if (fits : K) < MIN_FIT_MM then
            if out ≤ caps.reach_m + caps.arrival_tolerance_m then
              fitFrom js caps deltas (i + 1) stop rest
            else
              ⟨deltas, false,
                some
                  ("action " ++ toString d.index ++ " (" ++ d.label ++
                    ") would end " ++ pyFixed (out * 1000) 0 ++
                    " mm from the base, past the " ++
                    pyFixed (caps.reach_m * 1000) 0 ++
                    " mm reach, and no part of it fits: at the edge of " ++
                    "the reach a move falls short and drifts, which " ++
                    "looks like being blocked. Work from the near side " ++
                    "of the target.")⟩
          else
            ⟨shorten deltas i (fits / 1000 / horizontal)
                ("it would end " ++ pyFixed (out * 1000) 0 ++ " mm from the base, past the " ++
                  pyFixed (caps.reach_m * 1000) 0 ++ " mm reach")
                "work from the near side of the target",
              true, none⟩

def fitToReach (js : Js K) (caps : Caps K) (deltas : List (Delta K)) (start : Pose K) : Fit K :=
  fitFrom js caps deltas 0 start.position_m deltas

/-! ## What the check lets pass -/

def Delta.pushes (d : Delta K) : Bool :=
  d.translation.isSome && d.push

/-- The check lets a translation from `p` pass as it is. -/
def Passes (js : Js K) (caps : Caps K) (p : Vec3 K) (d : Delta K) (axis : Vec3 K) : Prop :=
  (hypot js (axis 0) (axis 1) < 1 / 10 ^ 12 ∨
    radius js (p + d.magnitude • axis) ≤
      max caps.reach_m (radius js p + REACH_SLACK_M) + 1 / 10 ^ 12) ∨
  ((fitsMm js caps p axis : K) < MIN_FIT_MM ∧
    radius js (p + d.magnitude • axis) ≤ caps.reach_m + caps.arrival_tolerance_m)

def Cleared (js : Js K) (caps : Caps K) (start : Vec3 K) (deltas : List (Delta K)) : Prop :=
  ∀ done d rest axis, deltas = done ++ d :: rest → (∀ other ∈ done, other.pushes = false) →
    d.translation = some axis → d.push = false →
    Passes js caps (start + travelled done) d axis

/-- The tolerance of the checks, for a move of the magnitude. -/
def tolerance (magnitude : K) : K :=
  (1 + magnitude) / 10 ^ 12

/-- Where a translation may end that starts at the radius `now`. -/
def farthest (caps : Caps K) (now magnitude : K) : K :=
  max (caps.reach_m + max 0 caps.arrival_tolerance_m) (now + REACH_SLACK_M) + tolerance magnitude

end Definitions

section

variable {K : Type} [Field K] [LinearOrder K] [FloorRing K]
  {js : Js K} {caps : Caps K} {start : Vec3 K}

theorem cleared_nil : Cleared js caps start [] := by
  intro done d rest axis split
  simp at split

variable {deltas : List (Delta K)}

section

variable (cleared : Cleared js caps start deltas)
include cleared

theorem Cleared.snoc {last : Delta K}
    (passes :
      ∀ axis, last.translation = some axis → last.push = false →
        Passes js caps (start + travelled deltas) last axis) :
    Cleared js caps start (deltas ++ [last]) := by
  intro done d rest axis split noPush moves free
  rcases List.eq_nil_or_concat rest with isNil | ⟨front, final, isSnoc⟩
  · rw [isNil] at split
    obtain ⟨sameDone, sameLast⟩ := List.append_inj' split rfl
    have same : last = d := by simpa using sameLast
    rw [← sameDone]
    rw [← same] at moves free ⊢
    exact passes axis moves free
  · rw [List.concat_eq_append] at isSnoc
    rw [isSnoc, ← cons_append, ← List.append_assoc] at split
    obtain ⟨sameDone, _⟩ := List.append_inj' split rfl
    exact cleared done d front axis sameDone noPush moves free

theorem Cleared.push {rest : List (Delta K)} {d : Delta K} (pushes : d.pushes = true) :
    Cleared js caps start (deltas ++ d :: rest) := by
  intro done other after axis split noPush moves free
  have isPush := Bool.and_eq_true_iff.1 pushes
  rcases List.append_eq_append_iff.1 split with
    ⟨more, isDone, isRest⟩ | ⟨more, isFront, isRest⟩
  · cases more with
    | nil =>
      rw [nil_append] at isRest
      injection isRest with same _
      rw [same] at isPush
      exact absurd isPush.2 (by simp [free])
    | cons first others =>
      rw [cons_append] at isRest
      injection isRest with same _
      have member : d ∈ done := by simp [isDone, same]
      exact absurd pushes (by simp [noPush d member])
  · cases more with
    | nil =>
      rw [nil_append] at isRest
      injection isRest with same _
      rw [← same] at isPush
      exact absurd isPush.2 (by simp [free])
    | cons first others =>
      rw [cons_append] at isRest
      injection isRest with same _
      exact cleared done other others axis (by rw [isFront, same]) noPush moves free

theorem fitFrom_of_cleared (rest : List (Delta K)) :
    ∀ done : List (Delta K), deltas = done ++ rest → (∀ d ∈ done, d.pushes = false) →
      fitFrom js caps deltas done.length (start + travelled done) rest = ⟨deltas, false, none⟩ := by
  induction rest with
  | nil =>
    intro done _ _
    rw [fitFrom]
  | cons d rest ih =>
    intro done split noPush
    have later := ih (done ++ [d]) (by simpa using split)
    rw [List.length_append, List.length_singleton, travelled_append,
      travelled_singleton, ← add_assoc] at later
    have noLaterPush : d.pushes = false → ∀ other ∈ done ++ [d], other.pushes = false := by
      intro free other member
      rcases List.mem_append.1 member with isDone | isLast
      · exact noPush other isDone
      · rw [List.mem_singleton.1 isLast]
        exact free
    cases moves : d.translation with
    | none =>
      rw [shift_of_none moves, add_zero] at later
      simp only [fitFrom, moves]
      exact later (noLaterPush (by simp [Delta.pushes, moves]))
    | some axis =>
      rw [shift_of_some moves] at later
      by_cases push : d.push = true
      · simp only [fitFrom, moves, push, if_true]
      · have free : d.push = false := by simpa using push
        have goesOn := later (noLaterPush (by simp [Delta.pushes, free]))
        have passes := cleared done d rest axis split noPush moves free
        simp only [fitFrom, moves]
        rw [if_neg push]
        rcases passes with near | ⟨little, arrives⟩
        · rw [if_pos near]
          exact goesOn
        · by_cases near :
            hypot js (axis 0) (axis 1) < 1 / 10 ^ 12 ∨
              radius js (start + travelled done + d.magnitude • axis) ≤
                max caps.reach_m (radius js (start + travelled done) + REACH_SLACK_M) + 1 / 10 ^ 12
          · rw [if_pos near]
            exact goesOn
          · rw [if_neg near, if_pos little, if_pos arrives]
            exact goesOn

end

/-! ## The horizontal plane -/

section

variable [IsStrictOrderedRing K]

theorem composedSquares_nonneg (a b : K) : 0 ≤ a * a + b * b :=
  add_nonneg (mul_self_nonneg a) (mul_self_nonneg b)

variable (isRoot : Rays.IsSquareRoot js.sqrt)

include isRoot

theorem hypot_square (a b : K) : hypot js a b * hypot js a b = a * a + b * b :=
  isRoot.square _ (composedSquares_nonneg a b)

theorem hypot_nonneg (a b : K) : 0 ≤ hypot js a b :=
  isRoot.nonneg _

variable {p axis : Vec3 K}

theorem radius_along (sideways : 0 < hypot js (axis 0) (axis 1)) (m : K) :
    radius js (p + m • axis) =
      js.sqrt
        (Rays.squareAt (p 0 * p 0 + p 1 * p 1) (along js p axis)
          (m * hypot js (axis 0) (axis 1))) := by
  have square := hypot_square isRoot (axis 0) (axis 1)
  rw [along]
  generalize hypot js (axis 0) (axis 1) = h at square sideways ⊢
  rw [radius, hypot]
  congr 1
  simp only [Pi.add_apply, Pi.smul_apply, smul_eq_mul, Rays.squareAt]
  have scaled : m * h * (m * h) = m * m * (axis 0 * axis 0 + axis 1 * axis 1) := by
    rw [← square]
    ring
  rw [scaled]
  field_simp
  ring

theorem cauchy_plane (sideways : 0 < hypot js (axis 0) (axis 1)) :
    along js p axis * along js p axis ≤ p 0 * p 0 + p 1 * p 1 := by
  have square := hypot_square isRoot (axis 0) (axis 1)
  rw [along]
  generalize hypot js (axis 0) (axis 1) = h at square sideways ⊢
  have isUnit : axis 0 / h * (axis 0 / h) + axis 1 / h * (axis 1 / h) = 1 := by
    field_simp
    linarith
  generalize axis 0 / h = u at isUnit ⊢
  generalize axis 1 / h = v at isUnit ⊢
  have across := mul_self_nonneg (p 0 * v - p 1 * u)
  have lagrange :
      p 0 * p 0 + p 1 * p 1 =
        (p 0 * u + p 1 * v) * (p 0 * u + p 1 * v) + (p 0 * v - p 1 * u) * (p 0 * v - p 1 * u) := by
    calc
      p 0 * p 0 + p 1 * p 1 = (p 0 * p 0 + p 1 * p 1) * (u * u + v * v) := by rw [isUnit, mul_one]
      _ = _ := by ring
  rw [lagrange]
  linarith

theorem fittingReach_eq (p axis : Vec3 K) :
    fittingReach js caps p axis =
      Rays.exit js.sqrt (p 0 * p 0 + p 1 * p 1) (along js p axis)
        caps.reach_m := by
  have square := hypot_square isRoot (p 0) (p 1)
  have sameInside (b : K) :
      caps.reach_m * caps.reach_m - (p 0 * p 0 + p 1 * p 1) + b * b =
        b * b - (p 0 * p 0 + p 1 * p 1) + caps.reach_m * caps.reach_m := by
    ring
  simp only [fittingReach, radius, square, sameInside, Rays.exit]
  rw [sub_eq_neg_add (js.sqrt _)]

theorem fitsMm_le (caps : Caps K) (p axis : Vec3 K) :
    (fitsMm js caps p axis : K) / 1000 ≤
      Rays.exit js.sqrt (p 0 * p 0 + p 1 * p 1) (along js p axis) caps.reach_m + 1 / 10 ^ 12 := by
  have floored := Int.floor_le (fittingReach js caps p axis * 1000 + 1 / 10 ^ 9)
  rw [fittingReach_eq isRoot] at floored
  rw [fitsMm, fittingReach_eq isRoot, div_le_iff₀ (by norm_num)]
  have scaled (value : K) : (value + 1 / 10 ^ 12) * 1000 = value * 1000 + 1 / 10 ^ 9 := by ring
  rw [scaled]
  exact floored

variable {d : Delta K}

theorem ends_of_passes (positive : 0 < d.magnitude) (passes : Passes js caps p d axis) :
    radius js (p + d.magnitude • axis) ≤ farthest caps (radius js p) d.magnitude := by
  have slackNonneg : (0 : K) ≤ REACH_SLACK_M := by norm_num [REACH_SLACK_M]
  have tolerated : (1 : K) / 10 ^ 12 ≤ tolerance d.magnitude := by
    rw [tolerance]
    gcongr
    linarith
  have tolerancePositive : (0 : K) ≤ tolerance d.magnitude := le_trans (by positivity) tolerated
  have arrival := le_max_left 0 caps.arrival_tolerance_m
  have arrives := le_max_right 0 caps.arrival_tolerance_m
  rw [farthest]
  rcases passes with (vertical | near) | ⟨_, arrived⟩
  · -- a move that is all but vertical
    have toSlack :=
      le_max_right (caps.reach_m + max 0 caps.arrival_tolerance_m) (radius js p + REACH_SLACK_M)
    have drift :
        radius js (p + d.magnitude • axis) ≤
          radius js p + d.magnitude * hypot js (axis 0) (axis 1) := by
      rcases (hypot_nonneg isRoot (axis 0) (axis 1)).eq_or_lt with
        isVertical | sideways
      · have square := hypot_square isRoot (axis 0) (axis 1)
        rw [← isVertical, mul_zero] at square
        have first : axis 0 = 0 := by
          have square1 := mul_self_nonneg (axis 1)
          have square0 := mul_self_nonneg (axis 0)
          exact mul_self_eq_zero.1 (by linarith)
        have second : axis 1 = 0 := by
          have square1 := mul_self_nonneg (axis 1)
          have square0 := mul_self_nonneg (axis 0)
          exact mul_self_eq_zero.1 (by linarith)
        rw [← isVertical]
        simp [radius, first, second]
      · have added :=
          Rays.distance_le_add isRoot (t := 0) (cauchy_plane isRoot (p := p) sideways)
            (mul_nonneg positive.le sideways.le)
        rwa [Rays.squareAt_zero, ← radius_along isRoot sideways, sub_zero] at added
    have short : d.magnitude * hypot js (axis 0) (axis 1) ≤ tolerance d.magnitude := by
      have scaled := mul_le_mul_of_nonneg_left vertical.le positive.le
      rw [tolerance]
      have expanded :
          (1 + d.magnitude) / 10 ^ 12 = 1 / 10 ^ 12 + d.magnitude * (1 / 10 ^ 12) := by ring
      have unitPositive : (0 : K) < 1 / 10 ^ 12 := by positivity
      linarith
    linarith
  · have wider :
        max caps.reach_m (radius js p + REACH_SLACK_M) ≤
          max (caps.reach_m + max 0 caps.arrival_tolerance_m) (radius js p + REACH_SLACK_M) :=
      max_le_max_right _ (by linarith)
    linarith
  · have toReach :=
      le_max_left (caps.reach_m + max 0 caps.arrival_tolerance_m) (radius js p + REACH_SLACK_M)
    linarith

/-- A translation that does not pass and is not refused is cut to one that
passes. -/
theorem passes_of_cut (reachNonneg : 0 ≤ caps.reach_m) (positive : 0 < d.magnitude)
    (far :
      ¬ (hypot js (axis 0) (axis 1) < 1 / 10 ^ 12 ∨
        radius js (p + d.magnitude • axis) ≤
          max caps.reach_m (radius js p + REACH_SLACK_M) + 1 / 10 ^ 12))
    (enough : ¬ (fitsMm js caps p axis : K) < MIN_FIT_MM) (dropped : ℕ)
    (said advice : String) :
    0 < (fitsMm js caps p axis : K) / 1000 / hypot js (axis 0) (axis 1) ∧
      (fitsMm js caps p axis : K) / 1000 / hypot js (axis 0) (axis 1) < d.magnitude ∧
      Passes js caps p
        (d.cut ((fitsMm js caps p axis : K) / 1000 /
          hypot js (axis 0) (axis 1)) dropped said advice) axis := by
  have slackNonneg : (0 : K) ≤ REACH_SLACK_M := by norm_num [REACH_SLACK_M]
  have unitPositive : (0 : K) < 1 / 10 ^ 12 := by positivity
  obtain ⟨notVertical, beyond⟩ := not_or.1 far
  have sideways : 0 < hypot js (axis 0) (axis 1) :=
    lt_of_lt_of_le unitPositive (not_lt.1 notVertical)
  have someFits : 0 < (fitsMm js caps p axis : K) / 1000 := by
    rw [MIN_FIT_MM] at enough
    have atLeast := not_lt.1 enough
    apply div_pos (lt_of_lt_of_le one_pos atLeast) (by norm_num)
  have atMost := fitsMm_le isRoot caps p axis
  have cauchy := cauchy_plane isRoot (p := p) sideways
  have wider : max (radius js p) caps.reach_m ≤ max caps.reach_m (radius js p + REACH_SLACK_M) := by
    apply max_le
    · exact le_trans (by linarith) (le_max_right _ _)
    · exact le_max_left _ _
  have cancelled (length : K) :
      length / hypot js (axis 0) (axis 1) * hypot js (axis 0) (axis 1) =
        length := by
    field_simp
  refine ⟨div_pos someFits sideways, ?_, .inl (.inr ?_)⟩
  · have passed :=
      Rays.exit_add_lt isRoot (r := caps.reach_m) (1 / 10 ^ 12) cauchy reachNonneg unitPositive.le
        (mul_nonneg positive.le sideways.le)
    rw [← radius_along isRoot sideways] at passed
    have outside := not_le.1 beyond
    have isBeyond :
        max (radius js p) caps.reach_m + 1 / 10 ^ 12 < radius js (p + d.magnitude • axis) := by
      linarith
    have shorter := lt_of_le_of_lt atMost (passed isBeyond)
    exact (div_lt_iff₀ sideways).2 shorter
  · rw [cut_magnitude, radius_along isRoot sideways, cancelled]
    have stops :=
      Rays.distance_le_of_le_exit_add isRoot cauchy reachNonneg unitPositive.le someFits.le atMost
    rw [← hypot, ← radius] at stops
    linarith

structure Fitted (js : Js K) (caps : Caps K) (start : Vec3 K)
    (deltas : List (Delta K)) (fit : Fit K) : Prop where
  upTo : UpToCut deltas fit.deltas
  refused : fit.refused ≠ none → fit.deltas = deltas
  cleared : fit.refused = none → Cleared js caps start fit.deltas

variable {deltas : List (Delta K)}

theorem fitFrom_fitted (start : Vec3 K) (reachNonneg : 0 ≤ caps.reach_m)
    (sound : ∀ d ∈ deltas, d.Sound) (rest : List (Delta K)) :
    ∀ done : List (Delta K), deltas = done ++ rest → Cleared js caps start done →
      Fitted js caps start deltas
        (fitFrom js caps deltas done.length (start + travelled done) rest) := by
  induction rest with
  | nil =>
    intro done split cleared
    rw [List.append_nil] at split
    rw [fitFrom]
    exact ⟨.whole, fun _ => rfl, fun _ => split ▸ cleared⟩
  | cons d rest ih =>
    intro done split cleared
    have later := ih (done ++ [d]) (by simpa using split)
    rw [List.length_append, List.length_singleton, travelled_append,
      travelled_singleton, ← add_assoc] at later
    cases moves : d.translation with
    | none =>
      rw [shift_of_none moves, add_zero] at later
      simp only [fitFrom, moves]
      apply later
      apply cleared.snoc
      intro axis isMove
      rw [moves] at isMove
      cases isMove
    | some axis =>
      have isMember : d ∈ deltas := by simp [split]
      have isSound := (sound d isMember).translation moves
      rw [shift_of_some moves] at later
      by_cases push : d.push = true
      · simp only [fitFrom, moves, push, if_true]
        refine ⟨.whole, fun _ => rfl, fun _ => ?_⟩
        rw [split]
        exact cleared.push (by simp [Delta.pushes, moves, push])
      · have goesOn :
            Passes js caps (start + travelled done) d axis →
              Fitted js caps start deltas
                (fitFrom js caps deltas (done.length + 1)
                  (start + travelled done + d.magnitude • axis) rest) := by
          intro passes
          apply later
          apply cleared.snoc
          intro other isMove _
          rw [moves] at isMove
          rw [← Option.some.inj isMove]
          exact passes
        simp only [fitFrom, moves]
        rw [if_neg push]
        by_cases near :
            hypot js (axis 0) (axis 1) < 1 / 10 ^ 12 ∨
              radius js (start + travelled done + d.magnitude • axis) ≤
                max caps.reach_m (radius js (start + travelled done) + REACH_SLACK_M) + 1 / 10 ^ 12
        · rw [if_pos near]
          exact goesOn (.inl near)
        · rw [if_neg near]
          by_cases little : (fitsMm js caps (start + travelled done) axis : K) < MIN_FIT_MM
          · rw [if_pos little]
            by_cases arrives :
                radius js (start + travelled done + d.magnitude • axis) ≤
                  caps.reach_m + caps.arrival_tolerance_m
            · rw [if_pos arrives]
              exact goesOn (.inr ⟨little, arrives⟩)
            · rw [if_neg arrives]
              exact ⟨.whole, fun _ => rfl, fun notRefused => by cases notRefused⟩
          · rw [if_neg little, split, shorten_at]
            have isCut := passes_of_cut isRoot reachNonneg isSound.2 near little rest.length
            refine ⟨?_, fun refused => absurd rfl refused, fun _ => ?_⟩
            · exact .cut rfl moves (isCut "" "").1 (isCut "" "").2.1
            · apply cleared.snoc
              intro other isMove _
              rw [cut_translation, moves] at isMove
              rw [← Option.some.inj isMove]
              exact (isCut _ _).2.2

structure Reached (js : Js K) (caps : Caps K) (start : Pose K)
    (deltas : List (Delta K)) (fit : Fit K) : Prop where
  upTo : UpToCut deltas fit.deltas
  refused : fit.refused ≠ none → fit.deltas = deltas
  ends : fit.refused = none →
    ∀ done d rest, fit.deltas = done ++ d :: rest → (∀ other ∈ done ++ [d], other.pushes = false) →
      d.translation ≠ none →
      radius js (start.position_m + travelled (done ++ [d])) ≤
        farthest caps (radius js (start.position_m + travelled done)) d.magnitude
  again : (fitToReach js caps fit.deltas start).deltas = fit.deltas

omit isRoot in
theorem positive_of_upToCut {kept : List (Delta K)} (sound : ∀ d ∈ deltas, d.Sound)
    (upTo : UpToCut deltas kept) (member : d ∈ kept) (moves : d.translation = some axis) :
    0 < d.magnitude := by
  cases upTo with
  | whole => exact ((sound d member).translation moves).2
  | cut split isMove positive shorter =>
    rcases List.mem_append.1 member with isDone | isCut
    · have isMember : d ∈ deltas := by simp [split, isDone]
      exact ((sound d isMember).translation moves).2
    · rw [List.mem_singleton.1 isCut, cut_magnitude]
      exact positive

theorem fitToReach_reached (reachNonneg : 0 ≤ caps.reach_m) (start : Pose K)
    (sound : ∀ d ∈ deltas, d.Sound) :
    Reached js caps start deltas (fitToReach js caps deltas start) := by
  have fitted :=
    fitFrom_fitted isRoot start.position_m reachNonneg sound deltas
      [] (nil_append _).symm cleared_nil
  rw [length_nil, travelled_nil, add_zero, ← fitToReach] at fitted
  refine ⟨fitted.upTo, fitted.refused, ?_, ?_⟩
  · intro accepted done d rest split noPush isMove
    cases moves : d.translation with
    | none => exact absurd moves isMove
    | some axis =>
      have free : d.push = false := by
        have notPushing := noPush d (by simp)
        simpa [Delta.pushes, moves] using notPushing
      have member : d ∈ (fitToReach js caps deltas start).deltas := by simp [split]
      have passes :=
        fitted.cleared accepted done d rest axis split
          (fun other isDone => noPush other (by simp [isDone])) moves free
      have ends := ends_of_passes isRoot (positive_of_upToCut sound fitted.upTo member moves) passes
      rw [travelled_append, travelled_singleton, shift_of_some moves, ← add_assoc]
      exact ends
  · by_cases accepted : (fitToReach js caps deltas start).refused = none
    · have again :=
        fitFrom_of_cleared (fitted.cleared accepted) _ [] (nil_append _).symm (by simp)
      rw [length_nil, travelled_nil, add_zero] at again
      simp only [fitToReach] at again ⊢
      rw [again]
    · rw [fitted.refused accepted]
      exact fitted.refused accepted

end

end

/-! ## Over the reals -/

/-- What fits the reach is the batch or the batch up to a cut; no translation
before a push ends farther out than the reach or a little beyond where it
starts; a refused batch is as it was, and the result fits as it is. -/
theorem fitToReach_keeps_inside (texts : Texts ℝ) {caps : Caps ℝ} (reachNonneg : 0 ≤ caps.reach_m)
    (start : Pose ℝ) {deltas : List (Delta ℝ)} (sound : ∀ d ∈ deltas, d.Sound) :
    Reached (reals texts) caps start deltas (fitToReach (reals texts) caps deltas start) :=
  fitToReach_reached (reals_isRoot texts) reachNonneg start sound

theorem fitToReach_keeps_inside_once :
    Reached (reals plain) shortArm farOut [forward (1 / 200)]
      (fitToReach (reals plain) shortArm [forward (1 / 200)] farOut) :=
  fitToReach_keeps_inside plain (by norm_num [shortArm]) farOut
    (by
      intro d member
      rw [List.mem_singleton.1 member]
      exact forward_sound (by norm_num))

theorem radius_ahead {texts : Texts ℝ} {p : Vec3 ℝ} (ahead : 0 ≤ p 0)
    (straight : p 1 = 0) : radius (reals texts) p = p 0 := by
  rw [radius, hypot, straight, mul_zero, add_zero]
  exact Real.sqrt_mul_self ahead

theorem travelled_forward (m : ℝ) (times : ℕ) :
    travelled (replicate times (forward m)) = ![(times : ℝ) * m, 0, 0] := by
  induction times with
  | zero =>
    ext i
    fin_cases i <;> simp
  | succ times ih =>
    have moves : (forward m).translation = some ![1, 0, 0] := by simp [Delta.translation, forward]
    have isMagnitude : (forward m).magnitude = m := by simp [forward]
    rw [List.replicate_succ', travelled_append, ih,
      travelled_singleton, shift_of_some moves, isMagnitude]
    ext i
    fin_cases i
    · simp
      ring
    · simp
    · simp

variable {m : ℝ}

theorem cleared_forward (nonneg : 0 ≤ m) (slow : m ≤ 1 / 200 + 1 / 10 ^ 12) (times : ℕ) :
    Cleared (reals plain) shortArm farOut.position_m (replicate times (forward m)) := by
  induction times with
  | zero => exact cleared_nil
  | succ times ih =>
    rw [List.replicate_succ']
    apply ih.snoc
    intro axis isAxis _
    have same : ![1, 0, 0] = axis := by simpa [Delta.translation, forward] using isAxis
    have timesNonneg : (0 : ℝ) ≤ times * m := mul_nonneg times.cast_nonneg nonneg
    refine .inl (.inr ?_)
    apply le_trans _ (add_le_add_left (le_max_right _ _) _)
    rw [travelled_forward, ← same, radius_ahead, radius_ahead]
    · simp [farOut, forward, REACH_SLACK_M]
      norm_num at slow
      linarith
    · simp [farOut]
      linarith
    · simp [farOut]
    · simp [farOut, forward]
      linarith
    · simp [farOut]

theorem fitToReach_forward (nonneg : 0 ≤ m) (slow : m ≤ 1 / 200 + 1 / 10 ^ 12) (times : ℕ) :
    fitToReach (reals plain) shortArm (replicate times (forward m)) farOut =
      ⟨replicate times (forward m), false, none⟩ := by
  have left :=
    fitFrom_of_cleared (cleared_forward nonneg slow times) _ [] (nil_append _).symm (by simp)
  rwa [length_nil, travelled_nil, add_zero] at left

theorem replicate_forward (positive : 0 < m) (times : ℕ) :
    ∀ d ∈ replicate times (forward m), d.Sound ∧ d.pushes = false := by
  intro d member
  rw [List.eq_of_mem_replicate member]
  exact ⟨forward_sound positive, by simp [Delta.pushes, forward]⟩

/-- The slack is from where each move starts, and has a tolerance: three slow
moves outward end 15 mm farther out than the first one started, and one may
be a little longer than the slack. -/
theorem fitToReach_creeps_out :
    (¬ ∀ (caps : Caps ℝ) (start : Pose ℝ) (deltas : List (Delta ℝ)),
      0 ≤ caps.reach_m → (∀ d ∈ deltas, d.Sound ∧ d.pushes = false) →
      (fitToReach (reals plain) caps deltas start).refused = none →
      radius (reals plain)
          (start.position_m + travelled (fitToReach (reals plain) caps deltas start).deltas) ≤
        max caps.reach_m (radius (reals plain) start.position_m + 1 / 200) +
          caps.arrival_tolerance_m) ∧
    (¬ ∀ (caps : Caps ℝ) (start : Pose ℝ) (d : Delta ℝ),
      0 ≤ caps.reach_m → (∀ each ∈ [d], each.Sound ∧ each.pushes = false) →
      (fitToReach (reals plain) caps [d] start).refused = none →
      radius (reals plain)
          (start.position_m + travelled (fitToReach (reals plain) caps [d] start).deltas) ≤
        max caps.reach_m (radius (reals plain) start.position_m + 1 / 200) +
          caps.arrival_tolerance_m) := by
  constructor
  · intro promised
    have isFar :=
      promised shortArm farOut (replicate 3 (forward (1 / 200)))
        (by norm_num [shortArm]) (replicate_forward (by norm_num) 3)
    rw [fitToReach_forward (by norm_num) (by norm_num), travelled_forward,
      radius_ahead, radius_ahead] at isFar
    · norm_num [farOut, shortArm] at isFar
    · norm_num [farOut]
    · simp [farOut]
    · norm_num [farOut]
    · simp [farOut]
  · intro promised
    have isFar :=
      promised shortArm farOut (forward (1 / 200 + 1 / 10 ^ 12))
        (by norm_num [shortArm]) (replicate_forward (by norm_num) 1)
    rw [← List.replicate_one, fitToReach_forward (by norm_num) le_rfl,
      travelled_forward, radius_ahead, radius_ahead] at isFar
    · norm_num [farOut, shortArm] at isFar
    · norm_num [farOut]
    · simp [farOut]
    · norm_num [farOut]
    · simp [farOut]

end PiEmbodied.Motormind.Command
