import PiEmbodied.Floats

/-!
# Routes checked before their first call

`checkRoute` (`primitives/motion.ts`), which checks the route of several motion
calls whole, and the server's checks of each call (`utils/code_real.py`,
`_check_motion` of `franka/code_mode.py`), which sees the deltas as float32.
Sums and norms are exact; a refusal keeps what it shows.
-/

namespace PiEmbodied.Routes

open Floats

abbrev Vec := Fin 3 → ℚ

/-- To the nearest integer, ties to even. -/
def roundHalfEven (x : ℚ) : ℤ :=
  let below := ⌊x⌋
  let left := x - below
  if left < 1 / 2 ∨ left = 1 / 2 ∧ below % 2 = 0 then below else below + 1

/-- `NdArray.f32` of one number: 24 bits, the last no smaller than `2 ^ -149`,
and an infinity from `2 ^ 128` on. -/
def f32 (x : ℚ) : Floats.Num :=
  let unit : ℚ := 2 ^ max (Int.log 2 |x| - 23) (-149)
  let nearest := roundHalfEven (x / unit) * unit
  if |nearest| < 2 ^ 128 then .finite nearest else .inf (x < 0)

/-- `vec3` of `motion.ts`: what is sent of a delta. -/
def send (d : Vec) : Fin 3 → Floats.Num :=
  fun i => f32 (d i)

structure MotionLimits where
  (max_move_m z_floor_m : Option ℚ)
  workspace_xy : Option (Fin 4 → ℚ)

inductive Refusal where
  | moves (delta : Vec)
  | leaves (target : Vec)
  | notFinite
deriving DecidableEq

/-- The norm of a delta is at most `bound`. -/
def NormAtMost (d : Vec) (bound : ℚ) : Prop :=
  0 ≤ bound ∧ d 0 ^ 2 + d 1 ^ 2 + d 2 ^ 2 ≤ bound ^ 2

instance (d : Vec) (bound : ℚ) : Decidable (NormAtMost d bound) :=
  inferInstanceAs (Decidable (_ ∧ _))

theorem normAtMost_iff (d : Vec) (bound : ℚ) :
    NormAtMost d bound ↔ √((d 0 : ℝ) ^ 2 + (d 1 : ℝ) ^ 2 + (d 2 : ℝ) ^ 2) ≤ bound := by
  rw [Real.sqrt_le_iff, NormAtMost]
  exact_mod_cast Iff.rfl

/-- `out` of `checkRoute` -/
def out (limits : MotionLimits) (x : Vec) : ℚ :=
  (match limits.workspace_xy with
    | some box => max 0 (max (box 0 - x 0) (x 0 - box 1)) + max 0 (max (box 2 - x 1) (x 1 - box 3))
    | none => 0) +
  match limits.z_floor_m with
  | some floor => max 0 (floor - x 2)
  | none => 0

def checkRoute (limits : MotionLimits) : Vec → List Vec → Except Refusal Unit
  | _, [] => .ok ()
  | p, d :: rest =>
    if ¬ ∀ limit ∈ limits.max_move_m, NormAtMost d (limit + 1 / 10 ^ 9) then .error (.moves d)
    else if 1 / 10 ^ 6 < out limits (p + d) ∧
        out limits p - 1 / 10 ^ 6 ≤ out limits (p + d) then
      .error (.leaves (p + d))
    else checkRoute limits (p + d) rest

/-- `vec3` of `code_real.py` -/
def vec3 (value : Fin 3 → Floats.Num) : Except Refusal Vec :=
  match value 0, value 1, value 2 with
  | .finite x, .finite y, .finite z => .ok ![x, y, z]
  | _, _, _ => .error .notFinite

def outside (p : Vec) (floor : Option ℚ) (box : Option (Fin 4 → ℚ)) : ℚ :=
  let d :=
    match floor with
    | some floor => max 0 (floor - p 2)
    | none => 0
  match box with
  | some box =>
    d + max 0 (max (box 0 - p 0) (p 0 - box 1)) + max 0 (max (box 2 - p 1) (p 1 - box 3))
  | none => d

def workspaceRefusal (start target : Vec) (floor : Option ℚ) (box : Option (Fin 4 → ℚ)) :
    Option Refusal :=
  if 1 / 10 ^ 6 < outside target floor box ∧
      outside start floor box - 1 / 10 ^ 6 ≤ outside target floor box then
    some (.leaves target)
  else none

def checkTranslation (delta : Vec) (limit : Option ℚ) : Except Refusal Unit :=
  if ∃ bound ∈ limit, ¬NormAtMost delta (bound + 1 / 10 ^ 9) then .error (.moves delta)
  else .ok ()

/-- `_check_motion` of a `move_delta`, with the checked delta. -/
def checkMotion (limits : MotionLimits) (tcp : Vec) (delta : Fin 3 → Floats.Num) :
    Except Refusal Vec := do
  let d ← vec3 delta
  checkTranslation d limits.max_move_m
  if limits.z_floor_m = none ∧ limits.workspace_xy.isNone then return d
  match workspaceRefusal tcp (tcp + d) limits.z_floor_m limits.workspace_xy with
  | some why => .error why
  | none => return d

/-- The calls in turn, each executed exactly, to the first that is refused. -/
def serve (limits : MotionLimits) : Vec → List (Fin 3 → Floats.Num) → Except Refusal Vec
  | tcp, [] => .ok tcp
  | tcp, delta :: rest => do
    let d ← checkMotion limits tcp delta
    serve limits (tcp + d) rest

/-- What `checkRoute` accepts the server accepts in turn; what it refuses the
server refuses one call of. -/
def Agrees (limits : MotionLimits) (start : Vec) (deltas : List Vec) : Prop :=
  (checkRoute limits start deltas = .ok () →
    ∃ final, serve limits start (deltas.map send) = .ok final) ∧
  ((∃ why, checkRoute limits start deltas = .error why) →
    ∃ why, serve limits start (deltas.map send) = .error why)

/-! ## What each side accepts -/

/-- A leg stays within each limit, by `slack` or more. -/
def Clears (slack : ℚ) (limits : MotionLimits) (p d : Vec) : Prop :=
  (∀ limit ∈ limits.max_move_m, NormAtMost d (limit + 1 / 10 ^ 9 - slack)) ∧
  (out limits (p + d) ≤ 1 / 10 ^ 6 - slack ∨
    out limits (p + d) < out limits p - 1 / 10 ^ 6 - 2 * slack)

/-- Every leg of a route does, from where the legs before it end. -/
def Keeps (slack : ℚ) (limits : MotionLimits) (start : Vec) (deltas : List Vec) : Prop :=
  ∀ before d after, deltas = before ++ d :: after → Clears slack limits (start + before.sum) d

/-- The finite numbers that arrive of a delta. -/
def whole (d : Vec) : Fin 3 → Floats.Num :=
  fun i => .finite (d i)

variable {limits : MotionLimits} {slack error : ℚ} {p q d d' start : Vec} {deltas sent : List Vec}

theorem keeps_nil : Keeps slack limits start [] := by
  intro before d after split
  simp at split

theorem keeps_cons :
    Keeps slack limits p (d :: deltas) ↔
      Clears slack limits p d ∧ Keeps slack limits (p + d) deltas := by
  constructor
  · intro keeps
    refine ⟨by simpa using keeps [] d deltas rfl, ?_⟩
    intro before e after split
    have later := keeps (d :: before) e after (by rw [split, List.cons_append])
    rwa [List.sum_cons, ← add_assoc] at later
  · rintro ⟨first, keeps⟩ before e after split
    cases before with
    | nil =>
      obtain ⟨rfl, -⟩ := List.cons.inj split
      simpa using first
    | cons head before =>
      obtain ⟨rfl, rest⟩ := List.cons.inj split
      rw [List.sum_cons, ← add_assoc]
      exact keeps before e after rest

theorem checkRoute_ok : checkRoute limits start deltas = .ok () ↔ Keeps 0 limits start deltas := by
  induction deltas generalizing start with
  | nil => exact iff_of_true rfl keeps_nil
  | cons d rest ih =>
    rw [checkRoute, keeps_cons, Clears]
    split
    next tooFar =>
      refine iff_of_false (by simp) fun kept => tooFar ?_
      simpa using kept.1.1
    next near =>
      split
      next leaves =>
        refine iff_of_false (by simp) fun kept => ?_
        rcases kept.1.2 with inside | nearer <;> linarith
      next stays =>
        rw [ih]
        refine ⟨fun keeps => ⟨⟨by simpa using near, ?_⟩, keeps⟩, And.right⟩
        rw [not_and_or, not_lt, not_le] at stays
        simpa using stays

theorem out_eq_outside (p : Vec) :
    out limits p = outside p limits.z_floor_m limits.workspace_xy := by
  cases boxed : limits.workspace_xy with
  | none => simp only [out, outside, boxed, zero_add]
  | some box =>
    simp only [out, outside, boxed, add_assoc]
    rw [← add_assoc, add_comm]

theorem vec3_ok {value : Fin 3 → Floats.Num} : vec3 value = .ok d ↔ value = whole d := by
  constructor
  · intro taken
    rw [vec3] at taken
    split at taken
    next x y z isX isY isZ =>
      obtain rfl := Except.ok.inj taken
      exact funext fun
        | 0 => isX
        | 1 => isY
        | 2 => isZ
    next => cases taken
  · rintro rfl
    exact congrArg Except.ok (funext fun
      | 0 | 1 => rfl
      | 2 => rfl)

theorem checkTranslation_ok {limit : Option ℚ} :
    checkTranslation d limit = .ok () ↔ ∀ bound ∈ limit, NormAtMost d (bound + 1 / 10 ^ 9) := by
  rw [checkTranslation]
  split
  next far =>
    obtain ⟨bound, isLimit, beyond⟩ := far
    exact iff_of_false (by simp) fun within => beyond (within bound isLimit)
  next near =>
    refine iff_of_true rfl fun bound isLimit => ?_
    by_contra beyond
    exact near ⟨bound, isLimit, beyond⟩

theorem workspaceRefusal_none :
    workspaceRefusal p q limits.z_floor_m limits.workspace_xy = none ↔
      out limits q ≤ 1 / 10 ^ 6 ∨ out limits q < out limits p - 1 / 10 ^ 6 := by
  rw [workspaceRefusal, ← out_eq_outside, ← out_eq_outside]
  split
  next leaves => exact iff_of_false nofun (not_or.2 ⟨not_le.2 leaves.1, not_lt.2 leaves.2⟩)
  next stays =>
    rw [not_and_or, not_lt, not_le] at stays
    exact iff_of_true rfl stays

theorem clears_zero :
    Clears 0 limits p d ↔
      checkTranslation d limits.max_move_m = .ok () ∧
        workspaceRefusal p (p + d) limits.z_floor_m limits.workspace_xy = none := by
  rw [checkTranslation_ok, workspaceRefusal_none, Clears]
  simp only [sub_zero, mul_zero]

/-- Without a floor and a box nothing is outside. -/
theorem workspaceRefusal_unset (unset : limits.z_floor_m = none ∧ limits.workspace_xy.isNone) :
    workspaceRefusal p q limits.z_floor_m limits.workspace_xy = none := by
  rw [unset.1, Option.isNone_iff_eq_none.1 unset.2]
  exact if_neg (by norm_num [outside])

/-- A call goes through for the numbers that arrive, on the same checks. -/
theorem checkMotion_ok {delta : Fin 3 → Floats.Num} :
    checkMotion limits p delta = .ok d ↔ delta = whole d ∧ Clears 0 limits p d := by
  rw [checkMotion, ← vec3_ok, clears_zero]
  cases taken : vec3 delta with
  | error why => exact iff_of_false (fun passes => nomatch passes) (fun passes => nomatch passes.1)
  | ok e =>
    cases near : checkTranslation e limits.max_move_m with
    | error why =>
      simp only [bind, Except.bind, near]
      refine iff_of_false (fun passes => nomatch passes) ?_
      rintro ⟨same, passes, -⟩
      obtain rfl := Except.ok.inj same
      rw [near] at passes
      cases passes
    | ok _ =>
      simp only [bind, Except.bind, near, pure, Except.pure]
      constructor
      · intro passes
        have stays : workspaceRefusal p (p + e) limits.z_floor_m limits.workspace_xy = none := by
          by_cases unset : limits.z_floor_m = none ∧ limits.workspace_xy.isNone
          · exact workspaceRefusal_unset unset
          · rw [if_neg unset] at passes
            split at passes
            next => cases passes
            next stays => exact stays
        rw [stays, ite_self] at passes
        obtain rfl := Except.ok.inj passes
        exact ⟨rfl, near, stays⟩
      · rintro ⟨same, -, stays⟩
        obtain rfl := Except.ok.inj same
        rw [stays, ite_self]

theorem serve_ok {frames : List (Fin 3 → Floats.Num)} :
    (∃ final, serve limits start frames = .ok final) ↔
      ∃ sent, frames = sent.map whole ∧ Keeps 0 limits start sent := by
  induction frames generalizing start with
  | nil => exact iff_of_true ⟨start, rfl⟩ ⟨[], rfl, keeps_nil⟩
  | cons frame rest ih =>
    constructor
    · rintro ⟨final, served⟩
      rw [serve] at served
      cases first : checkMotion limits start frame with
      | error why => rw [first] at served; cases served
      | ok d =>
        rw [first] at served
        obtain ⟨arrived, clears⟩ := checkMotion_ok.1 first
        obtain ⟨sent, arrivedRest, keeps⟩ := ih.1 ⟨final, served⟩
        exact ⟨d :: sent, by rw [arrived, arrivedRest, List.map_cons], keeps_cons.2 ⟨clears, keeps⟩⟩
    · rintro ⟨sent, arrived, keeps⟩
      cases sent with
      | nil => cases arrived
      | cons d sent =>
        obtain ⟨rfl, arrivedRest⟩ := List.cons.inj arrived
        obtain ⟨clears, keeps⟩ := keeps_cons.1 keeps
        obtain ⟨final, served⟩ := ih.2 ⟨sent, arrivedRest, keeps⟩
        refine ⟨final, ?_⟩
        rw [serve, checkMotion_ok.2 ⟨rfl, clears⟩]
        exact served

/-! ## What the rounding moves -/

/-- How far one point is from another, axis by axis. -/
def shift (x : Vec) : ℚ :=
  |x 0| + |x 1| + |x 2|

/-- What the deltas that arrive differ from those of the route by, in all. -/
def rounding (deltas sent : List Vec) : ℚ :=
  ((deltas.zip sent).map fun leg => shift (leg.2 - leg.1)).sum

theorem shift_nonneg (x : Vec) : 0 ≤ shift x := by
  rw [shift]
  positivity

theorem shift_zero : shift 0 = 0 := by
  simp only [shift, Pi.zero_apply, abs_zero, add_zero]

theorem shift_add_le (x y : Vec) : shift (x + y) ≤ shift x + shift y := by
  simp only [shift, Pi.add_apply]
  linarith [abs_add_le (x 0) (y 0), abs_add_le (x 1) (y 1), abs_add_le (x 2) (y 2)]

theorem shift_sub_comm (x y : Vec) : shift (x - y) = shift (y - x) := by
  simp only [shift, Pi.sub_apply, abs_sub_comm]

theorem rounding_nonneg (deltas sent : List Vec) : 0 ≤ rounding deltas sent :=
  List.sum_nonneg (List.forall_mem_map.2 fun _ _ => shift_nonneg _)

theorem rounding_comm (deltas sent : List Vec) : rounding deltas sent = rounding sent deltas := by
  rw [rounding, rounding, ← List.zip_swap, List.map_map]
  exact congrArg List.sum (List.map_congr_left fun leg _ => shift_sub_comm _ _)

theorem rounding_self (deltas : List Vec) : rounding deltas deltas = 0 := by
  induction deltas with
  | nil => rfl
  | cons d deltas ih =>
    rw [rounding] at ih
    rw [rounding, List.zip_cons_cons, List.map_cons, List.sum_cons, sub_self, shift_zero, ih,
      zero_add]

/-- A distance beyond a face moves no more than its coordinate. -/
theorem beyond_le (x y a b : ℚ) :
    max 0 (max (a - y) (y - b)) ≤ max 0 (max (a - x) (x - b)) + |y - x| := by
  have up := le_abs_self (y - x)
  have down := neg_abs_le (y - x)
  have least := le_max_right 0 (max (a - x) (x - b))
  have below := le_max_left (a - x) (x - b)
  have above := le_max_right (a - x) (x - b)
  exact max_le (by positivity) (max_le (by linarith) (by linarith))

theorem out_le (p q : Vec) : out limits q ≤ out limits p + shift (q - p) := by
  have planar : ∀ box : Fin 4 → ℚ, _ := fun box =>
    add_le_add (beyond_le (p 0) (q 0) (box 0) (box 1)) (beyond_le (p 1) (q 1) (box 2) (box 3))
  have upright : ∀ floor : ℚ, max 0 (floor - q 2) ≤ max 0 (floor - p 2) + |q 2 - p 2| := by
    intro floor
    have down := neg_abs_le (q 2 - p 2)
    have least := le_max_right 0 (floor - p 2)
    exact max_le (by positivity) (by linarith)
  have across := abs_nonneg (q 0 - p 0)
  have along := abs_nonneg (q 1 - p 1)
  have upward := abs_nonneg (q 2 - p 2)
  simp only [out, shift, Pi.sub_apply]
  cases limits.workspace_xy with
  | none =>
    cases limits.z_floor_m with
    | none => simp only; linarith
    | some floor =>
      have := upright floor
      simp only
      linarith
  | some box =>
    have := planar box
    cases limits.z_floor_m with
    | none => simp only; linarith
    | some floor =>
      have := upright floor
      simp only
      linarith

theorem normAtMost_near {r bound : ℚ} (near : shift (d' - d) ≤ r)
    (within : NormAtMost d (bound - r)) : NormAtMost d' bound := by
  obtain ⟨least, squares⟩ := within
  have moved := shift_nonneg (d' - d)
  have axisLe : ∀ i, |d i| ≤ bound - r := by
    intro i
    refine abs_le_of_sq_le_sq ?_ least
    have across := sq_nonneg (d 0)
    have along := sq_nonneg (d 1)
    have up := sq_nonneg (d 2)
    match i with
    | 0 | 1 | 2 => linarith
  have term : ∀ i, d' i ^ 2 ≤ d i ^ 2 + 2 * (bound - r) * |(d' - d) i| + |(d' - d) i| ^ 2 := by
    intro i
    have cross := mul_le_mul_of_nonneg_right (axisLe i) (abs_nonneg ((d' - d) i))
    rw [← abs_mul] at cross
    have product := (le_abs_self (d i * (d' - d) i)).trans cross
    rw [sq_abs]
    simp only [Pi.sub_apply] at product ⊢
    linarith
  refine ⟨by linarith, ?_⟩
  have together : (bound - r + shift (d' - d)) ^ 2 ≤ bound ^ 2 :=
    pow_le_pow_left₀ (by linarith) (by linarith) 2
  have x := abs_nonneg ((d' - d) 0)
  have y := abs_nonneg ((d' - d) 1)
  have z := abs_nonneg ((d' - d) 2)
  rw [shift] at together
  linarith [term 0, term 1, term 2, mul_nonneg x y, mul_nonneg y z, mul_nonneg x z]

theorem clears_near (near : shift (q - p) + shift (d' - d) ≤ error)
    (clears : Clears (slack + error) limits p d) : Clears slack limits q d' := by
  obtain ⟨within, stays⟩ := clears
  have place := shift_nonneg (q - p)
  have leg := shift_nonneg (d' - d)
  refine ⟨fun limit isLimit => ?_, ?_⟩
  · refine normAtMost_near (r := error) (by linarith) ?_
    have := within limit isLimit
    rwa [← sub_sub] at this
  · have target : out limits (q + d') ≤ out limits (p + d) + error := by
      have moved : out limits (q + d') ≤ _ := out_le (p + d) (q + d')
      have sum := shift_add_le (q - p) (d' - d)
      rw [sub_add_sub_comm] at sum
      linarith
    have left : out limits p ≤ _ := out_le q p
    rw [shift_sub_comm] at left
    rcases stays with inside | nearer
    · exact .inl (by linarith)
    · exact .inr (by linarith)

theorem keeps_near (paired : deltas.length = sent.length)
    (near : shift (q - p) + rounding deltas sent ≤ error)
    (keeps : Keeps (slack + error) limits p deltas) : Keeps slack limits q sent := by
  induction deltas generalizing p q sent with
  | nil =>
    obtain rfl := List.length_eq_zero_iff.1 paired.symm
    exact keeps_nil
  | cons d deltas ih =>
    cases sent with
    | nil => cases paired
    | cons d' sent =>
      obtain ⟨clears, keeps⟩ := keeps_cons.1 keeps
      have split : rounding (d :: deltas) (d' :: sent) = shift (d' - d) + rounding deltas sent :=
        rfl
      rw [split, ← add_assoc] at near
      have later := rounding_nonneg deltas sent
      refine keeps_cons.2 ⟨clears_near (by linarith) clears, ?_⟩
      refine ih (Nat.succ.inj paired) ?_ keeps
      have sum := shift_add_le (q - p) (d' - d)
      rw [sub_add_sub_comm] at sum
      linarith

theorem keeps_of_rounding (paired : deltas.length = sent.length)
    (near : rounding deltas sent ≤ error) (keeps : Keeps (slack + error) limits start deltas) :
    Keeps slack limits start sent :=
  keeps_near paired (by rwa [sub_self, shift_zero, zero_add]) keeps

theorem keeps_mono (least : 0 ≤ error) (keeps : Keeps (slack + error) limits start deltas) :
    Keeps slack limits start deltas :=
  keeps_of_rounding rfl ((rounding_self deltas).trans_le least) keeps

/-- What the route's deltas are when they arrive. -/
def Arrives (deltas sent : List Vec) : Prop :=
  deltas.map send = sent.map whole

theorem Arrives.paired (arrives : Arrives deltas sent) : deltas.length = sent.length := by
  simpa using congrArg List.length arrives

theorem whole_injective : Function.Injective whole := fun _ _ same =>
  funext fun i => Floats.Num.finite.inj (congrFun same i)

theorem Arrives.unique {other : List Vec} (arrives : Arrives deltas sent)
    (others : Arrives deltas other) : other = sent :=
  List.map_injective_iff.2 whole_injective (others.symm.trans arrives)

theorem agrees_iff :
    Agrees limits start deltas ↔
      (Keeps 0 limits start deltas ↔ ∃ sent, Arrives deltas sent ∧ Keeps 0 limits start sent) := by
  rw [Agrees, checkRoute_ok, serve_ok]
  have refuses : ∀ {α : Type} (outcome : Except Refusal α),
      (∃ why, outcome = .error why) ↔ ¬∃ a, outcome = .ok a := by
    intro α outcome
    cases outcome <;> simp
  rw [refuses, refuses, serve_ok, not_imp_not]
  have accepts : (∃ a, checkRoute limits start deltas = .ok a) ↔ Keeps 0 limits start deltas :=
    ⟨fun ⟨_, passes⟩ => checkRoute_ok.1 passes, fun keeps => ⟨(), checkRoute_ok.2 keeps⟩⟩
  rw [accepts]
  exact iff_def.symm

/-! ## Where the two sides agree -/

end PiEmbodied.Routes
