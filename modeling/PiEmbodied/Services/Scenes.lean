import PiEmbodied.Instances

/-!
# Frames that show the same scene

A frame is summed up by the mean colour and depth of the cells of a grid.  Two
frames show another scene where a cell differs by more than its noise.
-/

namespace PiEmbodied.Services.Scenes

/-- One camera frame: colours, and the depth in metres where it is finite. -/
structure Frame where
  (height width : ℕ)
  rgb : ℕ → ℕ → ℚ × ℚ × ℚ
  /-- A depth image of another shape is none. -/
  depth : Option (ℕ → ℕ → Option ℚ)

def signatureGrid : ℕ := 24

def signatureRgbLevels : ℚ := 24

def signatureDepthM : ℚ := 3 / 100

/-- The number of cells of a row or column; every cell has a pixel. -/
def Frame.grid (frame : Frame) : ℕ :=
  max 1 (min signatureGrid (min frame.height frame.width))

def edge (pixels grid index : ℕ) : ℕ :=
  pixels * index / grid

def Frame.cell (frame : Frame) (f : ℕ → ℕ → ℚ) (row column : ℕ) : ℚ :=
  let top := edge frame.height frame.grid row
  let left := edge frame.width frame.grid column
  let rows := edge frame.height frame.grid (row + 1) - top
  let columns := edge frame.width frame.grid (column + 1) - left
  ((List.range rows).map fun i =>
    ((List.range columns).map fun j => f (top + i) (left + j)).sum).sum

def Frame.area (frame : Frame) (row column : ℕ) : ℚ :=
  frame.cell (fun _ _ => 1) row column

structure DepthCell where
  (valid depth : ℚ)
deriving DecidableEq

structure Signature where
  shape : ℕ × ℕ
  grid : ℕ
  rgb : ℕ → ℕ → ℚ × ℚ × ℚ
  depth : Option (ℕ → ℕ → DepthCell)

def isValid (depth : Option ℚ) : Bool :=
  depth.any fun metres => 0 < metres

def frameSignature (frame : Frame) : Signature where
  shape := (frame.height, frame.width)
  grid := frame.grid
  rgb := fun row column =>
    let area := frame.area row column
    (frame.cell (fun i j => (frame.rgb i j).1) row column / area,
      frame.cell (fun i j => (frame.rgb i j).2.1) row column / area,
      frame.cell (fun i j => (frame.rgb i j).2.2) row column / area)
  depth := frame.depth.map fun depth row column =>
    let valid := frame.cell (fun i j => if isValid (depth i j) then 1 else 0)
      row column
    let total := frame.cell (fun i j => if isValid (depth i j) then (depth i j).getD 0 else 0)
      row column
    { valid := valid / frame.area row column
      depth := total / max valid 1 }

/-- The mean over the channels of how far two colours are apart. -/
def rgbGap (a b : ℚ × ℚ × ℚ) : ℚ :=
  (|a.1 - b.1| + |a.2.1 - b.2.1| + |a.2.2 - b.2.2|) / 3

/-- A cell that is valid in both frames shows another depth, or is no longer as
valid. -/
def depthMoved (a b : DepthCell) : Bool :=
  (1 / 2 < a.valid && 1 / 2 < b.valid && signatureDepthM < |a.depth - b.depth|) ||
    1 / 3 < |a.valid - b.valid|

def anyCell (grid : ℕ) (holds : ℕ → ℕ → Bool) : Bool :=
  (List.range grid).any fun row => (List.range grid).any fun column => holds row column

def sceneChanged (a b : Signature) : Bool :=
  if a.shape ≠ b.shape then true
  else if anyCell a.grid fun row column =>
      signatureRgbLevels < rgbGap (a.rgb row column) (b.rgb row column) then
    true
  else
    match a.depth, b.depth with
    | none, none => false
    | some depth, some other =>
      anyCell a.grid fun row column => depthMoved (depth row column) (other row column)
    | _, _ => true

theorem anyCell_eq_false {grid : ℕ} {holds : ℕ → ℕ → Bool}
    (never : ∀ row column, holds row column = false) : anyCell grid holds = false := by
  unfold anyCell
  rw [List.any_eq_false]
  intro row _
  rw [Bool.not_eq_true, List.any_eq_false]
  intro column _
  rw [never]
  exact Bool.noConfusion

theorem sceneChanged_self (a : Signature) : sceneChanged a a = false := by
  have sameColour : ∀ row column : ℕ,
      decide (signatureRgbLevels < rgbGap (a.rgb row column) (a.rgb row column)) =
        false := by
    intro row column
    rw [decide_eq_false_iff_not]
    norm_num [rgbGap, signatureRgbLevels]
  have sameDepth : ∀ cell : DepthCell, depthMoved cell cell = false := by
    intro cell
    unfold depthMoved
    rw [sub_self, sub_self, abs_zero]
    norm_num [signatureDepthM]
  unfold sceneChanged
  rw [if_neg (fun different => different rfl), anyCell_eq_false sameColour, if_neg Bool.noConfusion]
  cases a.depth with
  | none => rfl
  | some depth => exact anyCell_eq_false fun _ _ => sameDepth _

def SameScene (frame other : Frame) : Prop :=
  sceneChanged (frameSignature frame) (frameSignature other) = false

theorem SameScene.refl (frame : Frame) : SameScene frame frame :=
  sceneChanged_self _

end PiEmbodied.Services.Scenes
