import PiEmbodied.Chord.Delta.Apply

/-!
# The trusted applier

`applyImmutableTrusted` replays the tracker's own operations without checking
them; `materializeOperations` takes it for a batch that moves no elements and
`applyImmutable` for any other.  Where the checked applier accepts a batch, both
give its value.
-/

namespace PiEmbodied.Chord.Delta

open Coding

/-! ## Edits -/

/-- An edit within the container a path leads to; the copies made on the way
are equal values. -/
def trustedWithin (change : JsonValue → Except DeltaError JsonValue) :
    Path → JsonValue → Except DeltaError JsonValue
  | [], node => change node
  | segment :: rest, node => do
      match child node segment with
      | none => throw (.typeError "Trusted operation path is not a container")
      | some inner =>
        if isObj inner then
          return writeChild node segment (← trustedWithin change rest inner)
        else throw (.typeError "Trusted operation path is not a container")

/-- `s`, `d`, `a` and `t` at a key of a copied container. -/
def trustedEdit (key : Seg) (change : Edit Unit) (target : JsonValue) :
    Except DeltaError JsonValue :=
  match change with
  | .s value => .ok (writeChild target key value)
  | .d =>
    match target, key with
    | .arr label items, .index at_ =>
      -- Past the end nothing shifts, yet the array still loses its last.
      .ok (.arr label (if at_ < items.length then items.eraseIdx at_
        else items.dropLast))
    | .obj label fields, key => .ok (.obj label (Entries.delete fields key.name))
    | _, _ => .error (.typeError "Trusted array deletion key is not numeric")
  | .a text =>
    match child target key with
    | some (.str current) => .ok (writeChild target key (.str (current ++ text)))
    | _ => .error (.typeError "Trusted append target is not a string")
  | .t count =>
    match child target key with
    | some (.str current) => .ok (writeChild target key (.str (current.drop count)))
    | _ => .error (.typeError "Trusted truncate target is not a string")
  | _ => .error (.typeError "Trusted operation path is not a container")

def trustedTarget (change : Edit Unit) (target : JsonValue) :
    Except DeltaError JsonValue :=
  match target, change with
  | .arr label items, .p index remove inserted =>
    .ok (.arr label (splice items index remove inserted))
  | .arr label items, .m permutation =>
    if items.length ≠ permutation.length then
      .error (.typeError "Trusted permutation length mismatch")
    else .ok (.arr label (permutation.filterMap (items[·]?)))
  | _, _ => .error (.typeError "Trusted array operation target is not an array")

def applyTrusted (root : JsonValue) : Op Unit → Except DeltaError JsonValue
  | .r value => .ok value
  | .edit path change =>
    if isObj root then
      match change with
      | .p _ _ _ | .m _ => trustedWithin (trustedTarget change) path root
      | change =>
        match path.getLast? with
        | none => .error (.typeError "Trusted operation path is not a container")
        | some key => trustedWithin (trustedEdit key change) path.dropLast root
    else .error (.typeError "Trusted operation root is not a container")

def applyImmutableTrusted (target : JsonValue) : List (Op Unit) → Except DeltaError JsonValue
  | [] => .ok target
  | op :: rest => do applyImmutableTrusted (← applyTrusted target op) rest

def movesElements : Op Unit → Bool
  | .edit _ (.p _ _ _) | .edit _ (.m _) => true
  | _ => false

/-- A batch on the base of a change.  What was copied before does not matter to
the value, so no append is taken as copied. -/
def materializeOperations (base : JsonValue) (operations : List (Op Unit)) :
    Except DeltaError JsonValue :=
  if operations.any movesElements then
    applyImmutable (fun _ => false) base operations
  else applyImmutableTrusted base operations

/-! ## Agreement -/

variable {node : JsonValue}

theorem isObj_of_child {inner : JsonValue} {segment : Seg}
    (isChild : child node segment = some inner) : isObj node = true := by
  cases node with
  | arr label items | obj label fields => rfl
  | _ => cases segment <;> cases isChild

variable {path : Path} {root : JsonValue}

theorem isObj_of_get (found : get path root = some node) (container : isObj node = true) :
    isObj root = true := by
  cases path with
  | nil =>
    cases found
    exact container
  | cons segment rest =>
    obtain ⟨inner, isChild, _⟩ := get_cons.mp found
    exact isObj_of_child isChild

variable {old new : JsonValue}

theorem trustedWithin_of_get {change : JsonValue → Except DeltaError JsonValue}
    (found : get path root = some old) (container : isObj old = true)
    (changed : change old = .ok new) :
    trustedWithin change path root = .ok (put path root new) := by
  induction path generalizing root with
  | nil =>
    cases found
    exact changed
  | cons segment rest ih =>
    obtain ⟨inner, isChild, deeper⟩ := get_cons.mp found
    have nested : isObj inner = true := isObj_of_get deeper container
    rw [put_cons isChild, trustedWithin, isChild]
    simp only [nested, if_true, ih deeper]
    rfl

variable {change : Edit Unit}

theorem trustedEdit_of_editChild {key : Seg} {parent : JsonValue}
    (edited : editChild path key change parent = .ok new) :
    trustedEdit key change parent = .ok new ∧ isObj parent = true := by
  obtain ⟨⟨⟩, isParent, later⟩ := bind_eq_ok.mp edited
  have container : isObj parent = true := by
    cases parent with
    | arr label items | obj label fields => rfl
    | _ => cases isParent
  refine ⟨?_, container⟩
  cases change with
  | s value =>
    cases later
    rfl
  | d =>
    cases parent with
    | arr label items =>
      cases key with
      | key name => cases isParent
      | index at_ =>
        dsimp only at later
        split at later
        · cases later
        · rename_i inside
          cases later
          rw [trustedEdit, if_pos (Nat.lt_of_not_le inside)]
    | obj label fields =>
      cases key with
      | key name | index at_ =>
        cases later
        rfl
    | _ => cases isParent
  | a text | t count =>
    dsimp only at later
    split at later
    · rename_i current isString
      cases later
      simp only [trustedEdit, isString]
    · cases later
  | p index remove items | m permutation => cases later

theorem trustedTarget_of_splice {index remove : ℕ} {items : List JsonValue}
    (edited : spliceTarget path index remove items old = .ok new) :
    trustedTarget (.p index remove items) old = .ok new ∧ isObj old = true := by
  cases old with
  | arr label target => exact ⟨edited, rfl⟩
  | _ => cases edited

theorem trustedTarget_of_reorder {permutation : List ℕ}
    (edited : reorderTarget path permutation old = .ok new) :
    trustedTarget (.m permutation) old = .ok new ∧ isObj old = true := by
  cases old with
  | arr label target =>
    rw [reorderTarget] at edited
    split at edited
    · cases edited
    · rename_i sameLength
      rw [trustedTarget, if_neg sameLength]
      exact ⟨edited, rfl⟩
  | _ => cases edited

variable {result : JsonValue}

theorem trustedWithin_of_within
    {full : Path} {checked unchecked : JsonValue → Except DeltaError JsonValue}
    (agrees : ∀ {old new}, checked old = .ok new → unchecked old = .ok new ∧ isObj old = true)
    (edited : within full checked path root = .ok result) :
    isObj root = true ∧ trustedWithin unchecked path root = .ok result := by
  obtain ⟨old, new, found, changed, rfl⟩ := within_eq_ok.mp edited
  obtain ⟨trusted, container⟩ := agrees changed
  exact ⟨isObj_of_get found container, trustedWithin_of_get found container trusted⟩

theorem applyEdit_keyed (keyed : change.mayTargetRoot = false) (root : JsonValue) (path : Path) :
    applyEdit root path change =
      match path.getLast? with
      | none => .error (.path path)
      | some key =>
        within path.dropLast (editChild path key change) path.dropLast
          root := by
  cases change with
  | p index remove items | m permutation => cases keyed
  | _ => rfl

theorem applyTrusted_keyed {change : Edit Unit} (keyed : change.mayTargetRoot = false)
    {root : JsonValue} {path : Path} {key : Seg}
    (isLast : path.getLast? = some key) (container : isObj root = true) :
    applyTrusted root (.edit path change) =
      trustedWithin (trustedEdit key change) path.dropLast root := by
  cases change with
  | p index remove items | m permutation => cases keyed
  | _ => simp only [applyTrusted, if_pos container, isLast]

theorem applyTrusted_of_applyEdit (applied : applyEdit root path change = .ok result) :
    applyTrusted root (.edit path change) = .ok result := by
  by_cases keyed : change.mayTargetRoot = false
  · rw [applyEdit_keyed keyed] at applied
    cases isLast : path.getLast? with
    | none =>
      rw [isLast] at applied
      cases applied
    | some key =>
      rw [isLast] at applied
      obtain ⟨container, trusted⟩ := trustedWithin_of_within trustedEdit_of_editChild applied
      rw [applyTrusted_keyed keyed isLast container]
      exact trusted
  · cases change with
    | p index remove items =>
      obtain ⟨container, trusted⟩ := trustedWithin_of_within trustedTarget_of_splice applied
      rw [applyTrusted, if_pos container]
      exact trusted
    | m permutation =>
      obtain ⟨container, trusted⟩ := trustedWithin_of_within trustedTarget_of_reorder applied
      rw [applyTrusted, if_pos container]
      exact trusted
    | _ => exact absurd rfl keyed

theorem applyTrusted_of_applyOp
    {op : Op Unit} (valid : op.Valid) (applied : applyOp root op = .ok result) :
    applyTrusted root op = .ok result := by
  rw [applyOp_of_valid valid] at applied
  cases op with
  | r value => exact applied
  | edit path change => exact applyTrusted_of_applyEdit applied

variable {ops : List (Op Unit)}

theorem applyImmutableTrusted_of_applyOps
    (valid : ∀ op ∈ ops, op.Valid) (applied : applyOps root ops = .ok result) :
    applyImmutableTrusted root ops = .ok result := by
  induction ops generalizing root with
  | nil => exact applied
  | cons op rest ih =>
    obtain ⟨next, here, later⟩ := bind_eq_ok.mp applied
    have first := applyTrusted_of_applyOp (valid op List.mem_cons_self) here
    exact
      bind_eq_ok.mpr
        ⟨next, first,
          ih
            (fun op member => valid op (List.mem_cons_of_mem _ member))
            later⟩

theorem materializeOperations_of_applyOps {base : JsonValue} (valid : ∀ op ∈ ops, op.Valid)
    (applied : applyOps base ops = .ok result) : materializeOperations base ops = .ok result := by
  rw [materializeOperations]
  split
  · exact applyImmutable_ok.mpr applied
  · exact applyImmutableTrusted_of_applyOps valid applied

end PiEmbodied.Chord.Delta
