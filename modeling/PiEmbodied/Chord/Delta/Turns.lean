import PiEmbodied.Chord.Delta.Apply
import PiEmbodied.Chord.Delta.Revision

/-!
# What operations make of a value

Operations at and under a path turn the value there into another and leave
everything else alone; those under the keys of an object or the elements of an
array compose to one such turn.
-/

namespace PiEmbodied.Chord.Delta

open Coding

/-! ## Values that become others -/

/-- The value a path leads to becomes another, and nothing else changes. -/
structure Becomes (path : Path) (root value next : JsonValue) : Prop where
  found : get path next = some value
  elsewhere : ∀ other, put path next other = put path root other

variable {path : Path} {root value : JsonValue}

theorem becomes_self (found : get path root = some value) : Becomes path root value root :=
  ⟨found, fun _ => rfl⟩

variable {old : JsonValue}

theorem becomes_put (found : get path root = some old) (value : JsonValue) :
    Becomes path root value (put path root value) :=
  ⟨get_put found value, put_put found value⟩

variable {next : JsonValue} {middle : JsonValue}

theorem becomes_trans {last : JsonValue} (first : Becomes path root value middle)
    (second : Becomes path middle last next) : Becomes path root last next where
  found := second.found
  elsewhere := fun other => (second.elsewhere other).trans (first.elsewhere other)

theorem get_append_bind (path rest : Path) (root : JsonValue) :
    get (path ++ rest) root = (get path root).bind (get rest) := by
  cases found : get path root with
  | some node => exact get_append found
  | none =>
    rw [Option.bind_none]
    induction path generalizing root with
    | nil => cases found
    | cons segment tail ih =>
      rw [List.cons_append, get]
      rw [get] at found
      cases isChild : child root segment with
      | none => rfl
      | some inner =>
        rw [isChild] at found
        exact ih inner found

variable {node : JsonValue} {segment : Seg}

theorem get_child (found : get path root = some node) (isChild : child node segment = some value) :
    get (path ++ [segment]) root = some value := by
  rw [get_append found, get, isChild]
  rfl

/-- When a child of a node becomes another, the node becomes one that differs
in this child alone. -/
theorem becomes_child (found : get path root = some node) (isChild : child node segment = some old)
    (becomes : Becomes (path ++ [segment]) root value next) :
    ∃ changed, Becomes path root changed next ∧ child changed segment = some value ∧
      ∀ other, writeChild changed segment other =
        writeChild node segment other := by
  have foundNext := becomes.found
  rw [get_append_bind] at foundNext
  obtain ⟨changed, isChanged, inner⟩ := Option.bind_eq_some_iff.mp foundNext
  obtain ⟨_, isInner, same⟩ := get_cons.mp inner
  cases same
  have written :
      ∀ other,
        put path next (writeChild changed segment other) =
          put path root (writeChild node segment other) := by
    intro other
    have both := becomes.elsewhere other
    rwa [put_append isChanged, put_append found, put_cons isInner, put_cons isChild] at both
  refine ⟨changed, ⟨isChanged, ?_⟩, isInner, ?_⟩
  · intro other
    have here := congrArg (fun node => put path node other) (written value)
    rwa [put_put isChanged, put_put found] at here
  · intro other
    have here := congrArg (get path) (written other)
    rw [get_put isChanged, get_put found] at here
    exact Option.some.inj here

/-- Operations that leave a value deep-equal to `after` where a path leads to
`before`. -/
structure Turns (path : Path) (before : JsonValue) (ops : List (Op Unit))
    (after : JsonValue) : Prop where
  valid : ∀ op ∈ ops, op.Valid
  edits : ∀ op ∈ ops, isReplace op = false
  applied :
    ∀ root, get path root = some before →
      ∃ result next, DeepEqual result after ∧
        applyOps root ops = .ok next ∧ Becomes path root result next

variable {before after : JsonValue}

theorem turns_nothing (equal : DeepEqual before after) : Turns path before [] after where
  valid := fun _ member => absurd member List.not_mem_nil
  edits := fun _ member => absurd member List.not_mem_nil
  applied := fun root found => ⟨before, root, equal, rfl, becomes_self found⟩

variable {change : Edit Unit}

theorem turns_edit {at_ : Path} {result : JsonValue} (valid : Op.Valid (.edit at_ change))
    (equal : DeepEqual result after)
    (applied :
      ∀ root, get path root = some before →
        applyEdit root at_ change = .ok (put path root result)) :
    Turns path before [.edit at_ change] after where
  valid := by
    intro op member
    rw [List.mem_singleton.mp member]
    exact valid
  edits := by
    intro op member
    rw [List.mem_singleton.mp member]
    rfl
  applied := by
    intro root found
    refine ⟨result, _, equal, ?_, becomes_put found result⟩
    rw [applyOps_singleton, applyOp_of_valid valid]
    exact applied root found

variable {first second : List (Op Unit)}

theorem turns_trans
    (exact_ :
      ∀ root, get path root = some before →
        ∃ next, applyOps root first = .ok next ∧ Becomes path root middle next)
    (valid : ∀ op ∈ first, op.Valid)
    (edits : ∀ op ∈ first, isReplace op = false)
    (later : Turns path middle second after) :
    Turns path before (first ++ second) after where
  valid := List.forall_mem_append.mpr ⟨valid, later.valid⟩
  edits := List.forall_mem_append.mpr ⟨edits, later.edits⟩
  applied := by
    intro root found
    obtain ⟨middleRoot, applied, becomes⟩ := exact_ root found
    obtain ⟨result, next, equal, appliedLater, becomesLater⟩ :=
      later.applied middleRoot becomes.found
    refine ⟨result, next, equal, ?_, becomes_trans becomes becomesLater⟩
    rw [applyOps_append applied]
    exact appliedLater

/-! ## Edits of a child -/

theorem parent_of_get (nonempty : path ≠ []) (found : get path root = some value) :
    ∃ key parent, path.getLast? = some key ∧ path = path.dropLast ++ [key] ∧
      get path.dropLast root = some parent ∧
      child parent key = some value := by
  have split := List.dropLast_append_getLast nonempty
  have foundSplit := found
  rw [← split, get_append_bind] at foundSplit
  obtain ⟨parent, isParent, inner⟩ := Option.bind_eq_some_iff.mp foundSplit
  obtain ⟨_, isChild, same⟩ := get_cons.mp inner
  cases same
  exact
    ⟨path.getLast nonempty, parent, List.getLast?_eq_some_getLast nonempty,
      split.symm, isParent, isChild⟩

theorem assertParent_of_child {parentPath : Path} {key : Seg} {parent : JsonValue}
    (isChild : child parent key = some value) : assertParent parentPath key parent = .ok () := by
  cases parent with
  | arr label items =>
    cases key with
    | key name => cases isChild
    | index at_ =>
      obtain ⟨inside, _⟩ := List.getElem?_eq_some_iff.mp isChild
      rw [assertParent]
      exact if_neg (Nat.not_lt.mpr (Nat.le_of_lt inside))
  | obj label fields => rfl
  | _ => cases isChild

/-- What `s`, `a` and `t` do to a value that is there. -/
def overwritten (old : JsonValue) : Edit Unit → Option JsonValue
  | .s value => some value
  | .a text =>
    match old with
    | .str current => some (.str (current ++ text))
    | _ => none
  | .t count =>
    match old with
    | .str current => some (.str (current.drop count))
    | _ => none
  | _ => none

variable {new : JsonValue}

theorem applyEdit_overwrites (nonempty : path ≠ []) (found : get path root = some old)
    (writes : overwritten old change = some new) :
    applyEdit root path change = .ok (put path root new) := by
  obtain ⟨key, parent, isLast, split, isParent, isChild⟩ := parent_of_get nonempty found
  have written : put path root new = put path.dropLast root (writeChild parent key new) := by
    conv_lhs => rw [split]
    rw [put_append isParent, put_cons isChild]
    rfl
  have edited : editChild path key change parent = .ok (writeChild parent key new) := by
    unfold editChild
    rw [assertParent_of_child isChild]
    cases change with
    | s value =>
      cases writes
      rfl
    | a text | t count =>
      cases old with
      | str current =>
        cases writes
        simp only [isChild]
        rfl
      | _ => cases writes
    | d | p index remove items | m order => cases writes
  rw [written]
  cases change with
  | s value | a text | t count =>
    rw [applyEdit, isLast]
    · exact within_eq_ok.mpr ⟨parent, _, isParent, edited, rfl⟩
    · intros; contradiction
    · intros; contradiction
  | d | p index remove items | m order => cases writes

theorem turns_overwrite (valid : Op.Valid (.edit path change)) (nonempty : path ≠ [])
    (writes : overwritten before change = some new) (equal : DeepEqual new after) :
    Turns path before [.edit path change] after := by
  apply turns_edit valid equal
  intro root found
  exact applyEdit_overwrites nonempty found writes

theorem getLast?_snoc (path : Path) (segment : Seg) : (path ++ [segment]).getLast? = some segment :=
  List.getLast?_concat

variable {key : Text} {fields : List (Text × JsonValue)}

section

variable (found : get path root = some (.obj () fields))
include found

theorem applyEdit_setKey :
    applyEdit root (path ++ [.key key]) (.s value) =
      .ok (put path root (.obj () (Entries.set fields key value))) := by
  rw [applyEdit, getLast?_snoc, List.dropLast_concat]
  · exact within_eq_ok.mpr ⟨_, _, found, rfl, rfl⟩
  · intros; contradiction
  · intros; contradiction

theorem applyEdit_deleteKey :
    applyEdit root (path ++ [.key key]) .d =
      .ok (put path root (.obj () (Entries.delete fields key))) := by
  rw [applyEdit, getLast?_snoc, List.dropLast_concat]
  · exact within_eq_ok.mpr ⟨_, _, found, rfl, rfl⟩
  · intros; contradiction
  · intros; contradiction

theorem becomes_key (isChild : Entries.get fields key = some old)
    (becomes : Becomes (path ++ [.key key]) root value next) :
    ∃ changed, Becomes path root (.obj () changed) next ∧
      ∀ name, Entries.get changed name =
        if name = key then some value else Entries.get fields name := by
  have child_ : child (.obj () fields) (.key key) = some old := isChild
  obtain ⟨node, becomesNode, isValue, written⟩ := becomes_child found child_ becomes
  cases node with
  | obj label changed =>
    refine ⟨changed, becomesNode, ?_⟩
    intro name
    by_cases same : name = key
    · rw [if_pos same, same]
      exact isValue
    · rw [if_neg same]
      have both := written .null
      injection both with _ sameFields
      have looked := congrArg (fun entries => Entries.get entries name) sameFields
      dsimp only [Seg.name] at looked
      rwa [Entries.get_set, Entries.get_set, if_neg same, if_neg same] at looked
  | arr label items | _ => cases isValue

end

/-! ## Elements of an array -/

/-- Operations on a range of an array, wherever the array's ends are. -/
structure TurnsRange (path : Path) (offset : ℕ) (old : List JsonValue)
    (ops : List (Op Unit)) (new : List JsonValue) : Prop where
  valid : ∀ op ∈ ops, op.Valid
  edits : ∀ op ∈ ops, isReplace op = false
  applied :
    ∀ root start rest, start.length = offset →
      get path root = some (.arr () (start ++ old ++ rest)) →
      ∃ result next, List.Forall₂ DeepEqual result new ∧
        applyOps root ops = .ok next ∧
        Becomes path root (.arr () (start ++ result ++ rest)) next

variable {old new : List JsonValue} {offset : ℕ}

theorem turnsRange_nothing (equal : List.Forall₂ DeepEqual old new) :
    TurnsRange path offset old [] new where
  valid := fun _ member => absurd member List.not_mem_nil
  edits := fun _ member => absurd member List.not_mem_nil
  applied := fun root _ _ _ found => ⟨old, root, equal, rfl, becomes_self found⟩

/-- What follows a range is moved by it: the indices after it count the new
elements. -/
theorem turnsRange_append {later laterNew : List JsonValue}
    (here : TurnsRange path offset old first new)
    (there : TurnsRange path (offset + new.length) later second laterNew) :
    TurnsRange path offset (old ++ later) (first ++ second) (new ++ laterNew) where
  valid := List.forall_mem_append.mpr ⟨here.valid, there.valid⟩
  edits := List.forall_mem_append.mpr ⟨here.edits, there.edits⟩
  applied := by
    intro root start rest isOffset found
    rw [← List.append_assoc, List.append_assoc (start ++ old)] at found
    obtain ⟨result, middle, equal, applied, becomes⟩ :=
      here.applied root start (later ++ rest) isOffset found
    have length : (start ++ result).length = offset + new.length := by
      rw [List.length_append, isOffset, equal.length_eq]
    have foundMiddle := becomes.found
    rw [← List.append_assoc] at foundMiddle
    obtain ⟨laterResult, next, laterEqual, laterApplied, laterBecomes⟩ :=
      there.applied middle (start ++ result) rest length foundMiddle
    refine ⟨result ++ laterResult, next, ?_, ?_, ?_⟩
    · exact List.rel_append equal laterEqual
    · rw [applyOps_append applied]
      exact laterApplied
    · rw [← List.append_assoc start]
      exact becomes_trans becomes laterBecomes

theorem applyEdit_splice {start rest items : List JsonValue}
    (found : get path root = some (.arr () (start ++ old ++ rest))) :
    applyEdit root path (.p start.length old.length items) =
      .ok (put path root (.arr () (start ++ items ++ rest))) := by
  apply within_eq_ok.mpr
  refine ⟨_, _, found, rfl, ?_⟩
  have spliced :
      splice (start ++ old ++ rest) start.length old.length items = start ++ items ++ rest := by
    unfold splice
    rw [List.append_assoc start old rest, List.take_left',
      ← List.append_assoc start old rest, List.drop_left']
    · rw [List.length_append]
    · rfl
  rw [spliced]

theorem turnsRange_splice (safe : SafePath path) :
    TurnsRange path offset old [.edit path (.p offset old.length new)] new where
  valid := by
    intro op member
    rw [List.mem_singleton.mp member]
    exact ⟨safe, Or.inl rfl, trivial⟩
  edits := by
    intro op member
    rw [List.mem_singleton.mp member]
    rfl
  applied := by
    intro root start rest isOffset found
    have valid : Op.Valid (.edit path (.p offset old.length new) : Op Unit) :=
      ⟨safe, Or.inl rfl, trivial⟩
    refine ⟨new, _, ?_, ?_, becomes_put found _⟩
    · exact List.forall₂_same.mpr fun value _ => DeepEqual.same value
    · rw [applyOps_singleton, applyOp_of_valid valid, ← isOffset]
      exact applyEdit_splice found

variable {ops : List (Op Unit)}

theorem turnsRange_element (turns : Turns (path ++ [.index offset]) before ops after) :
    TurnsRange path offset [before] ops [after] where
  valid := turns.valid
  edits := turns.edits
  applied := by
    intro root start rest isOffset found
    have isChild :
        child (.arr () (start ++ [before] ++ rest)) (.index offset) =
          some before := by
      simp [child, ← isOffset]
    obtain ⟨result, next, equal, applied, becomes⟩ := turns.applied root (get_child found isChild)
    obtain ⟨node, becomesNode, isValue, written⟩ := becomes_child found isChild becomes
    refine ⟨[result], next, List.Forall₂.cons equal List.Forall₂.nil, applied, ?_⟩
    have isNode : node = .arr () (start ++ [result] ++ rest) := by
      cases node with
      | arr label items =>
        obtain ⟨inside, isElement⟩ := List.getElem?_eq_some_iff.mp isValue
        have both := written result
        simp only [writeChild, inside, if_true] at both
        have unchanged : items.set offset result = items := by
          rw [← isElement]
          exact List.set_getElem_self inside
        rw [unchanged] at both
        rw [both, ← isOffset]
        simp
      | obj label fields =>
        have both := written result
        simp only [writeChild] at both
        split at both
        · cases both
        · cases both
      | _ => cases isValue
    rw [← isNode]
    exact becomesNode

theorem turns_array (turns : TurnsRange path 0 old ops new) :
    Turns path (.arr () old) ops (.arr () new) where
  valid := turns.valid
  edits := turns.edits
  applied := by
    intro root found
    have whole : get path root = some (.arr () ([] ++ old ++ [])) := by
      rw [List.nil_append, List.append_nil]
      exact found
    obtain ⟨result, next, equal, applied, becomes⟩ := turns.applied root [] [] rfl whole
    rw [List.nil_append, List.append_nil] at becomes
    refine ⟨.arr () result, next, ?_, applied, becomes⟩
    apply DeepEqual.arr equal.length_eq
    intro at_ left right isLeft isRight
    obtain ⟨inside, rfl⟩ := List.getElem?_eq_some_iff.mp isLeft
    obtain ⟨insideRight, rfl⟩ := List.getElem?_eq_some_iff.mp isRight
    exact (List.forall₂_iff_get.mp equal).2 at_ inside insideRight

theorem turns_reorder {order : List ℕ} (safe : SafePath path)
    (isPermutation : IsPermutation order) (length : old.length = order.length)
    (reordered : order.filterMap (old[·]?) = new) :
    Turns path (.arr () old) [.edit path (.m order)] (.arr () new) := by
  apply turns_edit
  · exact ⟨safe, Or.inl rfl, isPermutation⟩
  · exact DeepEqual.same _
  · intro root found
    apply within_eq_ok.mpr
    refine ⟨_, _, found, ?_, rfl⟩
    rw [reorderTarget, if_neg (not_not.mpr length), reordered]

end PiEmbodied.Chord.Delta
