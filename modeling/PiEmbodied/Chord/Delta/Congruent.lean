import PiEmbodied.Chord.Delta.Apply
import PiEmbodied.Chord.Delta.Revision

/-!
# Operations on deep-equal values

Deep equality is an equivalence, and a batch that applies to a value applies to
every deep-equal one, with a deep-equal result.
-/

namespace PiEmbodied.Chord

/-! ## An equivalence -/

theorem deepEqual_symm {first second : JsonValue}
    (equal : DeepEqual first second) : DeepEqual second first := by
  induction equal with
  | same value => exact DeepEqual.same value
  | arr length _ ih =>
    refine DeepEqual.arr length.symm ?_
    intro at_ left right isLeft isRight
    exact ih at_ right left isRight isLeft
  | obj keys _ ih =>
    refine DeepEqual.obj (fun key => (keys key).symm) ?_
    intro key left right isLeft isRight
    exact ih key right left isRight isLeft

/-- Objects with the same keys and deep-equal values at them. -/
def SameFields (fields other : List (Text × JsonValue)) : Prop :=
  ∀ key, Option.Rel DeepEqual (Entries.get fields key) (Entries.get other key)

theorem rel_self (found : Option JsonValue) : Option.Rel DeepEqual found found := by
  cases found with
  | none => exact Option.Rel.none
  | some value => exact Option.Rel.some (DeepEqual.same value)

theorem isSome_of_rel {first second : Option JsonValue}
    (related : Option.Rel DeepEqual first second) : first.isSome = second.isSome := by
  cases related with
  | none | some _ => rfl

theorem deepEqual_arr_iff {items other : List JsonValue} :
    DeepEqual (.arr () items) (.arr () other) ↔
      List.Forall₂ DeepEqual items other := by
  constructor
  · intro equal
    cases equal with
    | same => exact List.forall₂_same.mpr fun item _ => DeepEqual.same item
    | arr length pointwise =>
      rw [List.forall₂_iff_get]
      refine ⟨length, ?_⟩
      intro at_ inside otherInside
      exact pointwise at_ _ _ (List.getElem?_eq_getElem inside)
        (List.getElem?_eq_getElem otherInside)
  · intro all
    obtain ⟨length, pointwise⟩ := List.forall₂_iff_get.mp all
    refine DeepEqual.arr length ?_
    intro at_ left right isLeft isRight
    obtain ⟨inside, rfl⟩ := List.getElem?_eq_some_iff.mp isLeft
    obtain ⟨otherInside, rfl⟩ := List.getElem?_eq_some_iff.mp isRight
    exact pointwise at_ inside otherInside

theorem deepEqual_obj_iff {fields other : List (Text × JsonValue)} :
    DeepEqual (.obj () fields) (.obj () other) ↔ SameFields fields other := by
  constructor
  · intro equal key
    cases equal with
    | same => exact rel_self _
    | obj keys values =>
      have sameKey := keys key
      rw [Entries.has, Entries.has] at sameKey
      cases found : Entries.get fields key with
      | none =>
        rw [found] at sameKey
        cases otherFound : Entries.get other key with
        | none => exact Option.Rel.none
        | some value =>
          rw [otherFound] at sameKey
          cases sameKey
      | some value =>
        rw [found] at sameKey
        cases otherFound : Entries.get other key with
        | none =>
          rw [otherFound] at sameKey
          cases sameKey
        | some otherValue => exact Option.Rel.some (values key _ _ found otherFound)
  · intro same
    apply DeepEqual.obj
    · intro key
      exact isSome_of_rel (same key)
    · intro key left right isLeft isRight
      have sameKey := same key
      rw [isLeft, isRight] at sameKey
      cases sameKey with
      | some equal => exact equal

theorem arr_of_deepEqual {label : Unit} {items : List JsonValue}
    {value : JsonValue} (equal : DeepEqual (.arr label items) value) :
    ∃ other, value = .arr () other ∧ List.Forall₂ DeepEqual items other := by
  cases equal with
  | same => exact ⟨items, rfl, List.forall₂_same.mpr fun item _ => DeepEqual.same item⟩
  | arr length pointwise => exact ⟨_, rfl, deepEqual_arr_iff.mp (DeepEqual.arr length pointwise)⟩

theorem obj_of_deepEqual {label : Unit} {fields : List (Text × JsonValue)}
    {value : JsonValue} (equal : DeepEqual (.obj label fields) value) :
    ∃ other, value = .obj () other ∧ SameFields fields other := by
  cases equal with
  | same => exact ⟨fields, rfl, fun key => rel_self _⟩
  | obj keys values => exact ⟨_, rfl, deepEqual_obj_iff.mp (DeepEqual.obj keys values)⟩

theorem deepEqual_trans {first second third : JsonValue} (firstEqual : DeepEqual first second)
    (secondEqual : DeepEqual second third) : DeepEqual first third := by
  induction firstEqual generalizing third with
  | same value => exact secondEqual
  | @arr items other length pointwise ih =>
    obtain ⟨last, rfl, all⟩ := arr_of_deepEqual secondEqual
    obtain ⟨lastLength, lastPointwise⟩ := List.forall₂_iff_get.mp all
    refine DeepEqual.arr (length.trans lastLength) ?_
    intro at_ left right isLeft isRight
    obtain ⟨inside, _⟩ := List.getElem?_eq_some_iff.mp isLeft
    obtain ⟨lastInside, isLast⟩ := List.getElem?_eq_some_iff.mp isRight
    have middleInside : at_ < other.length := by omega
    apply ih at_ left other[at_] isLeft (List.getElem?_eq_getElem middleInside)
    rw [← isLast]
    exact lastPointwise at_ middleInside lastInside
  | @obj fields other keys values ih =>
    obtain ⟨last, rfl, same⟩ := obj_of_deepEqual secondEqual
    apply deepEqual_obj_iff.mpr
    intro key
    have firstSame := deepEqual_obj_iff.mp (DeepEqual.obj keys values) key
    have secondSame := same key
    cases isLeft : Entries.get fields key with
    | none =>
      rw [isLeft] at firstSame
      cases isMiddle : Entries.get other key with
      | some middle =>
        rw [isMiddle] at firstSame
        cases firstSame
      | none =>
        rwa [isMiddle] at secondSame
    | some left =>
      rw [isLeft] at firstSame
      cases isMiddle : Entries.get other key with
      | none =>
        rw [isMiddle] at firstSame
        cases firstSame
      | some middle =>
        rw [isMiddle] at secondSame
        cases isRight : Entries.get last key with
        | none =>
          rw [isRight] at secondSame
          cases secondSame
        | some right =>
          rw [isRight] at secondSame
          cases secondSame with
          | some equal => exact Option.Rel.some (ih key left middle isLeft isMiddle equal)

end PiEmbodied.Chord

namespace PiEmbodied.Chord.Delta

open Coding

/-! ## Children of deep-equal values -/

variable {first second : JsonValue}

theorem eq_of_deepEqual (equal : DeepEqual first second) (scalar : isObj first = false) :
    second = first := by
  cases equal with
  | same => rfl
  | arr _ _ | obj _ _ => cases scalar

variable {items other : List JsonValue}

theorem getElem?_related (all : List.Forall₂ DeepEqual items other) (at_ : ℕ) :
    Option.Rel DeepEqual items[at_]? other[at_]? := by
  induction all generalizing at_ with
  | nil => exact Option.Rel.none
  | cons head _ ih =>
    cases at_ with
    | zero => exact Option.Rel.some head
    | succ at_ => exact ih at_

theorem child_related (equal : DeepEqual first second) (segment : Seg) :
    Option.Rel DeepEqual (child first segment) (child second segment) := by
  cases first with
  | arr label items =>
    obtain ⟨other, rfl, all⟩ := arr_of_deepEqual equal
    cases segment with
    | key name => exact Option.Rel.none
    | index at_ => exact getElem?_related all at_
  | obj label fields =>
    obtain ⟨other, rfl, same⟩ := obj_of_deepEqual equal
    cases segment with
    | key name => exact same name
    | index at_ => exact same _
  | _ =>
    rw [eq_of_deepEqual equal rfl]
    exact rel_self _

theorem take_related (all : List.Forall₂ DeepEqual items other) (count : ℕ) :
    List.Forall₂ DeepEqual (items.take count) (other.take count) :=
  List.forall₂_take count all

theorem drop_related (all : List.Forall₂ DeepEqual items other) (count : ℕ) :
    List.Forall₂ DeepEqual (items.drop count) (other.drop count) :=
  List.forall₂_drop count all

theorem append_related {last otherLast : List JsonValue}
    (first : List.Forall₂ DeepEqual items other) (second : List.Forall₂ DeepEqual last otherLast) :
    List.Forall₂ DeepEqual (items ++ last) (other ++ otherLast) :=
  List.rel_append first second

variable {value otherValue : JsonValue}

theorem set_related (all : List.Forall₂ DeepEqual items other)
    (equal : DeepEqual value otherValue) (at_ : ℕ) :
    List.Forall₂ DeepEqual (items.set at_ value) (other.set at_ otherValue) := by
  induction all generalizing at_ with
  | nil => exact List.Forall₂.nil
  | cons head tail ih =>
    cases at_ with
    | zero => exact List.Forall₂.cons equal tail
    | succ at_ => exact List.Forall₂.cons head (ih at_)

theorem sameFields_set {fields other : List (Text × JsonValue)} (same : SameFields fields other)
    (equal : DeepEqual value otherValue) (key : Text) :
    SameFields (Entries.set fields key value) (Entries.set other key otherValue) := by
  intro asked
  rw [Entries.get_set, Entries.get_set]
  split
  · exact Option.Rel.some equal
  · exact same asked

theorem sameFields_delete {fields other : List (Text × JsonValue)}
    (same : SameFields fields other) (key : Text) :
    SameFields (Entries.delete fields key) (Entries.delete other key) := by
  intro asked
  rw [Entries.get_delete, Entries.get_delete]
  split
  · exact Option.Rel.none
  · exact same asked

theorem writeChild_related
    (equal : DeepEqual first second) (valueEqual : DeepEqual value otherValue) (segment : Seg) :
    DeepEqual (writeChild first segment value) (writeChild second segment otherValue) := by
  cases first with
  | arr label items =>
    obtain ⟨other, rfl, all⟩ := arr_of_deepEqual equal
    cases segment with
    | key name => exact equal
    | index at_ =>
      rw [writeChild, writeChild, all.length_eq]
      split
      · exact deepEqual_arr_iff.mpr (set_related all valueEqual at_)
      · exact deepEqual_arr_iff.mpr
          (append_related all (List.Forall₂.cons valueEqual List.Forall₂.nil))
  | obj label fields =>
    obtain ⟨other, rfl, same⟩ := obj_of_deepEqual equal
    have written := deepEqual_obj_iff.mpr (sameFields_set same valueEqual segment.name)
    cases segment with
    | key name | index at_ => exact written
  | _ =>
    rw [eq_of_deepEqual equal rfl]
    exact DeepEqual.same _

variable {path : Path}

theorem child_found {segment : Seg} {inner : JsonValue} (equal : DeepEqual first second)
    (isChild : child first segment = some inner) :
    ∃ other, child second segment = some other ∧ DeepEqual inner other := by
  have related := child_related equal segment
  rw [isChild] at related
  cases isOther : child second segment with
  | none =>
    rw [isOther] at related
    cases related
  | some other =>
    rw [isOther] at related
    cases related with
    | some innerEqual => exact ⟨other, rfl, innerEqual⟩

theorem get_related {found : JsonValue} (equal : DeepEqual first second)
    (isFound : get path first = some found) :
    ∃ other, get path second = some other ∧ DeepEqual found other := by
  induction path generalizing first second with
  | nil =>
    cases isFound
    exact ⟨second, rfl, equal⟩
  | cons segment rest ih =>
    obtain ⟨inner, isChild, deeper⟩ := get_cons.mp isFound
    obtain ⟨otherInner, isOther, innerEqual⟩ := child_found equal isChild
    obtain ⟨other, isFoundToo, otherEqual⟩ := ih innerEqual deeper
    exact ⟨other, get_cons.mpr ⟨otherInner, isOther, isFoundToo⟩, otherEqual⟩

theorem put_related (path : Path) (equal : DeepEqual first second)
    (valueEqual : DeepEqual value otherValue) :
    DeepEqual (put path first value) (put path second otherValue) := by
  induction path generalizing first second with
  | nil => exact valueEqual
  | cons segment rest ih =>
    rw [put, put]
    cases isChild : child first segment with
    | none =>
      have related := child_related equal segment
      rw [isChild] at related
      cases isOther : child second segment with
      | none => exact equal
      | some otherInner =>
        rw [isOther] at related
        cases related
    | some inner =>
      obtain ⟨otherInner, isOther, innerEqual⟩ := child_found equal isChild
      rw [isOther]
      exact writeChild_related equal (ih innerEqual) segment

/-! ## Operations -/

/-- Where the first succeeds, so does the second, with a deep-equal result. -/
def Agrees (first second : Except DeltaError JsonValue) : Prop :=
  ∀ result, first = .ok result → ∃ other, second = .ok other ∧ DeepEqual result other

theorem agrees_ok (equal : DeepEqual first second) : Agrees (.ok first) (.ok second) := by
  intro result isResult
  cases isResult
  exact ⟨second, rfl, equal⟩

theorem agrees_error (error : DeltaError) (second : Except DeltaError JsonValue) :
    Agrees (.error error) second := by
  intro result isResult
  cases isResult

theorem within_agrees {full : Path} {change : JsonValue → Except DeltaError JsonValue}
    (path : Path) (equal : DeepEqual first second)
    (changes : ∀ old other, DeepEqual old other → Agrees (change old) (change other)) :
    Agrees (within full change path first) (within full change path second) := by
  intro result isResult
  obtain ⟨old, new, found, changed, rfl⟩ := within_eq_ok.mp isResult
  obtain ⟨other, isOther, oldEqual⟩ := get_related equal found
  obtain ⟨otherNew, otherChanged, newEqual⟩ := changes old other oldEqual new changed
  exact ⟨put path second otherNew, within_eq_ok.mpr ⟨other, otherNew, isOther, otherChanged, rfl⟩,
    put_related path equal newEqual⟩

theorem splice_related (all : List.Forall₂ DeepEqual items other) (index remove : ℕ)
    (inserted : List JsonValue) :
    List.Forall₂ DeepEqual (splice items index remove inserted)
      (splice other index remove inserted) := by
  rw [splice, splice]
  exact append_related
    (append_related (take_related all index)
      (List.forall₂_same.mpr fun item _ => DeepEqual.same item))
    (drop_related all (index + remove))

variable {old : JsonValue}

theorem spliceTarget_agrees (path : Path) (index remove : ℕ) (inserted : List JsonValue)
    {other : JsonValue} (equal : DeepEqual old other) :
    Agrees (spliceTarget path index remove inserted old)
      (spliceTarget path index remove inserted other) := by
  cases old with
  | arr label items =>
    obtain ⟨others, rfl, all⟩ := arr_of_deepEqual equal
    exact agrees_ok (deepEqual_arr_iff.mpr (splice_related all index remove inserted))
  | _ => exact agrees_error _ _

theorem reorder_related (all : List.Forall₂ DeepEqual items other) (permutation : List ℕ) :
    List.Forall₂ DeepEqual (permutation.filterMap (items[·]?))
      (permutation.filterMap (other[·]?)) := by
  induction permutation with
  | nil => exact List.Forall₂.nil
  | cons at_ rest ih =>
    have related := getElem?_related all at_
    rw [List.filterMap_cons, List.filterMap_cons]
    cases isItem : items[at_]? with
    | none =>
      rw [isItem] at related
      cases isOther : other[at_]? with
      | none => exact ih
      | some otherItem =>
        rw [isOther] at related
        cases related
    | some item =>
      rw [isItem] at related
      cases isOther : other[at_]? with
      | none =>
        rw [isOther] at related
        cases related
      | some otherItem =>
        rw [isOther] at related
        cases related with
        | some equal => exact List.Forall₂.cons equal ih

theorem reorderTarget_agrees (path : Path) (permutation : List ℕ) {other : JsonValue}
    (equal : DeepEqual old other) :
    Agrees (reorderTarget path permutation old) (reorderTarget path permutation other) := by
  cases old with
  | arr label items =>
    obtain ⟨others, rfl, all⟩ := arr_of_deepEqual equal
    rw [reorderTarget, reorderTarget, all.length_eq]
    split
    · exact agrees_error _ _
    · exact agrees_ok (deepEqual_arr_iff.mpr (reorder_related all permutation))
  | _ => exact agrees_error _ _

theorem assertParent_same (parentPath : Path) (key : Seg) {other : JsonValue}
    (equal : DeepEqual old other) :
    assertParent parentPath key other = assertParent parentPath key old := by
  cases old with
  | arr label items =>
    obtain ⟨others, rfl, all⟩ := arr_of_deepEqual equal
    simp only [assertParent, all.length_eq]
  | obj label fields =>
    obtain ⟨others, rfl, _⟩ := obj_of_deepEqual equal
    rfl
  | _ => rw [eq_of_deepEqual equal rfl]

variable {key : Seg}

theorem string_of_related {other : JsonValue} {current : Text} (equal : DeepEqual old other)
    (isString : child old key = some (.str current)) : child other key = some (.str current) := by
  obtain ⟨value, isOther, valueEqual⟩ := child_found equal isString
  rw [isOther, eq_of_deepEqual valueEqual rfl]

theorem eraseIdx_related (all : List.Forall₂ DeepEqual items other) (at_ : ℕ) :
    List.Forall₂ DeepEqual (items.eraseIdx at_) (other.eraseIdx at_) := by
  rw [List.eraseIdx_eq_take_drop_succ, List.eraseIdx_eq_take_drop_succ]
  exact append_related (take_related all at_) (drop_related all (at_ + 1))

theorem stringEdit_agrees {other : JsonValue} (equal : DeepEqual old other) (edit : Text → Text) :
    Agrees
      (match child old key with
      | some (.str current) => pure (writeChild old key (.str (edit current)))
      | _ => throw (.path path))
      (match child other key with
      | some (.str current) => pure (writeChild other key (.str (edit current)))
      | _ => throw (.path path)) := by
  intro result isResult
  split at isResult
  · rename_i current isString
    rw [string_of_related equal isString]
    cases pure_eq_ok.mp isResult
    exact ⟨_, rfl, writeChild_related equal (DeepEqual.same _) key⟩
  · cases isResult

theorem editChild_agrees (path : Path) (key : Seg) (change : Edit Unit) {other : JsonValue}
    (equal : DeepEqual old other) :
    Agrees (editChild path key change old) (editChild path key change other) := by
  intro result isResult
  obtain ⟨⟨⟩, isParent, edited⟩ := bind_eq_ok.mp isResult
  have otherParent : assertParent path.dropLast key other = .ok () := by
    rw [assertParent_same path.dropLast key equal]
    exact isParent
  cases change with
  | s value =>
    cases pure_eq_ok.mp edited
    exact ⟨_, bind_eq_ok.mpr ⟨(), otherParent, rfl⟩,
      writeChild_related equal (DeepEqual.same value) key⟩
  | d =>
    cases old with
    | arr label items =>
      obtain ⟨others, rfl, all⟩ := arr_of_deepEqual equal
      cases key with
      | key name => cases edited
      | index at_ =>
        simp only at edited
        split at edited
        · cases edited
        · rename_i inside
          cases pure_eq_ok.mp edited
          refine ⟨_, bind_eq_ok.mpr ⟨(), otherParent, ?_⟩,
            deepEqual_arr_iff.mpr (eraseIdx_related all at_)⟩
          simp only
          rw [← all.length_eq, if_neg inside]
          rfl
    | obj label fields =>
      obtain ⟨others, rfl, same⟩ := obj_of_deepEqual equal
      cases pure_eq_ok.mp edited
      exact ⟨_, bind_eq_ok.mpr ⟨(), otherParent, rfl⟩,
        deepEqual_obj_iff.mpr (sameFields_delete same key.name)⟩
    | _ => cases edited
  | a text =>
    obtain ⟨otherResult, otherEdited, resultEqual⟩ :=
      stringEdit_agrees equal (· ++ text) result edited
    exact ⟨otherResult, bind_eq_ok.mpr ⟨(), otherParent, otherEdited⟩, resultEqual⟩
  | t count =>
    obtain ⟨otherResult, otherEdited, resultEqual⟩ :=
      stringEdit_agrees equal (List.drop count) result edited
    exact ⟨otherResult, bind_eq_ok.mpr ⟨(), otherParent, otherEdited⟩, resultEqual⟩
  | p index remove items | m permutation => cases edited

theorem applyEdit_agrees (path : Path) (change : Edit Unit) (equal : DeepEqual first second) :
    Agrees (applyEdit first path change) (applyEdit second path change) := by
  cases change with
  | p index remove items =>
    exact within_agrees path equal fun old other oldEqual =>
      spliceTarget_agrees path index remove items oldEqual
  | m permutation =>
    exact within_agrees path equal fun old other oldEqual =>
      reorderTarget_agrees path permutation oldEqual
  | s value | d | a text | t count =>
    unfold applyEdit
    cases path.getLast? with
    | none => exact agrees_error _ _
    | some key =>
      exact within_agrees path.dropLast equal fun old other oldEqual =>
        editChild_agrees path key _ oldEqual

theorem applyOp_agrees (op : Op Unit) (equal : DeepEqual first second) :
    Agrees (applyOp first op) (applyOp second op) := by
  intro result isResult
  rw [applyOp] at isResult ⊢
  obtain ⟨accepted, isAccepted, applied⟩ := bind_eq_ok.mp isResult
  rw [isAccepted]
  cases accepted with
  | r value =>
    cases pure_eq_ok.mp applied
    exact ⟨_, rfl, DeepEqual.same _⟩
  | edit path change => exact applyEdit_agrees path change equal result applied

theorem applyOps_agrees (ops : List (Op Unit)) (equal : DeepEqual first second) :
    Agrees (applyOps first ops) (applyOps second ops) := by
  induction ops generalizing first second with
  | nil => exact agrees_ok equal
  | cons op rest ih =>
    intro result isResult
    obtain ⟨next, here, later⟩ := bind_eq_ok.mp isResult
    obtain ⟨otherNext, otherHere, nextEqual⟩ := applyOp_agrees op equal next here
    obtain ⟨other, otherLater, resultEqual⟩ := ih nextEqual result later
    exact ⟨other, bind_eq_ok.mpr ⟨otherNext, otherHere, otherLater⟩, resultEqual⟩

end PiEmbodied.Chord.Delta
