import PiEmbodied.Chord.Delta.Congruent
import PiEmbodied.Chord.Delta.Tracker

/-!
# The box of a cell

A tracker tracks containers, so a cell tracks `{ v: value }` and strips the box
from what it publishes.  Operations within the box do to the value what the
stripped ones do.
-/

namespace PiEmbodied.Chord

open Coding Delta

/-! ## The box -/

def boxKey : Text := units "v"

def box (value : JsonValue) : JsonValue :=
  .obj () [(boxKey, value)]

/-- `box.v` -/
def unboxed (value : JsonValue) : Option JsonValue :=
  child value (.key boxKey)

/-- What `unbox` pushes for an operation; none where it replaces the value. -/
def unboxOp : Op Unit → Option (Op Unit)
  | .r _ | .edit [] _ => none
  | .edit (_ :: path) (.p index remove items) => some (.edit path (.p index remove items))
  | .edit (_ :: path) (.m permutation) => some (.edit path (.m permutation))
  | .edit [_] _ => none
  | .edit (_ :: path) change => some (.edit path change)

def unboxAll : List (Op Unit) → Option (List (Op Unit))
  | [] => some []
  | op :: rest =>
    match unboxOp op, unboxAll rest with
    | some inner, some others => some (inner :: others)
    | _, _ => none

def unbox (ops : List (Op Unit)) (value : JsonValue) : List (Op Unit) :=
  match unboxAll ops with
  | some inner => inner
  | none => [.r value]

@[simp]
theorem child_box (value : JsonValue) : child (box value) (.key boxKey) = some value := by
  rw [box, child, Seg.name, Entries.get_cons, if_pos rfl]

@[simp]
theorem unboxed_box (value : JsonValue) : unboxed (box value) = some value :=
  child_box value

@[simp]
theorem writeChild_box (value other : JsonValue) :
    writeChild (box value) (.key boxKey) other = box other := by
  rw [box, writeChild, Seg.name]
  rfl

variable {value : JsonValue}

theorem box_injective {other : JsonValue} (same : box value = box other) : value = other :=
  Option.some.inj (by rw [← unboxed_box, same, unboxed_box])

theorem deepEqual_of_box {other : JsonValue} (equal : DeepEqual (box value) (box other)) :
    DeepEqual value other := by
  have fields := deepEqual_obj_iff.mp equal boxKey
  rw [Entries.get_cons, Entries.get_cons, if_pos rfl, if_pos rfl] at fields
  cases fields with
  | some inner => exact inner

def Boxed : Op Unit → Prop
  | .r value => ∃ inner, value = box inner
  | .edit [] _ => False
  | .edit [segment] change => segment = .key boxKey ∧ change ≠ .d
  | .edit (segment :: _ :: _) _ => segment = .key boxKey

/-! ## One operation, checked -/

variable {path other : Path}

theorem assertParent_ok_path {key : Seg} {parent : JsonValue}
    (isParent : assertParent path key parent = .ok ()) :
    assertParent other key parent = .ok () := by
  cases parent with
  | arr label items => exact isParent
  | obj label fields => rfl
  | _ => cases isParent

variable {change : Edit Unit} {result : JsonValue}

theorem editChild_ok_path {key : Seg} {parent : JsonValue}
    (edited : editChild path key change parent = .ok result) :
    editChild other key change parent = .ok result := by
  obtain ⟨⟨⟩, isParent, done⟩ := bind_eq_ok.mp edited
  refine bind_eq_ok.mpr ⟨(), assertParent_ok_path isParent, ?_⟩
  cases change with
  | s value => exact done
  | d =>
    cases parent with
    | arr label items =>
      cases key with
      | key name => cases done
      | index at_ =>
        simp only at done ⊢
        split at done
        · cases done
        · rename_i inside
          rw [if_neg inside]
          exact done
    | obj label fields => exact done
    | _ => cases done
  | a text | t count =>
    simp only at done ⊢
    split at done
    · exact done
    · cases done
  | p index remove items | m permutation => cases done

theorem spliceTarget_ok_path {index remove : ℕ} {items : List JsonValue} {target : JsonValue}
    (edited : spliceTarget path index remove items target = .ok result) :
    spliceTarget other index remove items target = .ok result := by
  cases target with
  | arr label values => exact edited
  | _ => cases edited

theorem reorderTarget_ok_path {permutation : List ℕ} {target : JsonValue}
    (edited : reorderTarget path permutation target = .ok result) :
    reorderTarget other permutation target = .ok result := by
  cases target with
  | arr label values =>
    rw [reorderTarget] at edited ⊢
    split at edited
    · cases edited
    · rename_i sameLength
      rw [if_neg sameLength]
      exact edited
  | _ => cases edited

variable {rest : Path}

theorem within_box {full : Path} {change otherChange : JsonValue → Except DeltaError JsonValue}
    (edited : within full change (.key boxKey :: rest) (box value) = .ok result)
    (changes : ∀ {old new}, change old = .ok new → otherChange old = .ok new) :
    ∃ inner, result = box inner ∧ within other otherChange rest value = .ok inner := by
  obtain ⟨old, new, found, changed, rfl⟩ := within_eq_ok.mp edited
  obtain ⟨inner, isChild, deeper⟩ := get_cons.mp found
  rw [child_box] at isChild
  cases isChild
  refine ⟨put rest value new, ?_, ?_⟩
  · rw [put_cons (child_box value), writeChild_box]
  · exact within_eq_ok.mpr ⟨old, new, deeper, changes changed, rfl⟩

theorem applyEdit_box (inner : change.mayTargetRoot = true ∨ rest ≠ [])
    (edited :
      applyEdit (box value) (.key boxKey :: rest) change = .ok result) :
    ∃ next, result = box next ∧ applyEdit value rest change = .ok next := by
  by_cases keyed : change.mayTargetRoot = false
  · have more : rest ≠ [] := by
      rcases inner with targets | more
      · rw [keyed] at targets
        cases targets
      · exact more
    rw [applyEdit_keyed keyed] at edited ⊢
    have sameLast : (Seg.key boxKey :: rest).getLast? = some (rest.getLast more) := by
      rw [List.getLast?_cons_of_ne_nil more, List.getLast?_eq_some_getLast more]
    rw [sameLast, List.dropLast_cons_of_ne_nil more] at edited
    rw [List.getLast?_eq_some_getLast more]
    exact within_box edited editChild_ok_path
  · cases change with
    | p index remove items => exact within_box edited spliceTarget_ok_path
    | m permutation => exact within_box edited reorderTarget_ok_path
    | _ => exact absurd rfl keyed

theorem applyEdit_box_self (keyed : change.mayTargetRoot = false) (stays : change ≠ .d)
    (edited : applyEdit (box value) [.key boxKey] change = .ok result) :
    ∃ next, result = box next := by
  rw [applyEdit_keyed keyed] at edited
  obtain ⟨_, _, done⟩ := bind_eq_ok.mp edited
  cases change with
  | s other =>
    cases pure_eq_ok.mp done
    exact ⟨other, writeChild_box value other⟩
  | d => exact absurd rfl stays
  | a text | t count =>
    simp only at done
    split at done
    · cases pure_eq_ok.mp done
      exact ⟨_, writeChild_box value _⟩
    · cases done
  | p index remove items | m permutation => cases keyed

theorem unboxOp_targets {segment : Seg} {inner : Op Unit}
    (isInner : unboxOp (.edit (segment :: rest) change) = some inner) :
    inner = .edit rest change ∧ (change.mayTargetRoot = true ∨ rest ≠ []) := by
  cases change with
  | p index remove items | m permutation =>
    cases isInner
    exact ⟨rfl, .inl rfl⟩
  | _ =>
    cases rest with
    | nil => cases isInner
    | cons next others =>
      cases isInner
      exact ⟨rfl, .inr (List.cons_ne_nil next others)⟩

variable {op : Op Unit}

theorem valid_of_applyOp
    {root : JsonValue} (applied : applyOp root op = .ok result) : op.Valid := by
  obtain ⟨accepted, isAccepted, _⟩ := bind_eq_ok.mp applied
  obtain ⟨sameTuple, valid⟩ := assertValidOp_ok.mp isAccepted
  rw [toJson_injective_op sameTuple]
  exact valid

theorem applyOp_box (boxed : Boxed op) (applied : applyOp (box value) op = .ok result) :
    ∃ next, result = box next ∧
      ∀ inner, unboxOp op = some inner → applyOp value inner = .ok next := by
  have valid := valid_of_applyOp applied
  rw [applyOp_of_valid valid] at applied
  cases op with
  | r other =>
    obtain ⟨next, rfl⟩ := boxed
    cases applied
    exact ⟨next, rfl, fun inner isInner => by cases isInner⟩
  | edit path change =>
    cases path with
    | nil => exact absurd boxed id
    | cons segment rest =>
      have isBoxKey : segment = .key boxKey := by
        cases rest with
        | nil => exact boxed.1
        | cons second others => exact boxed
      subst isBoxKey
      by_cases inner : change.mayTargetRoot = true ∨ rest ≠ []
      · obtain ⟨next, isBox, edited⟩ := applyEdit_box inner applied
        refine ⟨next, isBox, ?_⟩
        intro stripped isStripped
        obtain ⟨rfl, _⟩ := unboxOp_targets isStripped
        have strippedValid : Op.Valid (.edit rest change) :=
          ⟨fun other member => valid.1 other (List.mem_cons_of_mem _ member), inner, valid.2.2⟩
        rw [applyOp_of_valid strippedValid]
        exact edited
      · have keyed : change.mayTargetRoot = false := by
          cases targets : change.mayTargetRoot with
          | false => rfl
          | true => exact absurd (.inl targets) inner
        have atValue : rest = [] := by
          by_contra more
          exact inner (.inr more)
        subst atValue
        obtain ⟨next, isBox⟩ := applyEdit_box_self keyed boxed.2 applied
        refine ⟨next, isBox, ?_⟩
        intro stripped isStripped
        exact absurd (unboxOp_targets isStripped).2 inner

/-! ## One operation, unchecked -/

theorem trustedWithin_box {change : JsonValue → Except DeltaError JsonValue}
    (edited : trustedWithin change (.key boxKey :: rest) (box value) = .ok result) :
    isObj value = true ∧
      ∃ next, result = box next ∧ trustedWithin change rest value = .ok next := by
  rw [trustedWithin, child_box] at edited
  simp only at edited
  split at edited
  · rename_i container
    obtain ⟨next, deeper, built⟩ := bind_eq_ok.mp edited
    cases pure_eq_ok.mp built
    exact ⟨container, next, writeChild_box value next, deeper⟩
  · cases edited

theorem trustedEdit_box (keyed : change.mayTargetRoot = false) (stays : change ≠ .d)
    (edited : trustedEdit (.key boxKey) change (box value) = .ok result) :
    ∃ next, result = box next := by
  cases change with
  | s other =>
    cases edited
    exact ⟨other, writeChild_box value other⟩
  | d => exact absurd rfl stays
  | a text | t count =>
    rw [trustedEdit] at edited
    split at edited
    · cases edited
      exact ⟨_, writeChild_box value _⟩
    · cases edited
  | p index remove items | m permutation => cases keyed

theorem applyTrusted_box (boxed : Boxed op) (applied : applyTrusted (box value) op = .ok result) :
    ∃ next, result = box next ∧
      ∀ inner, unboxOp op = some inner → applyTrusted value inner = .ok next := by
  cases op with
  | r other =>
    obtain ⟨next, rfl⟩ := boxed
    cases applied
    exact ⟨next, rfl, fun inner isInner => by cases isInner⟩
  | edit path change =>
    cases path with
    | nil => exact absurd boxed id
    | cons segment rest =>
      have isBoxKey : segment = .key boxKey := by
        cases rest with
        | nil => exact boxed.1
        | cons second others => exact boxed
      subst isBoxKey
      by_cases keyed : change.mayTargetRoot = false
      · cases rest with
        | nil =>
          rw [@applyTrusted_keyed change keyed (box value) _ (.key boxKey) rfl rfl] at applied
          obtain ⟨next, isBox⟩ := trustedEdit_box keyed boxed.2 applied
          refine ⟨next, isBox, ?_⟩
          intro stripped isStripped
          rcases (unboxOp_targets isStripped).2 with targets | more
          · rw [keyed] at targets
            cases targets
          · exact absurd rfl more
        | cons second others =>
          have more : second :: others ≠ [] := List.cons_ne_nil second others
          have isLast :
              (Seg.key boxKey :: second :: others).getLast? =
                some ((second :: others).getLast more) := by
            rw [List.getLast?_cons_of_ne_nil more, List.getLast?_eq_some_getLast more]
          rw [applyTrusted_keyed keyed isLast rfl, List.dropLast_cons_of_ne_nil more] at applied
          obtain ⟨container, next, isBox, edited⟩ := trustedWithin_box applied
          refine ⟨next, isBox, ?_⟩
          intro stripped isStripped
          obtain ⟨rfl, _⟩ := unboxOp_targets isStripped
          rw [applyTrusted_keyed keyed (List.getLast?_eq_some_getLast more) container]
          exact edited
      · have unkeyed :
            ∃ target : JsonValue → Except DeltaError JsonValue,
              ∀ (root : JsonValue) (inside : Path), isObj root = true →
                applyTrusted root (.edit inside change) =
                  trustedWithin target inside root := by
          refine ⟨trustedTarget change, ?_⟩
          intro root inside container
          cases change with
          | p index remove items | m permutation => rw [applyTrusted, if_pos container]
          | _ => exact absurd rfl keyed
        obtain ⟨target, applies⟩ := unkeyed
        rw [applies (box value) _ rfl] at applied
        obtain ⟨container, next, isBox, edited⟩ := trustedWithin_box applied
        refine ⟨next, isBox, ?_⟩
        intro stripped isStripped
        obtain ⟨rfl, _⟩ := unboxOp_targets isStripped
        rw [applies value rest container]
        exact edited

/-! ## Batches -/

theorem unboxAll_cons {op : Op Unit} {rest inner : List (Op Unit)}
    (isInner : unboxAll (op :: rest) = some inner) :
    ∃ first others, unboxOp op = some first ∧ unboxAll rest = some others ∧
      inner = first :: others := by
  rw [unboxAll] at isInner
  split at isInner
  · rename_i first others isFirst isOthers
    cases isInner
    exact ⟨first, others, isFirst, isOthers, rfl⟩
  · cases isInner

theorem movesElements_unboxOp {inner : Op Unit} (isInner : unboxOp op = some inner) :
    movesElements inner = movesElements op := by
  cases op with
  | r value => cases isInner
  | edit path change =>
    cases path with
    | nil => cases isInner
    | cons segment rest =>
      obtain ⟨rfl, _⟩ := unboxOp_targets isInner
      cases change with
      | _ => rfl

variable {ops : List (Op Unit)}

theorem movesElements_unboxAll {inner : List (Op Unit)} (isInner : unboxAll ops = some inner) :
    inner.any movesElements = ops.any movesElements := by
  induction ops generalizing inner with
  | nil =>
    cases isInner
    rfl
  | cons op rest ih =>
    obtain ⟨first, others, isFirst, isOthers, rfl⟩ := unboxAll_cons isInner
    rw [List.any_cons, List.any_cons, movesElements_unboxOp isFirst, ih isOthers]

section

variable (boxed : ∀ op ∈ ops, Boxed op)
include boxed

theorem run_box {step : JsonValue → Op Unit → Except DeltaError JsonValue}
    {run : JsonValue → List (Op Unit) → Except DeltaError JsonValue}
    (nil : ∀ value, run value [] = .ok value)
    (cons : ∀ value op rest, run value (op :: rest) = step value op >>= (run · rest))
    (keeps : ∀ {op value result}, Boxed op → step (box value) op = .ok result →
      ∃ next, result = box next ∧ ∀ inner, unboxOp op = some inner → step value inner = .ok next)
    (ran : run (box value) ops = .ok result) :
    ∃ next, result = box next ∧ ∀ inner, unboxAll ops = some inner → run value inner = .ok next := by
  induction ops generalizing value with
  | nil =>
    rw [nil] at ran
    cases ran
    refine ⟨value, rfl, ?_⟩
    intro inner isInner
    cases isInner
    exact nil value
  | cons op rest ih =>
    rw [cons] at ran
    obtain ⟨middle, here, later⟩ := bind_eq_ok.mp ran
    obtain ⟨between, rfl, stripsHere⟩ := keeps (boxed op List.mem_cons_self) here
    obtain ⟨next, isBox, stripsLater⟩ :=
      ih (fun other member => boxed other (List.mem_cons_of_mem op member)) later
    refine ⟨next, isBox, ?_⟩
    intro inner isInner
    obtain ⟨first, others, isFirst, isOthers, rfl⟩ := unboxAll_cons isInner
    rw [cons]
    exact bind_eq_ok.mpr ⟨between, stripsHere first isFirst, stripsLater others isOthers⟩

/-- Operations that turn one box into another turn the one value into the
other once stripped. -/
theorem unbox_yields (materialized : materializeOperations (box value) ops = .ok result) :
    ∃ next, result = box next ∧
      ∀ shown, DeepEqual next shown → Yields value (unbox ops shown) shown := by
  have applied :
      ∃ next, result = box next ∧
        ∀ inner, unboxAll ops = some inner → materializeOperations value inner = .ok next := by
    rw [materializeOperations] at materialized
    split at materialized
    · rename_i moves
      obtain ⟨next, isBox, strips⟩ := run_box boxed (fun _ => rfl) (fun _ _ _ => rfl) applyOp_box
        (applyImmutable_ok.mp materialized)
      refine ⟨next, isBox, ?_⟩
      intro inner isInner
      rw [materializeOperations, movesElements_unboxAll isInner, if_pos moves]
      exact applyImmutable_ok.mpr (strips inner isInner)
    · rename_i stays
      obtain ⟨next, isBox, strips⟩ := run_box boxed (fun _ => rfl) (fun _ _ _ => rfl)
        applyTrusted_box materialized
      refine ⟨next, isBox, ?_⟩
      intro inner isInner
      rw [materializeOperations, movesElements_unboxAll isInner, if_neg stays]
      exact strips inner isInner
  obtain ⟨next, isBox, strips⟩ := applied
  refine ⟨next, isBox, ?_⟩
  intro shown equal
  rw [unbox]
  cases isInner : unboxAll ops with
  | none => exact ⟨shown, rfl, DeepEqual.same shown⟩
  | some inner => exact ⟨next, strips inner isInner, equal⟩

end

/-! ## Drafts of a box -/

/-- The edits of the box's own node write the value and delete nothing; every
other node is within the value. -/
def BoxedNode (node : List Text × NodeEdits) : Prop :=
  match node.1 with
  | [] => node.2.deletes = [] ∧ node.2.readded = [] ∧ ∀ write ∈ node.2.writes, write.1 = boxKey
  | key :: _ => key = boxKey

def BoxedDraft (draft : Draft) : Prop :=
  ∀ node ∈ draft.nodes, BoxedNode node

/-- An edit made through the draft of the value, or of the value itself. -/
def BoxedEdit : DraftEdit → Prop
  | .set [] key _ => key = boxKey
  | .set (first :: _) _ _ => first = boxKey
  | .delete [] _ => False
  | .delete (first :: _) _ => first = boxKey
  | .other => True

theorem boxedDraft_start : BoxedDraft Draft.start :=
  fun _ member => absurd member List.not_mem_nil

variable {draft : Draft}

theorem boxedNode_editsAt (boxed : BoxedDraft draft) (path : List Text)
    (isBoxed : ∀ first rest, path = first :: rest → first = boxKey) :
    BoxedNode (path, editsAt draft.nodes path) := by
  rw [editsAt]
  cases found : Entries.get draft.nodes path with
  | some edits => exact boxed (path, edits) (Entries.mem_of_get found)
  | none =>
    cases path with
    | nil => exact ⟨rfl, rfl, fun write member => absurd member List.not_mem_nil⟩
    | cons first rest => exact isBoxed first rest rfl

theorem boxedNode_set {edits next : NodeEdits} {fields : List (Text × JsonValue)} {key : Text}
    {path : List Text} (boxed : BoxedNode (path, edits)) (atBox : path = [] → key = boxKey)
    (noted : edits.setKey fields key value = some next) : BoxedNode (path, next) := by
  cases path with
  | cons first rest => exact boxed
  | nil =>
    obtain ⟨noDeletes, noReadded, writes⟩ := boxed
    simp only at noDeletes noReadded
    rw [NodeEdits.setKey] at noted
    split at noted
    · cases noted
    · cases noted
      refine ⟨?_, ?_, ?_⟩
      · simp [noDeletes]
      · simp [noDeletes, noReadded]
      · intro write member
        rcases Entries.mem_set member with rfl | old
        · exact atBox rfl
        · exact writes write old

theorem boxedDraft_note (boxed : BoxedDraft draft) {path : List Text} {edits : NodeEdits}
    (boxedEdits : BoxedNode (path, edits)) :
    BoxedDraft { draft with nodes := Entries.set draft.nodes path edits } := by
  intro node member
  rcases Entries.mem_set member with rfl | old
  · exact boxedEdits
  · exact boxed node old

variable {base : JsonValue}

theorem boxedDraft_edit {change : DraftEdit} (boxed : BoxedDraft draft)
    (boxedEdit : BoxedEdit change) : BoxedDraft (draft.edit base change) := by
  cases change with
  | set path key value =>
    have within_ : ∀ first rest, path = first :: rest → first = boxKey := by
      rintro first rest rfl
      exact boxedEdit
    rw [Draft.edit]
    split
    · exact boxed
    · split
      · exact boxed
      · rename_i edits noted
        refine boxedDraft_note boxed (boxedNode_set (boxedNode_editsAt boxed path within_) ?_ noted)
        rintro rfl
        exact boxedEdit
  | delete path key =>
    cases path with
    | nil => exact absurd boxedEdit id
    | cons first rest =>
      rw [Draft.edit]
      split
      · exact boxed
      · split
        · exact boxed
        · exact boxedDraft_note boxed boxedEdit
  | other => exact boxed

/-! ## Emission for a box -/

theorem edit_of_mem_emitDeletes {fields : List (Text × JsonValue)} {keys : List Text}
    (member : op ∈ emitDeletes fields path keys) :
    ∃ key ∈ keys, op = .edit (path ++ [.key key]) .d := by
  obtain ⟨key, inKeys, isOp⟩ := List.mem_map.mp member
  exact ⟨key, (List.mem_filter.mp inKeys).1, isOp.symm⟩

theorem edit_of_mem_emitChangedValue {before : Option JsonValue} {after : JsonValue}
    (member : op ∈ emitChangedValue path before after) :
    ∃ change, op = .edit path change ∧ change ≠ .d := by
  unfold emitChangedValue at member
  split at member
  · cases member
  · split at member
    · split at member
      · exact ⟨_, List.mem_singleton.mp member, by simp⟩
      · dsimp only at member
        split at member
        · rcases List.mem_cons.mp member with isOp | more
          · exact ⟨_, isOp, by simp⟩
          · split at more
            · exact ⟨_, List.mem_singleton.mp more, by simp⟩
            · cases more
        · exact ⟨_, List.mem_singleton.mp member, by simp⟩
    · exact ⟨_, List.mem_singleton.mp member, by simp⟩

theorem boxed_below {rest : List Text} {key : Text} :
    Boxed (.edit (keyPath (boxKey :: rest) ++ [.key key]) change) := by
  cases rest with
  | nil | cons first others => exact rfl

theorem boxed_nodeOperations {node : List Text × NodeEdits} (boxed : BoxedNode node)
    (member : op ∈ nodeOperations base node) : Boxed op := by
  obtain ⟨path, edits⟩ := node
  rw [nodeOperations, emitObjectOperations] at member
  cases path with
  | nil =>
    obtain ⟨noDeletes, noReadded, writes⟩ := boxed
    simp only at noDeletes noReadded writes
    simp only [noDeletes, noReadded, emitDeletes, List.filter_nil,
      List.map_nil, List.nil_append, List.append_nil, List.mem_flatMap]
      at member
    obtain ⟨write, inWrites, isOp⟩ := member
    obtain ⟨change, rfl, stays⟩ := edit_of_mem_emitChangedValue isOp
    refine ⟨?_, stays⟩
    rw [writes write inWrites]
  | cons first rest =>
    have isBoxKey : first = boxKey := boxed
    subst isBoxKey
    rcases List.mem_append.mp member with firstTwo | deletes
    · rcases List.mem_append.mp firstTwo with readded | written
      · obtain ⟨key, _, rfl⟩ := edit_of_mem_emitDeletes readded
        exact boxed_below
      · obtain ⟨write, _, isOp⟩ := List.mem_flatMap.mp written
        obtain ⟨change, rfl, _⟩ := edit_of_mem_emitChangedValue isOp
        exact boxed_below
    · obtain ⟨key, _, rfl⟩ := edit_of_mem_emitDeletes deletes
      exact boxed_below

theorem cloneStored_box (boxed : BoxedDraft draft) (value : JsonValue) :
    ∃ next, cloneStored draft.nodes (box value) = box next := by
  obtain ⟨noDeletes, noReadded, writes⟩ :=
    boxedNode_editsAt boxed [] (fun first rest same => by cases same)
  simp only at noDeletes noReadded writes
  rw [box, cloneStored]
  split
  · exact ⟨value, rfl⟩
  · refine ⟨((Entries.get (editsAt draft.nodes []).writes boxKey).getD
      (cloneStored (below boxKey draft.nodes) value)), ?_⟩
    have noneElse :
        (editsAt draft.nodes []).writes.filter (fun write =>
          !Entries.has
            [(boxKey,
              (Entries.get (editsAt draft.nodes []).writes boxKey).getD
                (cloneStored (below boxKey draft.nodes) value))]
            write.1) = [] := by
      refine List.filter_eq_nil_iff.mpr ?_
      intro write member
      simp [writes write member, Entries.has, Entries.get_cons]
    simp only [cloneFields, noDeletes, noReadded, List.contains_nil,
      Bool.or_self, Bool.false_eq_true, if_false]
    rw [noneElse]
    rfl

variable {emission : Emission}

theorem emitSimple_boxed (boxed : BoxedDraft draft)
    (emits : emitSimpleObjectOperations (box value) draft = some emission) :
    ∀ op ∈ emission.operations, Boxed op := by
  rw [emitSimpleObjectOperations] at emits
  dsimp only at emits
  split at emits
  · cases emits
  · split at emits
    · cases emits
      intro op member
      rw [List.mem_singleton.mp member]
      exact cloneStored_box boxed value
    · cases emits
      intro op member
      obtain ⟨node, inNodes, isOp⟩ := List.mem_flatMap.mp member
      rw [resolved, List.mem_insertionSort, List.mem_filter] at inNodes
      exact boxed_nodeOperations (boxed node inNodes.1) isOp

/-! ## The tracker of a box -/

/-- A change prepared of a box: no operations only for the same box. -/
structure BoxedPrepared (base : Ref) (prepared : Prepared) : Prop where
  ops : ∀ op ∈ prepared.ops, Boxed op
  value : ∃ value, prepared.value.value = box value
  same : prepared.ops = [] → prepared.value = base

structure BoxedContext (c : OverlayContext) : Prop where
  base : ∃ value, c.baseValue.value = box value
  draft : BoxedDraft c.draft
  prepared : ∀ prepared, c.prepared = some prepared → BoxedPrepared c.baseValue prepared

structure BoxedTracker (t : TrackerState) : Prop where
  value : ∃ value, t.value.value = box value
  contexts : ∀ c ∈ t.contexts, BoxedContext c

def BoxedCall : TrackerCall → Prop
  | .edit _ change => BoxedEdit change
  | .prepare _ emitted => ∀ ops, emitted = .ok ops → ∀ op ∈ ops, Boxed op
  | .prepareReplace value => ∃ inner, value = box inner
  | _ => True

theorem boxedTracker_track (initial : JsonValue) : BoxedTracker (track (box initial)) where
  value := ⟨initial, rfl⟩
  contexts := fun _ member => absurd member List.not_mem_nil

theorem boxedContext_of_same {c changed : OverlayContext} (boxed : BoxedContext c)
    (sameValue : changed.baseValue = c.baseValue) (sameDraft : changed.draft = c.draft)
    (samePrepared : changed.prepared = c.prepared) : BoxedContext changed where
  base := by
    rw [sameValue]
    exact boxed.base
  draft := by
    rw [sameDraft]
    exact boxed.draft
  prepared := by
    rw [samePrepared, sameValue]
    exact boxed.prepared

variable {t : TrackerState}

theorem boxedContext_created (boxed : BoxedTracker t) (status : Status) :
    BoxedContext (t.createContext status) where
  base := boxed.value
  draft := boxedDraft_start
  prepared := fun _ none_ => by cases none_

variable {c : OverlayContext}

theorem boxedContext_abort (boxed : BoxedContext c) : BoxedContext c.abort := by
  obtain ⟨_, sameValue, sameDraft, samePrepared, _⟩ := abort_same c
  exact boxedContext_of_same boxed sameValue sameDraft samePrepared

theorem boxedContext_invalidate (boxed : BoxedContext c) : BoxedContext c.invalidate := by
  obtain ⟨_, sameValue, sameDraft, samePrepared, _⟩ := invalidate_same c
  exact boxedContext_of_same boxed sameValue sameDraft samePrepared

variable {id : ℕ}

theorem boxed_materialize (boxed : BoxedContext c) {prepared : Prepared}
    (boxedOps : ∀ op ∈ emission.operations, Boxed op)
    (made : c.materializePrepared id emission = .ok prepared) :
    BoxedPrepared c.baseValue prepared := by
  obtain ⟨_, sameOps, isValue⟩ := materializePrepared_eq_ok made
  obtain ⟨value, isBox⟩ := boxed.base
  rw [OverlayContext.materialize, isBox] at isValue
  refine ⟨?_, ?_, ?_⟩
  · rw [sameOps]
    exact boxedOps
  · split at isValue
    · rw [← Except.ok.inj isValue]
      exact ⟨value, isBox⟩
    · split at isValue
      · rw [← Except.ok.inj isValue]
        exact cloneStored_box boxed.draft value
      · obtain ⟨result, replayed, same⟩ := map_eq_ok.mp isValue
        rw [← same]
        obtain ⟨next, isNext, _⟩ := unbox_yields boxedOps replayed
        exact ⟨next, isNext⟩
  · intro nothing
    rw [sameOps] at nothing
    rw [nothing, if_pos List.isEmpty_nil] at isValue
    exact (Except.ok.inj isValue).symm

theorem boxed_emit (boxed : BoxedContext c) {emitted : Except DeltaError (List (Op Unit))}
    (boxedEmitted : ∀ ops, emitted = .ok ops → ∀ op ∈ ops, Boxed op)
    (emits : c.emit emitted = .ok emission) : ∀ op ∈ emission.operations, Boxed op := by
  obtain ⟨value, isBox⟩ := boxed.base
  rw [OverlayContext.emit, isBox] at emits
  split at emits
  · cases emits
    exact fun op member => absurd member List.not_mem_nil
  · split at emits
    · rename_i simple isSimple
      cases emits
      exact emitSimple_boxed boxed.draft isSimple
    · obtain ⟨ops, isOps, same⟩ := map_eq_ok.mp emits
      rw [← same]
      exact boxedEmitted ops isOps

theorem boxed_replaceEmission (isBox : ∃ inner, value = box inner) :
    ∀ op ∈ (replaceEmission base value).operations, Boxed op := by
  intro op member
  rw [replaceEmission] at member
  split at member
  · cases member
  · rw [List.mem_singleton.mp member]
    exact isBox

theorem boxedTracker_put {t : TrackerState} (boxed : BoxedTracker t) (id : ℕ)
    {changed : OverlayContext} (boxedChanged : BoxedContext changed) :
    BoxedTracker (t.put id changed) where
  value := boxed.value
  contexts := by
    intro c member
    rcases List.mem_or_eq_of_mem_set member with old | rfl
    · exact boxed.contexts c old
    · exact boxedChanged

section

variable (boxed : BoxedTracker t)
include boxed

theorem boxedTracker_add {next : TrackerState} {added : OverlayContext}
    (sameValue : next.value = t.value) (isAdded : next.contexts = t.contexts ++ [added])
    (boxedAdded : BoxedContext added) : BoxedTracker next where
  value := by
    rw [sameValue]
    exact boxed.value
  contexts := by
    intro c member
    rw [isAdded] at member
    rcases List.mem_append.mp member with old | new
    · exact boxed.contexts c old
    · rw [List.mem_singleton.mp new]
      exact boxedAdded

theorem boxedTracker_edit (found : t.contexts[id]? = some c) {change : DraftEdit}
    (boxedEdit : BoxedEdit change) : BoxedTracker (t.edit id c change).1 := by
  have boxedHere := boxed.contexts c (List.mem_of_getElem? found)
  rw [TrackerState.edit]
  split
  · exact boxed
  · refine boxedTracker_put boxed id ?_
    exact
      { base := boxedHere.base
        draft := boxedDraft_edit boxedHere.draft boxedEdit
        prepared := boxedHere.prepared }

theorem boxedTracker_prepare (found : t.contexts[id]? = some c)
    {emitted : Except DeltaError (List (Op Unit))}
    (boxedEmitted : ∀ ops, emitted = .ok ops → ∀ op ∈ ops, Boxed op) :
    BoxedTracker (t.prepare id c emitted).1 := by
  have boxedHere := boxed.contexts c (List.mem_of_getElem? found)
  rw [TrackerState.prepare]
  split
  · exact boxed
  · split
    · exact boxed
    · split
      · rename_i prepared made
        obtain ⟨emission, emits, materialized⟩ := bind_eq_ok.mp made
        refine @boxedTracker_put { t with made := t.made + 1 } ⟨boxed.value, boxed.contexts⟩ id _ ?_
        exact
          { base := boxedHere.base
            draft := boxedHere.draft
            prepared := by
              intro other same
              cases same
              exact boxed_materialize boxedHere
                (boxed_emit boxedHere boxedEmitted emits) materialized }
      · exact boxedTracker_put boxed id (boxedContext_of_same boxedHere rfl rfl rfl)

theorem boxedTracker_prepareReplace (isBox : ∃ inner, value = box inner) :
    BoxedTracker (t.prepareReplace value).1 := by
  have created := boxedContext_created boxed .prepared
  rw [TrackerState.prepareReplace]
  dsimp only
  split
  · rename_i prepared made
    refine boxedTracker_add boxed rfl rfl ?_
    exact
      { base := created.base
        draft := created.draft
        prepared := by
          intro other same
          cases same
          exact boxed_materialize
            (@boxedContext_of_same _
              { t.createContext .prepared with
                replacement := true
                settled := true }
              created rfl rfl rfl)
            (boxed_replaceEmission isBox) made }
  · exact boxedTracker_add boxed rfl rfl (boxedContext_of_same created rfl rfl rfl)

theorem boxedTracker_abortChange (found : t.contexts[id]? = some c) :
    BoxedTracker (t.abortChange id c) := by
  have boxedHere := boxed.contexts c (List.mem_of_getElem? found)
  rw [TrackerState.abortChange]
  split
  · exact boxed
  · split
    · split
      · exact boxedTracker_put boxed id (boxedContext_of_same boxedHere rfl rfl rfl)
      · exact boxed
    · exact boxedTracker_put boxed id
        (boxedContext_of_same (boxedContext_abort boxedHere) rfl rfl rfl)

theorem boxedTracker_adopt (found : t.contexts[id]? = some c) {prepared : Prepared}
    (isPrepared : c.prepared = some prepared) :
    BoxedTracker (t.adopt id c prepared).1 := by
  have boxedHere := boxed.contexts c (List.mem_of_getElem? found)
  rw [TrackerState.adopt]
  split
  · exact boxed
  · exact boxed
  · exact boxed
  · exact boxed
  · split
    · exact boxedTracker_put boxed id (boxedContext_of_same boxedHere rfl rfl rfl)
    · split
      · exact boxedTracker_put boxed id (boxedContext_of_same boxedHere rfl rfl rfl)
      · refine ⟨(boxedHere.prepared prepared isPrepared).value, ?_⟩
        intro other member
        rcases List.mem_or_eq_of_mem_set member with old | rfl
        · obtain ⟨before, isBefore, rfl⟩ := List.mem_map.mp old
          exact boxedContext_invalidate (boxed.contexts before isBefore)
        · exact boxedContext_of_same boxedHere rfl rfl rfl

/-- A cell's tracker holds a box, and every change prepared of it leads to a
box by operations within the box. -/
theorem boxedTracker_call {c : TrackerCall} (boxedCall : BoxedCall c) :
    BoxedTracker (t.call c).1 := by
  cases c with
  | beginChange => exact boxedTracker_add boxed rfl rfl (boxedContext_created boxed .open_)
  | edit id change =>
    rw [TrackerState.call]
    split
    · exact boxed
    · rename_i context found
      exact boxedTracker_edit boxed found boxedCall
  | prepare id emitted =>
    rw [TrackerState.call]
    split
    · exact boxed
    · rename_i context found
      exact boxedTracker_prepare boxed found boxedCall
  | prepareReplace value => exact boxedTracker_prepareReplace boxed boxedCall
  | abortChange id =>
    rw [TrackerState.call]
    split
    · exact boxed
    · rename_i context found
      exact boxedTracker_abortChange boxed found
  | abortPrepared id =>
    rw [TrackerState.call]
    split
    · exact boxed
    · rename_i context found
      dsimp only
      split
      · exact boxedTracker_put boxed id
          (boxedContext_abort (boxed.contexts context (List.mem_of_getElem? found)))
      · exact boxed
  | adopt given =>
    cases given with
    | none => exact boxed
    | some id =>
      rw [TrackerState.call]
      split
      · exact boxed
      · rename_i context found
        split
        · exact boxed
        · rename_i prepared isPrepared
          exact boxedTracker_adopt boxed found isPrepared

end

end PiEmbodied.Chord
