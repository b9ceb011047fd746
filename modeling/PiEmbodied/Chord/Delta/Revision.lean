import PiEmbodied.Chord.Delta.Diff

/-!
# Revisions

Two immutable revisions may share containers: a container is the value its
identity stands for.  What is equal by identity, or found equal part by part, is
deep-equal as plain JSON.
-/

namespace PiEmbodied.Chord

/-! ## Deep equality -/

inductive DeepEqual : JsonValue → JsonValue → Prop
  | same (value : JsonValue) : DeepEqual value value
  | arr {items other : List JsonValue}
      (length : items.length = other.length)
      (pointwise :
        ∀ (at_ : ℕ) (left right : JsonValue), items[at_]? = some left →
          other[at_]? = some right → DeepEqual left right) :
      DeepEqual (.arr () items) (.arr () other)
  | obj {fields other : List (Text × JsonValue)}
      (keys : ∀ key, Entries.has fields key = Entries.has other key)
      (values :
        ∀ key (left right : JsonValue), Entries.get fields key = some left →
          Entries.get other key = some right → DeepEqual left right) :
      DeepEqual (.obj () fields) (.obj () other)

namespace Json

variable {ι : Type}

/-! ## Parts -/

inductive Part : Json ι → Json ι → Prop
  | self (value : Json ι) : Part value value
  | item {part item : Json ι} {label : ι} {items : List (Json ι)}
      (isItem : item ∈ items) (deeper : Part part item) :
      Part part (.arr label items)
  | field {part : Json ι} {field : Text × Json ι} {label : ι}
      {fields : List (Text × Json ι)}
      (isField : field ∈ fields) (deeper : Part part field.2) :
      Part part (.obj label fields)

def label : Json ι → Option ι
  | .arr label _ | .obj label _ => some label
  | _ => none

/-- A value as a heap knows it: an identity stands for one container, and an
object has a key once. -/
structure Coherent (heap : ι → Json ι) (value : Json ι) : Prop where
  identity : ∀ part, Part part value → ∀ label, part.label = some label → heap label = part
  keys : ∀ label fields, Part (.obj label fields) value → (Entries.keys fields).Nodup

variable {heap : ι → Json ι} {items : List (Json ι)}

theorem coherent_item {label : ι} {item : Json ι} (coherent : Coherent heap (.arr label items))
    (isItem : item ∈ items) :
    Coherent heap item where
  identity := fun part isPart => coherent.identity part (Part.item isItem isPart)
  keys := fun label fields isPart => coherent.keys label fields (Part.item isItem isPart)

variable {fields : List (Text × Json ι)}

theorem coherent_field {label : ι} {field : Text × Json ι}
    (coherent : Coherent heap (.obj label fields)) (isField : field ∈ fields) :
    Coherent heap field.2 where
  identity := fun part isPart => coherent.identity part (Part.field isField isPart)
  keys := fun label fields isPart => coherent.keys label fields (Part.field isField isPart)

variable {erased : JsonValue}

theorem erase_items_get {at_ : ℕ} (found : (items.map Json.erase)[at_]? = some erased) :
    ∃ item, items[at_]? = some item ∧ item.erase = erased := by
  rw [List.getElem?_map] at found
  exact Option.map_eq_some_iff.mp found

theorem erase_fields_get {fields : List (Text × Json ι)} {key : Text} {erased : JsonValue}
    (found : Entries.get (fields.map fun field => (field.1, field.2.erase)) key = some erased) :
    ∃ value, Entries.get fields key = some value ∧ value.erase = erased := by
  rw [Entries.get_mapValues] at found
  exact Option.map_eq_some_iff.mp found

theorem erase_fields_has (fields : List (Text × Json ι)) (key : Text) :
    Entries.has (fields.map fun field => (field.1, field.2.erase)) key =
      Entries.has fields key := by
  rw [Entries.has, Entries.get_mapValues, Option.isSome_map, Entries.has]

variable [DecidableEq ι]

theorem eq_of_same {left right : Json ι} (known : Coherent heap left)
    (knownRight : Coherent heap right) (same : left.same right = true) : left = right := by
  have idents : left.ident = right.ident := of_decide_eq_true same
  have containers :
      ∀ label, left.label = some label → right.label = some label →
        left = right := by
    intro label isLeft isRight
    have first := known.identity left (Part.self left) label isLeft
    have second := knownRight.identity right (Part.self right) label isRight
    exact first.symm.trans second
  cases left with
  | arr label items | obj label fields =>
    cases right with
    | arr other others | obj other fields =>
      cases idents
      exact containers _ rfl rfl
    | _ => cases idents
  | _ =>
    cases right with
    | arr other others | obj other fields => cases idents
    | _ =>
      cases idents
      try rfl

end Json

namespace Delta

variable {ι : Type} [DecidableEq ι] {heap : ι → Json ι}

/-! ## Equality part by part -/

theorem equalItems_spec {items other : List (Json ι)} (equal : equalItems items other = true) :
    ∀ (at_ : ℕ) (left right : Json ι), items[at_]? = some left →
      other[at_]? = some right → equalJson left right = true := by
  induction items generalizing other with
  | nil =>
    intro at_ left right isLeft
    cases isLeft
  | cons item rest ih =>
    cases other with
    | nil =>
      intro at_ left right _ isRight
      cases isRight
    | cons second others =>
      rw [equalItems, Bool.and_eq_true] at equal
      intro at_ left right isLeft isRight
      cases at_ with
      | zero =>
        cases isLeft
        cases isRight
        exact equal.1
      | succ at_ => exact ih equal.2 at_ left right isLeft isRight

variable {fields other : List (Text × Json ι)}

theorem equalFields_spec (equal : equalFields fields other = true) :
    ∀ field ∈ fields, ∃ found,
      Entries.get other field.1 = some found ∧ equalJson field.2 found = true := by
  induction fields with
  | nil =>
    intro field member
    cases member
  | cons first rest ih =>
    rw [equalFields, Bool.and_eq_true] at equal
    intro field member
    rcases List.mem_cons.mp member with rfl | later
    · have here := equal.1
      cases isFound : Entries.get other field.1 with
      | none =>
        rw [isFound] at here
        cases here
      | some found =>
        rw [isFound] at here
        exact ⟨found, rfl, here⟩
    · exact ih equal.2 field later

theorem has_of_equalFields (unique : (Entries.keys fields).Nodup)
    (length : fields.length = other.length) (equal : equalFields fields other = true) (key : Text) :
    Entries.has fields key = Entries.has other key := by
  have subset : Entries.keys fields ⊆ Entries.keys other := by
    intro name member
    obtain ⟨field, isField, rfl⟩ := List.mem_map.mp member
    obtain ⟨found, isFound, _⟩ := equalFields_spec equal field isField
    rw [← Entries.has_iff_mem_keys, Entries.has, isFound]
    rfl
  have permuted : (Entries.keys fields).Perm (Entries.keys other) := by
    apply (List.subperm_of_subset unique subset).perm_of_length_le
    simp only [Entries.keys, List.length_map, length, Nat.le_refl]
  rw [Bool.eq_iff_iff, Entries.has_iff_mem_keys, Entries.has_iff_mem_keys]
  exact permuted.mem_iff

theorem deepEqual_of_equalJson (left : Json ι) :
    ∀ right, left.Coherent heap → right.Coherent heap →
      equalJson left right = true → DeepEqual left.erase right.erase := by
  have identical :
      ∀ {left right : Json ι}, left.Coherent heap → right.Coherent heap →
        left.same right = true → DeepEqual left.erase right.erase := by
    intro left right known knownRight same
    rw [Json.eq_of_same known knownRight same]
    exact DeepEqual.same _
  induction left using Json.induct with
  | null | bool value | num value | str text =>
    intro right known knownRight equal
    simp only [equalJson, Bool.or_false] at equal
    exact identical known knownRight equal
  | arr label items ih =>
    intro right known knownRight equal
    cases right with
    | arr otherLabel other =>
      simp only [equalJson, Bool.or_eq_true, Bool.and_eq_true,
        decide_eq_true_eq] at equal
      rcases equal with same | ⟨length, parts⟩
      · exact identical known knownRight same
      · rw [Json.erase_arr, Json.erase_arr]
        apply DeepEqual.arr
        · rw [List.length_map, List.length_map, length]
        · intro at_ first second isFirst isSecond
          obtain ⟨item, isItem, rfl⟩ := Json.erase_items_get isFirst
          obtain ⟨otherItem, isOther, rfl⟩ := Json.erase_items_get isSecond
          have member := List.mem_of_getElem? isItem
          exact
            ih item member otherItem (Json.coherent_item known member)
              (Json.coherent_item knownRight (List.mem_of_getElem? isOther))
              (equalItems_spec parts at_ item otherItem isItem isOther)
    | _ =>
      simp only [equalJson, Bool.or_false] at equal
      exact identical known knownRight equal
  | obj label fields ih =>
    intro right known knownRight equal
    cases right with
    | obj otherLabel other =>
      simp only [equalJson, Bool.or_eq_true, Bool.and_eq_true,
        decide_eq_true_eq] at equal
      rcases equal with same | ⟨length, parts⟩
      · exact identical known knownRight same
      · have unique := known.keys label fields (Json.Part.self _)
        rw [Json.erase_obj, Json.erase_obj]
        apply DeepEqual.obj
        · intro key
          rw [Json.erase_fields_has, Json.erase_fields_has]
          exact has_of_equalFields unique length parts key
        · intro key first second isFirst isSecond
          obtain ⟨value, isValue, rfl⟩ := Json.erase_fields_get isFirst
          obtain ⟨otherValue, isOther, rfl⟩ := Json.erase_fields_get isSecond
          have member := Entries.mem_of_get isValue
          obtain ⟨found, isFound, equalFound⟩ := equalFields_spec parts (key, value) member
          have sameFound : found = otherValue := Option.some.inj (isFound.symm.trans isOther)
          rw [sameFound] at equalFound
          exact
            ih (key, value) member otherValue (Json.coherent_field known member)
              (Json.coherent_field knownRight (Entries.mem_of_get isOther))
              equalFound
    | _ =>
      simp only [equalJson, Bool.or_false] at equal
      exact identical known knownRight equal

theorem deepEqual_of_sameValue {left right : Json ι} (known : left.Coherent heap)
    (knownRight : right.Coherent heap) (same : sameValue left right = true) :
    DeepEqual left.erase right.erase := by
  rcases Bool.or_eq_true_iff.mp same with identical | equal
  · rw [Json.eq_of_same known knownRight identical]
    exact DeepEqual.same _
  · exact deepEqual_of_equalJson left right known knownRight equal

end Delta

end PiEmbodied.Chord
