import PiEmbodied.Entries

/-!
# JSON values

Strings are UTF-16 code units, numbers the rationals that finite numbers denote
(so `-0` and `0` are one number, as `===` has it).  A container carries a label
that stands for its identity: `===` compares containers by label and everything
else by value.  A value with unit labels is plain JSON.
-/

namespace PiEmbodied.Chord

/-! ## Strings -/

abbrev Text := List UInt16

def units (literal : String) : Text :=
  literal.toList.flatMap fun c =>
    if c.toNat < 0x10000 then [c.toNat.toUInt16]
    else
      let rest := c.toNat - 0x10000
      [(0xD800 + rest / 0x400).toUInt16, (0xDC00 + rest % 0x400).toUInt16]

inductive Json (ι : Type) where
  | null
  | bool (value : Bool)
  | num (value : ℚ)
  | str (text : Text)
  | arr (label : ι) (items : List (Json ι))
  | obj (label : ι) (fields : List (Text × Json ι))

abbrev JsonValue := Json Unit

namespace Json

variable {ι κ : Type}

theorem induct {motive : Json ι → Prop} (null : motive .null) (bool : ∀ value, motive (.bool value))
    (num : ∀ value, motive (.num value)) (str : ∀ text, motive (.str text))
    (arr : ∀ label items, (∀ item ∈ items, motive item) → motive (.arr label items))
    (obj : ∀ label fields, (∀ field ∈ fields, motive field.2) → motive (.obj label fields))
    (value : Json ι) : motive value :=
  @Json.rec ι motive (fun items => ∀ item ∈ items, motive item)
    (fun fields => ∀ field ∈ fields, motive field.2)
    (fun field => motive field.2)
    null bool num str arr obj
    (fun _ member => absurd member List.not_mem_nil)
    (fun _ _ head tail item member => by
      rcases List.mem_cons.mp member with rfl | later
      · exact head
      · exact tail item later)
    (fun _ member => absurd member List.not_mem_nil)
    (fun _ _ head tail field member => by
      rcases List.mem_cons.mp member with rfl | later
      · exact head
      · exact tail field later)
    (fun _ _ value => value)
    value

mutual

def erase : Json ι → JsonValue
  | .null => .null
  | .bool value => .bool value
  | .num value => .num value
  | .str text => .str text
  | .arr _ items => .arr () (eraseItems items)
  | .obj _ fields => .obj () (eraseFields fields)

def eraseItems : List (Json ι) → List JsonValue
  | [] => []
  | item :: rest => item.erase :: eraseItems rest

def eraseFields : List (Text × Json ι) → List (Text × JsonValue)
  | [] => []
  | (key, value) :: rest => (key, value.erase) :: eraseFields rest

end

variable (label : ι) (items : List (Json ι)) (fields : List (Text × Json ι))

theorem eraseItems_eq_map : eraseItems items = items.map erase := by
  induction items with
  | nil => rfl
  | cons item rest ih => rw [eraseItems, ih, List.map_cons]

theorem eraseFields_eq_map :
    eraseFields fields = fields.map fun field => (field.1, field.2.erase) := by
  induction fields with
  | nil => rfl
  | cons field rest ih => rw [eraseFields, ih, List.map_cons]

@[simp]
theorem erase_arr :
    (arr label items).erase = .arr () (items.map erase) := by
  rw [erase, eraseItems_eq_map]

@[simp]
theorem erase_obj :
    (obj label fields).erase = .obj () (fields.map fun field => (field.1, field.2.erase)) := by
  rw [erase, eraseFields_eq_map]

end Json

end PiEmbodied.Chord
