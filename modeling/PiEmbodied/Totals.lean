import PiEmbodied.Entries

/-!
# Totals

What the values of a map weigh together, when entries are set, deleted or
restricted.
-/

namespace Entries

universe u v

variable {Key : Type u} {Value : Type v}

/-- What the values weigh together. -/
def total (weight : Value → ℕ) (entries : List (Key × Value)) : ℕ :=
  (entries.map fun entry => weight entry.2).sum

variable (weight : Value → ℕ)

@[simp]
theorem total_nil : total weight ([] : List (Key × Value)) = 0 :=
  rfl

@[simp]
theorem total_cons (entry : Key × Value) (rest : List (Key × Value)) :
    total weight (entry :: rest) = weight entry.2 + total weight rest := by
  simp [total]

theorem total_append (first second : List (Key × Value)) :
    total weight (first ++ second) = total weight first + total weight second := by
  simp [total]

theorem total_filter_add (test : Key × Value → Bool) (entries : List (Key × Value)) :
    total weight (entries.filter test) + total weight (entries.filter fun entry => !test entry) =
      total weight entries := by
  induction entries with
  | nil => rfl
  | cons entry rest ih =>
    cases here : test entry <;>
      simp only [List.filter_cons, here, Bool.not_true, Bool.not_false,
        Bool.false_eq_true, if_true, if_false, total_cons] <;>
      omega

variable [DecidableEq Key]

/-- What the value of a key weighs. -/
def weightOf (weight : Value → ℕ) (entries : List (Key × Value)) (key : Key) :
    ℕ :=
  ((get entries key).map weight).getD 0

variable {entries : List (Key × Value)}

theorem total_delete_of_absent {key : Key} (absent : key ∉ keys entries) :
    total weight (delete entries key) = total weight entries := by
  have same : delete entries key = entries := by
    rw [delete, List.filter_eq_self]
    intro entry member
    have isKey : entry.1 ∈ keys entries := List.mem_map_of_mem member
    have other : entry.1 ≠ key := fun same => absent (same ▸ isKey)
    simpa using other
  rw [same]

theorem total_delete (unique : (keys entries).Nodup) (key : Key) :
    total weight (delete entries key) + weightOf weight entries key =
      total weight entries := by
  induction entries with
  | nil => rfl
  | cons entry rest ih =>
    obtain ⟨isNew, uniqueRest⟩ := List.nodup_cons.1 unique
    by_cases same : entry.1 = key
    · subst same
      have others := total_delete_of_absent weight isNew
      rw [delete, List.filter_cons_of_neg (by simp), weightOf, get_cons,
        if_pos rfl, total_cons]
      rw [delete] at others
      simp only [others, Option.map_some, Option.getD_some]
      omega
    · have later := ih uniqueRest
      simp only [delete, weightOf, get_cons, Ne.symm same, if_false] at later ⊢
      rw [List.filter_cons_of_pos (by simpa using same), total_cons, total_cons]
      omega

theorem total_set (unique : (keys entries).Nodup) (key : Key) (value : Value) :
    total weight (set entries key value) + weightOf weight entries key =
      total weight entries + weight value := by
  unfold set weightOf
  cases found : get entries key with
  | none => simp [total_append]
  | some old =>
    simp only [Option.map_some, Option.getD_some]
    induction entries with
    | nil => cases found
    | cons entry rest ih =>
      obtain ⟨isNew, uniqueRest⟩ := List.nodup_cons.1 unique
      rw [get_cons] at found
      by_cases same : entry.1 = key
      · subst same
        rw [if_pos rfl] at found
        have others :
            ∀ other ∈ rest,
              (if other.1 = entry.1 then (entry.1, value) else other) =
                other := by
          intro other member
          have isKey : other.1 ∈ rest.map Prod.fst := List.mem_map_of_mem member
          have different : other.1 ≠ entry.1 := by
            intro same
            rw [same] at isKey
            exact isNew isKey
          rw [if_neg different]
        rw [List.map_cons, if_pos rfl, List.map_congr_left others,
          List.map_id', total_cons, total_cons, Option.some.inj found]
        simp only
        omega
      · rw [if_neg (Ne.symm same)] at found
        have later := ih uniqueRest found
        simp only [List.map_cons, if_neg same, total_cons]
        omega

end Entries
