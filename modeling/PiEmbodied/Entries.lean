import PiEmbodied.Instances

/-!
# Entries

A map or an object as the list of its entries in insertion order: a key is set
where it stands or at the end, and looked up at its first entry.
-/

namespace Entries

universe u v

variable {Key : Type u} {Value : Type v} [DecidableEq Key]

def get (entries : List (Key × Value)) (key : Key) : Option Value :=
  entries.lookup key

def has (entries : List (Key × Value)) (key : Key) : Bool :=
  (get entries key).isSome

def keys (entries : List (Key × Value)) : List Key :=
  entries.map Prod.fst

/-- A key set, where it stands or at the end. -/
def set (entries : List (Key × Value)) (key : Key) (value : Value) : List (Key × Value) :=
  match get entries key with
  | none => entries ++ [(key, value)]
  | some _ => entries.map fun entry => if entry.1 = key then (key, value) else entry

def delete (entries : List (Key × Value)) (key : Key) : List (Key × Value) :=
  entries.filter fun entry => entry.1 ≠ key

/-- The updates set, the earlier of two for one key last. -/
def setAll (entries updates : List (Key × Value)) : List (Key × Value) :=
  updates.foldr (fun update later => set later update.1 update.2) entries

/-- The entries whose key is kept. -/
def restrict (entries : List (Key × Value)) (kept : Key → Bool) : List (Key × Value) :=
  entries.filter fun entry => kept entry.1

@[simp]
theorem get_nil (key : Key) : get ([] : List (Key × Value)) key = none :=
  rfl

theorem get_cons (entry : Key × Value) (rest : List (Key × Value)) (key : Key) :
    get (entry :: rest) key =
      if key = entry.1 then some entry.2 else get rest key := by
  obtain ⟨name, value⟩ := entry
  by_cases same : key = name
  · simp [get, same]
  · simp [get, List.lookup_cons, same, beq_eq_false_iff_ne.mpr same]

theorem get_append (first second : List (Key × Value)) (key : Key) :
    get (first ++ second) key = (get first key).or (get second key) := by
  exact List.lookup_append

theorem get_map_replace (entries : List (Key × Value)) (key other : Key) (value : Value) :
    get
        (entries.map fun entry =>
          if entry.1 = key then (key, value) else entry) other =
      if other = key then (get entries key).map fun _ => value
      else get entries other := by
  induction entries with
  | nil => simp
  | cons entry rest ih =>
    rw [List.map_cons, get_cons, ih, get_cons, get_cons]
    by_cases here : entry.1 = key
    · subst here
      by_cases same : other = entry.1
      · simp [same]
      · simp [same]
    · by_cases same : other = key
      · subst same
        simp [here, Ne.symm here]
      · simp [here, same]

@[simp]
theorem get_set (entries : List (Key × Value)) (key other : Key) (value : Value) :
    get (set entries key value) other =
      if other = key then some value else get entries other := by
  unfold set
  split
  · rename_i missing
    rw [get_append, get_cons]
    by_cases same : other = key
    · subst same
      simp [missing]
    · simp [same]
  · rename_i old found
    rw [get_map_replace, found]
    rfl

theorem get_setAll (entries updates : List (Key × Value)) (key : Key) :
    get (setAll entries updates) key = (get updates key).or (get entries key) := by
  induction updates with
  | nil => rfl
  | cons update rest ih =>
    unfold setAll at ih ⊢
    rw [List.foldr_cons, get_set, ih, get_cons]
    split <;> rfl

section

variable (entries : List (Key × Value))
include entries

theorem get_restrict (kept : Key → Bool) (key : Key) :
    get (restrict entries kept) key =
      if kept key then get entries key else none := by
  induction entries with
  | nil => simp [restrict]
  | cons entry rest ih =>
    unfold restrict at ih ⊢
    rw [List.filter_cons, get_cons]
    by_cases here : kept entry.1 = true
    · simp only [here, if_true, get_cons, ih]
      by_cases same : key = entry.1
      · simp [same, here]
      · simp [same]
    · simp only [here, Bool.false_eq_true, if_false, ih]
      by_cases same : key = entry.1
      · simp [same, here]
      · simp [same]

@[simp]
theorem get_delete (key other : Key) :
    get (delete entries key) other =
      if other = key then none else get entries other := by
  have restricted : delete entries key = restrict entries fun name => name ≠ key := rfl
  rw [restricted, get_restrict]
  by_cases same : other = key
  · simp [same]
  · simp [same]

theorem has_iff_mem_keys (key : Key) :
    has entries key = true ↔ key ∈ keys entries := by
  induction entries with
  | nil => simp [has, keys]
  | cons entry rest ih =>
    unfold has keys at ih ⊢
    rw [get_cons, List.map_cons, List.mem_cons, ← ih]
    by_cases same : key = entry.1
    · simp [same]
    · simp [same]

theorem set_set (key : Key) (value later : Value) (present : has entries key = true) :
    set (set entries key value) key later = set entries key later := by
  obtain ⟨first, found⟩ := Option.isSome_iff_exists.mp present
  have replaced :
      ∀ next, set entries key next =
        entries.map fun entry =>
          if entry.1 = key then (key, next) else entry := by
    intro next
    simp only [set, found]
  have stays : get (set entries key value) key = some value := by simp
  rw [replaced later]
  conv_lhs => rw [set, stays, replaced value]
  simp only [List.map_map]
  apply List.map_congr_left
  intro entry _
  by_cases here : entry.1 = key
  · simp [here]
  · simp [here]

theorem get_mapValues {Other : Type*} (change : Value → Other) (key : Key) :
    get (entries.map fun entry => (entry.1, change entry.2)) key =
      (get entries key).map change := by
  induction entries with
  | nil => rfl
  | cons entry rest ih =>
    rw [List.map_cons, get_cons, get_cons, ih]
    split
    · rfl
    · rfl

end

variable {entries : List (Key × Value)} {key : Key} {value : Value}

theorem mem_of_get (found : get entries key = some value) : (key, value) ∈ entries := by
  induction entries with
  | nil => cases found
  | cons entry rest ih =>
    rw [get_cons] at found
    split at found
    · rename_i same
      cases found
      rw [same]
      exact List.mem_cons_self
    · exact List.mem_cons_of_mem entry (ih found)

variable {entry : Key × Value}

/-- Where no key comes twice, every entry is found. -/
theorem get_of_mem (unique : (keys entries).Nodup) (member : entry ∈ entries) :
    get entries entry.1 = some entry.2 := by
  induction entries with
  | nil => cases member
  | cons first rest ih =>
    obtain ⟨isNew, uniqueRest⟩ := List.nodup_cons.mp unique
    rw [get_cons]
    rcases List.mem_cons.mp member with rfl | later
    · exact if_pos rfl
    · have isKey : entry.1 ∈ rest.map Prod.fst := List.mem_map_of_mem later
      rw [if_neg]
      · exact ih uniqueRest later
      · intro same
        rw [same] at isKey
        exact isNew isKey

theorem keys_set (entries : List (Key × Value)) (key : Key) (value : Value) :
    keys (set entries key value) =
      if has entries key then keys entries else keys entries ++ [key] := by
  unfold set has
  cases found : get entries key with
  | none => simp [keys]
  | some old =>
    have replaced :
        (Prod.fst ∘ fun entry : Key × Value =>
            if entry.1 = key then (key, value) else entry) = Prod.fst := by
      funext entry
      by_cases here : entry.1 = key
      · simp [here]
      · simp [here]
    simp [keys, replaced]

theorem nodup_keys_set (unique : (keys entries).Nodup) (key : Key) (value : Value) :
    (keys (set entries key value)).Nodup := by
  rw [keys_set]
  split
  · exact unique
  · rename_i absent
    have isNew : key ∉ keys entries := by
      rw [← has_iff_mem_keys]
      exact absent
    refine List.nodup_append.mpr ⟨unique, by simp, ?_⟩
    rintro old isOld new isKey rfl
    rw [List.mem_singleton.mp isKey] at isOld
    exact isNew isOld

theorem nodup_keys_delete (unique : (keys entries).Nodup) (key : Key) :
    (keys (delete entries key)).Nodup :=
  unique.sublist (List.Sublist.map Prod.fst List.filter_sublist)

theorem has_set (entries : List (Key × Value)) (key other : Key) (value : Value) :
    has (set entries key value) other = (decide (other = key) || has entries other) := by
  rw [has, get_set, has]
  by_cases same : other = key
  · simp [same]
  · simp [same]

theorem has_delete (entries : List (Key × Value)) (key other : Key) :
    has (delete entries key) other = (!decide (other = key) && has entries other) := by
  rw [has, get_delete, has]
  by_cases same : other = key
  · simp [same]
  · simp [same]

/-- A member set at its key stays or is replaced; the others are old. -/
theorem mem_set (member : entry ∈ set entries key value) :
    entry = (key, value) ∨ entry ∈ entries := by
  unfold set at member
  split at member
  · rcases List.mem_append.mp member with old | new
    · exact Or.inr old
    · exact Or.inl (List.mem_singleton.mp new)
  · obtain ⟨old, isOld, rfl⟩ := List.mem_map.mp member
    by_cases here : old.1 = key
    · rw [if_pos here]
      exact Or.inl rfl
    · rw [if_neg here]
      exact Or.inr isOld

end Entries
