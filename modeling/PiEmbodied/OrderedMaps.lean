import PiEmbodied.Entries

/-!
# Ordered maps

Maps that keep the order in which their keys were first set.  A patch sets or
removes keys one after another; a map is changed into another one by a patch of
the differences exactly if the keys it adds come last there.
-/

universe u v

namespace Entries

variable {Key : Type u} {Value : Type v} [DecidableEq Key] {first second : List (Key × Value)}

theorem ext_of_keys (distinct : (keys first).Nodup) (sameKeys : keys first = keys second)
    (sameValues : ∀ key, get first key = get second key) : first = second := by
  have isMap {entries : List (Key × Value)} (unique : (keys entries).Nodup) :
      entries.map some = (keys entries).map fun key => (get entries key).map (key, ·) := by
    rw [keys, List.map_map]
    apply List.map_congr_left
    intro entry member
    simp [get_of_mem unique member]
  have injective : Function.Injective (some : Key × Value → _) :=
    fun _ _ same => Option.some.inj same
  apply List.map_injective_iff.mpr injective
  rw [isMap distinct, isMap (sameKeys ▸ distinct), ← sameKeys]
  apply List.map_congr_left
  intro key _
  rw [sameValues key]

variable (entries : List (Key × Value)) (key : Key)

theorem get_eq_none_iff :
    get entries key = none ↔ key ∉ keys entries := by
  rw [← has_iff_mem_keys, has, Bool.not_eq_true, Option.isSome_eq_false_iff,
    Option.isNone_iff_eq_none]

theorem get_eq_some_iff {entries : List (Key × Value)} (distinct : (keys entries).Nodup) {key : Key}
    {value : Value} : get entries key = some value ↔ (key, value) ∈ entries :=
  ⟨mem_of_get, fun member => get_of_mem distinct member⟩

/-- Entries of distinct keys are read alike in any order. -/
theorem get_perm (distinct : (keys first).Nodup) (same : first.Perm second) (key : Key) :
    get first key = get second key := by
  have distinctSecond : (keys second).Nodup := (same.map Prod.fst).nodup_iff.mp distinct
  apply Option.ext
  intro value
  rw [get_eq_some_iff distinct, get_eq_some_iff distinctSecond, same.mem_iff]

theorem keys_delete :
    keys (delete entries key) = (keys entries).filter fun other => other ≠ key := by
  rw [keys, delete, keys, List.filter_map]
  rfl

end Entries

/-- A map whose keys stand in the order they were first set. -/
structure OrderedMap (Key : Type u) (Value : Type v) where
  entries : List (Key × Value)
  distinct : (Entries.keys entries).Nodup

namespace OrderedMap

variable {Key : Type u} {Value : Type v} [DecidableEq Key]

instance [DecidableEq Value] : DecidableEq (OrderedMap Key Value) :=
  fun first second =>
    decidable_of_iff (first.entries = second.entries) (by
      cases first
      cases second
      simp)

def empty : OrderedMap Key Value := ⟨[], List.nodup_nil⟩

def keys (map : OrderedMap Key Value) : List Key := Entries.keys map.entries

def values (map : OrderedMap Key Value) : List Value := map.entries.map Prod.snd

def get (map : OrderedMap Key Value) (key : Key) : Option Value :=
  Entries.get map.entries key

def has (map : OrderedMap Key Value) (key : Key) : Bool :=
  Entries.has map.entries key

def set (map : OrderedMap Key Value) (key : Key) (value : Value) :
    OrderedMap Key Value :=
  ⟨Entries.set map.entries key value, Entries.nodup_keys_set map.distinct key value⟩

def delete (map : OrderedMap Key Value) (key : Key) : OrderedMap Key Value :=
  ⟨Entries.delete map.entries key, Entries.nodup_keys_delete map.distinct key⟩

/-- The map that the entries set one after another. -/
def ofList (entries : List (Key × Value)) : OrderedMap Key Value :=
  entries.foldl (fun map entry => map.set entry.1 entry.2) empty

def change (map : OrderedMap Key Value) (update : Key × Option Value) :
    OrderedMap Key Value :=
  match update.2 with
  | none => map.delete update.1
  | some value => map.set update.1 value

def patch (map : OrderedMap Key Value) (updates : List (Key × Option Value)) :
    OrderedMap Key Value :=
  updates.foldl change map

/-! ## Reading a changed map -/

theorem ext_of_keys {first second : OrderedMap Key Value} (sameKeys : first.keys = second.keys)
    (sameValues : ∀ key, first.get key = second.get key) : first = second := by
  have same : first.entries = second.entries :=
    Entries.ext_of_keys first.distinct sameKeys sameValues
  cases first
  cases second
  cases same
  rfl

variable (map : OrderedMap Key Value) (update : Key × Option Value) (key : Key)

theorem has_iff : map.has key = true ↔ key ∈ map.keys :=
  Entries.has_iff_mem_keys map.entries key

theorem get_eq_none_iff :
    map.get key = none ↔ key ∉ map.keys :=
  Entries.get_eq_none_iff map.entries key

theorem get_eq_some_iff {key : Key} {value : Value} :
    map.get key = some value ↔ (key, value) ∈ map.entries :=
  Entries.get_eq_some_iff map.distinct

@[simp]
theorem get_empty : (empty : OrderedMap Key Value).get key = none :=
  rfl

omit [DecidableEq Key] in
@[simp]
theorem keys_empty : (empty : OrderedMap Key Value).keys = [] :=
  rfl

theorem get_change :
    (map.change update).get key =
      if key = update.1 then update.2 else map.get key := by
  unfold change
  split
  · rename_i removed
    rw [get, delete, Entries.get_delete, removed]
    rfl
  · rename_i value isSet
    rw [get, set, Entries.get_set, isSet]
    rfl

theorem keys_change :
    (map.change update).keys =
      if update.2.isNone then map.keys.filter fun key => key ≠ update.1
      else if update.1 ∈ map.keys then map.keys
      else map.keys ++ [update.1] := by
  unfold change
  split
  · rename_i removed
    rw [removed, keys, delete, Entries.keys_delete]
    rfl
  · rename_i value isSet
    rw [isSet, keys, set, Entries.keys_set]
    simp only [Entries.has_iff_mem_keys]
    rfl

variable {updates : List (Key × Option Value)}

theorem get_patch (distinct : (Entries.keys updates).Nodup) (map : OrderedMap Key Value)
    (key : Key) :
    (map.patch updates).get key =
      match Entries.get updates key with
      | some changed => changed
      | none => map.get key := by
  induction updates generalizing map with
  | nil => rfl
  | cons update rest ih =>
    obtain ⟨isNew, distinctRest⟩ := List.nodup_cons.mp distinct
    have step : map.patch (update :: rest) = (map.change update).patch rest := rfl
    rw [step, ih distinctRest, get_change, Entries.get_cons]
    by_cases here : key = update.1
    · subst here
      have missing : Entries.get rest update.1 = none :=
        (Entries.get_eq_none_iff rest update.1).mpr isNew
      simp [missing]
    · simp [here]

/-- A patch keeps the keys it does not remove in place and adds the new ones in
its own order. -/
theorem keys_patch (distinct : (Entries.keys updates).Nodup) (map : OrderedMap Key Value) :
    (map.patch updates).keys =
      (map.keys.filter fun key =>
          decide (∀ changed ∈ Entries.get updates key, changed.isSome)) ++
        Entries.keys
          (updates.filter fun update =>
            update.2.isSome && decide (update.1 ∉ map.keys)) := by
  induction updates generalizing map with
  | nil => simp [patch, Entries.keys]
  | cons update rest ih =>
    obtain ⟨isNew, distinctRest⟩ := List.nodup_cons.mp distinct
    have missing : Entries.get rest update.1 = none :=
      (Entries.get_eq_none_iff rest update.1).mpr isNew
    have others : ∀ other ∈ rest, other.1 ≠ update.1 := by
      intro other member same
      exact isNew (same ▸ List.mem_map_of_mem member)
    have step : map.patch (update :: rest) = (map.change update).patch rest := rfl
    -- The later updates are of other keys, so they find what they found.
    have later :
        (rest.filter fun other =>
            other.2.isSome && decide (other.1 ∉ (map.change update).keys)) =
          rest.filter fun other =>
            other.2.isSome && decide (other.1 ∉ map.keys) := by
      apply List.filter_congr
      intro other member
      have different := others other member
      rw [keys_change]
      split
      · simp [different]
      · split
        · rfl
        · simp [different]
    have keptKey :
        ∀ key, key ≠ update.1 → Entries.get (update :: rest) key = Entries.get rest key := by
      intro key different
      rw [Entries.get_cons, if_neg different]
    have ownKey : Entries.get (update :: rest) update.1 = some update.2 := by
      rw [Entries.get_cons, if_pos rfl]
    rw [step, ih distinctRest, later, keys_change]
    cases isUpdate : update.2 with
    | none =>
      have dropped :
          ((map.keys.filter fun key => key ≠ update.1).filter fun key =>
              decide
                (∀ changed ∈ Entries.get rest key, changed.isSome)) =
            map.keys.filter fun key =>
              decide
                (∀ changed ∈ Entries.get (update :: rest) key,
                  changed.isSome) := by
        rw [List.filter_filter]
        apply List.filter_congr
        intro key _
        by_cases here : key = update.1
        · subst here
          simp [ownKey, isUpdate]
        · simp [keptKey key here, here]
      rw [if_pos (by rfl), dropped, List.filter_cons, if_neg (by simp [isUpdate])]
    | some value =>
      have kept :
          (map.keys.filter fun key =>
              decide
                (∀ changed ∈ Entries.get rest key, changed.isSome)) =
            map.keys.filter fun key =>
              decide
                (∀ changed ∈ Entries.get (update :: rest) key,
                  changed.isSome) := by
        apply List.filter_congr
        intro key _
        by_cases here : key = update.1
        · subst here
          simp [ownKey, isUpdate, missing]
        · rw [keptKey key here]
      by_cases present : update.1 ∈ map.keys
      · rw [if_neg (by simp), if_pos present, kept, List.filter_cons, if_neg (by simp [present])]
      · have added :
            ((update :: rest).filter fun other =>
                other.2.isSome && decide (other.1 ∉ map.keys)) =
              update ::
                rest.filter fun other =>
                  other.2.isSome && decide (other.1 ∉ map.keys) := by
          rw [List.filter_cons, if_pos (by simp [isUpdate, present])]
        rw [if_neg (by simp), if_neg present, List.filter_append, kept, added]
        simp [missing, Entries.keys]

/-! ## Setting and removing many -/

theorem entries_remove (removed : List Key) :
    (map.patch (removed.map fun key => (key, none))).entries =
      map.entries.filter fun entry => entry.1 ∉ removed := by
  induction removed generalizing map with
  | nil => simp [patch]
  | cons key rest ih =>
    have step :
        map.patch ((key :: rest).map fun key => (key, none)) =
          (map.delete key).patch (rest.map fun key => (key, none)) :=
      rfl
    have isDelete : (map.delete key).entries = map.entries.filter fun entry => entry.1 ≠ key := rfl
    rw [step, ih, isDelete, List.filter_filter]
    apply List.filter_congr
    intro entry _
    simp [Bool.and_comm]

theorem patch_remove_all (isAll : updates.Perm (map.entries.map fun entry => (entry.1, none))) :
    map.patch updates = empty := by
  have isKeys : (Entries.keys updates).Perm map.keys := by
    have same := isAll.map Prod.fst
    rwa [List.map_map] at same
  have distinct : (Entries.keys updates).Nodup := isKeys.nodup_iff.mpr map.distinct
  have isNone : ∀ update ∈ updates, update.2 = none := by
    intro update member
    obtain ⟨entry, _, rfl⟩ := List.mem_map.mp (isAll.mem_iff.mp member)
    rfl
  apply ext_of_keys
  · rw [keys_patch distinct, keys_empty, List.append_eq_nil_iff]
    constructor
    · rw [List.filter_eq_nil_iff]
      intro key member kept
      have isUpdated : key ∈ Entries.keys updates := isKeys.mem_iff.mpr member
      obtain ⟨update, isUpdate, rfl⟩ := List.mem_map.mp isUpdated
      rw [decide_eq_true_eq] at kept
      have isSome := kept update.2 (Entries.get_of_mem distinct isUpdate)
      rw [isNone update isUpdate] at isSome
      cases isSome
    · rw [Entries.keys, List.map_eq_nil_iff, List.filter_eq_nil_iff]
      intro update member kept
      rw [isNone update member] at kept
      cases kept
  · intro key
    rw [get_patch distinct, get_empty]
    split
    · rename_i changed found
      exact isNone _ (Entries.mem_of_get found)
    · rename_i missing
      rw [Entries.get_eq_none_iff, isKeys.mem_iff] at missing
      exact (get_eq_none_iff map key).mpr missing

theorem keys_patch_set_all {map other : OrderedMap Key Value} {updates : List (Key × Option Value)}
    (isAll : updates.Perm (other.entries.map fun entry => (entry.1, some entry.2))) :
    (map.patch updates).keys =
      map.keys ++ (Entries.keys updates).filter fun key => key ∉ map.keys := by
  have isKeys : (Entries.keys updates).Perm other.keys := by
    have same := isAll.map Prod.fst
    rwa [List.map_map] at same
  have distinct : (Entries.keys updates).Nodup := isKeys.nodup_iff.mpr other.distinct
  have hasValue : ∀ update ∈ updates, update.2.isSome = true := by
    intro update member
    obtain ⟨entry, _, rfl⟩ := List.mem_map.mp (isAll.mem_iff.mp member)
    rfl
  rw [keys_patch distinct]
  congr 1
  · rw [List.filter_eq_self]
    intro key _
    rw [decide_eq_true_eq]
    intro changed found
    exact hasValue _ (Entries.mem_of_get found)
  · rw [Entries.keys, Entries.keys, List.filter_map]
    congr 1
    apply List.filter_congr
    intro update member
    rw [hasValue update member]
    rfl

theorem patch_set_all_iff {map other : OrderedMap Key Value}
    (isAll : updates.Perm (other.entries.map fun entry => (entry.1, some entry.2))) :
    map.patch updates = other ↔
      map.keys ++ (Entries.keys updates).filter (fun key => key ∉ map.keys) =
        other.keys := by
  have isKeys : (Entries.keys updates).Perm other.keys := by
    have same := isAll.map Prod.fst
    rwa [List.map_map] at same
  have distinct : (Entries.keys updates).Nodup := isKeys.nodup_iff.mpr other.distinct
  have isSet : ∀ update ∈ updates, update.2 = other.get update.1 := by
    intro update member
    obtain ⟨entry, isEntry, rfl⟩ := List.mem_map.mp (isAll.mem_iff.mp member)
    exact (Entries.get_of_mem other.distinct isEntry).symm
  have patched := @keys_patch_set_all _ _ _ map _ _ isAll
  rw [← patched]
  constructor
  · intro same
    rw [same]
  · intro sameKeys
    apply ext_of_keys sameKeys
    intro key
    rw [get_patch distinct]
    split
    · rename_i changed found
      exact isSet _ (Entries.mem_of_get found)
    · rename_i missing
      rw [Entries.get_eq_none_iff, isKeys.mem_iff] at missing
      have absent : key ∉ map.keys := by
        intro present
        apply missing
        rw [← sameKeys, patched]
        exact List.mem_append_left _ present
      rw [(get_eq_none_iff map key).mpr absent, (get_eq_none_iff other key).mpr missing]

theorem entries_add {added : List (Key × Value)} (distinct : (Entries.keys added).Nodup)
    (map : OrderedMap Key Value) (isNew : ∀ key ∈ Entries.keys added, key ∉ map.keys) :
    (map.patch (added.map fun entry => (entry.1, some entry.2))).entries =
      map.entries ++ added := by
  induction added generalizing map with
  | nil => simp [patch]
  | cons entry rest ih =>
    obtain ⟨isOther, distinctRest⟩ := List.nodup_cons.mp distinct
    have missing : Entries.get map.entries entry.1 = none :=
      (Entries.get_eq_none_iff map.entries entry.1).mpr (isNew entry.1 List.mem_cons_self)
    have isSet : (map.set entry.1 entry.2).entries = map.entries ++ [entry] := by
      have setAt : (map.set entry.1 entry.2).entries = Entries.set map.entries entry.1 entry.2 :=
        rfl
      rw [setAt, Entries.set, missing]
    have step :
        map.patch
            ((entry :: rest).map fun entry => (entry.1, some entry.2)) =
          (map.set entry.1 entry.2).patch (rest.map fun entry => (entry.1, some entry.2)) :=
      rfl
    rw [step, ih distinctRest, isSet]
    · simp
    · intro key member present
      rw [keys, isSet, Entries.keys, List.map_append] at present
      rcases List.mem_append.mp present with old | new
      · exact isNew key (List.mem_cons_of_mem _ member) old
      · have same : key = entry.1 := List.mem_singleton.mp new
        exact isOther (same ▸ member)

theorem ofList_eq_patch (entries : List (Key × Value)) :
    ofList entries = empty.patch (entries.map fun entry => (entry.1, some entry.2)) := by
  rw [ofList, patch, List.foldl_map]
  rfl

theorem entries_ofList {entries : List (Key × Value)} (distinct : (Entries.keys entries).Nodup) :
    (ofList entries).entries = entries := by
  rw [ofList_eq_patch, entries_add distinct empty]
  · exact List.nil_append entries
  · intro key _ present
    rw [keys_empty] at present
    cases present

/-! ## Differences -/

section Differences

variable [DecidableEq Value]

/-- What turns a map's values into those of another: the values that differ in
the order of the map, then the keys it has not in the order of the other. -/
def differences (map other : OrderedMap Key Value) : List (Key × Option Value) :=
  ((map.entries.filter fun entry => other.get entry.1 ≠ some entry.2).map
      fun entry => (entry.1, other.get entry.1)) ++
    (other.entries.filter fun entry => !map.has entry.1).map fun entry => (entry.1, some entry.2)

theorem mem_differences (map other : OrderedMap Key Value) (key : Key) (changed : Option Value) :
    (key, changed) ∈ differences map other ↔
      map.get key ≠ other.get key ∧ changed = other.get key := by
  rw [differences, List.mem_append, List.mem_map, List.mem_map]
  constructor
  · rintro (⟨entry, member, same⟩ | ⟨entry, member, same⟩)
    · obtain ⟨isEntry, differs⟩ := List.mem_filter.mp member
      have found : map.get entry.1 = some entry.2 := (get_eq_some_iff map).mpr isEntry
      cases same
      rw [decide_eq_true_eq] at differs
      exact ⟨fun equal => differs (equal.symm.trans found), rfl⟩
    · obtain ⟨isEntry, isNew⟩ := List.mem_filter.mp member
      have found : other.get entry.1 = some entry.2 := (get_eq_some_iff other).mpr isEntry
      cases same
      rw [Bool.not_eq_true', has, Entries.has, Option.isSome_eq_false_iff,
        Option.isNone_iff_eq_none] at isNew
      refine ⟨?_, found.symm⟩
      rw [get, isNew, found]
      simp
  · rintro ⟨differs, rfl⟩
    cases found : map.get key with
    | some value =>
      refine Or.inl ⟨(key, value), ?_, rfl⟩
      rw [List.mem_filter, decide_eq_true_eq]
      rw [found] at differs
      exact ⟨(get_eq_some_iff map).mp found, Ne.symm differs⟩
    | none =>
      rw [found] at differs
      obtain ⟨value, isValue⟩ := Option.ne_none_iff_exists'.mp (Ne.symm differs)
      refine Or.inr ⟨(key, value), ?_, ?_⟩
      · rw [List.mem_filter, Bool.not_eq_true', has, Entries.has]
        have isNone : (get map key).isNone := Option.isNone_iff_eq_none.mpr found
        exact ⟨(get_eq_some_iff other).mp isValue, Option.isSome_eq_false_iff.mpr isNone⟩
      · rw [isValue]

theorem nodup_keys_differences (map other : OrderedMap Key Value) :
    (Entries.keys (differences map other)).Nodup := by
  rw [differences, Entries.keys, List.map_append, List.map_map, List.map_map]
  apply List.nodup_append.mpr
  refine ⟨?_, ?_, ?_⟩
  · exact map.distinct.sublist (List.Sublist.map Prod.fst List.filter_sublist)
  · exact other.distinct.sublist (List.Sublist.map Prod.fst List.filter_sublist)
  · rintro key inMap added isAdded rfl
    obtain ⟨entry, member, rfl⟩ := List.mem_map.mp inMap
    obtain ⟨new, isNew, same⟩ := List.mem_map.mp isAdded
    have present : map.has entry.1 = true :=
      (has_iff map entry.1).mpr (List.mem_map_of_mem (List.mem_of_mem_filter member))
    have absent := (List.mem_filter.mp isNew).2
    have sameKey : new.1 = entry.1 := same
    rw [sameKey, present] at absent
    cases absent

theorem get_differences (map other : OrderedMap Key Value) (key : Key) :
    Entries.get (differences map other) key =
      if map.get key = other.get key then none else some (other.get key) := by
  apply Option.ext
  intro changed
  rw [Entries.get_eq_some_iff (nodup_keys_differences map other), mem_differences]
  split
  · rename_i same
    simp [same]
  · rename_i differs
    simp [differs, eq_comm]

theorem keys_differences_added (map other : OrderedMap Key Value) :
    ((Entries.keys (differences map other)).filter fun key => key ∉ map.keys) =
      other.keys.filter fun key => key ∉ map.keys := by
  have changed :
      (((map.entries.filter fun entry => other.get entry.1 ≠ some entry.2).map
            Prod.fst).filter fun key => key ∉ map.keys) =
        [] := by
    rw [List.filter_eq_nil_iff]
    intro key member
    obtain ⟨entry, isEntry, rfl⟩ := List.mem_map.mp member
    have present : entry.1 ∈ map.keys := List.mem_map_of_mem (List.mem_of_mem_filter isEntry)
    simp [present]
  have added :
      (((other.entries.filter fun entry => !map.has entry.1).map
            Prod.fst).filter fun key => key ∉ map.keys) =
        other.keys.filter fun key => key ∉ map.keys := by
    have isKeys :
        (other.keys.filter fun key => key ∉ map.keys) =
          (other.entries.filter fun entry => entry.1 ∉ map.keys).map
            Prod.fst :=
      List.filter_map
    rw [isKeys, List.filter_map, List.filter_filter]
    congr 1
    apply List.filter_congr
    intro entry _
    rw [Bool.eq_iff_iff]
    simp [← has_iff]
  rw [differences, Entries.keys, List.map_append, List.map_map, List.map_map, List.filter_append]
  exact (congrArg₂ _ changed added).trans (List.nil_append _)

/-- The differences, in any order, give the other map exactly if its keys are
those that are kept and then those that are added. -/
theorem patch_differences_iff
    {map other : OrderedMap Key Value} {updates : List (Key × Option Value)}
    (isOrder : updates.Perm (differences map other)) :
    map.patch updates = other ↔
      map.keys.filter other.has ++ (Entries.keys updates).filter (fun key => key ∉ map.keys) =
        other.keys := by
  have distinct : (Entries.keys updates).Nodup :=
    (isOrder.map Prod.fst).nodup_iff.mpr (nodup_keys_differences map other)
  have found (key : Key) :
      Entries.get updates key =
        if map.get key = other.get key then none else some (other.get key) :=
    (Entries.get_perm distinct isOrder key).trans (get_differences map other key)
  have values : ∀ key, (map.patch updates).get key = other.get key := by
    intro key
    rw [get_patch distinct, found]
    by_cases same : map.get key = other.get key
    · rw [if_pos same]
      exact same
    · rw [if_neg same]
  have kept :
      (map.keys.filter fun key =>
          decide (∀ changed ∈ Entries.get updates key, changed.isSome)) =
        map.keys.filter other.has := by
    apply List.filter_congr
    intro key member
    rw [found]
    by_cases same : map.get key = other.get key
    · have present : other.has key = true := by
        rw [has, Entries.has]
        have inMap := (has_iff map key).mpr member
        rw [has, Entries.has] at inMap
        exact (congrArg Option.isSome same).symm.trans inMap
      simp [same, present]
    · rw [if_neg same]
      simp [has, Entries.has, get]
  have added :
      Entries.keys
          (updates.filter fun update =>
            update.2.isSome && decide (update.1 ∉ map.keys)) =
        (Entries.keys updates).filter fun key => key ∉ map.keys := by
    rw [Entries.keys, Entries.keys, List.filter_map]
    congr 1
    apply List.filter_congr
    intro update member
    obtain ⟨differs, isChange⟩ :=
      (mem_differences map other update.1 update.2).mp (isOrder.mem_iff.mp member)
    by_cases present : update.1 ∈ map.keys
    · simp [present]
    · have missing : map.get update.1 = none :=
        (get_eq_none_iff map update.1).mpr present
      rw [missing] at differs
      rw [isChange, Option.isSome_iff_ne_none.mpr (Ne.symm differs)]
      rfl
  have isKeys := keys_patch distinct map
  rw [kept, added] at isKeys
  rw [← isKeys]
  constructor
  · intro same
    rw [same]
  · intro sameKeys
    exact ext_of_keys sameKeys values

end Differences

end OrderedMap
