import PiEmbodied.Instances

/-!
# Elements picked by position

A list is split by a list of positions into the elements at them and the
elements that stay.  Positions are read in ascending order and erased in
descending order, so that an erased element moves none that is still to go.
-/

namespace Picks

variable {α : Type*}

/-- The elements at some positions. -/
def taken (items : List α) (positions : List ℕ) : List α :=
  positions.filterMap (items[·]?)

@[simp]
theorem taken_nil (items : List α) : taken items [] = [] := rfl

variable {items : List α}

theorem mem_taken {positions : List ℕ} {item : α} :
    item ∈ taken items positions ↔ ∃ position ∈ positions, items[position]? = some item :=
  List.mem_filterMap

theorem taken_append (items : List α) (first second : List ℕ) :
    taken items (first ++ second) = taken items first ++ taken items second :=
  List.filterMap_append

theorem taken_perm {first second : List ℕ} (perm : first.Perm second) :
    (taken items first).Perm (taken items second) :=
  perm.filterMap _

theorem taken_pairwise {relation : α → α → Prop} {items : List α} {positions : List ℕ}
    (ordered : items.Pairwise relation) (ascending : positions.Pairwise (· < ·)) :
    (taken items positions).Pairwise relation := by
  rw [taken, List.pairwise_filterMap]
  refine List.Pairwise.imp ?_ ascending
  intro first second less item isItem other isOther
  obtain ⟨boundItem, rfl⟩ := List.getElem?_eq_some_iff.mp isItem
  obtain ⟨boundOther, rfl⟩ := List.getElem?_eq_some_iff.mp isOther
  exact List.pairwise_iff_getElem.mp ordered first second boundItem boundOther less

/-- The elements that stay when those at some positions are erased in turn. -/
def left (items : List α) (positions : List ℕ) : List α :=
  positions.foldl List.eraseIdx items

theorem left_sublist (items : List α) (positions : List ℕ) :
    (left items positions).Sublist items := by
  induction positions generalizing items with
  | nil => exact List.Sublist.refl items
  | cons first rest ih =>
    exact (ih (items.eraseIdx first)).trans (List.eraseIdx_sublist items first)

theorem taken_append_left_perm {items : List α} {positions : List ℕ}
    (descending : positions.Pairwise (· > ·)) :
    (taken items positions ++ left items positions).Perm items := by
  induction positions generalizing items with
  | nil => exact List.Perm.refl items
  | cons first rest ih =>
    obtain ⟨below, later⟩ := List.pairwise_cons.mp descending
    have kept : taken (items.eraseIdx first) rest = taken items rest := by
      refine List.filterMap_congr ?_
      intro position member
      exact List.getElem?_eraseIdx_of_lt (below position member)
    have split := @ih (items.eraseIdx first) later
    rw [kept] at split
    show (taken items (first :: rest) ++
      left (items.eraseIdx first) rest).Perm items
    cases found : items[first]? with
    | none =>
      have beyond := List.getElem?_eq_none_iff.mp found
      rw [List.eraseIdx_of_length_le beyond] at split ⊢
      rw [taken, List.filterMap_cons_none found]
      exact split
    | some item =>
      obtain ⟨bound, isItem⟩ := List.getElem?_eq_some_iff.mp found
      rw [taken, List.filterMap_cons_some found, List.cons_append]
      refine (split.cons item).trans ?_
      rw [← isItem]
      exact List.getElem_cons_eraseIdx_perm bound

theorem mem_left_iff {κ : Type*} {key : α → κ} {items : List α} {positions : List ℕ}
    (descending : positions.Pairwise (· > ·)) (distinct : (items.map key).Nodup) {item : α} :
    item ∈ left items positions ↔ item ∈ items ∧ key item ∉ (taken items positions).map key := by
  have split := @taken_append_left_perm α items positions descending
  have apart : ((taken items positions).map key ++ (left items positions).map key).Nodup := by
    rw [← List.map_append]
    exact (split.map key).nodup_iff.mpr distinct
  constructor
  · intro stays
    refine ⟨split.mem_iff.mp (List.mem_append_right _ stays), ?_⟩
    intro isTaken
    exact (List.disjoint_of_nodup_append apart) isTaken (List.mem_map_of_mem stays)
  · rintro ⟨member, notTaken⟩
    rcases List.mem_append.mp (split.mem_iff.mpr member) with isTaken | stays
    · exact absurd (List.mem_map_of_mem isTaken) notTaken
    · exact stays

end Picks
