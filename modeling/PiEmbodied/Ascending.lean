import Mathlib.Algebra.Order.Ring.Int
import Mathlib.Data.List.Induction
import Mathlib.Data.List.Nodup

/-!
# Lists in ascending order of a key

A binary search, and the members below a root in a list where each member names
its parent and parents come first.
-/

namespace Ascending

universe u v w

variable {α : Type u} {κ : Type v} [LinearOrder κ]

/-! ## Binary search -/

section Search

variable (key : α → κ)

/-- The search in the window from `low` to `high`, both within. -/
def search (items : List α) (target : κ) (low high : ℤ) : Option ℕ :=
  if low ≤ high then
    match items[((low + high) / 2).toNat]? with
    | none => none
    | some candidate =>
      if key candidate = target then some ((low + high) / 2).toNat
      else if key candidate < target then
        search items target ((low + high) / 2 + 1) high
      else search items target low ((low + high) / 2 - 1)
  else none
termination_by (high + 1 - low).toNat
decreasing_by all_goals omega

variable {key} {items : List α} {target : κ} {low high : ℤ} {place : ℕ}

theorem key_of_search (found : search key items target low high = some place) :
    ∃ item, items[place]? = some item ∧ key item = target := by
  fun_induction search key items target low high with
  | case1 => cases found
  | case2 low high window candidate isCandidate isTarget =>
    cases found
    exact ⟨candidate, isCandidate, isTarget⟩
  | case3 low high window candidate isCandidate notTarget before ih
  | case4 low high window candidate isCandidate notTarget notBefore ih => exact ih found
  | case5 => cases found

theorem lt_of_key_lt (ascending : items.Pairwise fun left right => key left < key right)
    {i j : ℕ} {left right : α} (isLeft : items[i]? = some left)
    (isRight : items[j]? = some right) (less : key left < key right) : i < j := by
  by_contra notBefore
  rcases Nat.eq_or_lt_of_le (Nat.le_of_not_lt notBefore) with rfl | after
  · rw [isLeft, Option.some.injEq] at isRight
    exact lt_irrefl _ (isRight ▸ less)
  · obtain ⟨inside, rfl⟩ := List.getElem?_eq_some_iff.mp isLeft
    obtain ⟨_, rfl⟩ := List.getElem?_eq_some_iff.mp isRight
    exact lt_asymm less (List.pairwise_iff_getElem.mp ascending j i _ inside after)

theorem search_isSome (ascending : items.Pairwise fun left right => key left < key right)
    {item : α} (isItem : items[place]? = some item)
    (isTarget : key item = target) (start : 0 ≤ low) (isLow : low ≤ place)
    (isHigh : (place : ℤ) ≤ high) (inside : high < items.length) :
    (search key items target low high).isSome = true := by
  fun_induction search key items target low high with
  | case1 low high window outside =>
    rw [List.getElem?_eq_none_iff] at outside
    omega
  | case2 => rfl
  | case3 low high window candidate isCandidate notTarget before ih =>
    have after := lt_of_key_lt ascending isCandidate isItem (isTarget ▸ before)
    exact ih (by omega) (by omega) isHigh inside
  | case4 low high window candidate isCandidate notTarget notBefore ih =>
    have less : key item < key candidate :=
      isTarget ▸ lt_of_le_of_ne (le_of_not_gt notBefore) (Ne.symm notTarget)
    have after := lt_of_key_lt ascending isItem isCandidate less
    exact ih start isLow (by omega) (by omega)
  | case5 low high window => omega

theorem search_isSome_iff (ascending : items.Pairwise fun left right => key left < key right) :
    (search key items target 0 (items.length - 1)).isSome = true ↔
      ∃ item ∈ items, key item = target := by
  constructor
  · intro isSome
    obtain ⟨place, found⟩ := Option.isSome_iff_exists.mp isSome
    obtain ⟨item, isItem, isTarget⟩ := key_of_search found
    exact ⟨item, List.mem_of_getElem? isItem, isTarget⟩
  · rintro ⟨item, member, isTarget⟩
    obtain ⟨place, isItem⟩ := List.mem_iff_getElem?.mp member
    obtain ⟨inside, _⟩ := List.getElem?_eq_some_iff.mp isItem
    exact search_isSome ascending isItem isTarget (Int.le_refl 0) (by omega) (by omega) (by omega)

end Search

/-! ## What is below a root -/

section Family

variable (key parent : α → κ)

/-- One pass: a member whose parent was met is met. -/
def family (root : κ) (items : List α) : List κ :=
  items.foldl
    (fun met item => if parent item ∈ met then key item :: met else met) [root]

/-- The list without what is below the root. -/
def without (root : κ) (items : List α) : List α :=
  items.filter fun item => parent item ∉ family key parent root items

/-- A member of the list and its parent. -/
def Edge (items : List α) (above below : κ) : Prop :=
  ∃ item ∈ items, parent item = above ∧ key item = below

variable {key parent} {items : List α} {root : κ}

omit [LinearOrder κ] in
theorem Edge.mono {more : List α} {above below : κ}
    (edge : Edge key parent items above below) (isPart : items ⊆ more) :
    Edge key parent more above below := by
  obtain ⟨item, member, isAbove, isBelow⟩ := edge
  exact ⟨item, isPart member, isAbove, isBelow⟩

theorem family_snoc (items : List α) (item : α) :
    family key parent root (items ++ [item]) =
      if parent item ∈ family key parent root items then
        key item :: family key parent root items
      else family key parent root items := by
  rw [family, List.foldl_append]
  rfl

/-- Where parents come first, one pass meets all that is below the root. -/
theorem mem_family_iff (ascending : items.Pairwise fun left right => key left < key right)
    (before : ∀ item ∈ items, parent item < key item) {id : κ} :
    id ∈ family key parent root items ↔
      id = root ∨ Relation.TransGen (Edge key parent items) root id := by
  induction items using List.reverseRecOn generalizing id with
  | nil =>
    have none_ : ¬ Relation.TransGen (Edge key parent []) root id := by
      intro path
      obtain ⟨_, _, item, member, _⟩ := Relation.TransGen.tail'_iff.mp path
      cases member
    simp only [family, List.foldl_nil, List.mem_singleton, none_, or_false]
  | append_singleton front item ih =>
    obtain ⟨frontAscending, _, isLast⟩ := List.pairwise_append.mp ascending
    have met (id : κ) := @ih frontAscending
      (fun other member => before other (List.mem_append_left _ member)) id
    have isPart : front ⊆ front ++ [item] := List.subset_append_left _ _
    have isEdge : Edge key parent (front ++ [item]) (parent item) (key item) :=
      ⟨item, List.mem_append_right _ List.mem_cons_self, rfl, rfl⟩
    have goesOn {id : κ} (isMet : id ∈ family key parent root front) :
        id = root ∨ Relation.TransGen (Edge key parent (front ++ [item])) root id :=
      ((met id).mp isMet).imp_right fun path =>
        path.lift (fun id => id) fun _ _ edge => edge.mono isPart
    have stays {id : κ} (isMet : id ∈ family key parent root front) :
        id ∈ family key parent root (front ++ [item]) := by
      rw [family_snoc]
      split
      · exact List.mem_cons_of_mem _ isMet
      · exact isMet
    have wasMet {id : κ} (notLast : id ≠ key item)
        (isMet : id ∈ family key parent root (front ++ [item])) :
        id ∈ family key parent root front := by
      rw [family_snoc] at isMet
      split at isMet
      · exact (List.mem_cons.mp isMet).resolve_left notLast
      · exact isMet
    constructor
    · intro isMet
      rw [family_snoc] at isMet
      split at isMet
      · rename_i parentMet
        rcases List.mem_cons.mp isMet with rfl | wasMet
        · right
          rcases goesOn parentMet with isRoot | path
          · exact Relation.TransGen.single (isRoot ▸ isEdge)
          · exact path.tail isEdge
        · exact goesOn wasMet
      · exact goesOn isMet
    · rintro (rfl | path)
      · exact stays ((met id).mpr (.inl rfl))
      · have along {above below : κ} (edge : Edge key parent (front ++ [item]) above below)
            (isMet : above ∈ family key parent root (front ++ [item])) :
            below ∈ family key parent root (front ++ [item]) := by
          obtain ⟨other, member, rfl, rfl⟩ := edge
          have isBefore := before other member
          rcases List.mem_append.mp member with inFront | last
          · have notLast := (isBefore.trans (isLast other inFront item List.mem_cons_self)).ne
            apply stays
            refine (met (key other)).mpr (.inr ?_)
            have isOther : Edge key parent front (parent other) (key other) :=
              ⟨other, inFront, rfl, rfl⟩
            rcases (met _).mp (wasMet notLast isMet) with isRoot | path
            · exact Relation.TransGen.single (isRoot ▸ isOther)
            · exact path.tail isOther
          · rw [List.mem_singleton.mp last] at isBefore isMet ⊢
            rw [family_snoc, if_pos (wasMet isBefore.ne isMet)]
            exact List.mem_cons_self
        induction path with
        | single edge => exact along edge (stays ((met root).mpr (.inl rfl)))
        | tail _ edge isMet => exact along edge isMet

variable {item : α}

theorem mem_without_iff (ascending : items.Pairwise fun left right => key left < key right)
    (before : ∀ item ∈ items, parent item < key item) :
    item ∈ without key parent root items ↔
      item ∈ items ∧ ¬ Relation.TransGen (Edge key parent items) root (key item) := by
  rw [without, List.mem_filter, decide_eq_true_eq]
  refine and_congr_right fun member => not_congr ?_
  rw [mem_family_iff ascending before]
  constructor
  · rintro (isRoot | path)
    · exact Relation.TransGen.single ⟨item, member, isRoot, rfl⟩
    · exact path.tail ⟨item, member, rfl, rfl⟩
  · intro path
    obtain ⟨above, reached, other, isOther, rfl, same⟩ := Relation.TransGen.tail'_iff.mp path
    have distinct : (items.map key).Nodup :=
      List.pairwise_map.mpr (ascending.imp fun less => less.ne)
    have isItem := List.inj_on_of_nodup_map distinct isOther member same
    subst isItem
    rcases Relation.reflTransGen_iff_eq_or_transGen.mp reached with isRoot | path
    · exact .inl isRoot
    · exact .inr path

theorem without_map {β : Type w} (f : β → α) (items : List β) :
    without key parent root (items.map f) = (without (key ∘ f) (parent ∘ f) root items).map f := by
  simp only [without, family, List.filter_map, List.foldl_map]
  rfl

/-- The parent of each member is in the list, or below nothing. -/
def Closed (key parent : α → κ) (calls : κ → κ → Prop) (items : List α) : Prop :=
  ∀ item ∈ items, (∀ above, ¬ calls above (parent item)) ∨ ∃ other ∈ items, key other = parent item

variable {calls : κ → κ → Prop}

omit [LinearOrder κ] in
theorem transGen_edge_iff
    (agrees : ∀ item ∈ items, ∀ above, calls above (key item) ↔ above = parent item)
    (closed : Closed key parent calls items) (member : item ∈ items) :
    Relation.TransGen (Edge key parent items) root (key item) ↔
      Relation.TransGen calls root (key item) := by
  constructor
  · intro path
    refine path.lift (fun id => id) ?_
    rintro _ _ ⟨other, isOther, rfl, rfl⟩
    exact (agrees other isOther _).mpr rfl
  · intro path
    generalize isKey : key item = id at path
    induction path generalizing item with
    | single call =>
      subst isKey
      rw [(agrees item member _).mp call]
      exact Relation.TransGen.single ⟨item, member, rfl, rfl⟩
    | tail reached call ih =>
      subst isKey
      have isParent := (agrees item member _).mp call
      rcases closed item member with rootless | ⟨other, isOther, isAbove⟩
      · obtain ⟨above, _, last⟩ := Relation.TransGen.tail'_iff.mp reached
        exact absurd (isParent ▸ last) (rootless above)
      · exact (ih isOther (isAbove.trans isParent.symm)).tail ⟨item, member, isParent.symm, rfl⟩

theorem Closed.without (ascending : items.Pairwise fun left right => key left < key right)
    (before : ∀ item ∈ items, parent item < key item) (closed : Closed key parent calls items) :
    Closed key parent calls (without key parent root items) := by
  intro item member
  obtain ⟨isItem, isKept⟩ := (mem_without_iff ascending before).mp member
  refine (closed item isItem).imp_right ?_
  rintro ⟨other, isOther, isAbove⟩
  refine ⟨other, (mem_without_iff ascending before).mpr ⟨isOther, ?_⟩, isAbove⟩
  intro path
  rw [isAbove] at path
  exact isKept (path.tail ⟨item, isItem, rfl, rfl⟩)

end Family

end Ascending
