import Mathlib.Data.List.Pairwise

/-!
# Places in a list and pieces put there

A pattern occurs at an index of a list when the list goes on with it from there.
Pieces replace ranges of a list; when the ranges are in order they can be put in
from the last one, and the result is what is between them with the pieces.
-/

namespace Splices

variable {Item : Type}

/-! ## Occurrences -/

section Occurrences

variable [DecidableEq Item]

def OccursAt (content pattern : List Item) (index : ℕ) : Prop :=
  index ≤ content.length ∧ pattern <+: content.drop index

instance (content pattern : List Item) (index : ℕ) :
    Decidable (OccursAt content pattern index) :=
  inferInstanceAs
    (Decidable (index ≤ content.length ∧ pattern <+: content.drop index))

/-- The indices at which a pattern occurs, overlaps among them. -/
def occurrences (content pattern : List Item) : List ℕ :=
  (List.range (content.length + 1)).filter (OccursAt content pattern ·)

/-- The first index at which a pattern occurs. -/
def indexOf (content pattern : List Item) : Option ℕ :=
  (List.range (content.length + 1)).find? (OccursAt content pattern ·)

/-- The parts between occurrences that are taken from the left and do not
overlap; `part` is what is read of one, and `skip` is left of an occurrence. -/
def splitFrom (separator part : List Item) : ℕ → List Item → List (List Item)
  | _, [] => [part]
  | skip + 1, _ :: rest => splitFrom separator part skip rest
  | 0, item :: rest =>
    if separator <+: item :: rest then
      part :: splitFrom separator [] (separator.length - 1) rest
    else splitFrom separator (part ++ [item]) 0 rest

/-- The parts of a list; an empty separator parts its items. -/
def parts (content separator : List Item) : List (List Item) :=
  if separator = [] then content.map ([·]) else splitFrom separator [] 0 content

variable {content pattern : List Item} {index : ℕ}

theorem mem_occurrences : index ∈ occurrences content pattern ↔ OccursAt content pattern index := by
  rw [occurrences, List.mem_filter, List.mem_range, decide_eq_true_eq]
  constructor
  · exact fun both => both.2
  · exact fun occurs => ⟨Nat.lt_succ_of_le occurs.1, occurs⟩

theorem indexOf_eq_some (found : indexOf content pattern = some index) :
    OccursAt content pattern index := by
  simpa using List.find?_some found

theorem OccursAt.inside (occurs : OccursAt content pattern index) :
    index + pattern.length ≤ content.length := by
  have isShort := occurs.2.length_le
  rw [List.length_drop] at isShort
  have isIndex := occurs.1
  omega

theorem occurrences_nodup (content pattern : List Item) : (occurrences content pattern).Nodup :=
  List.nodup_range.filter _

theorem length_occurrences (occurs : OccursAt content pattern index) :
    (occurrences content pattern).length = 1 ↔
      ∀ first second, first < second → OccursAt content pattern first →
        ¬ OccursAt content pattern second := by
  constructor
  · intro once first second before isFirst isSecond
    obtain ⟨only, isOnly⟩ := List.length_eq_one_iff.mp once
    rw [← mem_occurrences, isOnly, List.mem_singleton] at isFirst isSecond
    omega
  · intro none
    have onlyThis : ∀ other ∈ occurrences content pattern, other = index := by
      intro other member
      rw [mem_occurrences] at member
      rcases Nat.lt_trichotomy other index with before | same | after
      · exact absurd occurs (none other index before member)
      · exact same
      · exact absurd member (none index other after occurs)
    have isMember := mem_occurrences.mpr occurs
    have isNodup := occurrences_nodup content pattern
    cases isList : occurrences content pattern with
    | nil =>
      rw [isList] at isMember
      cases isMember
    | cons first rest =>
      cases rest with
      | nil => rfl
      | cons second others =>
        rw [isList] at onlyThis isNodup
        have isFirst := onlyThis first List.mem_cons_self
        have isSecond := onlyThis second (by simp)
        rw [isFirst, isSecond] at isNodup
        simp at isNodup

theorem splitFrom_ne_nil (separator part : List Item) (skip : ℕ) (content : List Item) :
    1 ≤ (splitFrom separator part skip content).length := by
  induction content generalizing part skip with
  | nil => exact Nat.le_refl 1
  | cons item rest ih =>
    cases skip with
    | succ skip => exact ih part skip
    | zero =>
      rw [splitFrom]
      split
      · rw [List.length_cons]
        omega
      · exact ih _ 0

variable {separator : List Item} {skip : ℕ}

/-- An occurrence past what is skipped is found, or one before it. -/
theorem splitFrom_finds (nonempty : separator ≠ []) (part : List Item) (past : skip ≤ index)
    (occurs : separator <+: content.drop index) :
    2 ≤ (splitFrom separator part skip content).length := by
  induction content generalizing part skip index with
  | nil =>
    rw [List.drop_nil, List.prefix_nil] at occurs
    exact absurd occurs nonempty
  | cons item rest ih =>
    cases skip with
    | succ skip =>
      cases index with
      | zero => omega
      | succ index =>
        have later := Nat.le_of_succ_le_succ past
        exact ih part later occurs
    | zero =>
      rw [splitFrom]
      split
      · have more := splitFrom_ne_nil separator [] (separator.length - 1) rest
        rw [List.length_cons]
        omega
      · rename_i notHere
        cases index with
        | zero => exact absurd occurs notHere
        | succ index => exact ih _ (Nat.zero_le index) occurs

variable {first second : ℕ}

/-- Two occurrences that do not overlap make three parts. -/
theorem splitFrom_two (nonempty : separator ≠ []) (part : List Item) (past : skip ≤ first)
    (apart : first + separator.length ≤ second) (isFirst : separator <+: content.drop first)
    (isSecond : separator <+: content.drop second) :
    3 ≤ (splitFrom separator part skip content).length := by
  have positive : 0 < separator.length := List.length_pos_iff.mpr nonempty
  induction content generalizing part skip first second with
  | nil =>
    rw [List.drop_nil, List.prefix_nil] at isFirst
    exact absurd isFirst nonempty
  | cons item rest ih =>
    cases second with
    | zero => omega
    | succ second =>
      cases skip with
      | succ skip =>
        cases first with
        | zero => omega
        | succ first => exact ih part (Nat.le_of_succ_le_succ past) (by omega) isFirst isSecond
      | zero =>
        rw [splitFrom]
        split
        · have enough : separator.length - 1 ≤ second := by omega
          have isLater : separator <+: rest.drop second := isSecond
          have more := splitFrom_finds nonempty [] enough isLater
          rw [List.length_cons]
          omega
        · rename_i notHere
          cases first with
          | zero => exact absurd isFirst notHere
          | succ first => exact ih _ (Nat.zero_le first) (by omega) isFirst isSecond

theorem two_lt_parts (nonempty : separator ≠ []) (apart : first + separator.length ≤ second)
    (isFirst : OccursAt content separator first) (isSecond : OccursAt content separator second) :
    2 < (parts content separator).length := by
  have isThree := splitFrom_two nonempty [] (Nat.zero_le first) apart isFirst.2 isSecond.2
  rw [parts, if_neg nonempty]
  exact isThree

end Occurrences

/-- A piece that replaces a range. -/
structure Piece (Item : Type) where
  (start length : ℕ)
  items : List Item

def Piece.stop (piece : Piece Item) : ℕ :=
  piece.start + piece.length

/-- From an index on, what is between the pieces and the pieces. -/
def splice (content : List Item) (start : ℕ) : List (Piece Item) → List Item
  | [] => content.drop start
  | piece :: rest =>
    (content.take piece.start).drop start ++ piece.items ++ splice content piece.stop rest

/-- The pieces put in from the last one. -/
def replaceBack (content : List Item) (pieces : List (Piece Item)) :
    List Item :=
  pieces.foldr
    (fun piece result => result.take piece.start ++ piece.items ++ result.drop piece.stop)
    content

/-- Ranges that come one after another. -/
def InOrder (pieces : List (Piece Item)) : Prop :=
  pieces.Pairwise fun earlier later => earlier.stop ≤ later.start

theorem splice_from {content : List Item} {pieces : List (Piece Item)} {start : ℕ}
    (after : ∀ piece ∈ pieces, start ≤ piece.start) :
    splice content 0 pieces = content.take start ++ splice content start pieces := by
  cases pieces with
  | nil => rw [splice, splice, List.drop_zero, List.take_append_drop]
  | cons piece rest =>
    have isLater := after piece List.mem_cons_self
    have isTake : (content.take piece.start).take start = content.take start := by
      rw [List.take_take, Nat.min_eq_left isLater]
    have isSplit :
        content.take piece.start = content.take start ++ (content.take piece.start).drop start := by
      conv => lhs; rw [← List.take_append_drop start (content.take _)]
      rw [isTake]
    rw [splice, splice, List.drop_zero]
    conv => lhs; rw [isSplit]
    simp only [List.append_assoc]

/-- Pieces in order may be put in from the last. -/
theorem replaceBack_eq_splice {content : List Item} {pieces : List (Piece Item)}
    (ordered : InOrder pieces) (inside : ∀ piece ∈ pieces, piece.stop ≤ content.length) :
    replaceBack content pieces = splice content 0 pieces := by
  induction pieces with
  | nil => exact (List.drop_zero).symm
  | cons piece rest ih =>
    obtain ⟨isBefore, restOrdered⟩ := List.pairwise_cons.mp ordered
    have isInside := inside piece List.mem_cons_self
    have isRest := ih restOrdered fun later member => inside later (List.mem_cons_of_mem _ member)
    have isStart : piece.start ≤ piece.stop := Nat.le_add_right _ _
    have isSplit := @splice_from _ content rest piece.stop isBefore
    have isReplace :
        replaceBack content (piece :: rest) =
          (replaceBack content rest).take piece.start ++ piece.items ++
            (replaceBack content rest).drop piece.stop := rfl
    have isLength : (content.take piece.stop).length = piece.stop := List.length_take_of_le isInside
    rw [isReplace, isRest, isSplit, splice, List.drop_zero,
      List.take_append_of_le_length (by omega), List.take_take,
      Nat.min_eq_left isStart, List.drop_left' isLength]

theorem InOrder.eq_of_perm {pieces other : List (Piece Item)} (inOrder : InOrder pieces)
    (long : ∀ piece ∈ pieces, 0 < piece.length) (perm : other.Perm pieces)
    (ascends : other.Pairwise fun earlier later => earlier.start ≤ later.start) :
    other = pieces := by
  have : Std.Symm fun earlier later : Piece Item => earlier.start ≠ later.start :=
    ⟨fun _ _ differ => differ.symm⟩
  have apart : pieces.Pairwise fun earlier later => earlier.start ≠ later.start :=
    inOrder.imp_of_mem fun {earlier later} isEarlier _ before => by
      have some := long earlier isEarlier
      rw [Piece.stop] at before
      omega
  refine perm.eq_of_pairwise (fun earlier later isEarlier isLater le ge => ?_) ascends
    (inOrder.imp fun before => Nat.le_of_add_right_le before)
  by_contra differ
  exact apart.forall (perm.mem_iff.mp isEarlier) isLater differ (Nat.le_antisymm le ge)

end Splices
