import PiEmbodied.Instances

/-!
# Paths through links

A tree of directories, files and links, and the walk that opening or creating a
path makes through it: a link's text is read from the directory that holds the
link, and only so many links are followed.
-/

namespace Paths

universe u

/-- A path from the root. -/
abbrev Path (α : Type u) := List α

/-- A part of a path's text. -/
inductive Part (α : Type u) where
  /-- `..` -/
  | up
  | name (name : α)
  deriving DecidableEq

structure Link (α : Type u) where
  absolute : Bool
  parts : List (Part α)
  deriving DecidableEq

inductive Node (α : Type u) where
  | dir
  | file
  | link (link : Link α)
  deriving DecidableEq

/-- What stands at each path none of whose names is a link. -/
structure Tree (α : Type u) where
  node : Path α → Option (Node α)
  root : node [] = some .dir

variable {α : Type u}

def Tree.isDir (tree : Tree α) (path : Path α) : Bool :=
  match tree.node path with
  | some .dir => true
  | _ => false

def Tree.linkAt (tree : Tree α) (path : Path α) : Option (Link α) :=
  match tree.node path with
  | some (.link link) => some link
  | _ => none

/-- Where a walk leads, and how many more links it could follow. -/
inductive Outcome (α : Type u) where
  | reached (path : Path α) (left : ℕ)
  /-- The place of an object that is not there yet. -/
  | creates (path : Path α)
  | fails
  deriving DecidableEq

def Outcome.place : Outcome α → Option (Path α)
  | .reached path _ | .creates path => some path
  | .fails => none

def Outcome.found : Outcome α → Option (Path α)
  | .reached path _ => some path
  | _ => none

/-- The names of parts that have no `..`. -/
def names : List (Part α) → Option (List α)
  | [] => some []
  | .up :: _ => none
  | .name name :: rest => (names rest).map fun more => name :: more

def ofNames (path : List α) : List (Part α) := path.map Part.name

def creating (path : Path α) (parts : List (Part α)) : Outcome α :=
  match names parts with
  | none => .fails
  | some more => .creates (path ++ more)

def Link.base (link : Link α) (path : Path α) : Path α :=
  if link.absolute then [] else path

/-- A walk, with what it does at a link. -/
def walkWith (tree : Tree α) (left : ℕ) (follow : Path α → List (Part α) → Outcome α) :
    Path α → List (Part α) → Outcome α
  | path, [] => .reached path left
  | path, .up :: rest =>
    if tree.isDir path then walkWith tree left follow path.dropLast rest
    else .fails
  | path, .name name :: rest =>
    if tree.isDir path then
      match tree.node (path ++ [name]) with
      | none => creating (path ++ [name]) rest
      | some (.link link) => follow (link.base path) (link.parts ++ rest)
      | some _ => walkWith tree left follow (path ++ [name]) rest
    else .fails

/-- The walk of a path's parts that follows so many links at most. -/
def walk (tree : Tree α) : ℕ → Path α → List (Part α) → Outcome α
  | 0 => walkWith tree 0 fun _ _ => .fails
  | left + 1 => walkWith tree (left + 1) (walk tree left)

/-- What is done at a link with so many links left. -/
def follow (tree : Tree α) : ℕ → Path α → List (Part α) → Outcome α
  | 0 => fun _ _ => .fails
  | left + 1 => walk tree left

section Steps

variable (tree : Tree α) (left : ℕ) (path : Path α)

theorem walk_eq : walk tree left = walkWith tree left (follow tree left) := by
  cases left with
  | zero | succ left => rfl

@[simp]
theorem walk_nil : walk tree left path [] = .reached path left := by
  rw [walk_eq, walkWith]

theorem walk_up (rest : List (Part α)) :
    walk tree left path (.up :: rest) =
      if tree.isDir path then walk tree left path.dropLast rest
      else .fails := by
  rw [walk_eq, walkWith]

theorem walk_name (name : α) (rest : List (Part α)) :
    walk tree left path (.name name :: rest) =
      if tree.isDir path then
        match tree.node (path ++ [name]) with
        | none => creating (path ++ [name]) rest
        | some (.link link) => follow tree left (link.base path) (link.parts ++ rest)
        | some _ => walk tree left (path ++ [name]) rest
      else .fails := by
  rw [walk_eq, walkWith]

end Steps

/-! ## Names -/

theorem names_ofNames (path : List α) : names (ofNames path) = some path := by
  induction path with
  | nil => rfl
  | cons first rest ih =>
    rw [ofNames] at ih
    rw [ofNames, List.map_cons, names, ih]
    rfl

theorem names_append (first second : List (Part α)) :
    names (first ++ second) =
      (names first).bind fun start =>
        (names second).map fun more => start ++ more := by
  induction first with
  | nil =>
    rw [List.nil_append, names, Option.bind_some]
    cases names second with
    | none | some more => rfl
  | cons part rest ih =>
    cases part with
    | up => rfl
    | name name =>
      rw [List.cons_append, names, names, ih]
      cases names rest with
      | none => rfl
      | some start =>
        cases names second with
        | none | some more => rfl

theorem ofNames_append (first second : List α) :
    ofNames (first ++ second) = ofNames first ++ ofNames second :=
  List.map_append

def Outcome.andThen (outcome : Outcome α) (tree : Tree α) (rest : List (Part α)) : Outcome α :=
  match outcome with
  | .reached path left => walk tree left path rest
  | .creates path => creating path rest
  | .fails => .fails

theorem creating_andThen (tree : Tree α) (path : Path α) (parts rest : List (Part α)) :
    creating path (parts ++ rest) = (creating path parts).andThen tree rest := by
  rw [creating, creating, names_append]
  cases names parts with
  | none => rfl
  | some start =>
    rw [Option.bind_some]
    dsimp only [Outcome.andThen]
    rw [creating]
    cases names rest with
    | none => rfl
    | some more =>
      rw [Option.map_some]
      dsimp only
      rw [List.append_assoc]

theorem walk_append (tree : Tree α) (left : ℕ) (path : Path α) (parts rest : List (Part α)) :
    walk tree left path (parts ++ rest) = (walk tree left path parts).andThen tree rest := by
  induction left using Nat.strongRecOn generalizing path parts with
  | ind left fewer =>
    have followed :
        ∀ base linkParts,
          follow tree left base (linkParts ++ rest) =
            (follow tree left base linkParts).andThen tree rest := by
      intro base linkParts
      cases left with
      | zero => rfl
      | succ left => exact fewer left (Nat.lt_succ_self left) base linkParts
    induction parts generalizing path with
    | nil =>
      rw [List.nil_append, walk_nil]
      rfl
    | cons part others ih =>
      cases part with
      | up =>
        rw [List.cons_append, walk_up, walk_up]
        split
        · exact ih path.dropLast
        · rfl
      | name name =>
        rw [List.cons_append, walk_name, walk_name]
        split
        · cases tree.node (path ++ [name]) with
          | none => exact creating_andThen tree _ others rest
          | some node =>
            cases node with
            | dir | file => exact ih (path ++ [name])
            | link link =>
              dsimp only
              rw [← List.append_assoc]
              exact followed _ _
        · rfl

/-! ## More links -/

def Outcome.more (count : ℕ) : Outcome α → Outcome α
  | .reached path left => .reached path (left + count)
  | outcome => outcome

variable {left : ℕ} {path : Path α} {parts : List (Part α)}

theorem walk_more (tree : Tree α) (count : ℕ) (leads : walk tree left path parts ≠ .fails) :
    walk tree (left + count) path parts = (walk tree left path parts).more count := by
  induction left using Nat.strongRecOn generalizing path parts with
  | ind left fewer =>
    have followed :
        ∀ base linkParts, follow tree left base linkParts ≠ .fails →
          follow tree (left + count) base linkParts =
            (follow tree left base linkParts).more count := by
      intro base linkParts goes
      cases left with
      | zero => exact absurd rfl goes
      | succ left =>
        rw [Nat.succ_add]
        exact fewer left (Nat.lt_succ_self left) goes
    induction parts generalizing path with
    | nil =>
      rw [walk_nil, walk_nil]
      rfl
    | cons part others ih =>
      cases part with
      | up =>
        rw [walk_up] at leads ⊢
        rw [walk_up]
        split at leads
        · rename_i isDir
          rw [if_pos isDir, if_pos isDir]
          exact ih leads
        · exact absurd rfl leads
      | name name =>
        rw [walk_name] at leads ⊢
        rw [walk_name]
        split at leads
        · rename_i isDir
          rw [if_pos isDir, if_pos isDir]
          revert leads
          cases tree.node (path ++ [name]) with
          | none =>
            intro _
            dsimp only
            rw [creating]
            cases names others with
            | none | some more => rfl
          | some node =>
            cases node with
            | dir | file => exact ih
            | link link => exact followed _ _
        · exact absurd rfl leads

variable {after : ℕ}

theorem left_le (tree : Tree α) {place : Path α}
    (leads : walk tree left path parts = .reached place after) : after ≤ left := by
  induction left using Nat.strongRecOn generalizing path parts with
  | ind left fewer =>
    have followed :
        ∀ base linkParts,
          follow tree left base linkParts = .reached place after → after ≤ left := by
      intro base linkParts goes
      cases left with
      | zero => cases goes
      | succ left => exact Nat.le_succ_of_le (fewer left (Nat.lt_succ_self left) goes)
    induction parts generalizing path with
    | nil =>
      rw [walk_nil] at leads
      cases leads
      exact Nat.le_refl _
    | cons part others ih =>
      cases part with
      | up =>
        rw [walk_up] at leads
        split at leads
        · exact ih leads
        · cases leads
      | name name =>
        rw [walk_name] at leads
        split at leads
        · revert leads
          cases tree.node (path ++ [name]) with
          | none =>
            intro leads
            dsimp only at leads
            rw [creating] at leads
            cases isNames : names others with
            | none | some more =>
              rw [isNames] at leads
              cases leads
          | some node =>
            cases node with
            | dir | file => exact ih
            | link link => exact followed _ _
        · cases leads

theorem walk_less (tree : Tree α) {place : Path α}
    (leads : walk tree (left + 1) path parts = .reached place (after + 1)) :
    walk tree left path parts = .reached place after := by
  induction left using Nat.strongRecOn generalizing path parts with
  | ind left fewer =>
    have followed :
        ∀ base linkParts,
          follow tree (left + 1) base linkParts = .reached place (after + 1) →
            follow tree left base linkParts = .reached place after := by
      intro base linkParts goes
      cases left with
      | zero =>
        have isLess : after + 1 ≤ 0 := left_le tree goes
        exact absurd isLess (Nat.not_succ_le_zero after)
      | succ left => exact fewer left (Nat.lt_succ_self left) goes
    induction parts generalizing path with
    | nil =>
      rw [walk_nil] at leads ⊢
      cases leads
      rfl
    | cons part others ih =>
      cases part with
      | up =>
        rw [walk_up] at leads ⊢
        split at leads
        · rename_i isDir
          rw [if_pos isDir]
          exact ih leads
        · cases leads
      | name name =>
        rw [walk_name] at leads ⊢
        split at leads
        · rename_i isDir
          rw [if_pos isDir]
          revert leads
          cases tree.node (path ++ [name]) with
          | none =>
            intro leads
            dsimp only at leads
            rw [creating] at leads
            cases isNames : names others with
            | none | some more =>
              rw [isNames] at leads
              cases leads
          | some node =>
            cases node with
            | dir | file => exact ih
            | link link => exact followed _ _
        · cases leads

/-- A walk that leads somewhere, and may follow as many links or more. -/
theorem walk_atLeast (tree : Tree α) {enough : ℕ} (isEnough : left ≤ enough)
    (leads : walk tree left path parts ≠ .fails) :
    walk tree enough path parts = (walk tree left path parts).more (enough - left) := by
  have more := walk_more tree (enough - left) leads
  rwa [Nat.add_sub_cancel' isEnough] at more

@[simp]
theorem place_more (outcome : Outcome α) (count : ℕ) :
    (outcome.more count).place = outcome.place := by
  cases outcome with
  | reached path left | creates path | fails => rfl

@[simp]
theorem found_more (outcome : Outcome α) (count : ℕ) :
    (outcome.more count).found = outcome.found := by
  cases outcome with
  | reached path left | creates path | fails => rfl

@[simp]
theorem more_zero (outcome : Outcome α) : outcome.more 0 = outcome := by
  cases outcome with
  | reached path left | creates path | fails => rfl

variable {outcome : Outcome α}

theorem more_ne_fails (leads : outcome ≠ .fails) (count : ℕ) : outcome.more count ≠ .fails := by
  cases outcome with
  | reached path left | creates path =>
    intro fails
    cases fails
  | fails => exact leads

theorem ne_fails_of_place (isPlace : outcome.place = some path) : outcome ≠ .fails := by
  intro fails
  rw [fails] at isPlace
  cases isPlace

theorem start_ne_fails {tree : Tree α} {rest : List (Part α)}
    (leads : walk tree left path (parts ++ rest) ≠ .fails) :
    walk tree left path parts ≠ .fails := by
  intro fails
  rw [walk_append, fails] at leads
  exact leads rfl

/-- The parts of a text resolved without looking at the tree. -/
def lexical : Path α → List (Part α) → Path α
  | path, [] => path
  | path, .up :: rest => lexical path.dropLast rest
  | path, .name name :: rest => lexical (path ++ [name]) rest

end Paths
