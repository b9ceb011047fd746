import Mathlib.Data.List.Basic

/-!
# Walks down a forest

A node has at most one node above it.  A walk down from a node reaches the
nodes below it, and goes on below those it enters.
-/

namespace Forest

variable {N : Type*}

/-! ## The nodes a walk reaches -/

/-- The nodes a walk down from `start` reaches. -/
inductive Reached (child : N → N → Prop) (enter : N → Prop) (start : N) :
    N → Prop
  | first {node : N} : child start node → Reached child enter start node
  | next {middle node : N} :
      Reached child enter start middle → enter middle → child middle node →
        Reached child enter start node

section Reached

variable {child wider : N → N → Prop} {enter more : N → Prop} {start middle node above : N}

theorem Reached.mono (children : ∀ above node, child above node → wider above node)
    (enters : ∀ node, enter node → more node) (reached : Reached child enter start node) :
    Reached wider more start node := by
  induction reached with
  | first isChild => exact .first (children _ _ isChild)
  | next _ isEntered isChild ih => exact .next ih (enters _ isEntered) (children _ _ isChild)

theorem Reached.trans (reached : Reached child enter start middle) (isEntered : enter middle)
    (below : Reached child enter middle node) : Reached child enter start node := by
  induction below with
  | first isChild => exact .next reached isEntered isChild
  | next _ nextEntered isChild ih => exact .next ih nextEntered isChild

theorem Reached.uncons (reached : Reached child enter start node) :
    child start node ∨
      ∃ middle, child start middle ∧ enter middle ∧
        Reached child enter middle node := by
  induction reached with
  | first isChild => exact .inl isChild
  | next reached isEntered isChild ih =>
    rcases ih with
      startChild | ⟨top, topChild, topEntered, below⟩
    · exact .inr ⟨_, startChild, isEntered, .first isChild⟩
    · exact .inr ⟨top, topChild, topEntered, .next below isEntered isChild⟩

theorem Reached.rank_lt {rank : N → ℕ}
    (descends : ∀ above node, child above node → rank above < rank node)
    (reached : Reached child enter start node) : rank start < rank node := by
  induction reached with
  | first isChild => exact descends _ _ isChild
  | next _ _ isChild ih => exact Nat.lt_trans ih (descends _ _ isChild)

end Reached

/-- The nodes a walk down from a node takes, at most `depth` levels deep. -/
def walk (children : N → List N) (enter : N → Bool) : ℕ → N → List N
  | 0, _ => []
  | depth + 1, start =>
    (children start).flatMap fun node =>
      node :: if enter node then walk children enter depth node else []

section Walk

variable {children : N → List N} {enter : N → Bool} {start node : N} {depth : ℕ}

theorem mem_walk_succ :
    node ∈ walk children enter (depth + 1) start ↔
      node ∈ children start ∨
        ∃ middle ∈ children start, enter middle = true ∧
          node ∈ walk children enter depth middle := by
  simp only [walk, List.mem_flatMap, List.mem_cons]
  constructor
  · rintro ⟨middle, isChild, same | below⟩
    · subst same
      exact .inl isChild
    · split at below
      case isTrue isEntered => exact .inr ⟨middle, isChild, isEntered, below⟩
      case isFalse => simp at below
  · rintro (isChild | ⟨middle, isChild, isEntered, below⟩)
    · exact ⟨node, isChild, .inl rfl⟩
    · exact ⟨middle, isChild, .inr (by simpa [isEntered] using below)⟩

theorem reached_of_mem_walk (member : node ∈ walk children enter depth start) :
    Reached (fun above node => node ∈ children above) (enter · = true) start
      node := by
  induction depth generalizing start with
  | zero => simp [walk] at member
  | succ depth ih =>
    rcases mem_walk_succ.mp member with
      isChild | ⟨middle, isChild, isEntered, below⟩
    · exact .first isChild
    · exact Reached.trans (.first isChild) isEntered (ih below)

theorem mem_walk_iff {rank : N → ℕ} {bound depth : ℕ}
    (descends : ∀ above, ∀ node ∈ children above, rank above < rank node)
    (bounded : ∀ above, ∀ node ∈ children above, rank node < bound)
    (deep : bound ≤ rank start + depth) :
    node ∈ walk children enter depth start ↔
      Reached (fun above node => node ∈ children above) (enter · = true)
        start node := by
  refine ⟨reached_of_mem_walk, fun reached => ?_⟩
  induction depth generalizing start with
  | zero =>
    obtain ⟨child, isChild⟩ : ∃ child, child ∈ children start := by
      rcases reached.uncons with isChild | ⟨middle, isChild, _, _⟩
      · exact ⟨node, isChild⟩
      · exact ⟨middle, isChild⟩
    have := descends _ _ isChild
    have := bounded _ _ isChild
    omega
  | succ depth ih =>
    rw [mem_walk_succ]
    rcases reached.uncons with isChild | ⟨middle, isChild, isEntered, below⟩
    · exact .inl isChild
    · refine .inr ⟨middle, isChild, isEntered, ih ?_ below⟩
      have := descends _ _ isChild
      omega

end Walk

end Forest
