import Mathlib.Data.Finset.Card

/-!
# Graphs without a cycle

A graph stays acyclic when the nodes it gains have edges to later nodes only,
and when the nodes it had gain edges out of one node, with no way back.
-/

namespace Graphs

open Relation

variable {N : Type*}

/-- No node reaches itself. -/
def Acyclic (edge : N → N → Prop) : Prop :=
  ∀ node, ¬ TransGen edge node node

section Growth

variable {edge later : N → N → Prop} {source : N}

/-- New edges lead from one node to nodes that had no way back to it. -/
theorem path_cases
    (grows : ∀ start finish, later start finish →
      edge start finish ∨ (start = source ∧ ¬ ReflTransGen edge finish source))
    {start finish : N} (path : TransGen later start finish) :
    TransGen edge start finish ∨
      (ReflTransGen edge start source ∧
        ∃ target, ¬ ReflTransGen edge target source ∧ ReflTransGen edge target finish) := by
  induction path using TransGen.head_induction_on with
  | single isEdge =>
    rcases grows _ _ isEdge with before | ⟨rfl, noWay⟩
    · exact .inl (.single before)
    · exact .inr ⟨.refl, _, noWay, .refl⟩
  | head isEdge _ ih =>
    rcases grows _ _ isEdge with before | ⟨rfl, noWay⟩
    · rcases ih with rest | ⟨reaches, new⟩
      · exact .inl (.head before rest)
      · exact .inr ⟨.head before reaches, new⟩
    · rcases ih with rest | ⟨reaches, _⟩
      · exact .inr ⟨.refl, _, noWay, rest.to_reflTransGen⟩
      · exact absurd reaches noWay

theorem Acyclic.grow (acyclic : Acyclic edge)
    (grows : ∀ start finish, later start finish →
      edge start finish ∨ (start = source ∧ ¬ ReflTransGen edge finish source)) :
    Acyclic later := by
  intro node cycle
  rcases path_cases grows cycle with before | ⟨reaches, target, noWay, back⟩
  · exact acyclic node before
  · exact noWay (back.trans reaches)

/-- Nodes whose edges lead to later ones of their kind are on no cycle. -/
theorem Acyclic.extend {old : N → Prop} {rank : N → ℕ}
    (fresh : ∀ start finish, later start finish → ¬ old start →
      ¬ old finish ∧ rank start < rank finish)
    (acyclic : Acyclic fun start finish => later start finish ∧ old finish) : Acyclic later := by
  intro node cycle
  have ascends : ∀ {start finish : N}, TransGen later start finish →
      ¬ old start → ¬ old finish ∧ rank start < rank finish := by
    intro start finish path notOld
    induction path with
    | single isEdge => exact fresh _ _ isEdge notOld
    | tail _ isEdge ih =>
      obtain ⟨stillNew, less⟩ := ih
      obtain ⟨lastNew, lessAgain⟩ := fresh _ _ isEdge stillNew
      exact ⟨lastNew, less.trans lessAgain⟩
  by_cases isOld : old node
  · have within : ∀ {start : N}, TransGen later start node →
        TransGen (fun start finish => later start finish ∧ old finish)
          start node := by
      intro start path
      induction path using TransGen.head_induction_on with
      | single isEdge => exact .single ⟨isEdge, isOld⟩
      | head isEdge rest ih =>
        refine .head ⟨isEdge, ?_⟩ ih
        by_contra notOld
        exact (ascends rest notOld).1 isOld
    exact acyclic node (within cycle)
  · exact absurd (ascends cycle isOld).2 (lt_irrefl _)

end Growth

/-- From every node of a finite acyclic graph, one without an edge is
reached. -/
theorem Acyclic.exists_sink {edge : N → N → Prop} (acyclic : Acyclic edge) (nodes : Finset N)
    (targets : ∀ start finish, edge start finish → finish ∈ nodes) (start : N) :
    ∃ sink, ReflTransGen edge start sink ∧ ∀ finish, ¬ edge sink finish := by
  classical
  -- Each edge leaves fewer nodes to reach.
  induction measure : (nodes.filter (TransGen edge start)).card using
      Nat.strong_induction_on generalizing start with
  | _ count ih =>
    by_cases isSink : ∀ finish, ¬ edge start finish
    · exact ⟨start, .refl, isSink⟩
    · obtain ⟨next, isEdge⟩ := not_forall_not.mp isSink
      have fewer : (nodes.filter (TransGen edge next)).card < count := by
        rw [← measure]
        refine Finset.card_lt_card (Finset.ssubset_iff_of_subset ?_ |>.mpr ⟨next, ?_, ?_⟩)
        · intro node member
          obtain ⟨isNode, reaches⟩ := Finset.mem_filter.mp member
          exact Finset.mem_filter.mpr ⟨isNode, .head isEdge reaches⟩
        · exact Finset.mem_filter.mpr ⟨targets _ _ isEdge, .single isEdge⟩
        · intro member
          exact acyclic next (Finset.mem_filter.mp member).2
      obtain ⟨sink, reaches, isLast⟩ := ih _ fewer next rfl
      exact ⟨sink, .head isEdge reaches, isLast⟩

end Graphs
