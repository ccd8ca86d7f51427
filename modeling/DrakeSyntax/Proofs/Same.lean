import Mathlib.Data.List.Forall2
import DrakeSyntax.Tree.Same

/-!
# Equality up to positions

Equality of lists up to positions is equality of their elements, and equality of optional nodes
that of the nodes.
-/

namespace DrakeSyntax

theorem sameList_iff {α : Type} {same : α → α → Bool} {as bs : List α} :
    sameList same as bs ↔ List.Forall₂ (fun a b => same a b) as bs := by
  induction as generalizing bs with
  | nil => cases bs <;> simp [sameList]
  | cons a as ih => cases bs <;> simp [sameList, ih]

theorem TypeHint.sameAll_iff {as bs : List TypeHint} :
    TypeHint.sameAll as bs ↔ List.Forall₂ (fun a b => a.same b) as bs := by
  induction as generalizing bs with
  | nil => cases bs <;> simp [TypeHint.sameAll]
  | cons a as ih => cases bs <;> simp [TypeHint.sameAll, ih]

theorem Node.sameAll_iff {as bs : List Node} :
    Node.sameAll as bs ↔ List.Forall₂ (fun a b => a.same b) as bs := by
  induction as generalizing bs with
  | nil => cases bs <;> simp [Node.sameAll]
  | cons a as ih => cases bs <;> simp [Node.sameAll, ih]

theorem Pair.sameAll_iff {as bs : List Pair} :
    Pair.sameAll as bs ↔ List.Forall₂ (fun a b => a.same b) as bs := by
  induction as generalizing bs with
  | nil => cases bs <;> simp [Pair.sameAll]
  | cons a as ih => cases bs <;> simp [Pair.sameAll, ih]

theorem KeywordArgument.sameAll_iff {as bs : List KeywordArgument} :
    KeywordArgument.sameAll as bs ↔ List.Forall₂ (fun a b => a.same b) as bs := by
  induction as generalizing bs with
  | nil => cases bs <;> simp [KeywordArgument.sameAll]
  | cons a as ih => cases bs <;> simp [KeywordArgument.sameAll, ih]

theorem KeywordParameter.sameAll_iff {as bs : List KeywordParameter} :
    KeywordParameter.sameAll as bs ↔ List.Forall₂ (fun a b => a.same b) as bs := by
  induction as generalizing bs with
  | nil => cases bs <;> simp [KeywordParameter.sameAll]
  | cons a as ih => cases bs <;> simp [KeywordParameter.sameAll, ih]

@[simp]
theorem Node.sameOptional_none : Node.sameOptional none none := by
  simp [Node.sameOptional]

@[simp]
theorem Node.sameOptional_some {a b : Node} :
    Node.sameOptional (some a) (some b) = a.same b := by
  simp [Node.sameOptional]

theorem Node.same_position {m : Node} {kind : NodeKind} (p q : Position) :
    m.same ⟨kind, p⟩ = m.same ⟨kind, q⟩ := by
  obtain ⟨kind', p'⟩ := m
  simp [Node.same]

end DrakeSyntax
