import DrakeSyntax.Proofs.Runs.Chain
import DrakeSyntax.Proofs.WellFormed

/-!
# Levels of operators

Every operator binds as tight as `BinaryOperator.precedence` says, and the levels of operators
(`OperatorLevel.all`) are in the order of that.

* `precedence_level`: the level of an operator.
* `readsOperand_levelsFrom`: what some levels read is read by looser levels as well.
* `OperatorLevel.groupLeft_append`: when the operator changes, the chain before it is the first
  operand.
-/

namespace DrakeSyntax

open DrakeSyntax.Parser

/-- How tight the operator binds, the loosest operators with 0. -/
def BinaryOperator.precedence : BinaryOperator → Nat
  | or => 0
  | xor => 1
  | and => 2
  | in_ | notIn => 3
  | is | isNot => 4
  | less | lessEqual | greater | greaterEqual | equal | notEqual => 5
  | bitOr => 6
  | bitXor => 7
  | bitAnd => 8
  | shiftLeft | shiftRight => 9
  | add | subtract => 10
  | multiply | divide => 11
  | modulo => 12
  | power => 13

/-- Operators that bind equally tight group alike. -/
theorem groupsRight_eq (op : BinaryOperator) :
    op.groupsRight = (decide (op.precedence ≤ 2) || op.precedence == 13) := by
  cases op <;> rfl

theorem groupsRight_of_precedence {op op' : BinaryOperator} (h : op.precedence = op'.precedence) :
    op.groupsRight = op'.groupsRight := by
  rw [groupsRight_eq, groupsRight_eq, h]

theorem precedence_lt (op : BinaryOperator) : op.precedence < 14 := by
  cases op <;> decide

/-- The levels from a precedence on. -/
def levelsFrom (i : Nat) : List OperatorLevel := OperatorLevel.all.drop i

/-- The level at the precedence of an operator has the operators of that precedence, and none of
them belongs to a level that binds tighter. -/
theorem precedence_level (op : BinaryOperator) :
    ∃ level : OperatorLevel, levelsFrom op.precedence = level :: levelsFrom (op.precedence + 1) ∧
      level.Apart (levelsFrom (op.precedence + 1)) ∧
      level.associativity = (if op.groupsRight then .right else .left) ∧
      ∀ op' : BinaryOperator, op'.precedence = op.precedence → op' ∈ level.operators := by
  cases op
  all_goals
    refine ⟨_, rfl, ?_, rfl, ?_⟩
    · unfold OperatorLevel.Apart
      decide
    · rintro op' h
      cases op' <;> first | decide | cases h

theorem readsOperand_levelsFrom {operand : Parser Node} {r i j : Nat} {x : Operand} (hij : i ≤ j)
    (hx : ReadsOperand (cascade r operand (levelsFrom j)) (levelsFrom j) x) :
    ReadsOperand (cascade r operand (levelsFrom i)) (levelsFrom i) x := by
  -- the looser levels come first
  have hlevels : (levelsFrom i).take (j - i) ++ levelsFrom j = levelsFrom i := by
    have hdrop : levelsFrom j = (levelsFrom i).drop (j - i) := by
      simp only [levelsFrom, List.drop_drop]
      rw [Nat.add_sub_cancel' hij]
    rw [hdrop, List.take_append_drop]
  rw [← hlevels]
  exact hx.cascade _

namespace OperatorLevel

theorem groupRun_replicate (position : Position) (op : BinaryOperator) (run ns : List Node) :
    groupRun position op run (ns.map (op, ·)) = ⟨.binary op (run ++ ns), position⟩ := by
  induction ns generalizing run with
  | nil => simp [groupRun]
  | cons n ns ih => simp [groupRun, ih]

/-- When the operator changes, the chain before it is the first operand. -/
theorem groupRun_append {op last : BinaryOperator} {rest : List (BinaryOperator × Node)}
    (h : (rest.map (·.1)).getLastD last ≠ op) (position : Position) (run : List Node) (n : Node)
    (ns : List Node) :
    groupRun position last run (rest ++ (n :: ns).map (op, ·)) =
      ⟨.binary op (groupRun position last run rest :: n :: ns), position⟩ := by
  induction rest generalizing last run with
  | nil =>
    -- the operator changes here
    have hne : op ≠ last := Ne.symm h
    simp only [List.nil_append, List.map_cons, groupRun, if_neg hne, groupRun_replicate]
    rfl
  | cons x rest ih =>
    obtain ⟨next, operand⟩ := x
    simp only [List.map_cons, List.getLastD_cons] at h
    simp only [List.cons_append, groupRun]
    split
    · next heq =>
      subst heq
      exact ih h _
    · exact ih h _

theorem groupLeft_append {op : BinaryOperator} {rest : List (BinaryOperator × Node)}
    (h : ∀ x ∈ rest.getLast?, x.1 ≠ op) (first n : Node) (ns : List Node) :
    groupLeft first (rest ++ (n :: ns).map (op, ·)) =
      ⟨.binary op (groupLeft first rest :: n :: ns), first.position⟩ := by
  cases rest with
  | nil => exact groupRun_replicate first.position op [first, n] ns
  | cons x rest =>
    obtain ⟨last, operand⟩ := x
    refine groupRun_append ?_ _ _ _ _
    cases hrest : rest.getLast? with
    | none => simpa [List.getLast?_eq_none_iff.1 hrest] using h
    | some y => simpa [List.getLast?_cons, hrest, List.getLastD_eq_getLast?] using h

end OperatorLevel

end DrakeSyntax
