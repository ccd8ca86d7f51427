import DrakeSyntax.Proofs.Runs.Level
import DrakeSyntax.Proofs.Runs.Operand

/-!
# Operator trees and how they are written

Trees of names, literals and operators, written with parentheses only where they are needed
(`OperatorTree.words`). Operators bind as tight as `BinaryOperator.precedence` says, and those with
two operands (`BinaryOperator.groupsRight`) group to the right.

What is written without parentheses at a level is a chain of operands (`OperatorTree.chainOf`):

* `OperatorTree.chainOf_words`: the chain is written as the tree is.
* `OperatorTree.chainOf_groupLeft`, `OperatorTree.chainOf_groupRight`: grouping the chain gives
  the tree.
-/

namespace DrakeSyntax

/-- A tree of names, literals and operators. An operator that groups to the left has two operands
or more, one that groups to the right has two. -/
inductive OperatorTree where
  | name (x : String)
  | literal (value : Literal)
  | unary (operator : UnaryOperator) (operand : OperatorTree)
  | left (operator : BinaryOperator) (groups : operator.groupsRight = false)
    (first second : OperatorTree) (more : List OperatorTree)
  | right (operator : BinaryOperator) (groups : operator.groupsRight = true)
    (first second : OperatorTree)

namespace OperatorTree

/-- Induction over all operands of a tree. -/
@[elab_as_elim]
theorem induct {motive : OperatorTree → Prop} (name : ∀ x, motive (name x))
    (literal : ∀ value, motive (literal value))
    (unary : ∀ operator operand, motive operand → motive (unary operator operand))
    (left : ∀ operator groups first second more, motive first → motive second →
      (∀ t ∈ more, motive t) → motive (left operator groups first second more))
    (right : ∀ operator groups first second, motive first → motive second →
      motive (right operator groups first second)) (t : OperatorTree) : motive t :=
  @OperatorTree.rec motive (fun ts => ∀ t ∈ ts, motive t) name literal unary left right
    (by simp) (fun _ _ ht hts => List.forall_mem_cons.2 ⟨ht, hts⟩) t

/-- The binary operator at the top of the tree, if there is one. -/
def operator? : OperatorTree → Option BinaryOperator
  | name _ | literal _ | unary _ _ => none
  | left operator .. | right operator .. => some operator

/-- Whether the tree is no binary operation or one that binds tighter than the operator. -/
def isTighter (parent : BinaryOperator) (t : OperatorTree) : Bool :=
  t.operator?.all (parent.precedence < ·.precedence)

/-- Whether the tree is an operation of the same level with another operator. -/
def isSibling (parent : BinaryOperator) (t : OperatorTree) : Bool :=
  t.operator?.any fun op => op.precedence == parent.precedence && op != parent

/-- Whether the tree is an operation of the same level. -/
def isLevel (parent : BinaryOperator) (t : OperatorTree) : Bool :=
  t.operator?.any (·.precedence == parent.precedence)

/-- Whether an operand that is written as `w` may stand bare behind an operator that groups to the
left. An operand of `is` must not begin with `not`, since `is not` is another operator. -/
def isBareBehind (parent : BinaryOperator) (t : OperatorTree) (w : List Token) : Bool :=
  isTighter parent t && !(parent == .is && w.head? == some (.keyword .not))

mutual

/-- The tree as it is written, with parentheses only where they are needed. -/
def words : OperatorTree → List Token
  | name x => [.identifier x]
  | literal value => [value.token]
  | unary operator operand =>
    operator.token :: parensUnless operand.operator?.isNone operand.words
  | left operator _ first second more =>
    parensUnless (isTighter operator first || isSibling operator first) first.words
      ++ (operator.tokens ++ parensUnless (isBareBehind operator second second.words) second.words)
      ++ wordsBehind operator more
  | right operator _ first second =>
    parensUnless (isTighter operator first) first.words
      ++ (operator.tokens
        ++ parensUnless (isTighter operator second || isLevel operator second) second.words)

/-- Further operands of an operator that groups to the left, each behind the operator. -/
def wordsBehind (operator : BinaryOperator) : List OperatorTree → List Token
  | [] => []
  | t :: ts =>
    operator.tokens ++ parensUnless (isBareBehind operator t t.words) t.words
      ++ wordsBehind operator ts

end

mutual

/-- The tree as a node. -/
def node : OperatorTree → Node
  | name x => ⟨.identifier x, .start⟩
  | literal value => ⟨.literal value, .start⟩
  | unary operator operand => ⟨.unary operator operand.node, .start⟩
  | left operator _ first second more =>
    ⟨.binary operator (first.node :: second.node :: nodes more), .start⟩
  | right operator _ first second => ⟨.binary operator [first.node, second.node], .start⟩

/-- The trees as nodes. -/
def nodes : List OperatorTree → List Node
  | [] => []
  | t :: ts => t.node :: nodes ts

end

/-- The tree as an operand. -/
def operand (bare : Bool) (t : OperatorTree) : Operand := ⟨parensUnless bare t.words, t.node⟩

/-- The tree as an operand behind an operator that groups to the left. -/
def operandBehind (parent : BinaryOperator) (t : OperatorTree) : Operand :=
  t.operand (isBareBehind parent t t.words)

/-- The operands that the tree has on the level of its operator, as they are written: what it has
in parentheses or binds tighter is an operand, and what belongs to the level is a part of the
chain. -/
def chainOf : OperatorTree → Operand × List (BinaryOperator × Operand)
  | left operator _ first second more =>
    let start :=
      if isSibling operator first then chainOf first
      else (first.operand (isTighter operator first), [])
    (start.1, start.2 ++ (operator, operandBehind operator second) ::
      more.map fun t => (operator, operandBehind operator t))
  | right operator _ first second =>
    let rest :=
      if isLevel operator second then chainOf second
      else (second.operand (isTighter operator second), [])
    (first.operand (isTighter operator first), (operator, rest.1) :: rest.2)
  | t => (t.operand true, [])

theorem nodes_eq_map (ts : List OperatorTree) : nodes ts = ts.map node := by
  induction ts with
  | nil => rfl
  | cons t ts ih => rw [nodes, ih, List.map_cons]

theorem node_position (t : OperatorTree) : t.node.position = .start := by
  cases t <;> simp only [node]

theorem wordsBehind_eq (operator : BinaryOperator) (ts : List OperatorTree) :
    wordsBehind operator ts =
      chainWords (ts.map fun t => (operator, operandBehind operator t)) := by
  induction ts with
  | nil => rfl
  | cons t ts ih =>
    simp only [wordsBehind, ih, chainWords, List.map_cons, List.flatMap_cons]
    rfl

/-- The chain is written as the tree is. -/
theorem chainOf_words (t : OperatorTree) :
    t.chainOf.1.words ++ chainWords t.chainOf.2 = t.words := by
  induction t using induct with
  | name => rfl
  | literal => rfl
  | unary => exact List.append_nil _
  | left operator groups first second more ihFirst =>
    -- the first operand, as a chain or as a single operand
    have hstart : parensUnless (isTighter operator first || isSibling operator first) first.words =
        (if isSibling operator first then chainOf first
          else (first.operand (isTighter operator first), [])).1.words ++
        chainWords (if isSibling operator first then chainOf first
          else (first.operand (isTighter operator first), [])).2 := by
      cases isSibling operator first with
      | true => simp [ihFirst, parensUnless]
      | false => simp [operand, chainWords]
    simp only [chainOf, words, hstart, wordsBehind_eq, chainWords, List.flatMap_append,
      List.flatMap_cons, List.append_assoc]
    rfl
  | right operator groups first second ihFirst ihSecond =>
    -- the second operand, as a chain or as a single operand
    have hrest : parensUnless (isTighter operator second || isLevel operator second) second.words =
        (if isLevel operator second then chainOf second
          else (second.operand (isTighter operator second), [])).1.words ++
        chainWords (if isLevel operator second then chainOf second
          else (second.operand (isTighter operator second), [])).2 := by
      cases isLevel operator second with
      | true => simp [ihSecond, parensUnless]
      | false => simp [operand, chainWords]
    simp only [chainOf, words, hrest, chainWords, List.flatMap_cons, List.append_assoc]
    rfl

theorem chainOf_position (t : OperatorTree) : t.chainOf.1.node.position = .start := by
  induction t using induct with
  | name => exact node_position _
  | literal => exact node_position _
  | unary => exact node_position _
  | left operator groups first second more ihFirst =>
    unfold chainOf
    split
    · exact ihFirst
    · exact node_position _
  | right => exact node_position _

/-- The last operator of a chain that groups to the left is that of the tree. -/
theorem chainOf_getLast? {t : OperatorTree} {op : BinaryOperator} (hop : t.operator? = some op)
    (hgroups : op.groupsRight = false) : ∀ x ∈ t.chainOf.2.getLast?, x.1 = op := by
  cases t with
  | left operator groups first second more =>
    obtain rfl := Option.some.inj hop
    intro x hx
    simp only [chainOf, List.getLast?_append, List.getLast?_cons] at hx
    simp only [Option.some_or, Option.mem_some_iff] at hx
    subst hx
    cases hlast : (more.map fun t => (operator, operandBehind operator t)).getLast? with
    | none => rfl
    | some y =>
      obtain ⟨t, -, rfl⟩ := List.mem_map.1 (List.mem_of_getLast? hlast)
      rfl
  | right operator groups first second =>
    obtain rfl := Option.some.inj hop
    rw [groups] at hgroups
    cases hgroups
  | _ => cases hop

/-- Grouping a chain to the left gives the tree. -/
theorem chainOf_groupLeft {t : OperatorTree} {op : BinaryOperator} (hop : t.operator? = some op)
    (hgroups : op.groupsRight = false) :
    OperatorLevel.groupLeft t.chainOf.1.node (chainNodes t.chainOf.2) = t.node := by
  induction t using induct generalizing op with
  | name => cases hop
  | literal => cases hop
  | unary => cases hop
  | left operator groups first second more ihFirst =>
    -- a chain that gives the first operand and ends in another operator
    have hchain (start : Operand × List (BinaryOperator × Operand))
        (hstart : OperatorLevel.groupLeft start.1.node (chainNodes start.2) = first.node)
        (hlast : ∀ x ∈ start.2.getLast?, x.1 ≠ operator)
        (hposition : start.1.node.position = .start) :
        OperatorLevel.groupLeft start.1.node (chainNodes (start.2 ++
          (operator, operandBehind operator second) ::
            more.map fun t => (operator, operandBehind operator t))) =
        (left operator groups first second more).node := by
      have hrest : chainNodes (start.2 ++ (operator, operandBehind operator second) ::
            more.map fun t => (operator, operandBehind operator t)) =
          chainNodes start.2 ++ (second.node :: nodes more).map (operator, ·) := by
        simp only [chainNodes, nodes_eq_map, List.map_append, List.map_cons, List.map_map]
        rfl
      rw [hrest, OperatorLevel.groupLeft_append, hstart, hposition, node]
      intro x hx
      simp only [chainNodes, List.getLast?_map, Option.mem_def, Option.map_eq_some_iff] at hx
      obtain ⟨y, hy, rfl⟩ := hx
      exact hlast y hy
    simp only [chainOf]
    split
    · next hsibling =>
      simp only [isSibling, Option.any_eq_true] at hsibling
      obtain ⟨op', hop', hlevel⟩ := hsibling
      simp only [Bool.and_eq_true, beq_iff_eq, bne_iff_ne] at hlevel
      -- operators that bind equally tight group alike
      have hleft : op'.groupsRight = false := (groupsRight_of_precedence hlevel.1).trans groups
      refine hchain _ (ihFirst hop' hleft) (fun x hx => ?_) (chainOf_position first)
      rw [chainOf_getLast? hop' hleft x hx]
      exact hlevel.2
    · exact hchain _ rfl (by simp) (node_position first)
  | right operator groups =>
    cases hop
    rw [groups] at hgroups
    cases hgroups

/-- Grouping a chain to the right gives the tree. -/
theorem chainOf_groupRight {t : OperatorTree} {op : BinaryOperator} (hop : t.operator? = some op)
    (hgroups : op.groupsRight = true) :
    OperatorLevel.groupRight t.chainOf.1.node (chainNodes t.chainOf.2) = t.node := by
  induction t using induct generalizing op with
  | name => cases hop
  | literal => cases hop
  | unary => cases hop
  | left operator groups =>
    cases hop
    rw [groups] at hgroups
    cases hgroups
  | right operator groups first second ihFirst ihSecond =>
    -- a chain that gives the second operand
    have hchain (rest : Operand × List (BinaryOperator × Operand))
        (hrest : OperatorLevel.groupRight rest.1.node (chainNodes rest.2) = second.node) :
        OperatorLevel.groupRight first.node (chainNodes ((operator, rest.1) :: rest.2)) =
          (right operator groups first second).node := by
      have hright :
          OperatorLevel.groupRight first.node (chainNodes ((operator, rest.1) :: rest.2)) =
          ⟨.binary operator [first.node, OperatorLevel.groupRight rest.1.node (chainNodes rest.2)],
            first.node.position⟩ := rfl
      rw [hright, hrest, node_position, node]
    unfold chainOf
    split
    · next hlevel =>
      simp only [isLevel, Option.any_eq_true, beq_iff_eq] at hlevel
      obtain ⟨op', hop', hlevel⟩ := hlevel
      exact hchain _ (ihSecond hop' ((groupsRight_of_precedence hlevel).trans groups))
    · exact hchain _ rfl

end OperatorTree

end DrakeSyntax
