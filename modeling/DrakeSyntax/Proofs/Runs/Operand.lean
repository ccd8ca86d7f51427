import DrakeSyntax.Grammar.Expression
import DrakeSyntax.Proofs.Runs.Chain

/-!
# Reading operands

Atoms, expressions in parentheses and unary operators are read as operands, by phrases of a given
depth (`phrases`).

* `readsOperand_token`: a literal or a name is an operand.
* `readsOperand_group`: an expression in parentheses is an operand.
* `readsOperand_unary`: an operand with a unary operator in front of it is an operand.
-/

namespace DrakeSyntax

open DrakeSyntax.Parser

/-- The phrases of a depth, with nothing remembered. -/
def phrases (depth : Nat) : Inner := (Inner.none false).nest depth

@[simp]
theorem phrases_rounds (depth : Nat) : (phrases depth).rounds = depth := by
  induction depth with
  | zero => rfl
  | succ depth ih => exact congrArg (· + 1) ih

@[simp]
theorem phrases_remembers (depth : Nat) : (phrases depth).remembers = false := by
  induction depth with
  | zero => rfl
  | succ depth ih => exact ih

/-- The tokens in parentheses. -/
def inParens (w : List Token) : List Token :=
  .punctuator .leftParen :: (w ++ [.punctuator .rightParen])

/-- The tokens, in parentheses unless they may be bare. -/
def parensUnless (bare : Bool) (w : List Token) : List Token := if bare then w else inParens w

/-- The token that the literal is written as. -/
def Literal.token : Literal → Token
  | .string value => .string value
  | .number literal => .number literal
  | .boolean true => .keyword .true_
  | .boolean false => .keyword .false_
  | .none => .keyword .none_

variable {g : Inner} {E : Prop} {w k : List Token} {n : Node} {x : Operand} {r : Nat}

theorem reads_trailers_none (hk : Ahead (fun t => !t.opensTrailer) k) :
    ReadsOr E (trailers g r) k k (· = []) := by
  obtain ⟨t, k, rfl, ht⟩ := hk.exists_cons
  cases r with
  | zero => exact ReadsOr.pure rfl
  | succ r =>
    have htrailer : t.opensTrailer = false := by simpa using ht
    -- no trailer begins here
    have hdot : t ≠ .punctuator .dot := Token.ne_of_apply htrailer rfl
    have hparen : t ≠ .punctuator .leftParen := Token.ne_of_apply htrailer rfl
    have hbracket : (t == .punctuator .leftBracket) = false :=
      beq_false_of_ne (Token.ne_of_apply htrailer rfl)
    refine Runs.eat_bind_ne hdot (Runs.ite_false ?_)
    refine Runs.eat_bind_ne hparen (Runs.ite_false ?_)
    refine Runs.isAt_bind ?_
    rw [hbracket]
    exact Runs.ite_false (ReadsOr.pure rfl)

theorem reads_primary_of_atom (h : Reads (atom g) (w ++ k) k fun m => m.same n)
    (hk : Ahead (fun t => !t.opensTrailer) k) :
    Reads (primary g) (w ++ k) k fun m => m.same n := by
  refine h.bind fun m hm => ?_
  refine (reads_trailers_none hk).bind ?_
  rintro _ rfl
  exact ReadsOr.pure hm

/-- An atom is an operand. -/
theorem readsOperand_of_atom (hw : Ahead (fun t => (unaryOperator? t).isNone) x.words)
    (h : ∀ k, Reads (atom g) (x.words ++ k) k fun m => m.same x.node) :
    ReadsOperand (unary g) [] x := by
  intro k hk
  have hprimary := reads_primary_of_atom (h k) hk.trailer
  obtain ⟨t, w, hwords, ht⟩ := hw.exists_cons
  rw [hwords] at hprimary ⊢
  refine Runs.peek_bind fun position => ?_
  simp only [Option.isNone_iff_eq_none] at ht
  simp only [ht]
  exact hprimary

theorem reads_atom_token {t : Token} {kind : NodeKind} (ht : atomOf? t = some kind)
    (position : Position) :
    Reads (atom g) (t :: k) k fun m => m.same ⟨kind, position⟩ := by
  -- what an atom is does not depend on where it stands
  have hkind (p q : Position) : Node.same ⟨kind, p⟩ ⟨kind, q⟩ := by
    unfold atomOf? at ht
    split at ht
    all_goals cases ht
    all_goals simp [Node.same, NodeKind.same]
  refine Runs.peek_bind fun position' => ?_
  have hend : t ≠ .endOfInput := by
    rintro rfl
    cases ht
  have htaken : Reads (do discard advance; return (⟨kind, position'⟩ : Node)) (t :: k) k
      fun m => m.same ⟨kind, position⟩ :=
    Runs.discard_bind (Runs.advance_bind hend fun _ => ReadsOr.pure (hkind _ _))
  dsimp only
  split
  · cases ht
  · cases ht
  · cases ht
  · simp only [ht]
    exact htaken

theorem atomOf?_literal (value : Literal) : atomOf? value.token = some (.literal value) := by
  match value with
  | .string _ | .number _ | .boolean true | .boolean false | .none => rfl

/-- A literal or a name is an operand. -/
theorem readsOperand_token {t : Token} {kind : NodeKind} (ht : atomOf? t = some kind)
    (position : Position) : ReadsOperand (unary g) [] ⟨[t], ⟨kind, position⟩⟩ := by
  refine readsOperand_of_atom ?_ fun k => reads_atom_token ht position
  unfold atomOf? at ht
  split at ht
  all_goals first
    | rfl
    | cases ht

/-- An expression in parentheses stands for itself. -/
theorem reads_paren_group (hr : 0 < g.rounds) (hopen : Ahead Token.opensItem w)
    (h : ∀ k, Ahead Token.endsItem k → Reads g.expression (w ++ k) k fun m => m.same n) :
    Reads (paren g) (inParens w ++ k) k fun m => m.same n := by
  -- a list with one item and no comma behind it
  have hlist : Reads (list g.rounds g.expression)
      (commaList ([n].map fun _ => w) ++ .punctuator .rightParen :: k)
      (.punctuator .rightParen :: k)
      fun l => l.trailingComma = false ∧ List.Forall₂ (fun n m => m.same n) [n] l.items :=
    reads_list (by simpa using h) (by simpa using hopen) rfl hr
  have hwords : inParens w ++ k =
      .punctuator .leftParen ::
        (commaList ([n].map fun _ => w) ++ .punctuator .rightParen :: k) := by
    simp [inParens, commaList]
  have hparens : Reads (parenthesized g) (inParens w ++ k) k fun l =>
      ∃ m, l.1 = ⟨[m], false⟩ ∧ m.same n := by
    rw [hwords]
    refine Runs.expect_bind (by decide) fun position => ?_
    refine hlist.bind ?_
    rintro ⟨items, trailing⟩ ⟨rfl, hitems⟩
    cases hitems with
    | cons hm hrest =>
      cases hrest
      exact Runs.discard_bind (Runs.expect_bind (by decide) fun _ => ReadsOr.pure ⟨_, rfl, hm⟩)
  refine hparens.bind ?_
  rintro ⟨_, position⟩ ⟨m, rfl, hm⟩
  exact ReadsOr.pure hm

theorem reads_atom_group (hr : 0 < g.rounds) (hopen : Ahead Token.opensItem w)
    (h : ∀ k, Ahead Token.endsItem k → Reads g.expression (w ++ k) k fun m => m.same n) :
    Reads (atom g) (inParens w ++ k) k fun m => m.same n :=
  Runs.peek_bind fun _ => reads_paren_group hr hopen h

/-- An expression in parentheses is an operand. -/
theorem readsOperand_group (hr : 0 < g.rounds) (hopen : Ahead Token.opensItem w)
    (h : ∀ k, Ahead Token.endsItem k → Reads g.expression (w ++ k) k fun m => m.same n) :
    ReadsOperand (unary g) [] ⟨inParens w, n⟩ :=
  readsOperand_of_atom rfl fun _ => reads_atom_group hr hopen h

/-- An operand with a unary operator in front of it is an operand. -/
theorem readsOperand_unary (h : ReadsOperand g.unary [] x) (op : UnaryOperator)
    (position : Position) :
    ReadsOperand (unary g) [] ⟨op.token :: x.words, ⟨.unary op x.node, position⟩⟩ := by
  intro k hk
  have hop : unaryOperator? op.token = some op := by cases op <;> rfl
  have hend : op.token ≠ .endOfInput := by cases op <;> decide
  refine Runs.peek_bind fun position' => ?_
  simp only [hop]
  refine Runs.discard_bind (Runs.advance_bind hend fun _ => ?_)
  refine (h k hk).bind fun m hm => ?_
  exact ReadsOr.pure (by simpa [Node.same, NodeKind.same] using hm)

end DrakeSyntax
