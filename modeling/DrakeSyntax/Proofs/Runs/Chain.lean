import DrakeSyntax.Grammar.Chain
import DrakeSyntax.Grammar.Operand
import DrakeSyntax.Proofs.Runs.ItemList
import DrakeSyntax.Proofs.Same

/-!
# Reading operands and chains of operators

An operand (`Operand`) is written somehow and should be read as some node. It may be followed by
anything that does not belong to it: no trailer, and no operator of the levels that read the
operand (`EndsOperand`).

* `readsOperand_chain`: operands with operators of one level between them are read as the level
  groups them.
* `ReadsOperand.loosen`: what is read with some levels is read with looser levels as well.
-/

namespace DrakeSyntax

open DrakeSyntax.Parser

/-! ### Operators -/

/-- The tokens that spell the operator. -/
def BinaryOperator.tokens : BinaryOperator → List Token
  | or => [.keyword .or]
  | xor => [.keyword .xor]
  | and => [.keyword .and]
  | in_ => [.keyword .in_]
  | notIn => [.keyword .not, .keyword .in_]
  | is => [.keyword .is]
  | isNot => [.keyword .is, .keyword .not]
  | less => [.punctuator .less]
  | lessEqual => [.punctuator .lessEqual]
  | greater => [.punctuator .greater]
  | greaterEqual => [.punctuator .greaterEqual]
  | equal => [.punctuator .equalEqual]
  | notEqual => [.punctuator .notEqual]
  | bitOr => [.punctuator .bar]
  | bitXor => [.punctuator .caret]
  | bitAnd => [.punctuator .ampersand]
  | shiftLeft => [.punctuator .lessLess]
  | shiftRight => [.punctuator .greaterGreater]
  | add => [.punctuator .plus]
  | subtract => [.punctuator .minus]
  | multiply => [.punctuator .star]
  | divide => [.punctuator .slash]
  | modulo => [.punctuator .percent]
  | power => [.punctuator .starStar]

/-- The token that spells the operator. -/
def UnaryOperator.token : UnaryOperator → Token
  | not => .keyword .not
  | invert => .punctuator .exclamation
  | negate => .punctuator .minus

/-- The binary operator that the tokens begin with. -/
def operatorAhead : List Token → Option BinaryOperator
  | [] => none
  | t :: l => (BinaryOperator.ofTokens? t (l.headD t)).map (·.1)

variable {E : Prop} {l k : List Token} {operators : List BinaryOperator} {op : BinaryOperator}

theorem ParserState.following_of_tokens {s : ParserState} {t : Token} (h : s.tokens = t :: l) :
    s.cursor.following = l.headD t := by
  obtain ⟨⟨index, rest⟩, brackets⟩ := s
  match rest, h with
  | [u], h => cases h; rfl
  | u :: v :: us, h => cases h; rfl

/-- The operator `is` with `not` behind it is another operator. -/
def BinaryOperator.Separate (op : BinaryOperator) (l : List Token) : Prop :=
  op = .is → l.head? ≠ some (.keyword .not)

theorem ofTokens?_tokens (h : op.Separate l) :
    ∃ t r, op.tokens ++ l = t :: r ∧
      BinaryOperator.ofTokens? t (r.headD t) = some (op, op.tokens.length) := by
  cases op
  -- the only operator that is also the beginning of another one
  case is =>
    refine ⟨.keyword .is, l, rfl, ?_⟩
    have hne : l.headD (.keyword .is) ≠ .keyword .not := by
      cases l with
      | nil => simp
      | cons t l => simpa [BinaryOperator.Separate] using h
    simp only [BinaryOperator.ofTokens?, if_neg hne, BinaryOperator.tokens, List.length_singleton]
  all_goals exact ⟨_, _, rfl, rfl⟩

theorem operatorAhead_tokens (h : op.Separate l) : operatorAhead (op.tokens ++ l) = some op := by
  obtain ⟨t, r, hr, hop⟩ := ofTokens?_tokens h
  rw [hr, operatorAhead, hop]
  rfl

theorem runs_advanceBy {β : Type} {R : β → List Token → Prop} {f : Unit → Parser β} {w : List Token}
    (hw : .endOfInput ∉ w) (h : Runs (f ()) l R E) :
    Runs (advanceBy w.length >>= f) (w ++ l) R E := by
  induction w with
  | nil => exact h
  | cons t w ih =>
    obtain ⟨ht, hw⟩ := not_or.1 (mt List.mem_cons.2 hw)
    have hrest := ih hw
    have heq : advanceBy (t :: w).length >>= f =
        discard advance >>= fun _ => advanceBy w.length >>= f := by
      simp only [List.length_cons, advanceBy, bind_assoc]
    rw [heq]
    exact Runs.discard_bind (Runs.advance_bind (Ne.symm ht) fun _ => hrest)

theorem reads_operatorAmong (hop : op ∈ operators) (h : op.Separate l) :
    ReadsOr E (operatorAmong operators) (op.tokens ++ l) l (· = some op) := by
  obtain ⟨t, r, hr, hspelled⟩ := ofTokens?_tokens h
  have hend : Token.endOfInput ∉ op.tokens := by cases op <;> decide
  have hrest : ReadsOr E (advanceBy op.tokens.length >>= fun _ => pure (some op))
      (op.tokens ++ l) l (· = some op) := runs_advanceBy hend (ReadsOr.pure rfl)
  rw [hr] at hrest ⊢
  refine Runs.peek_bind fun position => Runs.look_bind (a := fun s => s.cursor.following)
    (fun _ => rfl) fun s hs => ?_
  simp only [ParserState.following_of_tokens hs, hspelled, if_pos hop]
  exact hrest

theorem reads_operatorAmong_none (h : ∀ op ∈ operatorAhead (t :: l), op ∉ operators) :
    ReadsOr E (operatorAmong operators) (t :: l) (t :: l) (· = none) := by
  refine Runs.peek_bind fun position => Runs.look_bind (a := fun s => s.cursor.following)
    (fun _ => rfl) fun s hs => ?_
  simp only [ParserState.following_of_tokens hs]
  simp only [operatorAhead] at h
  cases hop : BinaryOperator.ofTokens? t (l.headD t) with
  | none => exact ReadsOr.pure rfl
  | some found =>
    obtain ⟨op, width⟩ := found
    simp only [hop, Option.map_some, Option.mem_some_iff, forall_eq'] at h
    simp only [if_neg h]
    exact ReadsOr.pure rfl

/-! ### Grouping up to positions -/

/-- The chains have the same operators and operands, up to positions. -/
def SameChain (rest rest' : List (BinaryOperator × Node)) : Prop :=
  List.Forall₂ (fun x y => x.1 = y.1 ∧ x.2.same y.2) rest rest'

theorem same_binary {op : BinaryOperator} {ns ns' : List Node} {position position' : Position}
    (h : List.Forall₂ (fun a b => a.same b) ns ns') :
    Node.same ⟨.binary op ns, position⟩ ⟨.binary op ns', position'⟩ := by
  simp [Node.same, NodeKind.same, Node.sameAll_iff.2 h]

namespace OperatorLevel

theorem groupRun_same {rest rest' : List (BinaryOperator × Node)} (hrest : SameChain rest rest')
    {op : BinaryOperator} {run run' : List Node}
    (hrun : List.Forall₂ (fun a b => a.same b) run run') (position position' : Position) :
    (groupRun position op run rest).same (groupRun position' op run' rest') := by
  induction hrest generalizing op run run' with
  | nil => exact same_binary hrun
  | @cons x y rest rest' hxy hrest ih =>
    obtain ⟨next, operand⟩ := x
    obtain ⟨next', operand'⟩ := y
    obtain ⟨rfl, hoperand⟩ := hxy
    unfold groupRun
    split
    -- the same operator once more: the run gets longer
    · exact ih (List.rel_append hrun (.cons hoperand .nil))
    -- another operator: the run so far is its first operand
    · exact ih (.cons (same_binary hrun) (.cons hoperand .nil))

theorem groupRight_same {rest rest' : List (BinaryOperator × Node)}
    (hrest : SameChain rest rest') {first first' : Node} (hfirst : first.same first') :
    (groupRight first rest).same (groupRight first' rest') := by
  induction hrest generalizing first first' with
  | nil => exact hfirst
  | @cons x y rest rest' hxy hrest ih =>
    obtain ⟨op, operand⟩ := x
    obtain ⟨op', operand'⟩ := y
    obtain ⟨rfl, hoperand⟩ := hxy
    exact same_binary (.cons hfirst (.cons (ih hoperand) .nil))

theorem group_same (level : OperatorLevel) {rest rest' : List (BinaryOperator × Node)}
    (hrest : SameChain rest rest') {first first' : Node} (hfirst : first.same first') :
    (level.group first rest).same (level.group first' rest') := by
  unfold group
  split
  · cases hrest with
    | nil => exact hfirst
    | @cons x y rest rest' hxy hrest =>
      obtain ⟨op, operand⟩ := x
      obtain ⟨op', operand'⟩ := y
      obtain ⟨rfl, hoperand⟩ := hxy
      exact groupRun_same hrest (.cons hfirst (.cons hoperand .nil)) _ _
  · exact groupRight_same hrest hfirst

end OperatorLevel

/-! ### Operands -/

/-- Whether a trailer can begin with the token. -/
def Token.opensTrailer : Token → Bool
  | .punctuator .dot | .punctuator .leftParen | .punctuator .leftBracket => true
  | _ => false

/-- What comes next neither is a trailer nor begins with an operator of the levels. -/
structure EndsOperand (levels : List OperatorLevel) (k : List Token) : Prop where
  trailer : Ahead (fun t => !t.opensTrailer) k
  operator : ∀ op ∈ operatorAhead k, ∀ level ∈ levels, op ∉ level.operators

/-- An operand as it is written, and the node that it should be read as. -/
structure Operand where
  words : List Token
  node : Node

/-- The operand is read as it should be in front of what ends it. -/
def ReadsOperand (p : Parser Node) (levels : List OperatorLevel) (x : Operand) : Prop :=
  ∀ k, EndsOperand levels k → Reads p (x.words ++ k) k fun n => n.same x.node

/-- Operators with operands behind them, as they are written. -/
def chainWords (rest : List (BinaryOperator × Operand)) : List Token :=
  rest.flatMap fun x => x.1.tokens ++ x.2.words

/-- The operators and nodes of a chain. -/
def chainNodes (rest : List (BinaryOperator × Operand)) : List (BinaryOperator × Node) :=
  rest.map fun x => (x.1, x.2.node)

variable {level : OperatorLevel} {levels : List OperatorLevel} {operand : Parser Node} {r : Nat}

theorem EndsOperand.mono (h : EndsOperand (level :: levels) k) : EndsOperand levels k where
  trailer := h.trailer
  operator op hop l hl := h.operator op hop l (List.mem_cons_of_mem _ hl)

/-- The operators of a level do not belong to any of the levels that bind tighter. -/
def OperatorLevel.Apart (level : OperatorLevel) (levels : List OperatorLevel) : Prop :=
  ∀ op ∈ level.operators, ∀ l ∈ levels, op ∉ l.operators

/-- An operand in a chain: its operator belongs to the level and cannot be mistaken, and it is
read with the levels that bind tighter. -/
structure InChain (operand : Parser Node) (level : OperatorLevel) (levels : List OperatorLevel)
    (x : BinaryOperator × Operand) : Prop where
  mem : x.1 ∈ level.operators
  separate : ∀ k, x.1.Separate (x.2.words ++ k)
  reads : ReadsOperand operand levels x.2

theorem endsOperand_chainWords (hlevel : level.Apart levels)
    {rest : List (BinaryOperator × Operand)} (hrest : ∀ x ∈ rest, InChain operand level levels x)
    (hk : EndsOperand (level :: levels) k) : EndsOperand levels (chainWords rest ++ k) := by
  cases rest with
  | nil => exact hk.mono
  | cons x rest =>
    obtain ⟨hmem, hseparate, -⟩ := hrest x (List.mem_cons_self ..)
    have hwords : chainWords (x :: rest) ++ k =
        x.1.tokens ++ (x.2.words ++ (chainWords rest ++ k)) := by
      simp [chainWords]
    -- what comes next is an operator of this level
    rw [hwords]
    refine ⟨?_, ?_⟩
    · cases x.1 <;> rfl
    · rw [operatorAhead_tokens (hseparate _)]
      simpa using hlevel x.1 hmem

theorem reads_chainRest (hlevel : level.Apart levels) {rest : List (BinaryOperator × Operand)}
    (hrest : ∀ x ∈ rest, InChain operand level levels x) (hr : rest.length ≤ r)
    (hk : EndsOperand (level :: levels) k) :
    Reads (chainRest level.operators operand r) (chainWords rest ++ k) k fun found =>
      SameChain found (chainNodes rest) := by
  induction rest generalizing r with
  | nil =>
    cases r with
    | zero => exact ReadsOr.pure .nil
    | succ r =>
      obtain ⟨t, l, rfl, -⟩ := hk.trailer.exists_cons
      have hnone := hk.operator
      refine (reads_operatorAmong_none fun op hop => hnone op hop level (by simp)).bind ?_
      rintro _ rfl
      exact ReadsOr.pure .nil
  | cons x rest ih =>
    obtain ⟨r, rfl⟩ : ∃ r', r = r' + 1 := ⟨r - 1, by simp only [List.length_cons] at hr; omega⟩
    obtain ⟨hx, hmore⟩ := List.forall_mem_cons.1 hrest
    have hwords : chainWords (x :: rest) ++ k =
        x.1.tokens ++ (x.2.words ++ (chainWords rest ++ k)) := by
      simp [chainWords]
    rw [hwords]
    -- the operator, the operand, and the chain behind them
    refine (reads_operatorAmong hx.mem (hx.separate _)).bind ?_
    rintro _ rfl
    refine (hx.reads _ (endsOperand_chainWords hlevel hmore hk)).bind fun right hright => ?_
    refine (ih hmore (by simpa using hr)).bind fun found hfound => ?_
    exact ReadsOr.pure (.cons ⟨rfl, hright⟩ hfound)

/-- A chain of operands is read as the level groups it. -/
theorem readsOperand_chain (hlevel : level.Apart levels) {first : Operand}
    (hfirst : ReadsOperand operand levels first) {rest : List (BinaryOperator × Operand)}
    (hrest : ∀ x ∈ rest, InChain operand level levels x) (hr : rest.length ≤ r) :
    ReadsOperand (chain r level operand) (level :: levels)
      ⟨first.words ++ chainWords rest, level.group first.node (chainNodes rest)⟩ := by
  intro k hk
  rw [List.append_assoc]
  refine (hfirst _ (endsOperand_chainWords hlevel hrest hk)).bind fun n hn => ?_
  refine (reads_chainRest hlevel hrest hr hk).bind fun found hfound => ?_
  exact ReadsOr.pure (level.group_same hfound hn)

/-- An operand without operators of a level is read by it like by the levels that bind tighter. -/
theorem ReadsOperand.loosen {x : Operand} (hx : ReadsOperand operand levels x)
    (level : OperatorLevel) : ReadsOperand (chain r level operand) (level :: levels) x := by
  intro k hk
  refine (hx k hk.mono).bind fun n hn => ?_
  obtain ⟨t, l, rfl, -⟩ := hk.trailer.exists_cons
  -- no operator of the level follows
  have hrest : Reads (chainRest level.operators operand r) (t :: l) (t :: l) (· = []) := by
    cases r with
    | zero => exact ReadsOr.pure rfl
    | succ r =>
      have hnone := hk.operator
      refine (reads_operatorAmong_none fun op hop => hnone op hop level (by simp)).bind ?_
      rintro _ rfl
      exact ReadsOr.pure rfl
  refine hrest.bind ?_
  rintro _ rfl
  refine ReadsOr.pure ?_
  unfold OperatorLevel.group
  split
  · exact hn
  · exact hn

/-- Looser levels read what some levels read. -/
theorem ReadsOperand.cascade {x : Operand} (hx : ReadsOperand (cascade r operand levels) levels x)
    (looser : List OperatorLevel) :
    ReadsOperand (cascade r operand (looser ++ levels)) (looser ++ levels) x := by
  induction looser with
  | nil => exact hx
  | cons level looser ih => exact ih.loosen level

end DrakeSyntax
