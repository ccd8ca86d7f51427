import DrakeSyntax.Proofs.Agreement.Phrase

/-!
# Agreement of expressions

Two expressions agree when the phrases inside them do (`agree_expressionWith`). So phrases of
two depths agree as far as both are deep enough for the tokens ahead (`Inner.agree_nest`): how
deep phrases are allowed to nest does not show.
-/

namespace DrakeSyntax

open DrakeSyntax.Parser

variable {w : Walk} {n : Nat} {g g' : Inner}

/-! ### Forms that begin with a keyword -/

theorem agree_elseBranch (hg : g.Agree w n g') : Agree w n n (elseBranch g) (elseBranch g') := by
  refine (agree_skipNewlineBefore _).bind fun found => Agree.ite (fun _ => ?_) fun _ => .pure _
  exact agree_advance.discard.bind fun _ => hg.expression.weak.map some

theorem agree_finallyBranch (hg : g.Agree w n g') :
    Agree w n n (finallyBranch g) (finallyBranch g') := by
  refine (agree_skipNewlineBefore _).bind fun found => Agree.ite (fun _ => ?_) fun _ => .pure _
  exact agree_advance.discard.bind fun _ => hg.expression.weak.map some

theorem agree_conditional (hg : g.Agree w n g') :
    Agree w (n + 1) n (conditional g) (conditional g') := by
  refine (takes_expect Token.noConfusion).agree.bind fun position => ?_
  refine hg.expression.weak.bind fun condition => ?_
  refine (agree_skipNewlineBefore _).discard.bind fun _ => ?_
  refine (takes_expect Token.noConfusion).weak.discard.bind fun _ => ?_
  refine hg.expression.weak.bind fun consequence => ?_
  exact (agree_elseBranch hg).bind fun otherwise => .pure _

theorem agree_branches (hg : g.Agree w n g') :
    Agree w (n + 1) n (branches g) (branches g') := by
  refine agree_peek.bind fun start => Agree.ite (fun _ => ?_) fun _ => agree_failExpecting _
  refine (agree_brace hg).bind fun node => ?_
  split
  · exact .pure _
  · exact .pure _
  · exact agree_rejectAt _ _

theorem agree_caseForm (hg : g.Agree w n g') : Agree w (n + 1) n (caseForm g) (caseForm g') := by
  refine (takes_expect Token.noConfusion).agree.bind fun position => ?_
  have hsubject := takes_cascade OperatorLevel.belowMembership (hg.takes agree_unary) hg.rounds
    hg.rounds'
  refine (hsubject.mono (Nat.le_succ n)).weak.bind fun subject => ?_
  refine (takes_expect Token.noConfusion).weak.discard.bind fun _ => ?_
  refine ((hg.takes agree_branches).mono (Nat.le_succ n)).weak.bind fun pairs => ?_
  exact (agree_elseBranch hg).bind fun otherwise => .pure _

theorem agree_catchBinding : Agree w n n catchBinding catchBinding := by
  refine (agree_eat _).bind fun found => Agree.ite (fun _ => ?_) fun _ => .pure _
  exact takes_identifier.weak.bind fun name => .pure _

theorem agree_handlers (hg : g.Agree w n g') {r r' : Nat} (hr : n ≤ r) (hr' : n ≤ r') :
    Agree w n n (handlers g r) (handlers g' r') := by
  induction n generalizing r r' with
  | zero => exact Agree.zero
  | succ n ih =>
    obtain ⟨r, rfl⟩ : ∃ k, r = k + 1 := ⟨r - 1, by omega⟩
    obtain ⟨r', rfl⟩ : ∃ k, r' = k + 1 := ⟨r' - 1, by omega⟩
    unfold handlers
    refine (agree_skipNewlineBefore _).bind fun found => Agree.ite (fun _ => ?_) fun _ => .pure _
    refine agree_advance.bind fun t => ?_
    refine takes_identifier.agree.bind fun (exceptionType, _) => ?_
    -- `catch` is taken: a token less for the handlers behind it
    refine Agree.weaken (m := n) ?_ (Nat.le_refl n) (Nat.le_succ n)
    refine agree_catchBinding.bind fun binding => ?_
    refine (hg.expression.mono (Nat.le_succ n)).weak.bind fun handler => ?_
    refine (ih (hg.mono (Nat.le_succ n)) ?_ ?_).bind fun rest => .pure _
    · omega
    · omega

theorem agree_tryForm (hg : g.Agree w n g') : Agree w (n + 1) n (tryForm g) (tryForm g') := by
  refine (takes_expect Token.noConfusion).agree.bind fun position => ?_
  refine hg.expression.weak.bind fun body => ?_
  refine (agree_handlers hg hg.rounds hg.rounds').bind fun hs => ?_
  refine (agree_finallyBranch hg).bind fun cleanup => ?_
  exact Agree.ite (fun _ => agree_reject _) fun _ => .pure _

theorem agree_forLoop (hg : g.Agree w n g') : Agree w (n + 1) n (forLoop g) (forLoop g') := by
  refine (takes_expect Token.noConfusion).agree.bind fun position => ?_
  have htargets := hg.takes fun hg => agree_targets hg "loop target"
  refine (htargets.mono (Nat.le_succ n)).weak.bind fun ts => ?_
  refine (takes_expect Token.noConfusion).weak.discard.bind fun _ => ?_
  refine hg.expression.weak.bind fun iterable => ?_
  exact ((hg.takes agree_block).mono (Nat.le_succ n)).weak.bind fun body => .pure _

theorem agree_whileLoop (hg : g.Agree w n g') :
    Agree w (n + 1) n (whileLoop g) (whileLoop g') := by
  refine (takes_expect Token.noConfusion).agree.bind fun position => ?_
  refine hg.expression.weak.bind fun condition => ?_
  exact ((hg.takes agree_block).mono (Nat.le_succ n)).weak.bind fun body => .pure _

theorem agree_iterForm (hg : g.Agree w n g') : Agree w (n + 1) n (iterForm g) (iterForm g') := by
  refine (takes_expect Token.noConfusion).agree.bind fun position => ?_
  refine agree_peek.bind fun t => ?_
  split
  · exact (hg.bracket.mono (Nat.le_succ n)).weak.bind fun operand => .pure _
  · exact ((hg.takes agree_forLoop).mono (Nat.le_succ n)).weak.bind fun operand => .pure _
  · exact ((hg.takes agree_whileLoop).mono (Nat.le_succ n)).weak.bind fun operand => .pure _
  · exact (agree_failExpecting _).bind fun operand => .pure _

theorem agree_blockForm (hg : g.Agree w n g') (k : Keyword) (kind : List Node → NodeKind) :
    Agree w (n + 1) n (blockForm g k kind) (blockForm g' k kind) := by
  refine (takes_expect Token.noConfusion).agree.bind fun position => ?_
  exact ((hg.takes agree_blockItems).mono (Nat.le_succ n)).weak.bind fun items => .pure _

theorem takes_enumMember : Takes w n enumMember enumMember := by
  intro m _
  refine takes_identifier.agree.bind fun (name, position) => ?_
  refine (agree_eat _).bind fun hasValue => Agree.ite (fun _ => ?_) fun _ => .pure _
  refine agree_peek.bind fun t => ?_
  split
  · exact agree_advance.discard.bind fun _ => .pure _
  · exact agree_failExpecting _

theorem agree_enumForm (hg : g.Agree w n g') : Agree w (n + 1) n (enumForm g) (enumForm g') := by
  refine (takes_expect Token.noConfusion).agree.bind fun position => ?_
  refine (agree_eat _).bind fun flags => ?_
  refine (takes_expect Token.noConfusion).weak.discard.bind fun _ => ?_
  refine (agree_list takes_enumMember hg.rounds hg.rounds').bind fun members => ?_
  exact (takes_expect Token.noConfusion).weak.discard.bind fun _ => .pure _

theorem agree_mutableBrace (hg : g.Agree w n g') :
    Agree w (n + 1) n (mutableBrace g) (mutableBrace g') := by
  refine agree_peek.bind fun start => ?_
  refine (agree_brace hg).bind fun node => ?_
  split
  · exact .pure _
  · exact .pure _
  · exact agree_rejectAt _ _

theorem agree_mutableForm (hg : g.Agree w n g') :
    Agree w (n + 1) n (mutableForm g) (mutableForm g') := by
  refine (takes_expect Token.noConfusion).agree.bind fun position => ?_
  refine agree_peek.bind fun t => ?_
  split
  · have hobject := hg.takes fun hg => agree_blockForm hg .object .object
    exact (hobject.mono (Nat.le_succ n)).weak.bind fun operand => .pure _
  · exact ((hg.takes agree_mutableBrace).mono (Nat.le_succ n)).weak.bind fun operand => .pure _
  · exact (hg.bracket.mono (Nat.le_succ n)).weak.bind fun operand => .pure _
  · exact ((hg.takes agree_tuple).mono (Nat.le_succ n)).weak.bind fun operand => .pure _
  · exact ((hg.takes agree_atom).mono (Nat.le_succ n)).weak.bind fun operand => .pure _
  · exact (agree_failExpecting _).bind fun operand => .pure _

theorem agree_optionalExpression (hg : g.Agree w n g') :
    Agree w n n (optionalExpression g) (optionalExpression g') :=
  agree_peek.bind fun _ => Agree.ite (fun _ => .pure _) fun _ => hg.expression.weak.map some

theorem agree_throwForm (hg : g.Agree w n g') :
    Agree w (n + 1) n (throwForm g) (throwForm g') := by
  refine (takes_expect Token.noConfusion).agree.bind fun _ => ?_
  exact hg.expression.weak.bind fun _ => .pure _

theorem agree_returnForm (hg : g.Agree w n g') :
    Agree w (n + 1) n (returnForm g) (returnForm g') := by
  refine (takes_expect Token.noConfusion).agree.bind fun _ => ?_
  exact (agree_optionalExpression hg).bind fun _ => .pure _

theorem agree_yieldForm (hg : g.Agree w n g') :
    Agree w (n + 1) n (yieldForm g) (yieldForm g') := by
  refine (takes_expect Token.noConfusion).agree.bind fun position => ?_
  refine (agree_eat _).bind fun isFrom => Agree.ite (fun _ => ?_) fun _ => ?_
  · exact hg.expression.weak.bind fun source => .pure _
  · exact (agree_optionalExpression hg).bind fun value => .pure _

theorem agree_wordForm (k : Keyword) (kind : NodeKind) :
    Agree w (n + 1) n (wordForm k kind) (wordForm k kind) :=
  (takes_expect Token.noConfusion).agree.bind fun _ => .pure _

/-- Both sides have a form for the same tokens, and the two forms agree. -/
theorem agree_formAt? (hg : g.Agree w n g') (t : Token) :
    (formAt? g t = none ∧ formAt? g' t = none) ∨
      ∃ p p', formAt? g t = some p ∧ formAt? g' t = some p' ∧ Agree w (n + 1) n p p' := by
  have hsome {p p' : Parser Node} (h : Agree w (n + 1) n p p') :
      ∃ q q', some p = some q ∧ some p' = some q' ∧ Agree w (n + 1) n q q' := ⟨p, p', rfl, rfl, h⟩
  cases t with
  | keyword k =>
    cases k
    case if_ => exact .inr (hsome (agree_conditional hg))
    case case => exact .inr (hsome (agree_caseForm hg))
    case try_ => exact .inr (hsome (agree_tryForm hg))
    case for_ => exact .inr (hsome (agree_forLoop hg))
    case while_ => exact .inr (hsome (agree_whileLoop hg))
    case iter => exact .inr (hsome (agree_iterForm hg))
    case do_ => exact .inr (hsome (agree_blockForm hg .do_ .do_))
    case object => exact .inr (hsome (agree_blockForm hg .object .object))
    case module_ => exact .inr (hsome (agree_blockForm hg .module_ .module_))
    case exception => exact .inr (hsome (agree_blockForm hg .exception .exception))
    case enum => exact .inr (hsome (agree_enumForm hg))
    case mutable => exact .inr (hsome (agree_mutableForm hg))
    case throw => exact .inr (hsome (agree_throwForm hg))
    case return_ => exact .inr (hsome (agree_returnForm hg))
    case yield => exact .inr (hsome (agree_yieldForm hg))
    case break_ => exact .inr (hsome (agree_wordForm .break_ .break_))
    case continue_ => exact .inr (hsome (agree_wordForm .continue_ .continue_))
    case pass => exact .inr (hsome (agree_wordForm .pass .pass))
    -- the keywords that open no form
    all_goals exact .inl ⟨rfl, rfl⟩
  | _ => exact .inl ⟨rfl, rfl⟩

/-! ### Expressions and programs -/

theorem agree_plainExpression (hg : g.Agree w n g') (start : PlacedToken) :
    Agree w (n + 1) n (plainExpression g start) (plainExpression g' start) := by
  unfold plainExpression
  split
  · exact agree_declaration hg
  · exact agree_declaration hg
  · exact (agree_assignmentHead hg).bind fun head => agree_assignmentValue hg head start.position
  · exact (takes_cascade _ (hg.takes agree_unary) hg.rounds hg.rounds').agree

theorem agree_openExpression (hg : g.Agree w n g') (start : PlacedToken) :
    Agree w (n + 1) n (openExpression g start) (openExpression g' start) := by
  refine (agree_lambdaHead hg).attemptIf_bind (fun head => ?_) ?_
  · exact agree_lambdaBody hg head start.position
  · refine (agree_assignmentHead hg).attemptIf_bind (fun head => ?_) ?_
    · exact agree_assignmentValue hg head start.position
    · exact agree_plainExpression hg start

theorem agree_expressionWith (hg : g.Agree w n g') :
    Agree w (n + 1) n (expressionWith g) (expressionWith g') := by
  refine agree_peek.bind fun start => ?_
  rcases agree_formAt? hg start.token with ⟨h, h'⟩ | ⟨p, p', h, h', hform⟩
  · simp only [h, h']
    exact agree_openExpression hg start
  · simp only [h, h']
    exact hform

theorem agree_programWith (hg : g.Agree w n g') :
    Agree w n n (programWith g) (programWith g') := by
  refine (agree_list hg.expression hg.rounds hg.rounds').bind fun l => ?_
  refine (agree_isAt _).bind fun atEnd => Agree.ite (fun _ => .pure _) fun _ => ?_
  exact agree_failExpecting _

/-! ### Phrases at a depth -/

/-- One level more of phrases serves one token more. -/
theorem Inner.Agree.deepen (hg : g.Agree w n g') : g.deepen.Alike w (n + 1) g'.deepen where
  rounds := Nat.succ_le_succ hg.rounds
  rounds' := Nat.succ_le_succ hg.rounds'
  expression := hg.takes agree_expressionWith
  unary := hg.takes agree_unary
  type := hg.takes agree_typeName

/-- With no token ahead nothing can be read, whatever the phrases are. -/
theorem Inner.alike_zero (g g' : Inner) : g.Alike w 0 g' where
  rounds := Nat.zero_le _
  rounds' := Nat.zero_le _
  expression := fun _ hm => absurd hm (Nat.not_lt_zero _)
  unary := fun _ hm => absurd hm (Nat.not_lt_zero _)
  type := fun _ hm => absurd hm (Nat.not_lt_zero _)

theorem Inner.nest_remembers (g : Inner) (d : Nat) : (g.nest d).remembers = g.remembers := by
  induction d with
  | zero => rfl
  | succ d ih => exact ih

variable {floor floor' : Inner}

theorem bracket_forgetful (hfloor : floor.remembers = false) (d : Nat) :
    bracket (floor.nest d) = bracketContents (floor.nest d) := by
  rw [bracket, Inner.nest_remembers, hfloor]
  rfl

theorem bracket_remembering (hfloor : floor.remembers = true) (d : Nat) :
    bracket (floor.nest d) = remembered (bracketContents (floor.nest d)) := by
  rw [bracket, Inner.nest_remembers, hfloor]
  rfl

/-- Phrases of two depths agree as far as both are deep enough, if bracketed phrases do. It does
not matter what they are made of at the greatest depth. -/
theorem Inner.agree_nest_of
    (hbracket : ∀ {n d d'}, n ≤ d → n ≤ d' → (floor.nest d).Alike w n (floor'.nest d') →
      Takes w (n + 1) (bracket (floor.nest d)) (bracket (floor'.nest d')))
    {d d' : Nat} (hd : n ≤ d) (hd' : n ≤ d') : (floor.nest d).Agree w n (floor'.nest d') := by
  induction n generalizing d d' with
  | zero => exact ⟨Inner.alike_zero _ _, hbracket hd hd' (Inner.alike_zero _ _)⟩
  | succ n ih =>
    obtain ⟨d, rfl⟩ : ∃ k, d = k + 1 := ⟨d - 1, by omega⟩
    obtain ⟨d', rfl⟩ : ∃ k, d' = k + 1 := ⟨d' - 1, by omega⟩
    -- one level less on both sides, then one deeper
    have halike := (ih (Nat.le_of_succ_le_succ hd) (Nat.le_of_succ_le_succ hd')).deepen
    exact ⟨halike, hbracket hd hd' halike⟩

/-- **How deep phrases may nest does not show**, once they may nest as deep as there are tokens
ahead. -/
theorem Inner.agree_nest (hfloor : floor.remembers = false) (hfloor' : floor'.remembers = false)
    {d d' : Nat} (hd : n ≤ d) (hd' : n ≤ d') : (floor.nest d).Agree w n (floor'.nest d') := by
  refine Inner.agree_nest_of (fun {n d d'} _ _ halike => ?_) hd hd'
  rw [bracket_forgetful hfloor, bracket_forgetful hfloor']
  exact fun _ hm => agree_bracketContents (halike.mono (Nat.le_of_lt_succ hm))

end DrakeSyntax
