import DrakeSyntax.Proofs.Agreement.Expression

/-!
# The parsers that phrases are read by

All parsers that the phrases made of some phrases inside are read by (`Inner.Part`), down to the
single steps at the cursor. Each of them agrees with another one when the phrases inside do
(`agree_part`), so what an agreement says of runs and of cursors holds of them all.
-/

namespace DrakeSyntax

open DrakeSyntax.Parser

/-- What the items of lists are, made of the phrases inside. -/
inductive Inner.ListItem (g : Inner) : {α : Type} → (Option α → Parser α) → Prop
  | expression : g.ListItem fun _ => g.expression
  | type : g.ListItem fun _ => g.type
  | target : g.ListItem fun _ => target g
  | pair : g.ListItem fun _ => pair g
  | member : g.ListItem fun _ => enumMember
  | parameter : g.ListItem (eitherItem (positionalParameter g) (keywordParameter g))
  | argument : g.ListItem (eitherItem g.expression (keywordArgument g))

/-- The parsers that phrases made of the phrases inside are read by, with at most `n` tokens ahead,
so that loops are allowed `n` rounds at least. The cursor is put back in trials and inside
`bracketContents` only, to where it was. -/
inductive Inner.Part (g : Inner) (n : Nat) : {α : Type} → Parser α → Prop
  -- steps at the cursor
  | peek : g.Part n peek
  | peekFollowing : g.Part n peekFollowing
  | advance : g.Part n advance
  | isAt (t : Token) : g.Part n (isAt t)
  | eat (t : Token) : g.Part n (eat t)
  | expect (t : Token) : g.Part n (expect t)
  | identifier : g.Part n identifier
  | skipNewlineBefore (k : Keyword) : g.Part n (skipNewlineBefore k)
  | advanceBy (k : Nat) : g.Part n (advanceBy k)
  | operatorAmong (operators : List BinaryOperator) : g.Part n (operatorAmong operators)
  | failExpecting {α : Type} (expected : List String) : g.Part n (failExpecting (α := α) expected)
  | reject {α : Type} (note : String) : g.Part n (reject (α := α) note)
  | rejectAt {α : Type} (t : PlacedToken) (note : String) : g.Part n (rejectAt (α := α) t note)
  | isAtItemEnd : g.Part n isAtItemEnd
  -- trials
  | attempt {α : Type} {p : Parser α} : g.Part n p → g.Part n (attempt p)
  | attemptIf {α : Type} {p : Parser α} (condition : Bool) :
    g.Part n p → g.Part n (attemptIf condition p)
  | longer {α β : Type} {p : Parser α} {q : Parser β} :
    g.Part n p → g.Part n q → g.Part n (longer p q)
  -- loops
  | item {α : Type} {item : Option α → Parser α} (hitem : g.ListItem item) (last : Option α) :
    g.Part n (item last)
  | listFrom {α : Type} {item : Option α → Parser α} (hitem : g.ListItem item) {r : Nat}
    (hr : n ≤ r) (separator : Option Separator) (last : α) :
    g.Part n (listFrom item r separator last)
  | listWith {α : Type} {item : Option α → Parser α} (hitem : g.ListItem item) {r : Nat}
    (hr : n ≤ r) : g.Part n (listWith r item)
  | list {α : Type} {item : Parser α} (hitem : g.ListItem fun _ => item) {r : Nat}
    (hr : n ≤ r) : g.Part n (list r item)
  | listBehind {α : Type} {item : Parser α} (hitem : g.ListItem fun _ => item) {r : Nat}
    (hr : n ≤ r) (first : α) : g.Part n (listBehind r first item)
  | trailers {r : Nat} (hr : n ≤ r) : g.Part n (trailers g r)
  | handlers {r : Nat} (hr : n ≤ r) : g.Part n (handlers g r)
  | chainRest {r : Nat} (hr : n ≤ r) (operators : List BinaryOperator)
    (levels : List OperatorLevel) :
    g.Part n (chainRest operators (cascade g.rounds (Parser.unary g) levels) r)
  | cascade (levels : List OperatorLevel) : g.Part n (cascade g.rounds (Parser.unary g) levels)
  -- phrases
  | typeName : g.Part n (typeName g)
  | typeHint : g.Part n (typeHint g)
  | declaration : g.Part n (declaration g)
  | positionalParameter : g.Part n (positionalParameter g)
  | keywordParameter : g.Part n (keywordParameter g)
  | parameters :
    g.Part n (twoKindDelimited g.rounds (positionalParameter g) (keywordParameter g))
  | lambdaHead : g.Part n (lambdaHead g)
  | lambdaBody (head : LambdaHead) (position : Position) : g.Part n (lambdaBody g head position)
  | targetModifier : g.Part n targetModifier
  | targetList : g.Part n (delimited g.rounds (target g))
  | targets (what : String) : g.Part n (targets g what)
  | assignmentHead : g.Part n (assignmentHead g)
  | assignmentValue (head : AssignmentHead) (position : Position) :
    g.Part n (assignmentValue g head position)
  | bracketItems (position : Position) {items : Parser (ItemList Node)} :
    g.Part n items → g.Part n (bracketItems position items)
  | rangeBehind (start : Node) (position : Position) : g.Part n (rangeBehind g start position)
  | bracketContents : g.Part n (bracketContents g)
  | bracket : g.Part n (bracket g)
  | brace : g.Part n (brace g)
  | blockItems : g.Part n (blockItems g)
  | block : g.Part n (block g)
  | parenthesized : g.Part n (parenthesized g)
  | paren : g.Part n (paren g)
  | tuple : g.Part n (tuple g)
  | atom : g.Part n (atom g)
  | keywordArgument : g.Part n (keywordArgument g)
  | arguments : g.Part n (twoKindList g.rounds g.expression (keywordArgument g))
  | primary : g.Part n (primary g)
  | operand : g.Part n g.unary
  | unary : g.Part n (Parser.unary g)
  | elseBranch : g.Part n (elseBranch g)
  | finallyBranch : g.Part n (finallyBranch g)
  | conditional : g.Part n (conditional g)
  | branches : g.Part n (branches g)
  | caseForm : g.Part n (caseForm g)
  | catchBinding : g.Part n catchBinding
  | tryForm : g.Part n (tryForm g)
  | forLoop : g.Part n (forLoop g)
  | whileLoop : g.Part n (whileLoop g)
  | iterForm : g.Part n (iterForm g)
  | blockForm (k : Keyword) (kind : List Node → NodeKind) : g.Part n (blockForm g k kind)
  | enumForm : g.Part n (enumForm g)
  | mutableBrace : g.Part n (mutableBrace g)
  | mutableForm : g.Part n (mutableForm g)
  | optionalExpression : g.Part n (optionalExpression g)
  | throwForm : g.Part n (throwForm g)
  | returnForm : g.Part n (returnForm g)
  | yieldForm : g.Part n (yieldForm g)
  | wordForm (k : Keyword) (kind : NodeKind) : g.Part n (wordForm k kind)
  | plainExpression (start : PlacedToken) : g.Part n (plainExpression g start)
  | openExpression (start : PlacedToken) : g.Part n (openExpression g start)
  | expressionWith : g.Part n (expressionWith g)
  | programWith : g.Part n (programWith g)

section Agreement

variable {w : Walk} {n : Nat} {g g' : Inner} {α : Type}

/-- An item of a list takes a token. -/
theorem takes_listItem (hg : g.Agree w n g')
    {item : Option α → Parser α} (hitem : g.ListItem item) :
    ∃ item' : Option α → Parser α, ∀ last, Takes w n (item last) (item' last) := by
  cases hitem with
  | expression => exact ⟨fun _ => g'.expression, fun _ => hg.expression⟩
  | type => exact ⟨fun _ => g'.type, fun _ => hg.type⟩
  | target =>
    exact ⟨fun _ => target g', fun _ => (hg.takes agree_target).mono (Nat.le_succ n)⟩
  | pair => exact ⟨fun _ => pair g', fun _ => takes_pair hg⟩
  | member => exact ⟨fun _ => enumMember, fun _ => takes_enumMember⟩
  | parameter =>
    have hitem := takes_eitherItem (hg.takes agree_positionalParameter)
      (hg.takes agree_keywordParameter)
    exact ⟨_, fun last => (hitem last).mono (Nat.le_succ n)⟩
  | argument => exact ⟨_, takes_eitherItem hg.expression (takes_keywordArgument hg)⟩

/-- A production that takes a token does not add any. -/
theorem Inner.Agree.keeps (hg : g.Agree w n g') {p p' : Parser α}
    (h : ∀ {n}, g.Agree w n g' → DrakeSyntax.Agree w (n + 1) n p p') :
    DrakeSyntax.Agree w n n p p' :=
  ((hg.takes h).mono (Nat.le_succ n)).weak

theorem agree_part (hg : g.Agree w n g') {p : Parser α} (hp : g.Part n p) :
    ∃ q, Agree w n n p q := by
  induction hp with
  | peek => exact ⟨_, agree_peek⟩
  | peekFollowing => exact ⟨_, agree_peekFollowing⟩
  | advance => exact ⟨_, agree_advance⟩
  | isAt t => exact ⟨_, agree_isAt t⟩
  | eat t => exact ⟨_, agree_eat t⟩
  | expect t => exact ⟨_, agree_expect t⟩
  | identifier => exact ⟨_, takes_identifier.weak⟩
  | skipNewlineBefore k => exact ⟨_, agree_skipNewlineBefore k⟩
  | advanceBy k => exact ⟨_, agree_advanceBy k⟩
  | operatorAmong operators => exact ⟨_, agree_operatorAmong operators⟩
  | failExpecting expected => exact ⟨_, agree_failExpecting expected⟩
  | reject note => exact ⟨_, agree_reject note⟩
  | rejectAt t note => exact ⟨_, agree_rejectAt t note⟩
  | isAtItemEnd => exact ⟨_, agree_isAtItemEnd⟩
  | attempt _ ih =>
    obtain ⟨q, hq⟩ := ih
    exact ⟨_, hq.attempt⟩
  | attemptIf condition _ ih =>
    obtain ⟨q, hq⟩ := ih
    exact ⟨_, hq.attemptIf condition⟩
  | longer _ _ ih ih' =>
    obtain ⟨q, hq⟩ := ih
    obtain ⟨q', hq'⟩ := ih'
    exact ⟨_, hq.longer hq'⟩
  | item hitem last =>
    obtain ⟨item', hitem'⟩ := takes_listItem hg hitem
    exact ⟨_, (hitem' last).weak⟩
  | listFrom hitem hr separator last =>
    obtain ⟨item', hitem'⟩ := takes_listItem hg hitem
    exact ⟨_, agree_listFrom hitem' separator last hr (Nat.le_refl n)⟩
  | listWith hitem hr =>
    obtain ⟨item', hitem'⟩ := takes_listItem hg hitem
    exact ⟨_, agree_listWith hitem' hr (Nat.le_refl n)⟩
  | list hitem hr =>
    obtain ⟨item', hitem'⟩ := takes_listItem hg hitem
    exact ⟨_, agree_listWith hitem' hr (Nat.le_refl n)⟩
  | listBehind hitem hr first =>
    obtain ⟨item', hitem'⟩ := takes_listItem hg hitem
    exact ⟨_, agree_listFrom hitem' none first hr (Nat.le_refl n)⟩
  | trailers hr => exact ⟨_, agree_trailers hg hr hg.rounds'⟩
  | handlers hr => exact ⟨_, agree_handlers hg hr hg.rounds'⟩
  | chainRest hr operators levels =>
    have hoperand := takes_cascade levels (hg.takes agree_unary) hg.rounds hg.rounds'
    exact ⟨_, agree_chainRest operators (hoperand.mono (Nat.le_succ n)) hr (Nat.le_refl n)⟩
  | cascade levels =>
    have hoperand := takes_cascade levels (hg.takes agree_unary) hg.rounds hg.rounds'
    exact ⟨_, (hoperand.mono (Nat.le_succ n)).weak⟩
  | typeName => exact ⟨_, hg.keeps agree_typeName⟩
  | typeHint => exact ⟨_, hg.keeps agree_typeHint⟩
  | declaration => exact ⟨_, hg.keeps agree_declaration⟩
  | positionalParameter => exact ⟨_, hg.keeps agree_positionalParameter⟩
  | keywordParameter => exact ⟨_, hg.keeps agree_keywordParameter⟩
  | parameters =>
    exact ⟨_, hg.keeps fun hg => agree_twoKindDelimited (hg.takes agree_positionalParameter)
      (hg.takes agree_keywordParameter) hg.rounds hg.rounds'⟩
  | lambdaHead => exact ⟨_, hg.keeps agree_lambdaHead⟩
  | lambdaBody head position => exact ⟨_, agree_lambdaBody hg head position⟩
  | targetModifier => exact ⟨_, agree_targetModifier⟩
  | targetList =>
    exact ⟨_, hg.keeps fun hg => agree_delimited (hg.takes agree_target) hg.rounds hg.rounds'⟩
  | targets what => exact ⟨_, hg.keeps fun hg => agree_targets hg what⟩
  | assignmentHead => exact ⟨_, hg.keeps agree_assignmentHead⟩
  | assignmentValue head position => exact ⟨_, agree_assignmentValue hg head position⟩
  | bracketItems position _ ih =>
    obtain ⟨q, hq⟩ := ih
    exact ⟨_, agree_bracketItems position hq⟩
  | rangeBehind start position => exact ⟨_, agree_rangeBehind hg.toAlike start position⟩
  | bracketContents => exact ⟨_, hg.keeps fun hg => agree_bracketContents hg.toAlike⟩
  | bracket => exact ⟨_, (hg.bracket.mono (Nat.le_succ n)).weak⟩
  | brace => exact ⟨_, hg.keeps agree_brace⟩
  | blockItems => exact ⟨_, hg.keeps agree_blockItems⟩
  | block => exact ⟨_, hg.keeps agree_block⟩
  | parenthesized => exact ⟨_, hg.keeps agree_parenthesized⟩
  | paren => exact ⟨_, hg.keeps agree_paren⟩
  | tuple => exact ⟨_, hg.keeps agree_tuple⟩
  | atom => exact ⟨_, hg.keeps agree_atom⟩
  | keywordArgument => exact ⟨_, (takes_keywordArgument hg).weak⟩
  | arguments =>
    exact ⟨_, agree_twoKindList hg.expression (takes_keywordArgument hg) hg.rounds hg.rounds'⟩
  | primary => exact ⟨_, hg.keeps agree_primary⟩
  | operand => exact ⟨_, hg.unary.weak⟩
  | unary => exact ⟨_, hg.keeps agree_unary⟩
  | elseBranch => exact ⟨_, agree_elseBranch hg⟩
  | finallyBranch => exact ⟨_, agree_finallyBranch hg⟩
  | conditional => exact ⟨_, hg.keeps agree_conditional⟩
  | branches => exact ⟨_, hg.keeps agree_branches⟩
  | caseForm => exact ⟨_, hg.keeps agree_caseForm⟩
  | catchBinding => exact ⟨_, agree_catchBinding⟩
  | tryForm => exact ⟨_, hg.keeps agree_tryForm⟩
  | forLoop => exact ⟨_, hg.keeps agree_forLoop⟩
  | whileLoop => exact ⟨_, hg.keeps agree_whileLoop⟩
  | iterForm => exact ⟨_, hg.keeps agree_iterForm⟩
  | blockForm k kind => exact ⟨_, hg.keeps fun hg => agree_blockForm hg k kind⟩
  | enumForm => exact ⟨_, hg.keeps agree_enumForm⟩
  | mutableBrace => exact ⟨_, hg.keeps agree_mutableBrace⟩
  | mutableForm => exact ⟨_, hg.keeps agree_mutableForm⟩
  | optionalExpression => exact ⟨_, agree_optionalExpression hg⟩
  | throwForm => exact ⟨_, hg.keeps agree_throwForm⟩
  | returnForm => exact ⟨_, hg.keeps agree_returnForm⟩
  | yieldForm => exact ⟨_, hg.keeps agree_yieldForm⟩
  | wordForm k kind => exact ⟨_, hg.keeps fun _ => agree_wordForm k kind⟩
  | plainExpression start => exact ⟨_, hg.keeps fun hg => agree_plainExpression hg start⟩
  | openExpression start => exact ⟨_, hg.keeps fun hg => agree_openExpression hg start⟩
  | expressionWith => exact ⟨_, hg.keeps agree_expressionWith⟩
  | programWith => exact ⟨_, agree_programWith hg⟩

end Agreement

end DrakeSyntax
