import DrakeSyntax.Proofs.Coupling.LambdaHead
import DrakeSyntax.Proofs.Coupling.Operand
import DrakeSyntax.Proofs.Runs.Operand

/-!
# Expressions and programs side by side

Expressions come to outcomes that belong together when the phrases inside them do
(`matches_expressionWith`), and so do the phrases of every depth (`steady_phrases`), whatever it is
that cursors, errors and positions of the two runs have in common, unless they stop at a colon.
Programs do where the runs do not stop (`matches_programWith`).
-/

namespace DrakeSyntax

open DrakeSyntax.Parser
open Coupling

variable {K : Coupling} {k : List Token} {g : Inner}

/-! ### Forms that begin with a keyword -/

theorem matches_elseBranch (hg : g.Steady K) :
    K.Matches k k K.ViewsOption (elseBranch g) (elseBranch g) := by
  refine Matches.skipNewlineBefore_ite rfl ?_ (.pure rfl)
  exact MatchesOn.discard_advance_bind rfl (matches_some (hg.expression k))

theorem matches_finallyBranch (hg : g.Steady K) :
    K.Matches k k K.ViewsOption (finallyBranch g) (finallyBranch g) := by
  refine Matches.skipNewlineBefore_ite rfl ?_ (.pure rfl)
  exact MatchesOn.discard_advance_bind rfl (matches_some (hg.expression k))

theorem matches_conditional (hg : g.Steady K) :
    K.Matches k k (K.Views Node.relocate) (conditional g) (conditional g) := by
  refine (matches_expect (.inr rfl) rfl rfl).bind fun position position' hposition => ?_
  refine (hg.expression k).bind fun condition condition' hcondition => ?_
  refine (matches_skipNewlineBefore rfl).discard_bind ?_
  refine (matches_expect (.inr rfl) rfl rfl).discard_bind ?_
  refine (hg.expression k).bind fun consequence consequence' hconsequence => ?_
  refine (matches_elseBranch hg).bind fun otherwise otherwise' hotherwise => .pure ?_
  simp only [Views, Node.relocate, NodeKind.relocate, hcondition, hconsequence, hotherwise,
    hposition]

/-- The pairs of a mapping, where an empty block is taken for an empty mapping. -/
def NodeKind.pairs? : NodeKind → Option (List Pair)
  | .mapping pairs => some pairs
  | .block [] => some []
  | _ => none

theorem NodeKind.pairs?_relocate (f : Position → Position) (kind : NodeKind) :
    (kind.relocate f).pairs? = kind.pairs?.map (Pair.relocateAll f) := by
  cases kind with
  | block items => cases items <;> rfl
  | _ => rfl

/-- Nodes that belong together have pairs that belong together, or none of them has any. -/
theorem pairs?_of_views {a b : Node} (h : K.Views Node.relocate a b) :
    a.kind.pairs?.map (Pair.relocateAll K.view) = b.kind.pairs?.map (Pair.relocateAll K.view) ∧
      K.Near a.position b.position := by
  obtain ⟨kind, position⟩ := a
  obtain ⟨kind', position'⟩ := b
  simp only [Views, Node.relocate, Node.mk.injEq] at h
  rw [← NodeKind.pairs?_relocate, ← NodeKind.pairs?_relocate, h.1]
  exact ⟨rfl, h.2⟩

theorem matches_branchesEnd {start start' : PlacedToken} (hstart : K.Met start start')
    {a b : Node} (h : K.Views Node.relocate a b) :
    K.Matches k k (fun a b => Pair.relocateAll K.view a = Pair.relocateAll K.view b)
      (match a.kind with
        | .mapping pairs => return pairs
        | .block [] => return []
        | _ => rejectAt start "case requires a mapping of branches")
      (match b.kind with
        | .mapping pairs => return pairs
        | .block [] => return []
        | _ => rejectAt start' "case requires a mapping of branches") := by
  have hend (start : PlacedToken) (kind : NodeKind) :
      (match kind with
        | .mapping pairs => (return pairs : Parser (List Pair))
        | .block [] => return []
        | _ => rejectAt start "case requires a mapping of branches") =
      match kind.pairs? with
        | some pairs => return pairs
        | none => rejectAt start "case requires a mapping of branches" := by
    cases kind with
    | block items => cases items <;> rfl
    | _ => rfl
  have hpairs := (pairs?_of_views h).1
  rw [hend, hend]
  cases ha : a.kind.pairs? with
  | none =>
    rw [ha, Option.map_none, eq_comm, Option.map_eq_none_iff] at hpairs
    rw [hpairs]
    exact matches_rejectAt hstart (by decide)
  | some pairs =>
    rw [ha, Option.map_some, eq_comm, Option.map_eq_some_iff] at hpairs
    obtain ⟨pairs', hb, hpairs⟩ := hpairs
    rw [hb]
    exact .pure hpairs.symm

theorem matches_branches (hg : g.Steady K) :
    K.Matches k k (fun a b => Pair.relocateAll K.view a = Pair.relocateAll K.view b)
      (branches g) (branches g) := by
  have hstall (t : PlacedToken) (ht : t.token.halts) : Stalls (
      if t.token = .punctuator .leftBrace then do
        match (← brace g).kind with
        | .mapping pairs => return pairs
        | .block [] => return []
        | _ => rejectAt t "case requires a mapping of branches"
      else failExpecting ["'\x7b'"]) := by
    rw [if_neg fun h => by rw [h] at ht; cases ht]
    exact Stalls.failExpecting _
  refine Matches.peek_bind (.inr fun t ht => ⟨hstall t ht, hstall t ht⟩) fun t t' hmet => Matches.on ?_
  refine Matches.ite (by rw [hmet.token]) (fun _ => ?_) fun _ => matches_failExpecting (by decide)
  exact (matches_brace hg).bind fun a b hab => matches_branchesEnd hmet hab

theorem matches_caseForm (hg : g.Steady K) :
    K.Matches k k (K.Views Node.relocate) (caseForm g) (caseForm g) := by
  refine (matches_expect (.inr rfl) rfl rfl).bind fun position position' hposition => ?_
  refine (matches_cascade _ (matches_unary hg) g.rounds).bind fun subject subject' hsubject => ?_
  refine (matches_expect (.inr rfl) rfl rfl).discard_bind ?_
  refine (matches_branches hg).bind fun pairs pairs' hpairs => ?_
  refine (matches_elseBranch hg).bind fun otherwise otherwise' hotherwise => .pure ?_
  simp only [Views, Node.relocate, NodeKind.relocate, hsubject, hpairs, hotherwise, hposition]

theorem matches_catchBinding : K.Matches k k (· = ·) catchBinding catchBinding := by
  refine Matches.eat_ite (.inr rfl) rfl ?_ (.pure rfl)
  exact matches_identifier.bind fun name name' hname => .pure (congrArg some hname.1)

theorem matches_handlers (hg : g.Steady K) (r : Nat) :
    K.Matches k k (List.Forall₂ (K.Views CatchClause.relocate)) (handlers g r) (handlers g r) := by
  induction r with
  | zero => exact .pure .nil
  | succ r ih =>
    unfold handlers
    refine Matches.skipNewlineBefore_ite rfl ?_ (.pure .nil)
    refine MatchesOn.advance_bind rfl fun t t' hmet _ => ?_
    refine matches_identifier.bind ?_
    rintro ⟨exceptionType, _⟩ ⟨_, _⟩ ⟨rfl, -⟩
    refine matches_catchBinding.bind ?_
    rintro binding _ rfl
    refine (hg.expression k).bind fun handler handler' hhandler => ?_
    refine ih.bind fun rest rest' hrest => .pure (.cons ?_ hrest)
    simp only [Views, CatchClause.relocate, hhandler, hmet.position]

theorem matches_tryForm (hg : g.Steady K) :
    K.Matches k k (K.Views Node.relocate) (tryForm g) (tryForm g) := by
  refine (matches_expect (.inr rfl) rfl rfl).bind fun position position' hposition => ?_
  refine (hg.expression k).bind fun body body' hbody => ?_
  refine (matches_handlers hg g.rounds).bind fun hs hs' hhs => ?_
  refine (matches_finallyBranch hg).bind fun cleanup cleanup' hcleanup => ?_
  refine Matches.ite ?_ (fun _ => matches_reject (by decide)) fun _ => .pure ?_
  · have hempty : hs.isEmpty = hs'.isEmpty := by cases hhs <;> rfl
    have hnone : cleanup.isNone = cleanup'.isNone := by
      cases cleanup <;> cases cleanup' <;>
        simp only [ViewsOption, Node.relocateOptional, reduceCtorEq] at hcleanup
      · rfl
      · rfl
    rw [hempty, hnone]
  · simp only [Views, Node.relocate, NodeKind.relocate, CatchClause.relocateAll_eq_map, hbody,
      map_eq_of_forall₂ hhs, hcleanup, hposition]

theorem matches_forLoop (hg : g.Steady K) :
    K.Matches k k (K.Views Node.relocate) (forLoop g) (forLoop g) := by
  refine (matches_expect (.inr rfl) rfl rfl).bind fun position position' hposition => ?_
  refine (matches_targets hg (by decide)).bind fun ts ts' hts => ?_
  refine (matches_expect (.inr rfl) rfl rfl).discard_bind ?_
  refine (hg.expression k).bind fun iterable iterable' hiterable => ?_
  refine (matches_block hg).bind fun body body' hbody => .pure ?_
  simp only [Views, Node.relocate, NodeKind.relocate, map_eq_of_forall₂ hts, hiterable, hbody,
    hposition]

theorem matches_whileLoop (hg : g.Steady K) :
    K.Matches k k (K.Views Node.relocate) (whileLoop g) (whileLoop g) := by
  refine (matches_expect (.inr rfl) rfl rfl).bind fun position position' hposition => ?_
  refine (hg.expression k).bind fun condition condition' hcondition => ?_
  refine (matches_block hg).bind fun body body' hbody => .pure ?_
  simp only [Views, Node.relocate, NodeKind.relocate, hcondition, hbody, hposition]

theorem matches_iterForm (hg : g.Steady K) :
    K.Matches k k (K.Views Node.relocate) (iterForm g) (iterForm g) := by
  refine (matches_expect (.inr rfl) rfl rfl).bind fun position position' hposition => ?_
  have hwrap {a b : Node} (h : K.Views Node.relocate a b) :
      K.Views Node.relocate ⟨.iter a, position⟩ ⟨.iter b, position'⟩ := by
    simp only [Views, Node.relocate, NodeKind.relocate, h, hposition]
  refine Matches.peek_bind (.inr fun t ht => ⟨?_, ?_⟩) fun t t' hmet => ?_
  -- no phrase begins where an item or a key ends
  iterate 2
    split
    · next h => rw [h] at ht; cases ht
    · next h => rw [h] at ht; cases ht
    · next h => rw [h] at ht; cases ht
    · exact (Stalls.failExpecting _).bind
  rw [← hmet.token]
  split
  · exact ((matches_bracket hg).bind fun _ _ h => .pure (hwrap h)).on
  · exact ((matches_forLoop hg).bind fun _ _ h => .pure (hwrap h)).on
  · exact ((matches_whileLoop hg).bind fun _ _ h => .pure (hwrap h)).on
  · exact ((matches_failExpecting (by decide)).bind fun _ _ h => .pure (hwrap h)).on

theorem matches_blockForm (hg : g.Steady K) (w : Keyword) {kind : List Node → NodeKind}
    (hkind : ∀ items, (kind items).relocate K.view = kind (Node.relocateAll K.view items)) :
    K.Matches k k (K.Views Node.relocate) (blockForm g w kind) (blockForm g w kind) := by
  refine (matches_expect (.inr rfl) rfl rfl).bind fun position position' hposition => ?_
  refine (matches_blockItems hg).bind fun items items' hitems => .pure ?_
  simp only [Views, Node.relocate, hkind, Node.relocateAll_eq_map, map_eq_of_forall₂ hitems,
    hposition]

theorem matches_enumMember (hexact : K.Exact k) :
    K.Matches k k (K.Views EnumMember.relocate) enumMember enumMember := by
  refine matches_identifier.bind ?_
  rintro ⟨name, position⟩ ⟨_, position'⟩ ⟨rfl, hposition⟩
  change K.view position = K.view position' at hposition
  refine Matches.eat_ite (.inr rfl) rfl ?_ (.pure ?_)
  · refine Matches.peek_bind (.inl hexact) fun t t' hmet => ?_
    rw [← hmet.token]
    split
    · next h =>
      rw [h]
      refine MatchesOn.discard_advance_bind rfl (.pure ?_)
      simp only [Views, EnumMember.relocate, hposition]
    · exact (matches_failExpecting (by decide)).on
  · simp only [Views, EnumMember.relocate, hposition]

theorem matches_enumForm :
    K.Matches k k (K.Views Node.relocate) (enumForm g) (enumForm g) := by
  refine (matches_expect (.inr rfl) rfl rfl).bind fun position position' hposition => ?_
  refine (matches_eat (.inr rfl) rfl).bind ?_
  rintro flags _ rfl
  refine (matches_expect (.inr rfl) rfl rfl).discard_bind ?_
  refine (matches_list exact_cons (matches_enumMember exact_cons) g.rounds).bind ?_
  intro members members' hmembers
  refine (matches_expect (.inl exact_cons) rfl rfl).discard_bind (.pure ?_)
  simp only [Views, Node.relocate, NodeKind.relocate, map_eq_of_forall₂ hmembers.items, hposition]

theorem matches_mutableEnd {start start' : PlacedToken} (hstart : K.Met start start')
    {a b : Node} (h : K.Views Node.relocate a b) :
    K.Matches k k (K.Views Node.relocate)
      (match a.kind with
        | .mapping _ => return a
        | .block [] => return ⟨.mapping [], a.position⟩
        | _ => rejectAt start "mutable requires a mapping, not a block")
      (match b.kind with
        | .mapping _ => return b
        | .block [] => return ⟨.mapping [], b.position⟩
        | _ => rejectAt start' "mutable requires a mapping, not a block") := by
  have hend (start : PlacedToken) (n : Node) :
      (match n.kind with
        | .mapping _ => (return n : Parser Node)
        | .block [] => return ⟨.mapping [], n.position⟩
        | _ => rejectAt start "mutable requires a mapping, not a block") =
      match n.kind.pairs? with
        | some pairs => return ⟨.mapping pairs, n.position⟩
        | none => rejectAt start "mutable requires a mapping, not a block" := by
    obtain ⟨kind, position⟩ := n
    cases kind with
    | block items => cases items <;> rfl
    | _ => rfl
  obtain ⟨hpairs, hposition⟩ := pairs?_of_views h
  rw [hend, hend]
  cases ha : a.kind.pairs? with
  | none =>
    rw [ha, Option.map_none, eq_comm, Option.map_eq_none_iff] at hpairs
    rw [hpairs]
    exact matches_rejectAt hstart (by decide)
  | some pairs =>
    rw [ha, Option.map_some, eq_comm, Option.map_eq_some_iff] at hpairs
    obtain ⟨pairs', hb, hpairs⟩ := hpairs
    rw [hb]
    refine .pure ?_
    simp only [Views, Node.relocate, NodeKind.relocate, hpairs, hposition]

theorem matches_mutableBrace (hg : g.Steady K) :
    K.MatchesOn (.punctuator .leftBrace) k k (K.Views Node.relocate) (mutableBrace g)
      (mutableBrace g) := by
  intro s s' hrel hstop _
  have hmet := K.met hrel hstop
  exact (matches_brace hg).bind (fun a b hab => matches_mutableEnd hmet hab) s s' hrel

theorem matches_mutableForm (hg : g.Steady K) :
    K.Matches k k (K.Views Node.relocate) (mutableForm g) (mutableForm g) := by
  refine (matches_expect (.inr rfl) rfl rfl).bind fun position position' hposition => ?_
  have hwrap {a b : Node} (h : K.Views Node.relocate a b) :
      K.Views Node.relocate ⟨.mutable a, position⟩ ⟨.mutable b, position'⟩ := by
    simp only [Views, Node.relocate, NodeKind.relocate, h, hposition]
  refine Matches.peek_bind (.inr fun t ht => ⟨?_, ?_⟩) fun t t' hmet => ?_
  -- no phrase begins where an item or a key ends
  iterate 2
    split
    · next h => rw [h] at ht; cases ht
    · next h => rw [h] at ht; cases ht
    · next h => rw [h] at ht; cases ht
    · next h => rw [h] at ht; cases ht
    · next h => rw [h] at ht; cases ht
    · exact (Stalls.failExpecting _).bind
  rw [← hmet.token]
  split
  · exact ((matches_blockForm hg .object fun _ => rfl).bind fun _ _ h => .pure (hwrap h)).on
  · next h =>
    rw [h]
    exact (matches_mutableBrace hg).bind fun _ _ h => .pure (hwrap h)
  · exact ((matches_bracket hg).bind fun _ _ h => .pure (hwrap h)).on
  · exact ((matches_tuple hg).bind fun _ _ h => .pure (hwrap h)).on
  · exact ((matches_atom hg).bind fun _ _ h => .pure (hwrap h)).on
  · exact ((matches_failExpecting (by decide)).bind fun _ _ h => .pure (hwrap h)).on

theorem endsExpression_of_halts {t : Token} (h : t.halts) : endsExpression t := by
  rcases Token.halts_cases h with rfl | rfl | rfl | rfl | rfl | rfl | rfl <;> rfl

/-- Where the runs are stopped, both of them see that the expression around has ended. -/
theorem matches_optionalExpression (hg : g.Steady K) :
    K.Matches k k K.ViewsOption (optionalExpression g) (optionalExpression g) := by
  intro s s' hrel
  have hends : endsExpression s.cursor.current.token = endsExpression s'.cursor.current.token := by
    by_cases hstop : K.stopped s.cursor s'.cursor
    · obtain ⟨hhalts, hhalts'⟩ := K.halts hstop
      rw [endsExpression_of_halts hhalts.token,
        endsExpression_of_halts hhalts'.token]
    · rw [K.token hrel hstop]
  unfold optionalExpression
  rw [bind_of_ok (rfl : peek s = .ok s.cursor.current s),
    bind_of_ok (rfl : peek s' = .ok s'.cursor.current s'), ← hends]
  split
  · exact .ok hrel rfl
  · exact matches_some (hg.expression k) s s' hrel

theorem matches_throwForm (hg : g.Steady K) :
    K.Matches k k (K.Views Node.relocate) (throwForm g) (throwForm g) := by
  refine (matches_expect (.inr rfl) rfl rfl).bind fun position position' hposition => ?_
  refine (hg.expression k).bind fun value value' hvalue => .pure ?_
  simp only [Views, Node.relocate, NodeKind.relocate, hvalue, hposition]

theorem matches_returnForm (hg : g.Steady K) :
    K.Matches k k (K.Views Node.relocate) (returnForm g) (returnForm g) := by
  refine (matches_expect (.inr rfl) rfl rfl).bind fun position position' hposition => ?_
  refine (matches_optionalExpression hg).bind fun value value' hvalue => .pure ?_
  simp only [Views, Node.relocate, NodeKind.relocate, hvalue, hposition]

theorem matches_yieldForm (hg : g.Steady K) :
    K.Matches k k (K.Views Node.relocate) (yieldForm g) (yieldForm g) := by
  refine (matches_expect (.inr rfl) rfl rfl).bind fun position position' hposition => ?_
  refine Matches.eat_ite (.inr rfl) rfl ?_ ?_
  · refine (hg.expression k).bind fun source source' hsource => .pure ?_
    simp only [Views, Node.relocate, NodeKind.relocate, hsource, hposition]
  · refine (matches_optionalExpression hg).bind fun value value' hvalue => .pure ?_
    simp only [Views, Node.relocate, NodeKind.relocate, hvalue, hposition]

theorem matches_wordForm (w : Keyword) {kind : NodeKind}
    (hkind : kind.relocate K.view = kind) :
    K.Matches k k (K.Views Node.relocate) (wordForm w kind) (wordForm w kind) := by
  refine (matches_expect (.inr rfl) rfl rfl).bind fun position position' hposition => .pure ?_
  simp only [Views, Node.relocate, hkind, hposition]

theorem matches_formAt? (hg : g.Steady K) {t : Token} {p : Parser Node}
    (h : formAt? g t = some p) : K.Matches k k (K.Views Node.relocate) p p := by
  cases t with
  | keyword w =>
    cases w
    case if_ => cases h; exact matches_conditional hg
    case case => cases h; exact matches_caseForm hg
    case try_ => cases h; exact matches_tryForm hg
    case for_ => cases h; exact matches_forLoop hg
    case while_ => cases h; exact matches_whileLoop hg
    case iter => cases h; exact matches_iterForm hg
    case do_ => cases h; exact matches_blockForm hg .do_ fun _ => rfl
    case object => cases h; exact matches_blockForm hg .object fun _ => rfl
    case module_ => cases h; exact matches_blockForm hg .module_ fun _ => rfl
    case exception => cases h; exact matches_blockForm hg .exception fun _ => rfl
    case enum => cases h; exact matches_enumForm
    case mutable => cases h; exact matches_mutableForm hg
    case throw => cases h; exact matches_throwForm hg
    case return_ => cases h; exact matches_returnForm hg
    case yield => cases h; exact matches_yieldForm hg
    case break_ => cases h; exact matches_wordForm .break_ rfl
    case continue_ => cases h; exact matches_wordForm .continue_ rfl
    case pass => cases h; exact matches_wordForm .pass rfl
    -- the keywords that open no form
    all_goals cases h
  | _ => cases h

/-! ### Expressions and programs -/

theorem matches_plainExpression (hg : g.Steady K) {start start' : PlacedToken}
    (hstart : K.Met start start') :
    K.Matches k k (K.Views Node.relocate) (plainExpression g start) (plainExpression g start') := by
  unfold plainExpression
  rw [← hstart.token]
  split
  · exact matches_declaration hg
  · exact matches_declaration hg
  · exact (matches_assignmentHead hg).bind fun head head' hhead =>
      matches_assignmentValue hg hhead hstart.position
  · exact matches_cascade _ (matches_unary hg) g.rounds

theorem matches_openExpression (hg : g.Steady K) {start start' : PlacedToken}
    (hstart : K.Met start start') :
    K.Matches k k (K.Views Node.relocate) (openExpression g start) (openExpression g start') := by
  unfold openExpression
  rw [← hstart.token]
  refine Matches.attemptIf_bind (fun _ => matches_lambdaHead hg) (fun head head' hhead => ?_) ?_
  · exact matches_lambdaBody hg hhead hstart.position
  refine Matches.attemptIf_bind (fun _ => (matches_assignmentHead hg).lax) (fun head head' hhead => ?_) ?_
  · exact matches_assignmentValue hg hhead hstart.position
  · exact matches_plainExpression hg hstart

theorem startsLambda_of_halts {t : Token} (h : t.halts) : startsLambda t = false := by
  rcases Token.halts_cases h with rfl | rfl | rfl | rfl | rfl | rfl | rfl <;> rfl

theorem startsTarget_of_halts {t : Token} (h : t.halts) : startsTarget t = false := by
  rcases Token.halts_cases h with rfl | rfl | rfl | rfl | rfl | rfl | rfl <;> rfl

/-- No expression begins where an item or a key ends. -/
theorem expressionWith_of_halts {start : PlacedToken} (h : start.token.halts) : Stalls (
    match formAt? g start.token with
    | some form => form
    | none => openExpression g start) := by
  have hform : formAt? g start.token = none := by
    rcases Token.halts_cases h with h | h | h | h | h | h | h <;> rw [h] <;> rfl
  have hplain : plainExpression g start = cascade g.rounds (unary g) OperatorLevel.all := by
    unfold plainExpression
    rcases Token.halts_cases h with h | h | h | h | h | h | h <;> rw [h]
  simp only [hform, openExpression, startsLambda_of_halts h, startsTarget_of_halts h, hplain]
  exact stalls_cascade _ stalls_unary _

theorem matches_expressionWith (hg : g.Steady K) :
    K.Matches k k (K.Views Node.relocate) (expressionWith g) (expressionWith g) := by
  refine Matches.peek_bind (.inr fun t ht =>
    ⟨expressionWith_of_halts ht, expressionWith_of_halts ht⟩) fun t t' hmet => Matches.on ?_
  rw [← hmet.token]
  cases hform : formAt? g t.token with
  | some form => exact matches_formAt? hg hform
  | none => exact matches_openExpression hg hmet

theorem matches_programWith (hexact : K.Exact k) (hg : g.Steady K) :
    K.Matches k k (K.Views Program.relocate) (programWith g) (programWith g) := by
  refine (matches_list hexact (hg.expression k) g.rounds).bind fun l l' hl => ?_
  refine Matches.isAt_ite (.inl hexact) (Matches.on (.pure ?_)) (matches_failExpecting (by decide))
  simp only [Views, Program.relocate, Node.relocateAll_eq_map, map_eq_of_forall₂ hl.items]

/-! ### Phrases at a depth -/

theorem Inner.Steady.deepen (hg : g.Steady K)
    (harrow : ∀ {c c'}, K.stopped c c' →
      c.Arrowless (expressionWith g) ∧ c'.Arrowless (expressionWith g)) :
    g.deepen.Steady K where
  remembers := hg.remembers
  keeps := keepsTable_typeName hg.keeps
  arrowless := harrow
  expression _ := matches_expressionWith hg
  unary _ := matches_unary hg
  type _ := matches_typeName hg

/-- The runs are not stopped at a colon. -/
def Coupling.Colonless (K : Coupling) : Prop :=
  ∀ c c', K.stopped c c' →
    c.current.token ≠ .punctuator .colon ∧ c'.current.token ≠ .punctuator .colon

/-- Where there is no colon there is no value behind one. -/
theorem Coupling.Colonless.arrowless (hK : K.Colonless) (p : Parser Node) {c c' : Cursor}
    (hstop : K.stopped c c') : c.Arrowless p ∧ c'.Arrowless p :=
  ⟨fun h => absurd h (hK c c' hstop).1, fun h => absurd h (hK c c' hstop).2⟩

/-- **The phrases of every depth come to outcomes that belong together.** -/
theorem steady_phrases (hK : K.Colonless) (depth : Nat) : (phrases depth).Steady K := by
  induction depth with
  | zero =>
    exact ⟨rfl, fun _ => rfl, hK.arrowless _, fun _ => matches_failExpecting (by decide),
      fun _ => matches_failExpecting (by decide), fun _ => matches_failExpecting (by decide)⟩
  | succ depth ih => exact ih.deepen (hK.arrowless _)

end DrakeSyntax
