import DrakeSyntax.Proofs.Writing.Container
import DrakeSyntax.Proofs.Writing.Depth

/-!
# Nodes that are read as they are written

A node is readable when the nodes inside it are, for each kind of node.

* `readable_plain`: nodes that are only read as expressions.
* `readable_direct`: nodes that are read without parentheses by a production of their own as well.
-/

namespace DrakeSyntax

open DrakeSyntax.Parser

variable {kind : NodeKind} {position : Position} {n : Node} {ns : List Node}

/-- A node of the kind is read as an expression by phrases of enough depth. -/
def ReadAsExpression (kind : NodeKind) (position : Position) : Prop :=
  ∀ depth, kind.written.length ≤ depth → ∀ k, Ahead Token.endsItem k →
    Reads (expressionWith (phrases depth)) (kind.written ++ k) k fun m => m.same ⟨kind, position⟩

theorem readable_plain (hopen : Ahead Token.opensPlainly kind.written)
    (hdirect : ∀ g, directParser g kind = none) (h : ReadAsExpression kind position) :
    Node.Readable ⟨kind, position⟩ := by
  refine ⟨.plain hopen, fun depth hdepth => ⟨h depth hdepth, ?_⟩⟩
  rw [hdirect]
  exact fun _ hp => nomatch hp

theorem readable_direct {p : Inner → Parser Node} (hopen : Ahead Token.opensPlainly kind.written)
    (hdirect : ∀ g, directParser g kind = some (p g)) (h : ReadAsExpression kind position)
    (hp : ∀ depth, kind.written.length ≤ depth → ∀ k,
      Reads (p (phrases depth)) (kind.written ++ k) k fun m => m.same ⟨kind, position⟩) :
    Node.Readable ⟨kind, position⟩ := by
  refine ⟨.plain hopen, fun depth hdepth => ⟨h depth hdepth, ?_⟩⟩
  rw [hdirect]
  rintro _ ⟨⟩
  exact hp depth hdepth

/-! ### Operands -/

theorem readable_literal (value : Literal) : Node.Readable ⟨.literal value, position⟩ := by
  have hopen : Ahead Token.opensPlainly (NodeKind.literal value).written := by
    match value with
    | .string _ | .number _ | .boolean true | .boolean false | .none => rfl
  have hread : ReadAsExpression (.literal value) position :=
    fun depth _ k hk => reads_expression_literal value hk
  match value with
  | .string s =>
    exact readable_direct hopen (fun _ => rfl) hread fun _ _ _ => reads_atom_token rfl position
  | .number _ | .boolean _ | .none => exact readable_plain hopen (fun _ => rfl) hread

theorem readable_identifier (name : String) : Node.Readable ⟨.identifier name, position⟩ :=
  ⟨.name name rfl, fun _ _ => ⟨fun _ hk => reads_expression_name name hk, fun _ hp => nomatch hp⟩⟩

theorem readable_unary (hn : n.Readable) (op : UnaryOperator) :
    Node.Readable ⟨.unary op n, position⟩ := by
  have hopen : Ahead Token.opensPlainly (NodeKind.unary op n).written := by
    cases op <;> rfl
  refine readable_plain hopen (fun _ => rfl) fun depth hdepth k hk => ?_
  simp only [NodeKind.written, List.length_cons] at hdepth
  have hgroup := hn.group (d := depth) (by omega)
  exact reads_expression_unary hgroup op hk

theorem readable_binary {op : BinaryOperator} (hshape : (NodeKind.binary op ns).WellShaped)
    (h : ∀ n ∈ ns, n.Readable) : Node.Readable ⟨.binary op ns, position⟩ := by
  have hopen : Ahead Token.opensPlainly (NodeKind.binary op ns).written := by
    obtain ⟨n, m, ns, rfl⟩ := exists_two_operands hshape
    rfl
  refine readable_plain hopen (fun _ => rfl) fun depth hdepth k hk => ?_
  obtain ⟨hgroups, hcount⟩ := readsOperands h hdepth
  exact reads_expression_binary hshape hgroups hcount hk

theorem readable_primary {ts : List Trailer} (hshape : (NodeKind.primary n ts).WellShaped)
    (h : ∀ c ∈ (NodeKind.primary n ts).children, c.Readable) :
    Node.Readable ⟨.primary n ts, position⟩ := by
  refine readable_plain rfl (fun _ => rfl) fun depth hdepth k hk => ?_
  simp only [NodeKind.written, List.length_append] at hdepth
  obtain ⟨hn, hnodes⟩ := List.forall_mem_cons.1 h
  obtain ⟨htrailers, hcount⟩ := readsTrailers (d := depth) hnodes hshape.2 (by omega)
  exact reads_expression_primary (hn.group (by omega)) hshape.1 htrailers hcount hk

/-! ### Containers -/

theorem readable_block (h : ∀ n ∈ ns, n.Readable) : Node.Readable ⟨.block ns, position⟩ := by
  -- at every depth that the block fits in
  have hgroups (depth : Nat) (hdepth : (NodeKind.block ns).written.length ≤ depth) :
      (∀ n ∈ ns, ReadsGroup (phrases depth) n) ∧ ns.length ≤ (phrases depth).rounds := by
    simp only [NodeKind.written, inBraces, List.length_cons, List.length_append] at hdepth
    exact readsGroups h (by omega)
  refine readable_direct rfl (fun _ => rfl) (fun depth hdepth k hk => ?_) fun depth hdepth k => ?_
  · obtain ⟨hitems, hcount⟩ := hgroups depth hdepth
    refine reads_expression_atom rfl rfl (fun k => Runs.peek_bind fun _ => ?_) hk
    refine (reads_brace_block (k := k) hitems hcount).weaken ?_
    rintro _ ⟨items, p, rfl, hsame⟩
    exact same_block hsame
  · obtain ⟨hitems, hcount⟩ := hgroups depth hdepth
    exact reads_block hitems hcount

theorem readable_mapping {ps : List Pair} (hshape : (NodeKind.mapping ps).WellShaped)
    (h : ∀ n ∈ ps.flatMap Pair.nodes, n.Readable) : Node.Readable ⟨.mapping ps, position⟩ := by
  -- braces read a mapping here and where it is made mutable
  have hbrace (depth : Nat) (hdepth : (NodeKind.mapping ps).written.length ≤ depth)
      (k : List Token) : Reads (brace (phrases depth)) ((NodeKind.mapping ps).written ++ k) k
        fun m => m.same ⟨.mapping ps, position⟩ := by
    simp only [NodeKind.written, inBraces, List.length_cons, List.length_append] at hdepth
    obtain ⟨hpairs, hcount⟩ := readsPairs (d := depth) h (by omega)
    cases ps with
    | nil => exact absurd rfl hshape
    | cons p ps =>
      refine (reads_brace_mapping hpairs hcount).weaken ?_
      rintro _ ⟨found, q, rfl, hsame⟩
      simpa [Node.same, NodeKind.same] using hsame
  refine readable_direct rfl (fun _ => rfl) (fun depth hdepth k hk => ?_) hbrace
  exact reads_expression_atom rfl rfl
    (fun k => Runs.peek_bind fun _ => hbrace depth hdepth k) hk

theorem readable_list {content : ListLiteral} (h : ∀ n ∈ content.nodes, n.Readable) :
    Node.Readable ⟨.list content, position⟩ := by
  -- brackets read a list here, behind a keyword and as an index
  have hbracket (depth : Nat) (hdepth : (NodeKind.list content).written.length ≤ depth)
      (k : List Token) : Reads (bracket (phrases depth)) ((NodeKind.list content).written ++ k) k
        fun m => m.same ⟨.list content, position⟩ := by
    simp only [NodeKind.written, inBrackets, List.length_cons, List.length_append] at hdepth
    obtain ⟨hnodes, hcount⟩ := readsContent (d := depth) h (by omega)
    exact reads_bracket (phrases_remembers depth) hnodes hcount
  refine readable_direct rfl (fun _ => rfl) (fun depth hdepth k hk => ?_) hbracket
  exact reads_expression_atom rfl rfl
    (fun k => Runs.peek_bind fun _ => hbracket depth hdepth k) hk

theorem readable_tuple (h : ∀ n ∈ ns, n.Readable) : Node.Readable ⟨.tuple ns, position⟩ := by
  have hgroups (depth : Nat) (hdepth : (NodeKind.tuple ns).written.length ≤ depth) :
      (∀ n ∈ ns, ReadsGroup (phrases depth) n) ∧ ns.length ≤ (phrases depth).rounds := by
    simp only [NodeKind.written, inParens, List.length_cons, List.length_append] at hdepth
    exact readsGroups h (by omega)
  refine readable_direct rfl (fun _ => rfl) (fun depth hdepth k hk => ?_) fun depth hdepth k => ?_
  · obtain ⟨hitems, hcount⟩ := hgroups depth hdepth
    exact reads_expression_tuple hitems hcount hk
  · obtain ⟨hitems, hcount⟩ := hgroups depth hdepth
    exact reads_tuple hitems hcount

/-! ### Declarations, lambdas and assignments -/

theorem readable_declaration (d : Declaration) : Node.Readable ⟨.declaration d, position⟩ := by
  refine ⟨.declaration d rfl, fun depth hdepth => ⟨fun k hk => ?_, fun _ hp => nomatch hp⟩⟩
  simp only [Node.written, NodeKind.written, Declaration.written, TypeHint.angled,
    List.length_append, List.length_cons] at hdepth
  exact reads_expression_declaration (readsType_phrases d.typeHint depth (by omega)) hk

theorem readable_lambda {positional : List PositionalParameter} {keyword : List KeywordParameter}
    (hshape : (NodeKind.lambda positional keyword n).WellShaped)
    (h : ∀ c ∈ (NodeKind.lambda positional keyword n).children, c.Readable) :
    Node.Readable ⟨.lambda positional keyword n, position⟩ := by
  refine readable_plain rfl (fun _ => rfl) fun depth hdepth k hk => ?_
  obtain ⟨hvalues, hn⟩ := List.forall_mem_append.1 h
  have hgroup : ReadsGroup (phrases depth) n := by
    simp only [NodeKind.written, List.length_append, List.length_cons] at hdepth
    exact (hn n (List.mem_singleton_self n)).group (by omega)
  simp only [NodeKind.written, inParens, List.length_append, List.length_cons] at hdepth
  exact reads_expression_lambda (readsLambdaHead hshape hvalues (by omega)) hgroup hk

theorem readable_assignment {ts : List Target} {operator : AssignmentOperator}
    (hshape : (NodeKind.assignment ts operator n).WellShaped) (hn : n.Readable) :
    Node.Readable ⟨.assignment ts operator n, position⟩ := by
  refine readable_plain rfl (fun _ => rfl) fun depth hdepth k hk => ?_
  simp only [NodeKind.written, List.length_append, List.length_cons] at hdepth
  exact reads_expression_assignment hshape (readsTargets hshape.1 (by omega))
    (hn.group (by omega)) hk

/-! ### Forms -/

theorem opensPlainly_of_form {kw : Keyword} {w : List Token} (hw : Ahead (· == .keyword kw) w)
    {form : Inner → Parser Node} (hform : ∀ g, form? g kw = some (form g)) :
    Ahead Token.opensPlainly w := by
  refine hw.mono fun t ht => ?_
  rw [beq_iff_eq.1 ht]
  have hsome := hform (phrases 0)
  cases kw <;> first | rfl | cases hsome

/-- A form is readable when its production reads it. -/
theorem readable_form (kw : Keyword) {form : Inner → Parser Node}
    (hw : Ahead (· == .keyword kw) kind.written) (hform : ∀ g, form? g kw = some (form g))
    (hdirect : ∀ g, directParser g kind = none)
    (h : ∀ depth, kind.written.length ≤ depth → ∀ k, Ahead Token.endsItem k →
      Reads (form (phrases depth)) (kind.written ++ k) k fun m => m.same ⟨kind, position⟩) :
    Node.Readable ⟨kind, position⟩ :=
  readable_plain (opensPlainly_of_form hw hform) hdirect fun depth hdepth k hk =>
    reads_expression_form hw (hform _) (h depth hdepth k hk)

/-- A form that can stand behind a keyword is read by its production there. -/
theorem readable_form_direct (kw : Keyword) {form : Inner → Parser Node}
    (hw : Ahead (· == .keyword kw) kind.written) (hform : ∀ g, form? g kw = some (form g))
    (hdirect : ∀ g, directParser g kind = some (form g))
    (h : ∀ depth, kind.written.length ≤ depth → ∀ k,
      Reads (form (phrases depth)) (kind.written ++ k) k fun m => m.same ⟨kind, position⟩) :
    Node.Readable ⟨kind, position⟩ :=
  readable_direct (opensPlainly_of_form hw hform) hdirect (fun depth hdepth k _ =>
    reads_expression_form hw (hform _) (h depth hdepth k)) h

theorem readable_conditional {condition consequence : Node} {otherwise : Option Node}
    (hcondition : condition.Readable) (hconsequence : consequence.Readable)
    (hotherwise : ∀ n ∈ otherwise, n.Readable) :
    Node.Readable ⟨.conditional condition consequence otherwise, position⟩ := by
  refine readable_form .if_ rfl (fun _ => rfl) (fun _ => rfl) fun depth hdepth k hk => ?_
  simp only [NodeKind.written, List.length_append, List.length_cons] at hdepth
  have hlength := length_writtenBehind .else_ otherwise
  exact reads_conditional (hcondition.group (by omega)) (hconsequence.group (by omega))
    (readsOption hotherwise (by omega)) hk

theorem readable_case {ps : List Pair} {otherwise : Option Node} (hn : n.Readable)
    (h : ∀ n ∈ ps.flatMap Pair.nodes, n.Readable) (hotherwise : ∀ n ∈ otherwise, n.Readable) :
    Node.Readable ⟨.case n ps otherwise, position⟩ := by
  refine readable_form .case rfl (fun _ => rfl) (fun _ => rfl) fun depth hdepth k hk => ?_
  simp only [NodeKind.written, inBraces, List.length_append, List.length_cons] at hdepth
  have hlength := length_writtenBehind .else_ otherwise
  obtain ⟨hpairs, hcount⟩ := readsPairs (d := depth) h (by omega)
  exact reads_caseForm (hn.group (by omega)) hpairs hcount (readsOption hotherwise (by omega)) hk

theorem readable_try {cs : List CatchClause} {cleanup : Option Node}
    (hshape : (NodeKind.try_ n cs cleanup).WellShaped) (hn : n.Readable)
    (h : ∀ c ∈ cs, c.handler.Readable) (hcleanup : ∀ n ∈ cleanup, n.Readable) :
    Node.Readable ⟨.try_ n cs cleanup, position⟩ := by
  refine readable_form .try_ rfl (fun _ => rfl) (fun _ => rfl) fun depth hdepth k hk => ?_
  simp only [NodeKind.written, List.length_append, List.length_cons] at hdepth
  have hlength := length_writtenBehind .finally_ cleanup
  obtain ⟨hhandlers, hcount⟩ := readsHandlers (d := depth) h (by omega)
  exact reads_tryForm hshape (hn.group (by omega)) hhandlers hcount
    (readsOption hcleanup (by omega)) hk

variable {body : Node}

theorem readsBody (hblock : body.kind.isBlock) (hbody : body.Readable) {d : Nat}
    (hdepth : body.written.length ≤ d) : ReadsBody (phrases d) body := by
  obtain ⟨kind, position⟩ := body
  have hdirect := (hbody.reads d hdepth).direct
  simp only [NodeKind.isBlock] at hblock
  split at hblock
  · exact ⟨rfl, hdirect _ rfl⟩
  · cases hblock

theorem readable_for {ts : List Target} (hshape : (NodeKind.for_ ts n body).WellShaped)
    (hn : n.Readable) (hbody : body.Readable) : Node.Readable ⟨.for_ ts n body, position⟩ := by
  refine readable_form_direct .for_ rfl (fun _ => rfl) (fun _ => rfl) fun depth hdepth k => ?_
  simp only [NodeKind.written, List.length_append, List.length_cons] at hdepth
  exact reads_forLoop (readsTargets hshape.1 (by omega)) (hn.group (by omega))
    (readsBody hshape.2 hbody (by omega))

theorem readable_while (hshape : (NodeKind.while_ n body).WellShaped) (hn : n.Readable)
    (hbody : body.Readable) : Node.Readable ⟨.while_ n body, position⟩ := by
  refine readable_form_direct .while_ rfl (fun _ => rfl) (fun _ => rfl) fun depth hdepth k => ?_
  simp only [NodeKind.written, List.length_append, List.length_cons] at hdepth
  exact reads_whileLoop (hn.group (by omega)) (readsBody hshape hbody (by omega))

theorem readable_iter (hshape : (NodeKind.iter n).WellShaped) (hn : n.Readable) :
    Node.Readable ⟨.iter n, position⟩ := by
  refine readable_form .iter rfl (fun _ => rfl) (fun _ => rfl) fun depth hdepth k _ => ?_
  simp only [NodeKind.written, List.length_cons] at hdepth
  exact reads_iterForm hshape (hn.reads depth (by omega)).direct

theorem readable_mutable (hshape : (NodeKind.mutable n).WellShaped) (hn : n.Readable) :
    Node.Readable ⟨.mutable n, position⟩ := by
  refine readable_form .mutable rfl (fun _ => rfl) (fun _ => rfl) fun depth hdepth k _ => ?_
  simp only [NodeKind.written, List.length_cons] at hdepth
  exact reads_mutableForm hshape (hn.reads depth (by omega)).direct

theorem readable_emptyTable (p : Position) :
    Node.Readable ⟨.mutable ⟨.mapping [], p⟩, position⟩ :=
  readable_form .mutable rfl (fun _ => rfl) (fun _ => rfl) fun _ _ _ _ => reads_mutableForm_empty p

/-- A keyword with a block behind it is read by phrases of enough depth. -/
theorem readsBlockForm {kw : Keyword} {kind : List Node → NodeKind}
    (hkind : (kind ns).written = .keyword kw :: inBraces (commaList (Node.writtenAll ns)))
    (hsame : ∀ items p, Node.sameAll items ns → Node.same ⟨kind items, p⟩ ⟨kind ns, position⟩)
    (h : ∀ n ∈ ns, n.Readable) {depth : Nat} (hdepth : (kind ns).written.length ≤ depth)
    (k : List Token) : Reads (blockForm (phrases depth) kw kind) ((kind ns).written ++ k) k
      fun m => m.same ⟨kind ns, position⟩ := by
  rw [hkind] at hdepth ⊢
  simp only [inBraces, List.length_cons, List.length_append] at hdepth
  obtain ⟨hitems, hcount⟩ := readsGroups (d := depth) h (by omega)
  exact reads_blockForm hitems hcount hsame

theorem readable_do (h : ∀ n ∈ ns, n.Readable) : Node.Readable ⟨.do_ ns, position⟩ := by
  refine readable_form .do_ rfl (fun _ => rfl) (fun _ => rfl) fun depth hdepth k _ => ?_
  refine readsBlockForm rfl (fun items p hitems => ?_) h hdepth k
  simpa [Node.same, NodeKind.same] using hitems

theorem readable_object (h : ∀ n ∈ ns, n.Readable) : Node.Readable ⟨.object ns, position⟩ := by
  refine readable_form_direct .object rfl (fun _ => rfl) (fun _ => rfl) fun depth hdepth k => ?_
  refine readsBlockForm rfl (fun items p hitems => ?_) h hdepth k
  simpa [Node.same, NodeKind.same] using hitems

theorem readable_module (h : ∀ n ∈ ns, n.Readable) : Node.Readable ⟨.module_ ns, position⟩ := by
  refine readable_form .module_ rfl (fun _ => rfl) (fun _ => rfl) fun depth hdepth k _ => ?_
  refine readsBlockForm rfl (fun items p hitems => ?_) h hdepth k
  simpa [Node.same, NodeKind.same] using hitems

theorem readable_exception (h : ∀ n ∈ ns, n.Readable) :
    Node.Readable ⟨.exception ns, position⟩ := by
  refine readable_form .exception rfl (fun _ => rfl) (fun _ => rfl) fun depth hdepth k _ => ?_
  refine readsBlockForm rfl (fun items p hitems => ?_) h hdepth k
  simpa [Node.same, NodeKind.same] using hitems

theorem readable_enum (flags : Bool) (members : List EnumMember) :
    Node.Readable ⟨.enum flags members, position⟩ := by
  refine readable_form .enum rfl (fun _ => rfl) (fun _ => rfl) fun depth hdepth k _ => ?_
  simp only [NodeKind.written, inBraces, List.length_append, List.length_cons] at hdepth
  have hwords : (commaList (members.map EnumMember.written)).length ≤ depth := by omega
  have hpos : ∀ e ∈ members, 0 < e.written.length := fun _ _ => Nat.succ_pos _
  obtain ⟨hcount, -⟩ := length_le_of_commaList hpos hwords
  exact reads_enumForm (by simpa using hcount)

/-! ### Jumps -/

theorem readable_throw (hn : n.Readable) : Node.Readable ⟨.throw n, position⟩ := by
  refine readable_form .throw rfl (fun _ => rfl) (fun _ => rfl) fun depth hdepth k hk => ?_
  simp only [NodeKind.written, List.length_cons] at hdepth
  exact reads_throwForm (hn.group (by omega)) hk

variable {o : Option Node}

theorem readable_return (h : ∀ n ∈ o, n.Readable) : Node.Readable ⟨.return_ o, position⟩ := by
  refine readable_form .return_ rfl (fun _ => rfl) (fun _ => rfl) fun depth hdepth k hk => ?_
  simp only [NodeKind.written, List.length_cons] at hdepth
  exact reads_returnForm (readsOption h (by omega)) hk

theorem readable_yield (h : ∀ n ∈ o, n.Readable) : Node.Readable ⟨.yield o, position⟩ := by
  refine readable_form .yield rfl (fun _ => rfl) (fun _ => rfl) fun depth hdepth k hk => ?_
  simp only [NodeKind.written, List.length_cons] at hdepth
  exact reads_yieldForm (readsOption h (by omega)) hk

theorem readable_yieldFrom (hn : n.Readable) : Node.Readable ⟨.yieldFrom n, position⟩ := by
  refine readable_form .yield rfl (fun _ => rfl) (fun _ => rfl) fun depth hdepth k hk => ?_
  simp only [NodeKind.written, List.length_cons] at hdepth
  exact reads_yieldForm_from (hn.group (by omega)) hk

/-- A keyword that is an expression by itself is readable. -/
theorem readable_word (kw : Keyword) (hkind : kind.written = [.keyword kw])
    (hform : ∀ g, form? g kw = some (wordForm kw kind))
    (hdirect : ∀ g, directParser g kind = none)
    (hsame : ∀ p, Node.same ⟨kind, p⟩ ⟨kind, position⟩) : Node.Readable ⟨kind, position⟩ := by
  refine readable_form kw ?_ hform hdirect fun _ _ k _ => ?_
  · rw [hkind]
    exact beq_self_eq_true _
  · rw [hkind]
    exact reads_wordForm hsame

end DrakeSyntax
