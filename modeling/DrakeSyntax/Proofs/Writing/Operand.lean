import DrakeSyntax.Proofs.Runs.Level
import DrakeSyntax.Proofs.Writing.Enclosed

/-!
# Reading operands and operators as they are written

Attributes, calls and indices are read behind an expression in parentheses, and operators in front
of one and between two of them.

* `reads_trailers`: trailers one behind the other.
* `readsOperand_binary`: operands with one operator between them.
-/

namespace DrakeSyntax

open DrakeSyntax.Parser

variable {g : Inner} {k : List Token} {n : Node} {ns : List Node} {position : Position}

/-! ### Trailers -/

/-- A name is read as an expression in front of what ends an expression in parentheses. -/
def ReadsName (g : Inner) : Prop :=
  ∀ name k, Ahead Token.endsGroup k → Reads g.expression (.identifier name :: k) k fun _ => True

theorem readsName_phrases (depth : Nat) : ReadsName (phrases (depth + 1)) := by
  intro name k hk
  have hoperand : ReadsOperand (Parser.unary (phrases depth)) []
      ⟨[.identifier name], ⟨.identifier name, .start⟩⟩ := readsOperand_token rfl .start
  have hcascade := hoperand.cascade (r := (phrases depth).rounds) OperatorLevel.all
  rw [List.append_nil] at hcascade
  -- no arrow and no operator of an assignment follows
  have hhead : Headless (phrases depth) (.identifier name :: k) := by
    obtain ⟨t, k, rfl, ht⟩ := (not_endsHead_of_endsGroup hk).exists_cons
    exact headless_name (not_endsHead (by simpa using ht)).2
  exact (reads_operandExpression hcascade rfl (endsOperand_of_endsGroup _ hk) hhead).weaken
    fun _ _ => trivial

/-- The argument is read as it is written. -/
theorem reads_keywordArgument {a : KeywordArgument} (h : ReadsGroup g a.value)
    (hk : Ahead Token.endsItem k) :
    Reads (keywordArgument g) (a.written ++ k) k fun b => b.same a := by
  obtain ⟨name, value⟩ := a
  rw [KeywordArgument.written, List.cons_append, List.cons_append]
  refine Runs.identifier_bind fun _ => ?_
  refine Runs.discard_bind (Runs.expect_bind (by decide) fun _ => ?_)
  refine (h.expression k (endsGroup_of_endsItem hk)).bind fun m hm => ReadsOr.pure ?_
  simpa [KeywordArgument.same] using hm

/-- What is read inside a call. -/
structure ReadsCall (g : Inner) (positional : List Node) (keyword : List KeywordArgument) :
    Prop where
  name : ReadsName g
  value : ∀ n ∈ positional, ReadsGroup g n
  named : ∀ a ∈ keyword, ReadsGroup g a.value
  rounds : positional.length + keyword.length ≤ g.rounds

/-- Positional and named arguments are told apart. -/
theorem reads_arguments {positional : List Node} {keyword : List KeywordArgument}
    (h : ReadsCall g positional keyword) :
    Reads (twoKindList g.rounds g.expression (keywordArgument g))
      (commaList (Node.writtenAll positional ++ KeywordArgument.writtenAll keyword)
        ++ .punctuator .rightParen :: k)
      (.punctuator .rightParen :: k) fun found =>
        Node.sameAll found.1 positional ∧ KeywordArgument.sameAll found.2 keyword := by
  rw [Node.writtenAll_eq_map, KeywordArgument.writtenAll_eq_map]
  have hp : ∀ n ∈ positional, ∀ k, Ahead Token.endsItem k →
      Reads (longer g.expression (keywordArgument g)) (inParens n.written ++ k) k
        (Sum.elim (fun m => m.same n) fun _ => False) := by
    intro n hn k hk
    -- an expression in parentheses does not begin with a name
    have hfails : Fails (keywordArgument g) (inParens n.written ++ k) :=
      Fails.identifier_bind (by simp)
    refine reads_longer_inl ((h.value n hn).expression k (endsGroup_of_endsItem hk)) ?_
    exact hfails.weaken (fun _ _ h => h.elim) id
  have hchosen : ∀ a ∈ keyword.head?, ∀ k, Ahead Token.endsItem k →
      Reads (longer g.expression (keywordArgument g)) (a.written ++ k) k
        (Sum.elim (fun _ => False) fun b => b.same a) := by
    intro a ha k hk
    refine reads_longer_inr ?_ (reads_keywordArgument (h.named a (List.mem_of_mem_head? ha)) hk)
    obtain ⟨name, value⟩ := a
    rw [KeywordArgument.written, List.cons_append, List.cons_append]
    -- as an expression the name ends in front of the colon
    have hname := h.name name (.punctuator .colon :: (inParens value.written ++ k)) rfl
    refine Runs.weaken hname.or ?_ id
    rintro _ _ ⟨rfl, -⟩
    simp only [List.length_cons, List.length_append]
    omega
  have hq : ∀ a ∈ keyword, ∀ k, Ahead Token.endsItem k →
      Reads (keywordArgument g) (a.written ++ k) k fun b => b.same a :=
    fun a ha k hk => reads_keywordArgument (h.named a ha) hk
  have hopens : ∀ n ∈ positional, Ahead Token.opensItem (inParens n.written) := fun _ _ => rfl
  have hopens' : ∀ a ∈ keyword, Ahead Token.opensItem a.written := by
    rintro ⟨name, value⟩ _
    rw [KeywordArgument.written]
    rfl
  have hlists := reads_twoKindList (k := .punctuator .rightParen :: k) rfl hp hchosen hq hopens
    hopens' h.rounds
  exact hlists.weaken fun found hfound =>
    ⟨Node.sameAll_iff.2 hfound.1.flip, KeywordArgument.sameAll_iff.2 hfound.2.flip⟩

/-- What is read inside a trailer. -/
def ReadsTrailer (g : Inner) : Trailer → Prop
  | .attribute _ => True
  | .call positional keyword => ReadsCall g positional keyword
  | .index operand =>
    Ahead (· == .punctuator .leftBracket) operand.written ∧
      ∀ k, Reads (bracket g) (operand.written ++ k) k fun m => m.same operand

/-- A trailer is read, and more of them behind it. -/
theorem reads_trailers_cons {t : Trailer} (h : ReadsTrailer g t) {r : Nat}
    {ts : List Trailer} {l : List Token}
    (hrest : Reads (trailers g r) l k fun found => Trailer.sameAll found ts) :
    Reads (trailers g (r + 1)) (t.written ++ l) k fun found => Trailer.sameAll found (t :: ts) := by
  -- one trailer in front of those that are read behind it
  have hcons {found : Trailer} (hfound : found.same t) :
      Reads (do return found :: (← trailers g r)) l k fun found =>
        Trailer.sameAll found (t :: ts) :=
    hrest.bind fun _ hmore => ReadsOr.pure (by simp [Trailer.sameAll, hfound, hmore])
  rcases t with name | ⟨positional, keyword⟩ | operand
  · rw [Trailer.written]
    refine Runs.eat_bind (by decide) (Runs.ite_true ?_)
    refine Runs.identifier_bind fun _ => ?_
    exact hcons (by simp [Trailer.same])
  · rw [Trailer.written, inParens_append]
    refine Runs.eat_bind_ne (by decide) (Runs.ite_false ?_)
    refine Runs.eat_bind (by decide) (Runs.ite_true ?_)
    refine (reads_arguments h).bind fun found hf => ?_
    refine Runs.discard_bind (Runs.expect_bind (by decide) fun _ => hcons ?_)
    simp [Trailer.same, hf.1, hf.2]
  · obtain ⟨hopen, hread⟩ := h
    obtain ⟨u, w, hw, hu⟩ := hopen.exists_cons
    obtain rfl : u = .punctuator .leftBracket := by simpa using hu
    have hread := hread l
    rw [Trailer.written]
    rw [hw] at hread ⊢
    refine Runs.eat_bind_ne (by decide) (Runs.ite_false ?_)
    refine Runs.eat_bind_ne (by decide) (Runs.ite_false ?_)
    refine Runs.isAt_bind (Runs.ite_true ?_)
    exact hread.bind fun m hm => hcons (by simpa [Trailer.same] using hm)

/-- Trailers are read to the last one. -/
theorem reads_trailers {ts : List Trailer} (h : ∀ t ∈ ts, ReadsTrailer g t) {r : Nat}
    (hr : ts.length ≤ r) (hk : Ahead (fun t => !t.opensTrailer) k) :
    Reads (trailers g r) (Trailer.writtenAll ts ++ k) k fun found => Trailer.sameAll found ts := by
  induction ts generalizing r with
  | nil =>
    refine (reads_trailers_none hk).weaken ?_
    rintro _ rfl
    simp [Trailer.sameAll]
  | cons t ts ih =>
    obtain ⟨r, rfl⟩ : ∃ r', r = r' + 1 := ⟨r - 1, by simp only [List.length_cons] at hr; omega⟩
    obtain ⟨ht, hts⟩ := List.forall_mem_cons.1 h
    rw [Trailer.writtenAll, List.append_assoc]
    exact reads_trailers_cons ht (ih hts (by simpa using hr))

/-- An expression in parentheses with trailers behind it is an operand. -/
theorem readsOperand_primary {ts : List Trailer} (hn : ReadsGroup g n) (hts : ts ≠ [])
    (h : ∀ t ∈ ts, ReadsTrailer g t) (hr : ts.length ≤ g.rounds) (position : Position) :
    ReadsOperand (Parser.unary g) []
      ⟨(NodeKind.primary n ts).written, ⟨.primary n ts, position⟩⟩ := by
  intro k hk
  have hbase := hn.atom (Trailer.writtenAll ts ++ k)
  have hprimary : Reads (primary g) (inParens n.written ++ (Trailer.writtenAll ts ++ k)) k fun m =>
      m.same ⟨.primary n ts, position⟩ := by
    refine hbase.bind fun m hm => ?_
    refine (reads_trailers h hr hk.trailer).bind fun found hfound => ?_
    -- the trailers are not empty, so this is a primary
    have hsame : Node.same ⟨.primary m found, m.position⟩ ⟨.primary n ts, position⟩ := by
      simp [Node.same, NodeKind.same, hm, hfound]
    split
    · cases ts with
      | nil => exact absurd rfl hts
      | cons t ts => simp [Trailer.sameAll] at hfound
    · exact ReadsOr.pure hsame
  simp only [NodeKind.written, List.append_assoc]
  rw [inParens_append] at hprimary ⊢
  exact Runs.peek_bind fun _ => hprimary

/-! ### Operators -/

theorem exists_two_operands {op : BinaryOperator} (h : (NodeKind.binary op ns).WellShaped) :
    ∃ n m rest, ns = n :: m :: rest := by
  have htwo : 2 ≤ ns.length := by
    simp only [NodeKind.WellShaped] at h
    split at h <;> omega
  match ns, htwo with
  | n :: m :: rest, _ => exact ⟨n, m, rest, rfl⟩

/-- A level groups operands with one operator between them under that operator. -/
theorem OperatorLevel.group_same_operator {level : OperatorLevel} {op : BinaryOperator}
    (hlevel : level.associativity = if op.groupsRight then .right else .left) {n m : Node}
    (hshape : (NodeKind.binary op (n :: m :: ns)).WellShaped) :
    level.group n ((m :: ns).map (op, ·)) = ⟨.binary op (n :: m :: ns), n.position⟩ := by
  simp only [NodeKind.WellShaped] at hshape
  rw [OperatorLevel.group, hlevel]
  split at hshape
  · next hright =>
    have hnone : ns = [] := by simpa using hshape
    rw [if_pos hright, hnone]
    rfl
  · next hleft =>
    rw [if_neg hleft]
    exact OperatorLevel.groupRun_replicate n.position op [n, m] ns

/-- Operands with one operator between them are read as they are written. -/
theorem readsOperand_binary {op : BinaryOperator} (hshape : (NodeKind.binary op ns).WellShaped)
    (h : ∀ n ∈ ns, ReadsGroup g n) (hr : ns.length ≤ g.rounds) (position : Position) :
    ReadsOperand (cascade g.rounds (Parser.unary g) OperatorLevel.all) OperatorLevel.all
      ⟨(NodeKind.binary op ns).written, ⟨.binary op ns, position⟩⟩ := by
  obtain ⟨level, hlevels, hapart, hassociativity, hmem⟩ := precedence_level op
  have hoperand : ∀ n ∈ ns, ReadsOperand
      (cascade g.rounds (Parser.unary g) (levelsFrom (op.precedence + 1)))
      (levelsFrom (op.precedence + 1)) ⟨inParens n.written, n⟩ := by
    intro n hn
    have hcascade := (h n hn).operand.cascade (r := g.rounds) (levelsFrom (op.precedence + 1))
    rwa [List.append_nil] at hcascade
  have hinChain : ∀ n ∈ ns, InChain
      (cascade g.rounds (Parser.unary g) (levelsFrom (op.precedence + 1))) level
      (levelsFrom (op.precedence + 1)) (op, ⟨inParens n.written, n⟩) :=
    fun n hn => ⟨hmem op rfl, fun _ _ => by simp [inParens], hoperand n hn⟩
  obtain ⟨n, m, ns, rfl⟩ := exists_two_operands hshape
  obtain ⟨hn, hrest⟩ := List.forall_mem_cons.1 hinChain
  have hchain := readsOperand_chain (r := g.rounds) hapart hn.reads
    (List.forall_mem_map.2 hrest)
    (by simp only [List.length_map, List.length_cons] at hr ⊢; omega)
  have hnodes : chainNodes ((m :: ns).map fun n => (op, ⟨inParens n.written, n⟩)) =
      (m :: ns).map (op, ·) := by
    simp [chainNodes]
  rw [hnodes, OperatorLevel.group_same_operator hassociativity hshape,
    ← Node.writtenOperands_eq] at hchain
  -- the looser levels find none of their operators
  have hcascade : ReadsOperand
      (cascade g.rounds (Parser.unary g) (levelsFrom op.precedence)) (levelsFrom op.precedence)
      ⟨(NodeKind.binary op (n :: m :: ns)).written, ⟨.binary op (n :: m :: ns), n.position⟩⟩ := by
    rw [hlevels, NodeKind.written, Node.writtenChain]
    exact hchain
  exact fun k hk => (readsOperand_levelsFrom (Nat.zero_le _) hcascade k hk).weaken fun m hm =>
    (Node.same_position _ _).symm.trans hm

/-! ### Operands as expressions -/

/-- Neither a lambda nor a target can begin with the token. -/
def Token.opensNoHead (t : Token) : Bool := t.opensItem && !startsLambda t && !startsTarget t

theorem headless_of_opensNoHead {w : List Token} (h : Ahead Token.opensNoHead w) :
    Headless g w := by
  obtain ⟨t, w, rfl, ht⟩ := h.exists_cons
  simp only [Token.opensNoHead, Bool.and_eq_true, Bool.not_eq_true'] at ht
  exact (Opening.plain ht.1.1 ht.1.2 ht.2).headless

/-- An operand in front of which no head can be read is an expression. -/
theorem reads_expression_operand {x : Operand} (hx : ReadsOperand (Parser.unary g) [] x)
    (hopen : Ahead Token.opensOperand x.words) (hk : Ahead Token.endsItem k)
    (hhead : Headless g (x.words ++ k)) :
    Reads (expressionWith g) (x.words ++ k) k fun m => m.same x.node := by
  have hcascade := hx.cascade (r := g.rounds) OperatorLevel.all
  rw [List.append_nil] at hcascade
  exact reads_operandExpression hcascade hopen (endsOperand_of_endsItem _ hk) hhead

theorem reads_expression_literal (value : Literal) (hk : Ahead Token.endsItem k) :
    Reads (expressionWith g) (value.token :: k) k fun m => m.same ⟨.literal value, position⟩ := by
  have hopen : value.token.opensOperand ∧ value.token.opensNoHead := by
    match value with
    | .string _ | .number _ | .boolean true | .boolean false | .none => exact ⟨rfl, rfl⟩
  exact reads_expression_operand (readsOperand_token (atomOf?_literal value) position) hopen.1 hk
    (headless_of_opensNoHead hopen.2)

theorem reads_expression_name (name : String) (hk : Ahead Token.endsItem k) :
    Reads (expressionWith g) (.identifier name :: k) k fun m =>
      m.same ⟨.identifier name, position⟩ := by
  have hhead : Headless g (.identifier name :: k) := by
    obtain ⟨t, k, rfl, ht⟩ := (not_endsHead_of_endsGroup (endsGroup_of_endsItem hk)).exists_cons
    exact headless_name (not_endsHead (by simpa using ht)).2
  exact reads_expression_operand (readsOperand_token rfl position) rfl hk hhead

/-- What stands in braces or brackets is an expression. -/
theorem reads_expression_atom {w : List Token} {kind : NodeKind}
    (hopen : Ahead (fun t => t.opensOperand && t.opensNoHead) w)
    (hunary : Ahead (fun t => (unaryOperator? t).isNone) w)
    (h : ∀ k, Reads (atom g) (w ++ k) k fun m => m.same ⟨kind, position⟩)
    (hk : Ahead Token.endsItem k) :
    Reads (expressionWith g) (w ++ k) k fun m => m.same ⟨kind, position⟩ := by
  have hoperand : ReadsOperand (Parser.unary g) [] ⟨w, ⟨kind, position⟩⟩ :=
    readsOperand_of_atom hunary h
  have hopen' : Ahead Token.opensOperand w :=
    hopen.mono fun t ht => (Bool.and_eq_true _ _ ▸ ht).1
  have hhead : Ahead Token.opensNoHead w :=
    hopen.mono fun t ht => (Bool.and_eq_true _ _ ▸ ht).2
  exact reads_expression_operand hoperand hopen' hk (headless_of_opensNoHead (hhead.append k))

/-- What stands behind two parentheses is no head. -/
theorem headless_paren_paren {l : List Token} :
    Headless g (.punctuator .leftParen :: .punctuator .leftParen :: l) :=
  ⟨fun _ => fails_lambdaHead_paren rfl rfl, fun _ => fails_assignmentHead_paren rfl rfl⟩

theorem reads_expression_tuple (h : ∀ n ∈ ns, ReadsGroup g n) (hr : ns.length ≤ g.rounds)
    (hk : Ahead Token.endsItem k) :
    Reads (expressionWith g) ((NodeKind.tuple ns).written ++ k) k fun m =>
      m.same ⟨.tuple ns, position⟩ := by
  have hatom (k : List Token) : Reads (atom g) ((NodeKind.tuple ns).written ++ k) k fun m =>
      m.same ⟨.tuple ns, position⟩ := by
    have hparen := reads_paren_tuple (k := k) h hr position
    rw [NodeKind.written, inParens_append] at hparen ⊢
    exact Runs.peek_bind fun _ => hparen
  have hopen : Ahead (· == .punctuator .leftParen) (NodeKind.tuple ns).written := by
    rw [NodeKind.written]
    rfl
  have hoperand : ReadsOperand (Parser.unary g) []
      ⟨(NodeKind.tuple ns).written, ⟨.tuple ns, position⟩⟩ :=
    readsOperand_of_atom (hopen.mono fun t ht => by rw [beq_iff_eq.1 ht]; rfl) hatom
  have hhead : Headless g ((NodeKind.tuple ns).written ++ k) := by
    cases ns with
    | nil =>
      -- nothing in parentheses could be an empty list of targets
      have hnone : Headless g (writtenTargets [] ++ k) := headless_targets (by simp)
        (Nat.zero_le _) (not_endsHead_of_endsGroup (endsGroup_of_endsItem hk))
      rw [NodeKind.written]
      exact hnone
    | cons n ns =>
      rw [NodeKind.written, Node.writtenAll, commaList_cons, inParens_append]
      exact headless_paren_paren
  exact reads_expression_operand hoperand (hopen.mono fun t ht => by rw [beq_iff_eq.1 ht]; rfl) hk
    hhead

theorem reads_expression_unary (hn : ReadsGroup g n) (op : UnaryOperator)
    (hk : Ahead Token.endsItem k) :
    Reads (expressionWith g) ((NodeKind.unary op n).written ++ k) k fun m =>
      m.same ⟨.unary op n, position⟩ := by
  have hopen : op.token.opensOperand ∧ op.token.opensNoHead := by cases op <;> exact ⟨rfl, rfl⟩
  rw [NodeKind.written]
  exact reads_expression_operand (readsOperand_unary hn.unary op position) hopen.1 hk
    (headless_of_opensNoHead hopen.2)

theorem ReadsTrailer.ahead {t : Trailer} (h : ReadsTrailer g t) :
    Ahead (fun t => !t.endsHead) t.written := by
  match t, h with
  | .attribute _, _ =>
    rw [Trailer.written]
    rfl
  | .call _ _, _ =>
    rw [Trailer.written]
    rfl
  | .index _, ⟨hopen, _⟩ =>
    rw [Trailer.written]
    exact hopen.mono fun t ht => by rw [beq_iff_eq.1 ht]; rfl

theorem reads_expression_primary {ts : List Trailer} (hn : ReadsGroup g n) (hts : ts ≠ [])
    (h : ∀ t ∈ ts, ReadsTrailer g t) (hr : ts.length ≤ g.rounds) (hk : Ahead Token.endsItem k) :
    Reads (expressionWith g) ((NodeKind.primary n ts).written ++ k) k fun m =>
      m.same ⟨.primary n ts, position⟩ := by
  have hoperand := readsOperand_primary hn hts h hr position
  have hahead : Ahead (fun t => !t.endsHead) (Trailer.writtenAll ts) := by
    cases ts with
    | nil => exact absurd rfl hts
    | cons t ts =>
      rw [Trailer.writtenAll]
      exact (h t (List.mem_cons_self ..)).ahead.append _
  have hhead := hn.headless _ (hahead.append k)
  rw [NodeKind.written] at hoperand ⊢
  rw [← List.append_assoc] at hhead
  exact reads_expression_operand hoperand rfl hk hhead

theorem reads_expression_binary {op : BinaryOperator}
    (hshape : (NodeKind.binary op ns).WellShaped) (h : ∀ n ∈ ns, ReadsGroup g n)
    (hr : ns.length ≤ g.rounds) (hk : Ahead Token.endsItem k) :
    Reads (expressionWith g) ((NodeKind.binary op ns).written ++ k) k fun m =>
      m.same ⟨.binary op ns, position⟩ := by
  have hoperand := readsOperand_binary hshape h hr position
  obtain ⟨n, m, ns, rfl⟩ := exists_two_operands hshape
  have hahead : Ahead (fun t => !t.endsHead) (Node.writtenOperands op (m :: ns)) := by
    rw [Node.writtenOperands]
    cases op <;> rfl
  have hhead := (h n (List.mem_cons_self ..)).headless _ (hahead.append k)
  rw [NodeKind.written, Node.writtenChain] at hoperand ⊢
  rw [← List.append_assoc] at hhead
  exact reads_operandExpression hoperand rfl (endsOperand_of_endsItem _ hk) hhead

end DrakeSyntax
