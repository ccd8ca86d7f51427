import DrakeSyntax.Proofs.Writing.Lambda

/-!
# Reading forms as they are written

Conditionals, branch tables, exception handling and loops are read as they are written, when the
expressions inside them are read in parentheses or by the production that reads them without.

* `reads_branch`: what stands behind `else` or `finally`, or nothing at all.
* `reads_handlers`: the handlers of a form one behind the other.
* `reads_forLoop`, `reads_whileLoop`: loops, as they are read behind `iter` too.
-/

namespace DrakeSyntax

open DrakeSyntax.Parser

variable {g : Inner} {k : List Token} {n : Node} {ns : List Node} {position : Position}

/-- A form is an expression. -/
theorem reads_expression_form {kw : Keyword} {form : Parser Node} {w : List Token} {Q : Node → Prop}
    (hw : Ahead (· == .keyword kw) w) (hform : form? g kw = some form)
    (h : Reads form (w ++ k) k Q) : Reads (expressionWith g) (w ++ k) k Q := by
  obtain ⟨t, w, rfl, ht⟩ := hw.exists_cons
  obtain rfl : t = .keyword kw := by simpa using ht
  refine Runs.peek_bind fun _ => ?_
  simp only [formAt?, hform]
  exact h

/-! ### Conditionals, branch tables and exceptions -/

theorem reads_branch (kw : Keyword) {o : Option Node} (h : ∀ n ∈ o, ReadsGroup g n)
    (hk : Ahead Token.endsItem k) :
    Reads (do
        if ← skipNewlineBefore kw then
          discard advance
          some <$> g.expression
        else return none) (Node.writtenBehind kw o ++ k) k fun m => Node.sameOptional m o := by
  cases o with
  | none =>
    obtain ⟨t, k, rfl, ht⟩ := hk.exists_cons
    have hnewline : t ≠ .newline := Token.ne_of_apply ht rfl
    have hkeyword : (t == .keyword kw) = false := beq_false_of_ne (Token.ne_of_apply ht rfl)
    refine Runs.skipNewlineBefore_bind hnewline ?_
    rw [hkeyword]
    exact Runs.ite_false (ReadsOr.pure Node.sameOptional_none)
  | some n =>
    have hexpression := (h n rfl).someExpression (endsGroup_of_endsItem hk)
    refine Runs.skipNewlineBefore_bind (by simp) ?_
    rw [beq_self_eq_true]
    exact Runs.ite_true (Runs.discard_bind (Runs.advance_bind (by simp) fun _ => hexpression))

/-- A conditional is read as it is written. -/
theorem reads_conditional {condition consequence : Node} {otherwise : Option Node}
    (hcondition : ReadsGroup g condition) (hconsequence : ReadsGroup g consequence)
    (hotherwise : ∀ n ∈ otherwise, ReadsGroup g n) (hk : Ahead Token.endsItem k) :
    Reads (conditional g) ((NodeKind.conditional condition consequence otherwise).written ++ k) k
      fun m => m.same ⟨.conditional condition consequence otherwise, position⟩ := by
  have hbranch := reads_branch .else_ hotherwise hk
  have hends : Ahead Token.endsGroup (Node.writtenBehind .else_ otherwise ++ k) := by
    cases otherwise with
    | none => exact endsGroup_of_endsItem hk
    | some n => rfl
  simp only [NodeKind.written, List.cons_append, List.append_assoc]
  refine Runs.expect_bind (by decide) fun _ => ?_
  refine (hcondition.expression_cons (by decide)).bind fun condition' hcondition' => ?_
  refine Runs.discard_bind (Runs.skipNewlineBefore_bind (by decide) ?_)
  refine Runs.discard_bind (Runs.expect_bind (by decide) fun _ => ?_)
  refine (hconsequence.expression _ hends).bind fun consequence' hconsequence' => ?_
  refine hbranch.bind fun otherwise' hotherwise' => ReadsOr.pure ?_
  simp [Node.same, NodeKind.same, hcondition', hconsequence', hotherwise']

/-- The branches of a table are read as they are written, also when there are none. -/
theorem reads_branches {ps : List Pair} (h : ∀ p ∈ ps, ReadsPair g p) (hr : ps.length ≤ g.rounds) :
    Reads (branches g) (inBraces (commaList (Pair.writtenAll ps)) ++ k) k fun found =>
      Pair.sameAll found ps := by
  -- nothing in braces is read as an empty block
  have hbrace : Reads (brace g) (inBraces (commaList (Pair.writtenAll ps)) ++ k) k fun m =>
      m.kind = .block [] ∧ ps = [] ∨ ∃ found, m.kind = .mapping found ∧ Pair.sameAll found ps := by
    cases ps with
    | nil =>
      refine reads_brace_empty.weaken ?_
      rintro _ ⟨p, rfl⟩
      exact .inl ⟨rfl, rfl⟩
    | cons p ps =>
      refine (reads_brace_mapping h hr).weaken ?_
      rintro _ ⟨found, p, rfl, hfound⟩
      exact .inr ⟨found, rfl, hfound⟩
  rw [inBraces_append] at hbrace ⊢
  refine Runs.peek_bind fun _ => ?_
  rw [if_pos rfl]
  refine hbrace.bind ?_
  rintro m (⟨hm, rfl⟩ | ⟨found, hm, hfound⟩)
  · rw [hm]
    exact ReadsOr.pure (by simp [Pair.sameAll])
  · rw [hm]
    exact ReadsOr.pure hfound

/-- A branch table lookup is read as it is written. -/
theorem reads_caseForm {ps : List Pair} {otherwise : Option Node} (hn : ReadsGroup g n)
    (h : ∀ p ∈ ps, ReadsPair g p) (hr : ps.length ≤ g.rounds)
    (hotherwise : ∀ n ∈ otherwise, ReadsGroup g n) (hk : Ahead Token.endsItem k) :
    Reads (caseForm g) ((NodeKind.case n ps otherwise).written ++ k) k fun m =>
      m.same ⟨.case n ps otherwise, position⟩ := by
  have hbranch := reads_branch .else_ hotherwise hk
  have hsubject := hn.operand.cascade (r := g.rounds) OperatorLevel.belowMembership
  rw [List.append_nil] at hsubject
  -- `in` belongs to a level that the subject is not read with
  have hends (l : List Token) : EndsOperand OperatorLevel.belowMembership (.keyword .in_ :: l) := by
    refine ⟨rfl, ?_⟩
    simp only [operatorAhead, BinaryOperator.ofTokens?, Option.map_some, Option.mem_some_iff,
      forall_eq']
    decide
  simp only [NodeKind.written, List.cons_append, List.append_assoc]
  refine Runs.expect_bind (by decide) fun _ => ?_
  refine (hsubject _ (hends _)).bind fun m hm => ?_
  refine Runs.discard_bind (Runs.expect_bind (by decide) fun _ => ?_)
  refine (reads_branches h hr).bind fun found hfound => ?_
  refine hbranch.bind fun otherwise' ho => ?_
  exact ReadsOr.pure (by simp [Node.same, NodeKind.same, hm, hfound, ho])

theorem reads_catchBinding {w : List Token} (binding : Option String) :
    Reads catchBinding (binding.toList.flatMap (fun name => [.keyword .as_, .identifier name])
      ++ (inParens w ++ k)) (inParens w ++ k) (· = binding) := by
  cases binding with
  | none => exact Runs.eat_bind_ne (by decide) (Runs.ite_false (ReadsOr.pure rfl))
  | some name =>
    refine Runs.eat_bind (by decide) (Runs.ite_true ?_)
    refine Runs.identifier_bind fun _ => ?_
    exact ReadsOr.pure rfl

theorem endsGroup_writtenAll (cs : List CatchClause) (hk : Ahead Token.endsGroup k) :
    Ahead Token.endsGroup (CatchClause.writtenAll cs ++ k) := by
  cases cs with
  | nil => exact hk
  | cons c cs =>
    obtain ⟨exceptionType, binding, handler, position⟩ := c
    rw [CatchClause.writtenAll, CatchClause.written]
    rfl

/-- Handlers are read to the last one. -/
theorem reads_handlers {cs : List CatchClause} (h : ∀ c ∈ cs, ReadsGroup g c.handler) {r : Nat}
    (hr : cs.length ≤ r) (hk : Ahead (fun t => t.endsGroup && t != .keyword .catch_) k) :
    Reads (handlers g r) (CatchClause.writtenAll cs ++ k) k fun found =>
      CatchClause.sameAll found cs := by
  obtain ⟨t, l, rfl, ht⟩ := hk.exists_cons
  simp only [Bool.and_eq_true, bne_iff_ne] at ht
  obtain ⟨hends, hcatch⟩ := ht
  have hnewline : t ≠ .newline := Token.ne_of_apply hends rfl
  induction cs generalizing r with
  | nil =>
    have hnil : CatchClause.sameAll [] [] := by simp [CatchClause.sameAll]
    cases r with
    | zero => exact ReadsOr.pure hnil
    | succ r =>
      refine Runs.skipNewlineBefore_bind hnewline ?_
      rw [beq_false_of_ne hcatch]
      exact Runs.ite_false (ReadsOr.pure hnil)
  | cons c cs ih =>
    obtain ⟨r, rfl⟩ : ∃ r', r = r' + 1 := ⟨r - 1, by simp only [List.length_cons] at hr; omega⟩
    obtain ⟨hc, hcs⟩ := List.forall_mem_cons.1 h
    obtain ⟨exceptionType, binding, handler, position⟩ := c
    have hrest := ih hcs (by simpa using hr)
    have hgroup : Ahead Token.endsGroup (CatchClause.writtenAll cs ++ t :: l) :=
      endsGroup_writtenAll cs hends
    simp only [CatchClause.writtenAll, CatchClause.written, List.cons_append, List.append_assoc]
    refine Runs.skipNewlineBefore_bind (by decide) (Runs.ite_true ?_)
    refine Runs.advance_bind (by decide) fun _ => ?_
    refine Runs.identifier_bind fun _ => ?_
    refine (reads_catchBinding binding).bind ?_
    rintro _ rfl
    refine (hc.expression _ hgroup).bind fun m hm => ?_
    refine hrest.bind fun found hfound => ?_
    exact ReadsOr.pure (by simp [CatchClause.sameAll, CatchClause.same, hm, hfound])

/-- Exception handling is read as it is written. -/
theorem reads_tryForm {cs : List CatchClause} {cleanup : Option Node}
    (hshape : (NodeKind.try_ n cs cleanup).WellShaped) (hn : ReadsGroup g n)
    (h : ∀ c ∈ cs, ReadsGroup g c.handler) (hr : cs.length ≤ g.rounds)
    (hcleanup : ∀ n ∈ cleanup, ReadsGroup g n) (hk : Ahead Token.endsItem k) :
    Reads (tryForm g) ((NodeKind.try_ n cs cleanup).written ++ k) k fun m =>
      m.same ⟨.try_ n cs cleanup, position⟩ := by
  have hbranch := reads_branch .finally_ hcleanup hk
  have hahead : Ahead (fun t => t.endsGroup && t != .keyword .catch_)
      (Node.writtenBehind .finally_ cleanup ++ k) := by
    cases cleanup with
    | none =>
      obtain ⟨t, l, rfl, ht⟩ := hk.exists_cons
      have hcatch : t ≠ .keyword .catch_ := Token.ne_of_apply ht rfl
      have hends : t.endsGroup := endsGroup_of_endsItem (k := t :: l) ht
      exact Bool.and_eq_true_iff.2 ⟨hends, bne_iff_ne.2 hcatch⟩
    | some n => rfl
  have hends := endsGroup_writtenAll cs (hahead.mono fun t ht => (Bool.and_eq_true_iff.1 ht).1)
  simp only [NodeKind.written, List.cons_append, List.append_assoc]
  refine Runs.expect_bind (by decide) fun _ => ?_
  refine (hn.expression _ hends).bind fun m hm => ?_
  refine (reads_handlers h hr hahead).bind fun found hfound => ?_
  refine hbranch.bind fun cleanup' hc => ?_
  -- what is read has handlers or a cleanup, like the tree
  have hsome : (found.isEmpty && cleanup'.isNone) = false := by
    rcases hshape with hhandlers | hcleanup
    · cases found with
      | nil => cases cs <;> simp [CatchClause.sameAll] at hfound hhandlers
      | cons c found => rfl
    · cases cleanup' with
      | none => cases cleanup <;> simp [Node.sameOptional] at hc hcleanup
      | some m => exact Bool.and_false _
  rw [hsome]
  exact Runs.ite_false (ReadsOr.pure (by simp [Node.same, NodeKind.same, hm, hfound, hc]))

/-! ### Loops -/

/-- What stands in braces as the body of a loop. -/
structure ReadsBody (g : Inner) (n : Node) : Prop where
  ahead : Ahead (· == .punctuator .leftBrace) n.written
  reads : ∀ k, Reads (block g) (n.written ++ k) k fun m => m.same n

theorem ReadsBody.endsGroup {n : Node} (h : ReadsBody g n) (k : List Token) :
    Ahead Token.endsGroup (n.written ++ k) :=
  (h.ahead.append k).mono fun t ht => by rw [beq_iff_eq.1 ht]; rfl

variable {body : Node} {ts : List Target}

/-- A loop over values is read as it is written. -/
theorem reads_forLoop (h : ReadsTargets g ts) (hn : ReadsGroup g n) (hbody : ReadsBody g body) :
    Reads (forLoop g) ((NodeKind.for_ ts n body).written ++ k) k fun m =>
      m.same ⟨.for_ ts n body, position⟩ := by
  simp only [NodeKind.written, List.cons_append, List.append_assoc]
  refine Runs.expect_bind (by decide) fun _ => ?_
  refine (reads_targets h).bind fun found hfound => ?_
  refine Runs.discard_bind (Runs.expect_bind (by decide) fun _ => ?_)
  refine (hn.expression _ (hbody.endsGroup k)).bind fun m hm => ?_
  refine (hbody.reads k).bind fun b hb => ?_
  exact ReadsOr.pure (by simp [Node.same, NodeKind.same, hfound, hm, hb])

/-- A loop under a condition is read as it is written. -/
theorem reads_whileLoop (hn : ReadsGroup g n) (hbody : ReadsBody g body) :
    Reads (whileLoop g) ((NodeKind.while_ n body).written ++ k) k fun m =>
      m.same ⟨.while_ n body, position⟩ := by
  simp only [NodeKind.written, List.cons_append, List.append_assoc]
  refine Runs.expect_bind (by decide) fun _ => ?_
  refine (hn.expression _ (hbody.endsGroup k)).bind fun m hm => ?_
  refine (hbody.reads k).bind fun b hb => ?_
  exact ReadsOr.pure (by simp [Node.same, NodeKind.same, hm, hb])

/-- A lazy iteration is read as it is written. -/
theorem reads_iterForm (hshape : (NodeKind.iter n).WellShaped)
    (h : ∀ p ∈ directParser g n.kind, ∀ k, Reads p (n.written ++ k) k fun m => m.same n) :
    Reads (iterForm g) ((NodeKind.iter n).written ++ k) k fun m => m.same ⟨.iter n, position⟩ := by
  have hiter (p : Position) {m : Node} (hm : m.same n) :
      Node.same ⟨.iter m, p⟩ ⟨.iter n, position⟩ := by
    simpa [Node.same, NodeKind.same] using hm
  obtain ⟨kind, p⟩ := n
  simp only [NodeKind.WellShaped, NodeKind.isIterable] at hshape
  simp only [NodeKind.written, List.cons_append, Node.written] at h ⊢
  refine Runs.expect_bind (by decide) fun q => ?_
  -- the first token of the operand tells which production reads it
  split at hshape
  · have hread := h _ rfl k
    simp only [NodeKind.written, inBrackets_append] at hread ⊢
    refine Runs.peek_bind fun _ => ?_
    exact hread.bind fun m hm => ReadsOr.pure (hiter q hm)
  · have hread := h _ rfl k
    simp only [NodeKind.written, List.cons_append] at hread ⊢
    refine Runs.peek_bind fun _ => ?_
    exact hread.bind fun m hm => ReadsOr.pure (hiter q hm)
  · have hread := h _ rfl k
    simp only [NodeKind.written, List.cons_append] at hread ⊢
    refine Runs.peek_bind fun _ => ?_
    exact hread.bind fun m hm => ReadsOr.pure (hiter q hm)
  · cases hshape

end DrakeSyntax
