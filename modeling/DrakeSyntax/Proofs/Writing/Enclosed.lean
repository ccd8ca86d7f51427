import DrakeSyntax.Proofs.WellFormed
import DrakeSyntax.Proofs.Writing.Group

/-!
# Reading what stands in braces, brackets and parentheses

Blocks, mappings, lists, ranges and tuples are read as they are written, when the expressions
inside them are read in parentheses.

* `reads_brace_block`, `reads_brace_mapping`: what follows the first expression in a brace tells
  a block from a mapping.
* `reads_bracket`: the first expression in a bracket is read as an operand, and not again.
* `reads_paren_tuple`: a tuple is not taken for an expression in parentheses.
-/

namespace DrakeSyntax

open DrakeSyntax.Parser

variable {g : Inner} {k : List Token} {n : Node} {ns : List Node} {position : Position}

/-! ### Lists of expressions -/

theorem inParens_append (w l : List Token) :
    inParens w ++ l = .punctuator .leftParen :: (w ++ .punctuator .rightParen :: l) := by
  simp [inParens]

theorem inBraces_append (w l : List Token) :
    inBraces w ++ l = .punctuator .leftBrace :: (w ++ .punctuator .rightBrace :: l) := by
  simp [inBraces]

theorem inBrackets_append (w l : List Token) :
    inBrackets w ++ l = .punctuator .leftBracket :: (w ++ .punctuator .rightBracket :: l) := by
  simp [inBrackets]

/-- Expressions in parentheses are read as the items of a list. -/
theorem reads_groups (h : ∀ n ∈ ns, ReadsGroup g n) (hr : ns.length ≤ g.rounds)
    (hk : Ahead Token.closesList k) :
    Reads (list g.rounds g.expression) (commaList (Node.writtenAll ns) ++ k) k fun l =>
      l.trailingComma = false ∧ Node.sameAll l.items ns := by
  rw [Node.writtenAll_eq_map]
  have hitem : ∀ n ∈ ns, ∀ k, Ahead Token.endsItem k →
      Reads g.expression (inParens n.written ++ k) k fun m => m.same n :=
    fun n hn k hk => (h n hn).expression k (endsGroup_of_endsItem hk)
  have hopens : ∀ n ∈ ns, Ahead Token.opensItem (inParens n.written) := fun _ _ => rfl
  exact (reads_list hitem hopens hk hr).weaken fun l hl =>
    ⟨hl.1, Node.sameAll_iff.2 hl.2.flip⟩

/-- Expressions in parentheses are read as the items behind the first one of a list. -/
theorem reads_groupsBehind {m : Node} (hm : m.same n) (h : ∀ n ∈ ns, ReadsGroup g n)
    (hr : ns.length < g.rounds) (hk : Ahead Token.closesList k) :
    Reads (listBehind g.rounds m g.expression) (listTail (Node.writtenAll ns) false ++ k) k
      fun l => Node.sameAll l.items (n :: ns) := by
  rw [Node.writtenAll_eq_map]
  have hitem : ∀ n ∈ ns, ∀ k, Ahead Token.endsItem k →
      Reads g.expression (inParens n.written ++ k) k fun m => m.same n :=
    fun n hn k hk => (h n hn).expression k (endsGroup_of_endsItem hk)
  have hopens : ∀ n ∈ ns, Ahead Token.opensItem (inParens n.written) := fun _ _ => rfl
  exact (reads_listBehind hitem hopens hk hr false hm).weaken fun l hl =>
    Node.sameAll_iff.2 hl.2.flip

/-! ### Braces -/

theorem same_block {items : List Node} {p : Position} (h : Node.sameAll items ns) :
    Node.same ⟨.block items, p⟩ ⟨.block ns, position⟩ := by
  simpa [Node.same, NodeKind.same] using h

theorem reads_blockItems (h : ∀ n ∈ ns, ReadsGroup g n) (hr : ns.length ≤ g.rounds) :
    Reads (blockItems g) (inBraces (commaList (Node.writtenAll ns)) ++ k) k fun items =>
      Node.sameAll items ns := by
  rw [inBraces_append]
  refine Runs.discard_bind (Runs.expect_bind (by decide) fun _ => ?_)
  refine (reads_groups (k := .punctuator .rightBrace :: k) h hr rfl).bind fun l hl => ?_
  exact Runs.discard_bind (Runs.expect_bind (by decide) fun _ => ReadsOr.pure hl.2)

theorem reads_block (h : ∀ n ∈ ns, ReadsGroup g n) (hr : ns.length ≤ g.rounds) :
    Reads (block g) (inBraces (commaList (Node.writtenAll ns)) ++ k) k fun m =>
      m.same ⟨.block ns, position⟩ := by
  refine Runs.peek_bind_any fun _ => ?_
  exact (reads_blockItems h hr).bind fun _ hitems => ReadsOr.pure (same_block hitems)

/-- An expression in parentheses at the beginning of a brace. -/
theorem reads_brace_first {R : Node → List Token → Prop} {l : List Token}
    (h : ReadsGroup g n) (hl : Ahead Token.endsGroup l)
    (hf : ∀ m position, m.same n → Runs (do
        if ← eat (.punctuator .colon) then
          let value ← g.expression
          let pairs ← listBehind g.rounds ⟨m, value⟩ (pair g)
          discard (expect (.punctuator .rightBrace))
          return ⟨.mapping pairs.items, position⟩
        else
          let items ← listBehind g.rounds m g.expression
          discard (expect (.punctuator .rightBrace))
          return ⟨.block items.items, position⟩) l R False) :
    Runs (brace g) (.punctuator .leftBrace :: (inParens n.written ++ l)) R False := by
  refine Runs.expect_bind (by decide) fun position => ?_
  have hfirst := h.expression l hl
  rw [inParens_append] at hfirst ⊢
  refine Runs.discard_bind (Runs.eat_bind_ne (by decide) ?_)
  refine Runs.eat_bind_ne (by decide) (Runs.ite_false ?_)
  exact hfirst.bind fun m hm => hf m position hm

theorem reads_brace_empty :
    Reads (brace g) (inBraces [] ++ k) k fun m => ∃ p, m = ⟨.block [], p⟩ := by
  refine Runs.expect_bind (by decide) fun position => ?_
  refine Runs.discard_bind (Runs.eat_bind_ne (by decide) ?_)
  exact Runs.eat_bind (by decide) (Runs.ite_true (ReadsOr.pure ⟨position, rfl⟩))

/-- A block is read as such by the production that reads mappings too. -/
theorem reads_brace_block (h : ∀ n ∈ ns, ReadsGroup g n) (hr : ns.length ≤ g.rounds) :
    Reads (brace g) (inBraces (commaList (Node.writtenAll ns)) ++ k) k fun m =>
      ∃ items p, m = ⟨.block items, p⟩ ∧ Node.sameAll items ns := by
  cases ns with
  | nil =>
    refine reads_brace_empty.weaken ?_
    rintro _ ⟨p, rfl⟩
    exact ⟨[], p, rfl, by simp [Node.sameAll]⟩
  | cons n ns =>
    obtain ⟨hn, hns⟩ := List.forall_mem_cons.1 h
    have hahead := ahead_listTail (Node.writtenAll ns) false (k := .punctuator .rightBrace :: k) rfl
    rw [inBraces_append, Node.writtenAll, commaList_cons, List.append_assoc]
    refine reads_brace_first hn (endsGroup_of_endsItem hahead) fun m position hm => ?_
    obtain ⟨t, l, hl, ht⟩ := hahead.exists_cons
    -- no colon behind the first expression, so this is a block
    have hcolon : t ≠ .punctuator .colon := Token.ne_of_apply ht rfl
    have hbehind := reads_groupsBehind (k := .punctuator .rightBrace :: k) hm hns hr rfl
    rw [hl] at hbehind ⊢
    refine Runs.eat_bind_ne hcolon (Runs.ite_false ?_)
    refine hbehind.bind fun items hitems => ?_
    refine Runs.discard_bind (Runs.expect_bind (by decide) fun _ => ?_)
    exact ReadsOr.pure ⟨items.items, position, rfl, hitems⟩

variable {p : Pair} {ps : List Pair}

/-- Key and value are read in parentheses. -/
def ReadsPair (g : Inner) (p : Pair) : Prop := ReadsGroup g p.key ∧ ReadsGroup g p.value

theorem Pair.written_eq (p : Pair) :
    p.written = inParens p.key.written ++ .punctuator .colon :: inParens p.value.written := by
  obtain ⟨key, value⟩ := p
  rw [Pair.written]

theorem reads_pair (h : ReadsPair g p) (hk : Ahead Token.endsGroup k) :
    Reads (pair g) (p.written ++ k) k fun q => q.same p := by
  obtain ⟨key, value⟩ := p
  rw [Pair.written_eq, List.append_assoc, List.cons_append]
  have hcolon : Ahead Token.endsGroup (.punctuator .colon :: (inParens value.written ++ k)) := rfl
  refine (h.1.expression _ hcolon).bind fun key' hkey => ?_
  refine Runs.discard_bind (Runs.expect_bind (by decide) fun _ => ?_)
  refine (h.2.expression k hk).bind fun value' hvalue => ReadsOr.pure ?_
  simp [Pair.same, hkey, hvalue]

/-- A mapping that is not empty is read as it is written. -/
theorem reads_brace_mapping (h : ∀ q ∈ p :: ps, ReadsPair g q) (hr : ps.length < g.rounds) :
    Reads (brace g) (inBraces (commaList (Pair.writtenAll (p :: ps))) ++ k) k fun m =>
      ∃ pairs position, m = ⟨.mapping pairs, position⟩ ∧ Pair.sameAll pairs (p :: ps) := by
  obtain ⟨⟨hkey, hvalue⟩, hps⟩ := List.forall_mem_cons.1 h
  rw [inBraces_append, Pair.writtenAll, commaList_cons, Pair.written_eq, List.append_assoc,
    List.append_assoc, List.cons_append]
  refine reads_brace_first hkey rfl fun m position hm => ?_
  -- the colon behind the first expression tells that this is a mapping
  refine Runs.eat_bind (by decide) (Runs.ite_true ?_)
  have hahead := ahead_listTail (Pair.writtenAll ps) false (k := .punctuator .rightBrace :: k) rfl
  refine (hvalue.expression _ (endsGroup_of_endsItem hahead)).bind fun value hvalue => ?_
  have hfirst : Pair.same ⟨m, value⟩ p := by
    obtain ⟨key', value'⟩ := p
    simp only at hm hvalue
    simp [Pair.same, hm, hvalue]
  rw [Pair.writtenAll_eq_map]
  have hitem : ∀ p ∈ ps, ∀ k, Ahead Token.endsItem k →
      Reads (pair g) (p.written ++ k) k fun q => q.same p :=
    fun p hp k hk => reads_pair (hps p hp) (endsGroup_of_endsItem hk)
  have hopens : ∀ p ∈ ps, Ahead Token.opensItem p.written := by
    intro p _
    rw [Pair.written_eq]
    rfl
  have hbehind := reads_listBehind (k := .punctuator .rightBrace :: k) hitem hopens rfl hr false
    hfirst
  refine hbehind.bind fun pairs hpairs => ?_
  refine Runs.discard_bind (Runs.expect_bind (by decide) fun _ => ?_)
  exact ReadsOr.pure ⟨pairs.items, position, rfl, Pair.sameAll_iff.2 hpairs.2.flip⟩

/-! ### Brackets -/

theorem isAtItemEnd_bind {α : Type} {R : α → List Token → Prop} {E : Prop} {t : Token}
    {l : List Token} {f : Bool → Parser α}
    (h : Runs (f (t matches .punctuator .comma | .punctuator .rightBracket | .newline)) (t :: l)
      R E) : Runs (isAtItemEnd >>= f) (t :: l) R E := by
  have hrun (s : ParserState) : isAtItemEnd s = .ok (s.cursor.current.token matches
      .punctuator .comma | .punctuator .rightBracket | .newline) s := by
    simp only [isAtItemEnd, Bind.bind, EStateM.bind, peek]
    cases s.cursor.current.token with
    | punctuator p => cases p <;> rfl
    | _ => rfl
  refine Runs.look_bind hrun fun s hs => ?_
  rwa [ParserState.current_of_tokens hs]

theorem reads_bracketItems {items : Parser (ItemList Node)} {l : List Token}
    (p position : Position) (h : Reads items l (.punctuator .rightBracket :: k) fun found =>
      Node.sameAll found.items ns) :
    Reads (bracketItems p items) l k fun m => m.same ⟨.list (.items ns), position⟩ := by
  refine h.bind fun found hfound => ?_
  refine Runs.discard_bind (Runs.expect_bind (by decide) fun _ => ReadsOr.pure ?_)
  simpa [Node.same, NodeKind.same, ListLiteral.same] using hfound

theorem reads_bracket_items (hremembers : g.remembers = false) (h : ∀ n ∈ ns, ReadsGroup g n)
    (hr : ns.length ≤ g.rounds) :
    Reads (bracket g) (inBrackets (commaList (Node.writtenAll ns)) ++ k) k fun m =>
      m.same ⟨.list (.items ns), position⟩ := by
  rw [bracket, hremembers, if_neg (by decide), inBrackets_append]
  refine Runs.expect_bind (by decide) fun p => ?_
  cases ns with
  | nil =>
    have hlist := (reads_groups (k := .punctuator .rightBracket :: k) h hr rfl).weaken
      fun _ hl => hl.2
    refine Runs.discard_bind (Runs.eat_bind_ne (by decide) ?_)
    refine Runs.mark_bind fun _ => ?_
    exact Runs.peek_bind fun _ => reads_bracketItems p position hlist
  | cons n ns =>
    obtain ⟨hn, hns⟩ := List.forall_mem_cons.1 h
    have hahead := ahead_listTail (Node.writtenAll ns) false (k := .punctuator .rightBracket :: k)
      rfl
    have hfirst := hn.unary _ (endsOperand_of_endsItem _ hahead)
    rw [Node.writtenAll, commaList_cons, List.append_assoc]
    simp only [inParens_append] at hfirst ⊢
    refine Runs.discard_bind (Runs.eat_bind_ne (by decide) ?_)
    refine Runs.mark_bind fun _ => ?_
    refine Runs.peek_bind fun _ => ?_
    refine hfirst.attempt_bind fun m hm => ?_
    have hlist := reads_bracketItems p position
      (reads_groupsBehind (k := .punctuator .rightBracket :: k) hm hns hr rfl)
    -- what follows the operand is the end of an item in both cases
    cases ns with
    | nil => exact Runs.eat_bind_ne (by decide) (Runs.ite_false (isAtItemEnd_bind hlist))
    | cons n' ns =>
      rw [Node.writtenAll, listTail_cons] at hlist ⊢
      refine Runs.eat_bind_ne (by decide) (Runs.ite_false ?_)
      exact isAtItemEnd_bind hlist

/-- A range is read behind its two dots. -/
theorem reads_rangeBehind {start m : Node} {stop step : Option Node} (p : Position)
    (hm : m.same start) (hstop : ∀ n ∈ stop, ReadsGroup g n) (hstep : ∀ n ∈ step, ReadsGroup g n) :
    Reads (rangeBehind g m p)
      (Node.writtenOption stop ++ (ListLiteral.writtenStep step ++ .punctuator .rightBracket :: k))
      k fun m => m.same ⟨.list (.range start stop step), position⟩ := by
  -- the end of the range, once both its bounds and its step are read
  have hclose {stop' step' : Option Node} (hs : Node.sameOptional stop' stop)
      (ht : Node.sameOptional step' step) : Reads (do
        discard (eat .newline)
        discard (expect (.punctuator .rightBracket))
        return (⟨.list (.range m stop' step'), p⟩ : Node)) (.punctuator .rightBracket :: k) k
      fun m => m.same ⟨.list (.range start stop step), position⟩ := by
    refine Runs.discard_bind (Runs.eat_bind_ne (by decide) ?_)
    refine Runs.discard_bind (Runs.expect_bind (by decide) fun _ => ReadsOr.pure ?_)
    simp [Node.same, NodeKind.same, ListLiteral.same, hm, hs, ht]
  -- what comes behind the stop, whether or not there is one
  have hafter {stop' : Option Node} (hs : Node.sameOptional stop' stop) : Reads (do
        let step ←
          if ← eat (.punctuator .comma) then do
            discard (eat .newline)
            some <$> g.unary
          else pure none
        discard (eat .newline)
        discard (expect (.punctuator .rightBracket))
        return (⟨.list (.range m stop' step), p⟩ : Node))
      (ListLiteral.writtenStep step ++ .punctuator .rightBracket :: k) k
      fun m => m.same ⟨.list (.range start stop step), position⟩ := by
    cases step with
    | none => exact Runs.eat_bind_ne (by decide) (hclose hs Node.sameOptional_none)
    | some n =>
      have hunary := (hstep n rfl).someUnary (k := .punctuator .rightBracket :: k)
        (endsOperand_of_endsItem _ rfl)
      rw [ListLiteral.writtenStep, List.cons_append]
      rw [inParens_append] at hunary ⊢
      refine Runs.eat_bind (by decide) (Runs.ite_true ?_)
      refine Runs.discard_bind (Runs.eat_bind_ne (by decide) ?_)
      exact hunary.bind fun _ ht => hclose hs ht
  cases stop with
  | none =>
    have hnone := hafter Node.sameOptional_none
    cases step with
    | none => exact isAtItemEnd_bind hnone
    | some n => exact isAtItemEnd_bind hnone
  | some n =>
    have hends : EndsOperand []
        (ListLiteral.writtenStep step ++ .punctuator .rightBracket :: k) := by
      cases step with
      | none => exact endsOperand_of_endsItem _ rfl
      | some n => exact endsOperand_of_endsItem _ rfl
    have hunary := (hstop n rfl).someUnary hends
    rw [Node.writtenOption]
    rw [inParens_append] at hunary ⊢
    refine isAtItemEnd_bind (Runs.ite_false ?_)
    exact hunary.bind fun _ hs => hafter hs

theorem reads_bracket_range {start : Node} {stop step : Option Node}
    (hremembers : g.remembers = false)
    (h : ∀ n ∈ (ListLiteral.range start stop step).nodes, ReadsGroup g n) :
    Reads (bracket g) (inBrackets (ListLiteral.range start stop step).written ++ k) k fun m =>
      m.same ⟨.list (.range start stop step), position⟩ := by
  simp only [ListLiteral.nodes, List.mem_cons, List.mem_append, Option.mem_toList] at h
  have hstart := (h start (.inl rfl)).unary (k := .punctuator .dotDot :: (Node.writtenOption stop
    ++ (ListLiteral.writtenStep step ++ .punctuator .rightBracket :: k)))
    ⟨rfl, by simp [operatorAhead, BinaryOperator.ofTokens?]⟩
  have hwords : inBrackets (ListLiteral.range start stop step).written ++ k =
      .punctuator .leftBracket :: (inParens start.written ++ .punctuator .dotDot ::
        (Node.writtenOption stop
          ++ (ListLiteral.writtenStep step ++ .punctuator .rightBracket :: k))) := by
    simp [inBrackets, ListLiteral.written]
  rw [bracket, hremembers, if_neg (by decide), hwords]
  refine Runs.expect_bind (by decide) fun p => ?_
  simp only [inParens_append] at hstart ⊢
  refine Runs.discard_bind (Runs.eat_bind_ne (by decide) ?_)
  refine Runs.mark_bind fun _ => ?_
  refine Runs.peek_bind fun _ => ?_
  refine hstart.attempt_bind fun m hm => ?_
  refine Runs.eat_bind (by decide) (Runs.ite_true ?_)
  exact reads_rangeBehind p hm (fun n hn => h n (.inr (.inl hn))) fun n hn => h n (.inr (.inr hn))

/-- A list or a range is read as it is written. -/
theorem reads_bracket {content : ListLiteral} (hremembers : g.remembers = false)
    (h : ∀ n ∈ content.nodes, ReadsGroup g n) (hr : content.nodes.length ≤ g.rounds) :
    Reads (bracket g) (inBrackets content.written ++ k) k fun m =>
      m.same ⟨.list content, position⟩ := by
  cases content with
  | items ns =>
    rw [ListLiteral.written]
    exact reads_bracket_items hremembers h hr
  | range start stop step => exact reads_bracket_range hremembers h

/-! ### Parentheses -/

/-- A tuple with a single item has a comma behind it. -/
theorem reads_parenthesized (h : ∀ n ∈ ns, ReadsGroup g n) (hr : ns.length ≤ g.rounds) :
    Reads (parenthesized g) (inParens (commaList (Node.writtenAll ns)
        ++ if ns.length = 1 then [.punctuator .comma] else []) ++ k) k fun found =>
      Node.sameAll found.1.items ns ∧ found.1.trailingComma = decide (ns.length = 1) := by
  have hlist : Reads (list g.rounds g.expression)
      (commaList (Node.writtenAll ns) ++ ((if ns.length = 1 then [.punctuator .comma] else [])
        ++ .punctuator .rightParen :: k))
      (.punctuator .rightParen :: k) fun found =>
        Node.sameAll found.items ns ∧ found.trailingComma = decide (ns.length = 1) := by
    match ns with
    | [n] =>
      have hitem : ∀ l, Ahead Token.endsItem l →
          Reads g.expression (inParens n.written ++ l) l fun m => m.same n :=
        fun l hl => (h n (by simp)).expression l (endsGroup_of_endsItem hl)
      -- the comma behind a single item
      have hone := reads_list_trailing (k := .punctuator .rightParen :: k) hitem rfl rfl hr
      have hwords : commaList (Node.writtenAll [n]) = inParens n.written := by
        simp [Node.writtenAll, commaList]
      rw [hwords, if_pos List.length_singleton]
      refine hone.weaken ?_
      rintro found ⟨m, rfl, hm⟩
      exact ⟨by simpa [Node.sameAll] using hm, rfl⟩
    | [] =>
      exact (reads_groups (k := .punctuator .rightParen :: k) h hr rfl).weaken fun found hfound =>
        ⟨hfound.2, hfound.1⟩
    | n :: n' :: ns =>
      exact (reads_groups (k := .punctuator .rightParen :: k) h hr rfl).weaken fun found hfound =>
        ⟨hfound.2, by simpa using hfound.1⟩
  rw [inParens_append, List.append_assoc]
  refine Runs.expect_bind (by decide) fun p => ?_
  refine hlist.bind fun found hfound => ?_
  exact Runs.discard_bind (Runs.expect_bind (by decide) fun _ => ReadsOr.pure hfound)

/-- A tuple is read as it is written, and not taken for an expression in parentheses. -/
theorem reads_paren_tuple (h : ∀ n ∈ ns, ReadsGroup g n) (hr : ns.length ≤ g.rounds)
    (position : Position) :
    Reads (paren g) ((NodeKind.tuple ns).written ++ k) k fun m =>
      m.same ⟨.tuple ns, position⟩ := by
  rw [NodeKind.written]
  refine (reads_parenthesized h hr).bind ?_
  rintro ⟨⟨items, trailing⟩, p⟩ ⟨hitems, htrailing⟩
  have hsame : Node.same ⟨.tuple items, p⟩ ⟨.tuple ns, position⟩ := by
    simpa [Node.same, NodeKind.same] using hitems
  -- a single item has a comma behind it, so this is no group
  have hlength : items.length = ns.length := (Node.sameAll_iff.1 hitems).length_eq
  dsimp only
  split
  · next heq =>
    cases heq
    simp [← hlength] at htrailing
  · next heq =>
    cases heq
    exact ReadsOr.pure hsame

theorem reads_tuple (h : ∀ n ∈ ns, ReadsGroup g n) (hr : ns.length ≤ g.rounds) :
    Reads (tuple g) ((NodeKind.tuple ns).written ++ k) k fun m =>
      m.same ⟨.tuple ns, position⟩ := by
  rw [NodeKind.written]
  refine (reads_parenthesized h hr).bind fun found hfound => ReadsOr.pure ?_
  simpa [Node.same, NodeKind.same] using hfound.1

end DrakeSyntax
