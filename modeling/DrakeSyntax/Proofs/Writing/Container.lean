import DrakeSyntax.Proofs.Writing.Enclosed

/-!
# Reading containers and jumps as they are written

Keywords with a block, an enumeration, a container or an optional expression behind them are read
as they are written.

* `reads_blockForm`: blocks with a purpose.
* `reads_mutableForm`: what is made mutable is written without parentheses.
* `reads_mutableForm_empty`: there is an empty mapping.
* `reads_optionalExpression`: what ends the expression around it ends a jump without a value.
-/

namespace DrakeSyntax

open DrakeSyntax.Parser

variable {g : Inner} {k : List Token} {n : Node} {ns : List Node} {position : Position}

/-! ### Containers -/

/-- A keyword with a block behind it is read as it is written. -/
theorem reads_blockForm {kw : Keyword} {kind : List Node → NodeKind} {R : Node → Prop}
    (h : ∀ n ∈ ns, ReadsGroup g n) (hr : ns.length ≤ g.rounds)
    (hkind : ∀ items p, Node.sameAll items ns → R ⟨kind items, p⟩) :
    Reads (blockForm g kw kind) (.keyword kw :: inBraces (commaList (Node.writtenAll ns)) ++ k) k
      R := by
  refine Runs.expect_bind (by simp) fun p => ?_
  exact (reads_blockItems h hr).bind fun items hitems => ReadsOr.pure (hkind items p hitems)

theorem reads_enumMember {e : EnumMember} (hk : Ahead Token.endsItem k) :
    Reads enumMember (e.written ++ k) k fun m => m.same e := by
  obtain ⟨name, value, position⟩ := e
  refine Runs.identifier_bind fun _ => ?_
  cases value with
  | none =>
    obtain ⟨t, k, rfl, ht⟩ := hk.exists_cons
    have hassign : t ≠ .punctuator .assign := Token.ne_of_apply ht rfl
    exact Runs.eat_bind_ne hassign (Runs.ite_false (ReadsOr.pure (by simp [EnumMember.same])))
  | some literal =>
    refine Runs.eat_bind (by decide) (Runs.ite_true ?_)
    refine Runs.peek_bind fun _ => ?_
    refine Runs.discard_bind (Runs.advance_bind (by simp) fun _ => ReadsOr.pure ?_)
    simp [EnumMember.same]

/-- An enumeration is read as it is written. -/
theorem reads_enumForm {flags : Bool} {members : List EnumMember}
    (hr : members.length ≤ g.rounds) :
    Reads (enumForm g) ((NodeKind.enum flags members).written ++ k) k fun m =>
      m.same ⟨.enum flags members, position⟩ := by
  have hopens : ∀ e ∈ members, Ahead Token.opensItem e.written := fun _ _ => rfl
  have hlist := reads_list (k := .punctuator .rightBrace :: k)
    (fun e _ l hl => reads_enumMember (k := l) (e := e) hl) hopens rfl hr
  have hmembers (p : Position) : Reads (do
        discard (expect (.punctuator .leftBrace))
        let found ← list g.rounds enumMember
        discard (expect (.punctuator .rightBrace))
        return (⟨.enum flags found.items, p⟩ : Node))
      (inBraces (commaList (members.map EnumMember.written)) ++ k) k
      fun m => m.same ⟨.enum flags members, position⟩ := by
    rw [inBraces_append]
    refine Runs.discard_bind (Runs.expect_bind (by decide) fun _ => ?_)
    refine hlist.bind fun found hf => ?_
    refine Runs.discard_bind (Runs.expect_bind (by decide) fun _ => ReadsOr.pure ?_)
    simp [Node.same, NodeKind.same, sameList_iff.2 hf.2.flip]
  rw [NodeKind.written, List.cons_append, List.append_assoc]
  refine Runs.expect_bind (by decide) fun p => ?_
  cases flags with
  | true => exact Runs.eat_bind (by decide) (hmembers p)
  | false => exact Runs.eat_bind_ne (by decide) (hmembers p)

theorem exists_mapping {m : Node} {ps : List Pair} {p : Position}
    (h : m.same ⟨.mapping ps, p⟩) : ∃ qs, m.kind = .mapping qs := by
  obtain ⟨kind, q⟩ := m
  cases kind
  case mapping qs => exact ⟨qs, rfl⟩
  all_goals simp [Node.same, NodeKind.same] at h

theorem reads_mutableBrace {l : List Token} {ps : List Pair} {p : Position}
    (h : Reads (brace g) l k fun m => m.same ⟨.mapping ps, p⟩) :
    Reads (mutableBrace g) l k fun m => m.same ⟨.mapping ps, p⟩ := by
  refine Runs.peek_bind_any fun _ => ?_
  refine h.bind fun m hm => ?_
  obtain ⟨qs, hkind⟩ := exists_mapping hm
  simp only [hkind]
  exact ReadsOr.pure hm

/-- What can be made mutable is read as it is written. -/
theorem reads_mutableForm (hshape : (NodeKind.mutable n).WellShaped)
    (h : ∀ p ∈ directParser g n.kind, ∀ k, Reads p (n.written ++ k) k fun m => m.same n) :
    Reads (mutableForm g) ((NodeKind.mutable n).written ++ k) k fun m =>
      m.same ⟨.mutable n, position⟩ := by
  have hmutable (p : Position) {m : Node} (hm : m.same n) :
      Node.same ⟨.mutable m, p⟩ ⟨.mutable n, position⟩ := by
    simpa [Node.same, NodeKind.same] using hm
  obtain ⟨kind, p⟩ := n
  simp only [NodeKind.WellShaped, NodeKind.isMutable] at hshape
  simp only [NodeKind.written, List.cons_append, Node.written] at h ⊢
  refine Runs.expect_bind (by decide) fun q => ?_
  -- the first token of the operand tells which production reads it
  split at hshape
  · have hread := h _ rfl k
    simp only [NodeKind.written, List.cons_append] at hread ⊢
    refine Runs.peek_bind fun _ => ?_
    exact hread.bind fun m hm => ReadsOr.pure (hmutable q hm)
  · have hread := h _ rfl k
    simp only [NodeKind.written, inBraces_append] at hread ⊢
    refine Runs.peek_bind fun _ => ?_
    refine (reads_mutableBrace hread).bind fun m hm => ?_
    exact ReadsOr.pure (hmutable q hm)
  · have hread := h _ rfl k
    simp only [NodeKind.written, inBrackets_append] at hread ⊢
    refine Runs.peek_bind fun _ => ?_
    exact hread.bind fun m hm => ReadsOr.pure (hmutable q hm)
  · have hread := h _ rfl k
    simp only [NodeKind.written, inParens_append] at hread ⊢
    refine Runs.peek_bind fun _ => ?_
    exact hread.bind fun m hm => ReadsOr.pure (hmutable q hm)
  · have hread := h _ rfl k
    simp only [NodeKind.written] at hread ⊢
    refine Runs.peek_bind fun _ => ?_
    exact hread.bind fun m hm => ReadsOr.pure (hmutable q hm)
  · cases hshape

/-- Nothing in braces that are made mutable is an empty mapping. -/
theorem reads_mutableForm_empty (p : Position) :
    Reads (mutableForm g) ((NodeKind.mutable ⟨.mapping [], p⟩).written ++ k) k fun m =>
      m.same ⟨.mutable ⟨.mapping [], p⟩, position⟩ := by
  have hbrace : Reads (mutableBrace g) (inBraces (commaList (Pair.writtenAll [])) ++ k) k fun m =>
      ∃ q, m = ⟨.mapping [], q⟩ := by
    refine Runs.peek_bind_any fun _ => ?_
    refine reads_brace_empty.bind ?_
    rintro _ ⟨q, rfl⟩
    exact ReadsOr.pure ⟨q, rfl⟩
  simp only [NodeKind.written, Node.written, List.cons_append]
  rw [inBraces_append] at hbrace ⊢
  refine Runs.expect_bind (by decide) fun _ => ?_
  refine Runs.peek_bind fun _ => ?_
  refine hbrace.bind ?_
  rintro _ ⟨q, rfl⟩
  exact ReadsOr.pure (by simp [Node.same, NodeKind.same, Pair.sameAll])

/-! ### Jumps -/

theorem reads_optionalExpression {o : Option Node} (h : ∀ n ∈ o, ReadsGroup g n)
    (hk : Ahead Token.endsItem k) :
    Reads (optionalExpression g) (Node.writtenOption o ++ k) k fun m => Node.sameOptional m o := by
  cases o with
  | none =>
    obtain ⟨t, k, rfl, ht⟩ := hk.exists_cons
    have hends : endsExpression t := by
      rcases Token.endsItem_cases ht with rfl | rfl | rfl | rfl | rfl <;> rfl
    refine Runs.peek_bind fun _ => ?_
    rw [if_pos hends]
    exact ReadsOr.pure Node.sameOptional_none
  | some n =>
    have hexpression := (h n rfl).someExpression (endsGroup_of_endsItem hk)
    rw [Node.writtenOption]
    rw [inParens_append] at hexpression ⊢
    refine Runs.peek_bind fun _ => ?_
    exact Runs.ite_false hexpression

theorem reads_throwForm (hn : ReadsGroup g n) (hk : Ahead Token.endsItem k) :
    Reads (throwForm g) ((NodeKind.throw n).written ++ k) k fun m =>
      m.same ⟨.throw n, position⟩ := by
  rw [NodeKind.written]
  refine Runs.expect_bind (by decide) fun _ => ?_
  refine (hn.expression k (endsGroup_of_endsItem hk)).bind fun m hm => ReadsOr.pure ?_
  simpa [Node.same, NodeKind.same] using hm

theorem reads_returnForm {o : Option Node} (h : ∀ n ∈ o, ReadsGroup g n)
    (hk : Ahead Token.endsItem k) :
    Reads (returnForm g) ((NodeKind.return_ o).written ++ k) k fun m =>
      m.same ⟨.return_ o, position⟩ := by
  rw [NodeKind.written]
  refine Runs.expect_bind (by decide) fun _ => ?_
  refine (reads_optionalExpression h hk).bind fun m hm => ReadsOr.pure ?_
  simpa [Node.same, NodeKind.same] using hm

theorem reads_yieldForm {o : Option Node} (h : ∀ n ∈ o, ReadsGroup g n)
    (hk : Ahead Token.endsItem k) :
    Reads (yieldForm g) ((NodeKind.yield o).written ++ k) k fun m =>
      m.same ⟨.yield o, position⟩ := by
  have hoptional := reads_optionalExpression h hk
  -- the value is not mistaken for a source
  have hfrom : Ahead (fun t => t != .keyword .from_) (Node.writtenOption o ++ k) := by
    cases o with
    | none => exact hk.mono fun t ht => bne_iff_ne.2 (Token.ne_of_apply ht rfl)
    | some n => rfl
  obtain ⟨t, l, hl, ht⟩ := hfrom.exists_cons
  rw [NodeKind.written, List.cons_append]
  rw [hl] at hoptional ⊢
  refine Runs.expect_bind (by decide) fun _ => ?_
  refine Runs.eat_bind_ne (bne_iff_ne.1 ht) (Runs.ite_false ?_)
  exact hoptional.bind fun m hm => ReadsOr.pure (by simpa [Node.same, NodeKind.same] using hm)

theorem reads_yieldForm_from (hn : ReadsGroup g n) (hk : Ahead Token.endsItem k) :
    Reads (yieldForm g) ((NodeKind.yieldFrom n).written ++ k) k fun m =>
      m.same ⟨.yieldFrom n, position⟩ := by
  rw [NodeKind.written]
  refine Runs.expect_bind (by decide) fun _ => ?_
  refine Runs.eat_bind (by decide) (Runs.ite_true ?_)
  refine (hn.expression k (endsGroup_of_endsItem hk)).bind fun m hm => ReadsOr.pure ?_
  simpa [Node.same, NodeKind.same] using hm

theorem reads_wordForm {kw : Keyword} {kind : NodeKind} {R : Node → Prop}
    (hkind : ∀ p, R ⟨kind, p⟩) : Reads (wordForm kw kind) (.keyword kw :: k) k R :=
  Runs.expect_bind (by simp) fun p => ReadsOr.pure (hkind p)

end DrakeSyntax
