import DrakeSyntax.Proofs.Runs.Session
import DrakeSyntax.Proofs.Writing.Readable

/-!
# Reading what was written

**A well-formed program that is written as tokens is read back from them**, up to positions. The
proof is an induction on the tree: every kind of node is read as it is written when the nodes
inside it are (`Node.WellFormed.readable`).
-/

namespace DrakeSyntax

open DrakeSyntax.Parser

/-- Well-formed nodes are read as they are written. -/
theorem Node.WellFormed.readable {n : Node} (h : n.WellFormed) : n.Readable := by
  induction h with
  | emptyTable p q => exact readable_emptyTable p
  | @node kind position shape inside ih =>
    cases kind with
    | literal value => exact readable_literal value
    | identifier name => exact readable_identifier name
    | declaration d => exact readable_declaration d
    | assignment ts operator value => exact readable_assignment shape (ih value (.head _))
    | binary op ns => exact readable_binary shape ih
    | unary op operand => exact readable_unary (ih operand (.head _)) op
    | primary base ts => exact readable_primary shape ih
    | lambda positional keyword body => exact readable_lambda shape ih
    | conditional condition consequence otherwise =>
      refine readable_conditional (ih condition (.head _)) (ih consequence (.tail _ (.head _))) ?_
      exact fun n hn => ih n (.tail _ (.tail _ (Option.mem_toList.2 hn)))
    | case subject ps otherwise =>
      obtain ⟨hsubject, hinside⟩ := List.forall_mem_cons.1 ih
      obtain ⟨hpairs, hotherwise⟩ := List.forall_mem_append.1 hinside
      exact readable_case hsubject hpairs fun n hn => hotherwise n (Option.mem_toList.2 hn)
    | try_ body cs cleanup =>
      obtain ⟨hbody, hinside⟩ := List.forall_mem_cons.1 ih
      obtain ⟨hhandlers, hcleanup⟩ := List.forall_mem_append.1 hinside
      exact readable_try shape hbody (List.forall_mem_map.1 hhandlers) fun n hn =>
        hcleanup n (Option.mem_toList.2 hn)
    | for_ ts iterable body =>
      exact readable_for shape (ih iterable (.head _)) (ih body (.tail _ (.head _)))
    | while_ condition body =>
      exact readable_while shape (ih condition (.head _)) (ih body (.tail _ (.head _)))
    | iter operand => exact readable_iter shape (ih operand (.head _))
    | do_ ns => exact readable_do ih
    | object ns => exact readable_object ih
    | module_ ns => exact readable_module ih
    | exception ns => exact readable_exception ih
    | enum flags members => exact readable_enum flags members
    | mutable operand => exact readable_mutable shape (ih operand (.head _))
    | throw value => exact readable_throw (ih value (.head _))
    | return_ value => exact readable_return fun n hn => ih n (Option.mem_toList.2 hn)
    | yield value => exact readable_yield fun n hn => ih n (Option.mem_toList.2 hn)
    | yieldFrom source => exact readable_yieldFrom (ih source (.head _))
    | break_ =>
      refine readable_word .break_ rfl (fun _ => rfl) (fun _ => rfl) fun _ => ?_
      simp [Node.same, NodeKind.same]
    | continue_ =>
      refine readable_word .continue_ rfl (fun _ => rfl) (fun _ => rfl) fun _ => ?_
      simp [Node.same, NodeKind.same]
    | pass =>
      refine readable_word .pass rfl (fun _ => rfl) (fun _ => rfl) fun _ => ?_
      simp [Node.same, NodeKind.same]
    | mapping ps => exact readable_mapping shape ih
    | list content => exact readable_list ih
    | tuple ns => exact readable_tuple ih
    | block ns => exact readable_block ih

/-- An expression of a program is read as it is written, in parentheses or bare. -/
theorem reads_item {n : Node} (hn : n.Readable) (bare : Bool) {d : Nat}
    (hdepth : (parensUnless bare n.written).length ≤ d) {k : List Token}
    (hk : Ahead Token.endsItem k) :
    Reads (phrases (d + 1)).expression (parensUnless bare n.written ++ k) k fun m => m.same n := by
  cases bare with
  | true => exact (hn.reads d hdepth).expression k hk
  | false =>
    have hgroup := hn.group (d := d + 1) (Nat.le_succ_of_le hdepth)
    exact hgroup.expression k (endsGroup_of_endsItem hk)

/-- A program of readable nodes is read back from the tokens that it is written as, whether its
expressions are in parentheses or bare. -/
theorem parseTokens_of_readable {p : Program} (hp : ∀ n ∈ p.body, n.Readable) (bare : Bool)
    {ts : List PlacedToken} (hts : ts.map (·.token) = p.written bare) :
    ∃ q, parseTokens ts = .ok q ∧ q.same p := by
  have hlength : (p.written bare).length = ts.length := by rw [← hts, List.length_map]
  simp only [Program.written, List.length_append, List.length_singleton] at hlength
  have hopen (n : Node) (hn : n ∈ p.body) :
      Ahead Token.opensItem (parensUnless bare n.written) := by
    cases bare with
    | true => exact (hp n hn).start.opensItem
    | false => rfl
  have hwords : (commaList (p.body.map fun n => parensUnless bare n.written)).length ≤
      ts.length := by omega
  obtain ⟨hcount, hitem⟩ := length_le_of_commaList (fun n hn => (hopen n hn).length_pos) hwords
  -- each expression, by phrases as deep as there are tokens
  have hread : ∀ n ∈ p.body, ∀ k, Ahead Token.endsItem k →
      Reads (phrases (ts.length + 1)).expression (parensUnless bare n.written ++ k) k
        fun m => m.same n :=
    fun n hn k hk => reads_item (hp n hn) bare (hitem n hn) hk
  have hlist := reads_list (r := (phrases (ts.length + 1)).rounds) (k := [.endOfInput]) hread hopen
    rfl (by rw [phrases_rounds]; omega)
  refine parseTokens_of_reads hts (hlist.bind fun l hl => Runs.isAt_bind (Runs.ite_true ?_))
  exact ReadsOr.pure (Node.sameAll_iff.2 hl.2.flip)

/-- **A well-formed program is read back from the tokens that it is written as**, whether its
expressions are in parentheses or bare. -/
theorem parseTokens_written {p : Program} (hp : p.WellFormed) (bare : Bool)
    {ts : List PlacedToken} (hts : ts.map (·.token) = p.written bare) :
    ∃ q, parseTokens ts = .ok q ∧ q.same p :=
  parseTokens_of_readable (fun n hn => (hp n hn).readable) bare hts

/-- `(x) = (mutable {})` is read back. -/
theorem parseTokens_written_mutable : ∃ q,
    parseTokens (([.punctuator .leftParen, .identifier "x", .punctuator .rightParen,
      .punctuator .assign, .punctuator .leftParen, .keyword .mutable, .punctuator .leftBrace,
      .punctuator .rightBrace, .punctuator .rightParen, .endOfInput] : List Token).map
        fun t => ⟨t, .start⟩) = .ok q ∧
      q.same ⟨[⟨.assignment [⟨none, none, "x", .start⟩] .assign
        ⟨.mutable ⟨.mapping [], .start⟩, .start⟩, .start⟩]⟩ := by
  refine parseTokens_written ?_ true rfl
  simp only [Program.WellFormed, List.mem_singleton, forall_eq]
  refine .node ⟨by simp, by simp⟩ ?_
  simp only [NodeKind.children, List.mem_singleton, forall_eq]
  exact .emptyTable .start .start

end DrakeSyntax
