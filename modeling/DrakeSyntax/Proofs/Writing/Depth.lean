import DrakeSyntax.Proofs.Writing.Form
import DrakeSyntax.Proofs.Writing.Operand

/-!
# Reading parts of a node at a depth

What is written with no more tokens than the depth is read by the phrases of that depth, provided
that the nodes inside are readable. The number of tokens bounds the number of items as well.

* `readsGroups`: expressions in a list.
* `readsTrailers`: trailers one behind the other.
* `readsLambdaHead`, `readsTargets`: what stands in front of an arrow or an operator.
-/

namespace DrakeSyntax

open DrakeSyntax.Parser

variable {d : Nat} {n : Node} {ns : List Node}

/-! ### Lists -/

/-- Items of two kinds that are not empty are no more than the tokens of the list. -/
theorem length_le_of_twoKinds {α β : Type} {write : α → List Token} {write' : β → List Token}
    {as : List α} {bs : List β} (h : ∀ a ∈ as, 0 < (write a).length)
    (h' : ∀ b ∈ bs, 0 < (write' b).length)
    (hdepth : (commaList (as.map write ++ bs.map write')).length ≤ d) :
    as.length + bs.length ≤ d ∧ (∀ a ∈ as, (write a).length ≤ d) ∧
      ∀ b ∈ bs, (write' b).length ≤ d := by
  have hpos : ∀ w ∈ as.map write ++ bs.map write', 0 < w.length := by
    simp only [List.mem_append, List.mem_map]
    rintro w (⟨a, ha, rfl⟩ | ⟨b, hb, rfl⟩)
    · exact h a ha
    · exact h' b hb
  have hcount := length_commaList_ge hpos
  have hitem : ∀ w ∈ as.map write ++ bs.map write', w.length ≤ d :=
    fun w hw => Nat.le_trans (length_le_commaList hw) hdepth
  simp only [List.length_append, List.length_map] at hcount
  exact ⟨by omega, fun a ha => hitem _ (List.mem_append_left _ (List.mem_map_of_mem ha)),
    fun b hb => hitem _ (List.mem_append_right _ (List.mem_map_of_mem hb))⟩

theorem length_le_of_commaList {α : Type} {write : α → List Token} {as : List α}
    (h : ∀ a ∈ as, 0 < (write a).length) (hdepth : (commaList (as.map write)).length ≤ d) :
    as.length ≤ d ∧ ∀ a ∈ as, (write a).length ≤ d := by
  -- a list of two kinds without items of the second kind
  have hboth : (commaList (as.map write ++ ([] : List α).map write)).length ≤ d := by
    simpa using hdepth
  have htwo := length_le_of_twoKinds h (by simp) hboth
  exact ⟨htwo.1, htwo.2.1⟩

/-- Expressions in a list. -/
theorem readsGroups (h : ∀ n ∈ ns, n.Readable)
    (hdepth : (commaList (Node.writtenAll ns)).length ≤ d) :
    (∀ n ∈ ns, ReadsGroup (phrases d) n) ∧ ns.length ≤ (phrases d).rounds := by
  rw [Node.writtenAll_eq_map] at hdepth
  obtain ⟨hcount, hitem⟩ := length_le_of_commaList (fun n _ => by simp [inParens]) hdepth
  exact ⟨fun n hn => (h n hn).group (hitem n hn), by simpa using hcount⟩

/-- An optional expression. -/
theorem readsOption {o : Option Node} (h : ∀ n ∈ o, n.Readable)
    (hdepth : (Node.writtenOption o).length ≤ d) : ∀ n ∈ o, ReadsGroup (phrases d) n := by
  rintro n rfl
  rw [Node.writtenOption] at hdepth
  exact (h n rfl).group hdepth

theorem length_writtenOption (o : Option Node) :
    o.toList.length ≤ (Node.writtenOption o).length := by
  cases o <;> simp [Node.writtenOption, inParens]

theorem length_writtenBehind (kw : Keyword) (o : Option Node) :
    (Node.writtenOption o).length ≤ (Node.writtenBehind kw o).length := by
  cases o <;> simp [Node.writtenOption, Node.writtenBehind]

theorem length_writtenStep (o : Option Node) :
    (Node.writtenOption o).length ≤ (ListLiteral.writtenStep o).length := by
  cases o <;> simp [Node.writtenOption, ListLiteral.writtenStep]

/-- Pairs in a list. -/
theorem readsPairs {ps : List Pair} (h : ∀ n ∈ ps.flatMap Pair.nodes, n.Readable)
    (hdepth : (commaList (Pair.writtenAll ps)).length ≤ d) :
    (∀ p ∈ ps, ReadsPair (phrases d) p) ∧ ps.length ≤ (phrases d).rounds := by
  rw [Pair.writtenAll_eq_map] at hdepth
  obtain ⟨hcount, hitem⟩ := length_le_of_commaList
    (fun p _ => by rw [Pair.written_eq]; simp [inParens]) hdepth
  refine ⟨fun p hp => ?_, by simpa using hcount⟩
  have hlength := hitem p hp
  simp only [Pair.written_eq, List.length_append, List.length_cons] at hlength
  have hnode (n : Node) (hn : n ∈ p.nodes) : n.Readable :=
    h n (List.mem_flatMap.2 ⟨p, hp, hn⟩)
  exact ⟨(hnode p.key (by simp [Pair.nodes])).group (by omega),
    (hnode p.value (by simp [Pair.nodes])).group (by omega)⟩

/-- What stands between brackets. -/
theorem readsContent {content : ListLiteral} (h : ∀ n ∈ content.nodes, n.Readable)
    (hdepth : content.written.length ≤ d) :
    (∀ n ∈ content.nodes, ReadsGroup (phrases d) n) ∧
      content.nodes.length ≤ (phrases d).rounds := by
  cases content with
  | items ns =>
    rw [ListLiteral.written] at hdepth
    exact readsGroups h hdepth
  | range start stop step =>
    simp only [ListLiteral.written, List.length_append, List.length_cons] at hdepth
    simp only [ListLiteral.nodes, List.mem_cons, List.mem_append, Option.mem_toList] at h ⊢
    have hstart := (h start (.inl rfl)).group (d := d) (by omega)
    have hstop := readsOption (o := stop) (d := d) (fun n hn => h n (.inr (.inl hn)))
      (by omega)
    have hlength := length_writtenStep step
    have hstep := readsOption (o := step) (d := d) (fun n hn => h n (.inr (.inr hn)))
      (by omega)
    refine ⟨?_, ?_⟩
    · rintro n (rfl | hn | hn)
      · exact hstart
      · exact hstop n hn
      · exact hstep n hn
    · have hcount := length_writtenOption stop
      have hcount' := length_writtenOption step
      rw [phrases_rounds]
      simp only [List.length_cons, List.length_append]
      omega

/-! ### Operands and trailers -/

/-- Operands with one operator between them. -/
theorem readsOperands {op : BinaryOperator} (h : ∀ n ∈ ns, n.Readable)
    (hdepth : (Node.writtenChain op ns).length ≤ d) :
    (∀ n ∈ ns, ReadsGroup (phrases d) n) ∧ ns.length ≤ (phrases d).rounds := by
  have hrest (ns : List Node) : (∀ n ∈ ns, (inParens n.written).length ≤
      (Node.writtenOperands op ns).length) ∧ ns.length ≤ (Node.writtenOperands op ns).length := by
    induction ns with
    | nil => exact ⟨by simp, Nat.zero_le _⟩
    | cons n ns ih =>
      obtain ⟨hitem, hcount⟩ := ih
      simp only [Node.writtenOperands, List.length_append, List.length_cons,
        List.forall_mem_cons]
      have hpos : 0 < (inParens n.written).length := by simp [inParens]
      exact ⟨⟨by omega, fun m hm => by have hle := hitem m hm; omega⟩, by omega⟩
  have hchain : (∀ n ∈ ns, (inParens n.written).length ≤ (Node.writtenChain op ns).length) ∧
      ns.length ≤ (Node.writtenChain op ns).length := by
    cases ns with
    | nil => exact ⟨by simp, Nat.zero_le _⟩
    | cons n ns =>
      obtain ⟨hitem, hcount⟩ := hrest ns
      simp only [Node.writtenChain, List.length_append, List.length_cons, List.forall_mem_cons]
      have hpos : 0 < (inParens n.written).length := by simp [inParens]
      exact ⟨⟨by omega, fun m hm => by have hle := hitem m hm; omega⟩, by omega⟩
  rw [phrases_rounds]
  exact ⟨fun n hn => (h n hn).group (Nat.le_trans (hchain.1 n hn) hdepth),
    Nat.le_trans hchain.2 hdepth⟩

theorem KeywordArgument.written_eq (a : KeywordArgument) :
    a.written = .identifier a.name :: .punctuator .colon :: inParens a.value.written := by
  obtain ⟨name, value⟩ := a
  rw [KeywordArgument.written]

theorem readsCall {positional : List Node} {keyword : List KeywordArgument}
    (h : ∀ n ∈ (Trailer.call positional keyword).nodes, n.Readable)
    (hdepth : (Trailer.call positional keyword).written.length ≤ d) :
    ReadsCall (phrases d) positional keyword := by
  simp only [Trailer.nodes, List.mem_append, List.mem_map] at h
  simp only [Trailer.written, inParens, List.length_cons, List.length_append, List.length_nil]
    at hdepth
  rw [Node.writtenAll_eq_map, KeywordArgument.writtenAll_eq_map] at hdepth
  -- the parentheses leave a level of depth for names
  obtain ⟨e, rfl⟩ : ∃ e, d = e + 1 := ⟨d - 1, by omega⟩
  have hwords : (commaList (positional.map (fun n => inParens n.written)
      ++ keyword.map KeywordArgument.written)).length ≤ e := by omega
  obtain ⟨hcount, hvalue, hnamed⟩ := length_le_of_twoKinds (fun n _ => by simp [inParens])
    (fun a _ => by simp [KeywordArgument.written_eq]) hwords
  refine ⟨readsName_phrases e, fun n hn => ?_, fun a ha => ?_, ?_⟩
  · have hlength := hvalue n hn
    exact (h n (.inl hn)).group (by omega)
  · have hlength := hnamed a ha
    rw [a.written_eq] at hlength
    simp only [List.length_cons] at hlength
    exact (h a.value (.inr ⟨a, ha, rfl⟩)).group (by omega)
  · rw [phrases_rounds]
    omega

theorem readsTrailer {t : Trailer} (h : ∀ n ∈ t.nodes, n.Readable)
    (hindex : ∀ operand, t = .index operand → operand.kind.isList)
    (hdepth : t.written.length ≤ d) : ReadsTrailer (phrases d) t := by
  cases t with
  | «attribute» name => trivial
  | call positional keyword => exact readsCall h hdepth
  | index operand =>
    rw [Trailer.written] at hdepth
    have hread := ((h operand (by simp [Trailer.nodes])).reads d hdepth).direct
    have hlist := hindex operand rfl
    obtain ⟨kind, position⟩ := operand
    simp only [NodeKind.isList] at hlist
    split at hlist
    · exact ⟨by simp [Node.written, NodeKind.written, inBrackets, Ahead], hread _ rfl⟩
    · cases hlist

/-- Trailers one behind the other. -/
theorem readsTrailers {ts : List Trailer} (h : ∀ n ∈ ts.flatMap Trailer.nodes, n.Readable)
    (hindex : ∀ operand, .index operand ∈ ts → operand.kind.isList)
    (hdepth : (Trailer.writtenAll ts).length ≤ d) :
    (∀ t ∈ ts, ReadsTrailer (phrases d) t) ∧ ts.length ≤ (phrases d).rounds := by
  -- every trailer takes a token, so there are no more trailers than tokens
  have hreads : (∀ t ∈ ts, ReadsTrailer (phrases d) t) ∧
      ts.length ≤ (Trailer.writtenAll ts).length := by
    induction ts with
    | nil => exact ⟨by simp, Nat.zero_le _⟩
    | cons t ts ih =>
      simp only [List.flatMap_cons, List.mem_append] at h
      simp only [Trailer.writtenAll, List.length_append] at hdepth ⊢
      have ht : ReadsTrailer (phrases d) t := by
        refine readsTrailer (fun n hn => h n (.inl hn)) ?_ (by omega)
        rintro operand rfl
        exact hindex operand (List.mem_cons_self ..)
      obtain ⟨hts, hcount⟩ := ih (fun n hn => h n (.inr hn))
        (fun operand hoperand => hindex operand (.tail _ hoperand)) (by omega)
      have hpos := ht.ahead.length_pos
      exact ⟨List.forall_mem_cons.2 ⟨ht, hts⟩, by simp only [List.length_cons]; omega⟩
  rw [phrases_rounds]
  exact ⟨hreads.1, Nat.le_trans hreads.2 hdepth⟩

/-! ### Parameters, targets and handlers -/

theorem Target.length_typeHint {t : Target} {hint : TypeHint} (h : hint ∈ t.typeHint) :
    hint.written.length ≤ t.written.length := by
  obtain ⟨modifier, typeHint, name, position⟩ := t
  obtain rfl : typeHint = some hint := h
  simp only [Target.written, TypeHint.angled, List.length_append, List.length_cons,
    Option.toList_some, List.flatMap_cons, List.flatMap_nil]
  omega

/-- Targets in parentheses. -/
theorem readsTargets {ts : List Target} (hne : ts ≠ [])
    (hdepth : (writtenTargets ts).length ≤ d) : ReadsTargets (phrases d) ts := by
  simp only [writtenTargets, inParens, List.length_cons, List.length_append] at hdepth
  have hwords : (commaList (ts.map Target.written)).length ≤ d := by omega
  obtain ⟨hcount, hitem⟩ := length_le_of_commaList
    (fun t _ => t.written_opensItem.length_pos) hwords
  refine ⟨fun t ht hint hhint => ?_, hne, by simpa using hcount⟩
  have hlength := hitem t ht
  have htype := Target.length_typeHint hhint
  exact readsType_phrases hint d (by omega)

theorem PositionalParameter.length_typeHint (p : PositionalParameter) :
    p.typeHint.written.length ≤ p.written.length := by
  simp only [PositionalParameter.written, TypeHint.angled, List.length_append, List.length_cons]
  omega

theorem readsParameter {p : KeywordParameter} (h : ∀ n ∈ p.kind.nodes, n.Readable)
    (hdepth : p.written.length ≤ d) : ReadsParameter (phrases d) p := by
  obtain ⟨hint, name, kind⟩ := p
  rw [KeywordParameter.written] at hdepth
  cases kind with
  | required =>
    simp only [KeywordParameterKind.written, TypeHint.angled, List.length_append,
      List.length_cons] at hdepth
    exact ⟨readsType_phrases hint d (by omega), by simp [KeywordParameterKind.nodes]⟩
  | default value =>
    simp only [KeywordParameterKind.written, TypeHint.angled, List.length_append,
      List.length_cons] at hdepth
    refine ⟨readsType_phrases hint d (by omega), ?_⟩
    simp only [KeywordParameterKind.nodes, List.mem_singleton, forall_eq] at h ⊢
    exact h.group (by omega)
  | collector =>
    simp only [KeywordParameterKind.written, TypeHint.angled, List.length_append,
      List.length_cons] at hdepth
    exact ⟨readsType_phrases hint d (by omega), by simp [KeywordParameterKind.nodes]⟩

/-- The parameters of a lambda. -/
theorem readsLambdaHead {positional : List PositionalParameter} {keyword : List KeywordParameter}
    (hfirst : ∀ p ∈ keyword.head?, p.kind ≠ .required)
    (h : ∀ n ∈ keyword.flatMap (·.kind.nodes), n.Readable)
    (hdepth : (commaList (positional.map PositionalParameter.written
      ++ KeywordParameter.writtenAll keyword)).length ≤ d) :
    ReadsLambdaHead (phrases d) positional keyword := by
  rw [KeywordParameter.writtenAll_eq_map] at hdepth
  obtain ⟨hcount, hpositional, hkeyword⟩ := length_le_of_twoKinds
    (fun p _ => p.written_opensItem.length_pos) (fun p _ => p.written_opensItem.length_pos) hdepth
  refine ⟨fun p hp => ?_, fun p hp => ?_, hfirst, by simpa using hcount⟩
  · have hlength := hpositional p hp
    have htype := p.length_typeHint
    exact readsType_phrases p.typeHint d (by omega)
  · exact readsParameter (fun n hn => h n (List.mem_flatMap.2 ⟨p, hp, hn⟩)) (hkeyword p hp)

/-- Handlers one behind the other. -/
theorem readsHandlers {cs : List CatchClause} (h : ∀ c ∈ cs, c.handler.Readable)
    (hdepth : (CatchClause.writtenAll cs).length ≤ d) :
    (∀ c ∈ cs, ReadsGroup (phrases d) c.handler) ∧ cs.length ≤ (phrases d).rounds := by
  have hreads : (∀ c ∈ cs, ReadsGroup (phrases d) c.handler) ∧
      cs.length ≤ (CatchClause.writtenAll cs).length := by
    induction cs with
    | nil => exact ⟨by simp, Nat.zero_le _⟩
    | cons c cs ih =>
      obtain ⟨hc, hcs⟩ := List.forall_mem_cons.1 h
      obtain ⟨exceptionType, binding, handler, position⟩ := c
      simp only [CatchClause.writtenAll, CatchClause.written, List.length_append,
        List.length_cons] at hdepth ⊢
      obtain ⟨hhandlers, hcount⟩ := ih hcs (by omega)
      have hhandler : (inParens handler.written).length ≤ d := by omega
      exact ⟨List.forall_mem_cons.2 ⟨hc.group hhandler, hhandlers⟩, by omega⟩
  rw [phrases_rounds]
  exact ⟨hreads.1, Nat.le_trans hreads.2 hdepth⟩

end DrakeSyntax
