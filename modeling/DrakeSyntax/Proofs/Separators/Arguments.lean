import DrakeSyntax.Proofs.Separators.Commas
import DrakeSyntax.Proofs.Separators.Key

/-!
# Arguments of a call

Arguments are expressions or a name, a colon and an expression. A call reads them if no positional
one stands behind a named one, and otherwise it is rejected (`parseTokens_call`). Each argument is
tried in both ways and the longer one is kept: of a named argument an expression reads the name only,
and a positional one is never read as a named one.
-/

namespace DrakeSyntax

open DrakeSyntax.Parser

variable {α β : Type} {p : Parser α} {q : Parser β} {f : String × Position → Parser β}
variable {us vs ws w : List PlacedToken} {t : PlacedToken} {a : α} {b : β}
variable {Q : β → List PlacedToken → Prop} {E : ParseError → Prop} {depth : Nat}

/-! ### Names and trials -/

theorem RunsOn.identifier_bind {name : String} {position : Position}
    (h : RunsOn (f (name, position)) us Q E) :
    RunsOn (identifier >>= f) (⟨.identifier name, position⟩ :: us) Q E := by
  intro s hs
  have hat : s.cursor.current = ⟨.identifier name, position⟩ := current_of_rest hs
  rw [bind_of_ok (identifier_of_eq (by rw [hat])), hat]
  exact h _ (rest_advance hs Token.noConfusion)

theorem RunsOn.identifier_bind_ne (ht : ∀ name, t.token ≠ .identifier name) (herror : ∀ e, E e) :
    RunsOn (identifier >>= f) (t :: us) Q E := by
  intro s hs
  rw [bind_of_error (identifier_of_ne (by rwa [current_of_rest hs]))]
  exact herror _

/-- What is left does not depend on what is read. -/
theorem ReadsOn.rest_unique {a' : α} (h : ReadsOn p us a vs) (h' : ReadsOn p us a' ws) : vs = ws := by
  obtain ⟨s, hrun, hrest⟩ := h.exists_run (s := ⟨⟨0, us⟩, ∅⟩) rfl
  obtain ⟨s', hrun', hrest'⟩ := h'.exists_run (s := ⟨⟨0, us⟩, ∅⟩) rfl
  rw [hrun] at hrun'
  cases hrun'
  exact hrest.symm.trans hrest'

/-- The first phrase is kept where the second one fails. -/
theorem ReadsOn.longer_inl (hp : ReadsOn p us a vs)
    (hq : RunsOn q us (fun _ _ => False) fun _ => True) : ReadsOn (longer p q) us (.inl a) vs := by
  intro s hs
  obtain ⟨table, hlonger, -⟩ := exists_longer_eq p q s
  obtain ⟨s₁, hrun, hrest⟩ := hp.exists_run hs
  have hrun' := hq { s with brackets := table } hs
  rw [hlonger, hrun]
  cases hresult : q { s with brackets := table } with
  | error e s₂ => exact ⟨rfl, hrest⟩
  | ok b s₂ =>
    rw [hresult] at hrun'
    exact hrun'.elim

/-- What a parser takes shows in the index of the cursor. -/
theorem Coupling.Matches.index_eq {V : α → α → Prop} {s s' : ParserState}
    (h : (Coupling.diagonal s.cursor []).Matches [] [] V p p) (hended : s.cursor.Ended)
    (hrun : p s = .ok a s') :
    s'.cursor.index + s'.cursor.rest.length = s.cursor.index + s.cursor.rest.length := by
  have hpasses := h.passes hended
  rw [hrun] at hpasses
  obtain ⟨ts, hts, hindex, -⟩ := hpasses.passed
  rw [hindex, hts, List.length_append]
  omega

/-- The second phrase is kept where it leaves fewer tokens. -/
theorem ReadsOn.longer_inr {V : Cursor → α → α → Prop} {W : Cursor → β → β → Prop}
    (hp : ReadsOn p us a vs) (hq : ReadsOn q us b ws) (hlength : ws.length < vs.length)
    (hend : ∃ e ∈ us, e.token = .endOfInput)
    (hpasses : ∀ start, (Coupling.diagonal start []).Matches [] [] (V start) p p)
    (hpasses' : ∀ start, (Coupling.diagonal start []).Matches [] [] (W start) q q) :
    ReadsOn (longer p q) us (.inr b) ws := by
  intro s hs
  have hended : s.cursor.Ended := by rwa [Cursor.Ended, hs]
  obtain ⟨table, hlonger, -⟩ := exists_longer_eq p q s
  obtain ⟨s₁, hrun, hrest⟩ := hp.exists_run hs
  obtain ⟨s₂, hrun', hrest'⟩ := hq.exists_run (s := { s with brackets := table }) hs
  have hindex := (hpasses s.cursor).index_eq hended hrun
  have hindex' := (hpasses' s.cursor).index_eq (s := { s with brackets := table }) hended hrun'
  have hlt : s₁.cursor.index < s₂.cursor.index := by
    rw [hrest] at hindex
    rw [hrest'] at hindex'
    dsimp only at hindex'
    omega
  rw [hlonger, hrun, hrun', longerOf, if_pos hlt]
  exact ⟨rfl, hrest'⟩

/-! ### Arguments -/

/-- What stands between two commas of a call. -/
inductive Argument where
  | positional (item : Item)
  | named (name : String) (position colon : Position) (value : Item)

namespace Argument

def tokens : Argument → List PlacedToken
  | positional item => item.tokens
  | named name position colon value =>
    ⟨.identifier name, position⟩ :: ⟨.punctuator .colon, colon⟩ :: value.tokens

/-- The item of the argument is an expression by itself. -/
def Alone : Argument → Prop
  | positional item => item.Alone
  | named _ _ _ value => value.Alone

def isNamed : Argument → Bool
  | positional _ => false
  | named _ _ _ _ => true

/-- What the argument stands for. -/
def value : Argument → Node ⊕ KeywordArgument
  | positional item => .inl item.node
  | named name _ _ value => .inr ⟨name, value.node⟩

/-- What the argument stands for behind another one. -/
def behind? : Node ⊕ KeywordArgument → Argument → Option (Node ⊕ KeywordArgument)
  | .inr _, positional _ => none
  | _, argument => some argument.value

/-- The second argument may stand behind the first one. -/
def Allows (a b : Argument) : Prop := a.isNamed → b.isNamed

/-- The expression that is passed by its place. -/
def positional? : Argument → Option Node
  | positional item => some item.node
  | named _ _ _ _ => none

/-- What is passed by its name. -/
def keyword? : Argument → Option KeywordArgument
  | positional _ => none
  | named name _ _ value => some ⟨name, value.node⟩

end Argument

section Reading

variable {item value : Item} {name : String} {position colon : Position}

theorem reads_atom_name {g : Inner} : ReadsOn (atom g) (⟨.identifier name, position⟩ :: us)
    ⟨.identifier name, position⟩ us :=
  RunsOn.peek_bind (RunsOn.discard_bind (RunsOn.advance_bind Token.noConfusion
    (RunsOn.pure ⟨rfl, rfl⟩)))

/-- Of a name with a colon behind it, an expression reads the name. -/
theorem reads_name_colon {g : Inner} : ReadsOn (expressionWith g)
    (⟨.identifier name, position⟩ :: ⟨.punctuator .colon, colon⟩ :: us) ⟨.identifier name, position⟩
    (⟨.punctuator .colon, colon⟩ :: us) := by
  refine RunsOn.operand_expressionWith rfl (headless_name rfl) ?_
    (RunsOn.atom_unary rfl ?_ reads_atom_name)
  · rintro _ _ ⟨-, rfl⟩
    exact ⟨_, us, rfl, rfl, fun _ => rfl⟩
  · rintro _ _ ⟨-, rfl⟩
    exact ⟨_, us, rfl, rfl⟩

/-- An expression by itself does not begin with a name and a colon. -/
theorem fails_keywordArgument (hitem : item.Alone) (hw : EndsItem w)
    (hdepth : (item.tokens ++ w).length ≤ depth) :
    RunsOn (keywordArgument (phrases depth)) (item.tokens ++ w) (fun _ _ => False) fun _ => True := by
  obtain ⟨t, ts, htokens, -, -⟩ := hitem.opens
  obtain ⟨v, vs, hv, hseparates⟩ := hw.exists_cons
  obtain ⟨depth, rfl⟩ : ∃ n, depth = n + 1 := by
    refine Nat.exists_eq_add_one.2 (Nat.lt_of_lt_of_le ?_ hdepth)
    rw [hv, List.length_append]
    exact Nat.zero_lt_succ _
  obtain ⟨u, us, hu⟩ : ∃ u us, ts ++ w = u :: us := by
    rw [hv]
    cases ts with
    | nil => exact ⟨v, vs, rfl⟩
    | cons u us => exact ⟨u, us ++ v :: vs, rfl⟩
  have hreads := hitem.reads hw hdepth
  rw [htokens, List.cons_append, hu] at hreads ⊢
  by_cases hname : ∃ name, t.token = .identifier name
  · obtain ⟨name, hname⟩ := hname
    obtain ⟨token, position⟩ := t
    obtain rfl : token = .identifier name := hname
    refine RunsOn.identifier_bind (RunsOn.discard_bind ?_)
    refine RunsOn.expect_bind_ne (fun hcolon => ?_) fun _ => trivial
    -- else the expression would end in front of the colon
    obtain ⟨colon, colonPosition⟩ := u
    obtain rfl : colon = .punctuator .colon := hcolon
    have hrest := hreads.rest_unique reads_name_colon
    rw [hv] at hrest
    rw [(List.cons.inj hrest).1] at hseparates
    cases hseparates
  · exact RunsOn.identifier_bind_ne (fun name h => hname ⟨name, h⟩) fun _ => trivial

/-- A named argument is read with its value. -/
theorem reads_named (name : String) (position colon : Position) (hvalue : value.Alone)
    (hw : EndsItem w) (hdepth : (value.tokens ++ w).length ≤ depth) :
    ReadsOn (keywordArgument (phrases depth))
      (⟨.identifier name, position⟩ :: ⟨.punctuator .colon, colon⟩ :: (value.tokens ++ w))
      ⟨name, value.node⟩ w := by
  refine RunsOn.identifier_bind (RunsOn.discard_bind ?_)
  refine RunsOn.expect_bind rfl Token.noConfusion ?_
  exact (hvalue.reads hw hdepth).bind (RunsOn.pure ⟨rfl, rfl⟩)

variable {argument : Argument}

theorem Argument.Alone.opens (h : argument.Alone) :
    ∃ t ts, argument.tokens = t :: ts ∧ t.token.separates = false ∧ t.token.continues = false := by
  cases argument with
  | positional item => exact Item.Alone.opens h
  | named name position colon value => exact ⟨_, _, rfl, rfl, rfl⟩

/-- **Of the two ways to read an argument, the right one is the longer one.** -/
theorem Argument.Alone.reads_longer (h : argument.Alone) (hw : EndsItem w)
    (hdepth : (argument.tokens ++ w).length ≤ depth) :
    ReadsOn (longer (phrases depth).expression (keywordArgument (phrases depth)))
      (argument.tokens ++ w) argument.value w := by
  cases argument with
  | positional item =>
    exact (Item.Alone.reads h hw hdepth).longer_inl (fails_keywordArgument h hw hdepth)
  | named name position colon value =>
    obtain ⟨depth, rfl⟩ : ∃ n, depth = n + 1 :=
      Nat.exists_eq_add_one.2 (Nat.lt_of_lt_of_le (Nat.zero_lt_succ _) hdepth)
    have hsteady := steadyAlone_phrases (depth + 1)
    rw [tokens, List.cons_append, List.cons_append] at hdepth ⊢
    have hnamed := reads_named name position colon h hw
      (Nat.le_of_succ_le (Nat.le_of_succ_le hdepth))
    refine ReadsOn.longer_inr reads_name_colon hnamed ?_ ?_
      (fun start => (hsteady start []).expression [])
      fun start => matches_keywordArgument (fun _ _ _ => id) (hsteady start [])
    · rw [List.length_cons, List.length_append]
      omega
    · exact exists_endOfInput_cons _ (exists_endOfInput_cons _ (exists_endOfInput_append _ hw.ended))

/-- Behind a named argument only a named one is read. -/
theorem Argument.Alone.finds (h : argument.Alone) (last : Node ⊕ KeywordArgument) (hw : EndsItem w)
    (hdepth : (argument.tokens ++ w).length ≤ depth) :
    Finds (behind? last argument)
      (eitherItem (phrases depth).expression (keywordArgument (phrases depth)) (some last))
      (argument.tokens ++ w) w := by
  cases last with
  | inl node =>
    have hreads := Finds.of_reads (h.reads_longer hw hdepth)
    cases argument with
    | positional item => exact hreads
    | named name position colon value => exact hreads
  | inr keyword =>
    cases argument with
    | positional item =>
      exact .of_fails (RunsOn.bind (fails_keywordArgument h hw hdepth) fun _ _ => False.elim)
    | named name position colon value =>
      have hdepth' := Nat.le_of_succ_le (Nat.le_of_succ_le hdepth)
      have hnamed := reads_named name position colon h hw hdepth'
      exact .of_reads (hnamed.bind (RunsOn.pure ⟨rfl, rfl⟩))

end Reading

/-! ### Calls -/

/-- The arguments of a call as they are written, if there are any. -/
abbrev Arguments := Option (Row Argument)

namespace Arguments

variable (arguments : Arguments)

def entries : List Argument := arguments.elim [] Row.entries

def tokens : List PlacedToken := arguments.elim [] (Row.tokens Argument.tokens)

/-- No positional argument stands behind a named one. -/
def Ordered : Prop := arguments.entries.Pairwise Argument.Allows

/-- What the arguments stand for, if none of them stands for nothing behind the ones before it. -/
def values? : Option (List (Node ⊕ KeywordArgument)) :=
  arguments.elim (some []) fun row =>
    (follow Argument.behind? row.first.value (row.more.map (·.2))).map (row.first.value :: ·)

end Arguments

/-- A call of a name as it is written. -/
structure Call where
  name : String
  callee : Position
  left : Position
  arguments : Arguments
  right : Position

namespace Call

def tokens (call : Call) : List PlacedToken :=
  ⟨.identifier call.name, call.callee⟩ :: ⟨.punctuator .leftParen, call.left⟩ ::
    (call.arguments.tokens ++ [⟨.punctuator .rightParen, call.right⟩])

/-- The call of the name with arguments of both kinds. -/
def nodeOf (call : Call) (lists : List Node × List KeywordArgument) : Node :=
  ⟨.primary ⟨.identifier call.name, call.callee⟩ [.call lists.1 lists.2], call.callee⟩

/-- What the call is read as if it is accepted: its positional arguments and its named ones, in
order. -/
def node (call : Call) : Node :=
  call.nodeOf (call.arguments.entries.filterMap Argument.positional?,
    call.arguments.entries.filterMap Argument.keyword?)

end Call

variable {arguments : Arguments} {close : PlacedToken}

/-- A list of arguments is read to its end if none of them stands for nothing. -/
theorem finds_argumentList (halone : ∀ a ∈ arguments.entries, a.Alone)
    (hclose : close.token.closesList) (hend : ∃ e ∈ close :: w, e.token = .endOfInput)
    (hdepth : (arguments.tokens ++ close :: w).length ≤ depth) :
    Finds (arguments.values?.map fun as => ⟨as, false⟩)
      (listWith (phrases depth).rounds
        (eitherItem (phrases depth).expression (keywordArgument (phrases depth))))
      (arguments.tokens ++ close :: w) (close :: w) := by
  cases arguments with
  | none =>
    refine .of_reads (RunsOn.discard_bind (RunsOn.eat_bind_ne (Token.ne_of_apply hclose rfl) ?_))
    refine RunsOn.peek_bind ?_
    rw [if_pos hclose]
    exact RunsOn.pure ⟨rfl, rfl⟩
  | some row =>
    obtain ⟨first, more⟩ := row
    obtain ⟨hfirst, hothers⟩ := List.forall_mem_cons.1 halone
    have hmore : ∀ m ∈ more, m.2.Alone := fun m hm => hothers _ (List.mem_map_of_mem hm)
    have hbehind : EndsItem (commaBehind Argument.tokens more ++ close :: w) :=
      endsItem_commaBehind hclose hend
    simp only [Arguments.tokens, Option.elim_some, Row.tokens, List.append_assoc] at hdepth ⊢
    have hrest := finds_listFrom_phrases first.value
      (fun m hm => ⟨(hmore m hm).opens, fun last _ => (hmore m hm).finds last⟩) hclose hend
      (Nat.le_trans (by simp) hdepth)
    obtain ⟨t, ts, htokens, hseparates, -⟩ := hfirst.opens
    have hreads := hfirst.reads_longer hbehind hdepth
    rw [htokens, List.cons_append] at hreads ⊢
    refine RunsOn.discard_bind (RunsOn.eat_bind_ne (Token.ne_of_apply hseparates rfl) ?_)
    refine RunsOn.peek_bind ?_
    rw [if_neg (Token.closesList_of_separates hseparates)]
    simp only [Arguments.values?, Option.elim_some, Option.map_map]
    exact ReadsOn.bind hreads hrest

/-- **The arguments of a call are read in order.** -/
theorem finds_arguments (halone : ∀ a ∈ arguments.entries, a.Alone)
    (hclose : close.token.closesList) (hend : ∃ e ∈ close :: w, e.token = .endOfInput)
    (hdepth : (arguments.tokens ++ close :: w).length ≤ depth) :
    Finds (arguments.values?.map separate)
      (twoKindList (phrases depth).rounds (phrases depth).expression (keywordArgument (phrases depth)))
      (arguments.tokens ++ close :: w) (close :: w) := by
  have hlist := (finds_argumentList halone hclose hend hdepth).map fun l => separate l.items
  rw [Option.map_map] at hlist
  exact hlist

/-- Arguments in parentheses are a trailer. -/
theorem accepts_trailers (left right : Position) (halone : ∀ a ∈ arguments.entries, a.Alone)
    (ht : t.token.opensTrailer = false) (hend : ∃ e ∈ t :: us, e.token = .endOfInput)
    (hdepth : (arguments.tokens ++ ⟨.punctuator .rightParen, right⟩ :: t :: us).length ≤ depth) :
    Accepts (arguments.values?.map fun as => [Trailer.call (separate as).1 (separate as).2])
      (trailers (phrases depth) (phrases depth).rounds)
      (⟨.punctuator .leftParen, left⟩ ::
        (arguments.tokens ++ ⟨.punctuator .rightParen, right⟩ :: t :: us)) (t :: us) := by
  have harguments := finds_arguments halone rfl
    (exists_endOfInput_cons ⟨.punctuator .rightParen, right⟩ hend) hdepth
  obtain ⟨rounds, hrounds⟩ : ∃ r, (phrases depth).rounds = r + 1 := by
    rw [phrases_rounds]
    rw [List.length_append, List.length_cons] at hdepth
    exact ⟨depth - 1, by omega⟩
  rw [hrounds]
  refine RunsOn.eat_bind_ne (by simp) (RunsOn.ite_false ?_)
  refine RunsOn.eat_bind rfl Token.noConfusion (RunsOn.ite_true ?_)
  refine harguments.expect_bind rfl Token.noConfusion (fun lists hlists => ?_) fun hnone _ => ?_
  · refine (reads_no_trailers ht rounds).bind (RunsOn.pure ⟨?_, rfl⟩)
    obtain ⟨as, has, rfl⟩ := Option.map_eq_some_iff.1 hlists
    rw [has, Option.map_some]
  · rw [Option.map_eq_none_iff.1 hnone, Option.map_none]

/-- A name and the arguments behind it are an operand. -/
theorem accepts_call {call : Call} (halone : ∀ a ∈ call.arguments.entries, a.Alone)
    (ht : t.token.opensTrailer = false) (hend : ∃ e ∈ t :: us, e.token = .endOfInput)
    (hdepth : (call.tokens ++ t :: us).length ≤ depth) :
    Accepts (call.arguments.values?.map fun as => call.nodeOf (separate as)) (unary (phrases depth))
      (call.tokens ++ t :: us) (t :: us) := by
  obtain ⟨name, callee, left, arguments, right⟩ := call
  simp only [Call.tokens, List.cons_append, List.append_assoc, List.nil_append,
    List.length_cons] at hdepth ⊢
  have htrailers := accepts_trailers left right halone ht hend
    (Nat.le_of_lt (Nat.lt_of_succ_lt hdepth))
  refine RunsOn.peek_bind (reads_atom_name.bind (htrailers.bind (fun trailer htrailer => ?_) ?_))
  · obtain ⟨as, has, rfl⟩ := Option.map_eq_some_iff.1 htrailer
    exact RunsOn.pure ⟨congrArg (Option.map _) has, rfl⟩
  · exact fun hnone _ => by rw [Option.map_eq_none_iff.1 hnone, Option.map_none]

/-! ### Arguments in order -/

section Order

variable {a b : Argument} {es : List Argument}

theorem Argument.behind?_of_allows (h : a.Allows b) : behind? a.value b = some b.value := by
  cases a with
  | positional item => cases b <;> rfl
  | named name position colon value =>
    cases b with
    | positional item => cases h rfl
    | named => rfl

theorem Argument.behind?_of_not_allows (h : ¬a.Allows b) : behind? a.value b = none := by
  cases a with
  | positional item => exact absurd (fun h => by cases h) h
  | named name position colon value =>
    cases b with
    | positional item => rfl
    | named => exact absurd (fun _ => rfl) h

/-- Only neighbours have to be compared. -/
theorem pairwise_allows_cons_cons : (a :: b :: es).Pairwise Argument.Allows ↔
    a.Allows b ∧ (b :: es).Pairwise Argument.Allows := by
  rw [List.pairwise_cons, List.forall_mem_cons]
  constructor
  · rintro ⟨⟨hab, -⟩, hrest⟩
    exact ⟨hab, hrest⟩
  · rintro ⟨hab, hrest⟩
    exact ⟨⟨hab, fun c hc ha => (List.pairwise_cons.1 hrest).1 c hc (hab ha)⟩, hrest⟩

theorem follow_of_pairwise (h : (a :: es).Pairwise Argument.Allows) :
    follow Argument.behind? a.value es = some (es.map Argument.value) := by
  induction es generalizing a with
  | nil => rfl
  | cons b es ih =>
    obtain ⟨hab, hrest⟩ := pairwise_allows_cons_cons.1 h
    rw [follow_of_some (Argument.behind?_of_allows hab), ih hrest, Option.map_some, List.map_cons]

theorem follow_of_not_pairwise (h : ¬(a :: es).Pairwise Argument.Allows) :
    follow Argument.behind? a.value es = none := by
  induction es generalizing a with
  | nil => exact absurd (List.pairwise_singleton _ a) h
  | cons b es ih =>
    by_cases hab : a.Allows b
    · have hrest : ¬(b :: es).Pairwise Argument.Allows :=
        fun hrest => h (pairwise_allows_cons_cons.2 ⟨hab, hrest⟩)
      rw [follow_of_some (Argument.behind?_of_allows hab), ih hrest, Option.map_none]
    · exact follow_of_none (Argument.behind?_of_not_allows hab)

theorem Arguments.values?_of_ordered {arguments : Arguments} (h : arguments.Ordered) :
    arguments.values? = some (arguments.entries.map Argument.value) := by
  cases arguments with
  | none => rfl
  | some row =>
    rw [values?, Option.elim_some, follow_of_pairwise h]
    rfl

theorem Arguments.values?_of_not_ordered {arguments : Arguments} (h : ¬arguments.Ordered) :
    arguments.values? = none := by
  cases arguments with
  | none => exact absurd List.Pairwise.nil h
  | some row => rw [values?, Option.elim_some, follow_of_not_pairwise h, Option.map_none]

/-- The arguments of either kind keep their order. -/
theorem separate_map_value (es : List Argument) : separate (es.map Argument.value) =
    (es.filterMap Argument.positional?, es.filterMap Argument.keyword?) := by
  induction es with
  | nil => rfl
  | cons e es ih =>
    cases e with
    | positional item =>
      rw [List.map_cons, Argument.value, separate, ih]
      rfl
    | named name position colon value =>
      rw [List.map_cons, Argument.value, separate, ih]
      rfl

end Order

/-- A call as a program is read as its arguments say. -/
theorem parseTokens_of_call {call : Call} (halone : ∀ a ∈ call.arguments.entries, a.Alone)
    (eof : Position) :
    match parseTokens (call.tokens ++ [⟨.endOfInput, eof⟩]) with
    | .ok program => ∃ node, (call.arguments.values?.map fun as => call.nodeOf (separate as)) =
        some node ∧ program = ⟨[node]⟩
    | .error _ => (call.arguments.values?.map fun as => call.nodeOf (separate as)) = none := by
  generalize hts : call.tokens ++ [(⟨.endOfInput, eof⟩ : PlacedToken)] = ts
  have hcall : Accepts (call.arguments.values?.map fun as => call.nodeOf (separate as))
      (unary (phrases ts.length)) ts [⟨.endOfInput, eof⟩] := by
    rw [← hts]
    exact accepts_call halone rfl ⟨_, List.mem_singleton_self _, rfl⟩ (Nat.le_refl _)
  have htokens : ts = ⟨.identifier call.name, call.callee⟩ :: ⟨.punctuator .leftParen, call.left⟩ ::
      (call.arguments.tokens ++ ⟨.punctuator .rightParen, call.right⟩ :: [⟨.endOfInput, eof⟩]) := by
    rw [← hts, Call.tokens, List.cons_append, List.cons_append, List.append_assoc]
    rfl
  have hexpression : Accepts (call.arguments.values?.map fun as => call.nodeOf (separate as))
      (expressionWith (phrases ts.length)) ts [⟨.endOfInput, eof⟩] := by
    rw [htokens] at hcall ⊢
    refine RunsOn.operand_expressionWith rfl (headless_name rfl) ?_ hcall
    rintro _ _ ⟨-, rfl⟩
    exact ⟨_, [], rfl, Token.endsOperation_endOfInput⟩
  exact parseTokens_of_accepts (by rw [← hts]; simp [EndsInput]) ⟨_, _, htokens, rfl⟩ hexpression

/-- **Positional arguments first, then named ones.** A call of a name is accepted if and only if no
positional argument stands behind a named one, and then it has its positional arguments and its named
ones in order. -/
theorem parseTokens_call (call : Call) (halone : ∀ a ∈ call.arguments.entries, a.Alone)
    (eof : Position) :
    (call.arguments.Ordered →
      parseTokens (call.tokens ++ [⟨.endOfInput, eof⟩]) = .ok ⟨[call.node]⟩) ∧
    (¬call.arguments.Ordered →
      ∃ error, parseTokens (call.tokens ++ [⟨.endOfInput, eof⟩]) = .error error) := by
  have hrun := parseTokens_of_call halone eof
  generalize parseTokens (call.tokens ++ [(⟨.endOfInput, eof⟩ : PlacedToken)]) = result at hrun ⊢
  cases result with
  | ok program =>
    obtain ⟨node, hnode, rfl⟩ := hrun
    refine ⟨fun hordered => ?_, fun hordered => ?_⟩
    · rw [Arguments.values?_of_ordered hordered, Option.map_some, separate_map_value] at hnode
      cases hnode
      rfl
    · rw [Arguments.values?_of_not_ordered hordered] at hnode
      cases hnode
  | error e =>
    refine ⟨fun hordered => ?_, fun _ => ⟨e, rfl⟩⟩
    rw [Arguments.values?_of_ordered hordered] at hrun
    cases hrun

/-- A positional argument in front of a named one is accepted, and behind it it is not. -/
theorem parseTokens_call_named :
    parseTokens [⟨.identifier "f", ⟨1, 1, 0⟩⟩, ⟨.punctuator .leftParen, ⟨1, 2, 1⟩⟩,
        ⟨.identifier "a", ⟨1, 3, 2⟩⟩, ⟨.punctuator .comma, ⟨1, 4, 3⟩⟩,
        ⟨.identifier "x", ⟨1, 6, 5⟩⟩, ⟨.punctuator .colon, ⟨1, 7, 6⟩⟩,
        ⟨.identifier "b", ⟨1, 9, 8⟩⟩, ⟨.punctuator .rightParen, ⟨1, 10, 9⟩⟩,
        ⟨.endOfInput, ⟨1, 11, 10⟩⟩] =
      .ok ⟨[⟨.primary ⟨.identifier "f", ⟨1, 1, 0⟩⟩ [.call [⟨.identifier "a", ⟨1, 3, 2⟩⟩]
        [⟨"x", ⟨.identifier "b", ⟨1, 9, 8⟩⟩⟩]], ⟨1, 1, 0⟩⟩]⟩ ∧
    ∃ e, parseTokens [⟨.identifier "f", ⟨1, 1, 0⟩⟩, ⟨.punctuator .leftParen, ⟨1, 2, 1⟩⟩,
        ⟨.identifier "x", ⟨1, 3, 2⟩⟩, ⟨.punctuator .colon, ⟨1, 4, 3⟩⟩,
        ⟨.identifier "b", ⟨1, 6, 5⟩⟩, ⟨.punctuator .comma, ⟨1, 7, 6⟩⟩,
        ⟨.identifier "a", ⟨1, 9, 8⟩⟩, ⟨.punctuator .rightParen, ⟨1, 10, 9⟩⟩,
        ⟨.endOfInput, ⟨1, 11, 10⟩⟩] = .error e := by
  have hname (name : String) (p : Position) :
      Item.Alone ⟨[⟨.identifier name, p⟩], ⟨.identifier name, p⟩⟩ := ⟨.start, _, rfl, rfl⟩
  let positional (p : Position) : Argument :=
    .positional ⟨[⟨.identifier "a", p⟩], ⟨.identifier "a", p⟩⟩
  let named (p colon q : Position) : Argument :=
    .named "x" p colon ⟨[⟨.identifier "b", q⟩], ⟨.identifier "b", q⟩⟩
  refine ⟨(parseTokens_call ⟨"f", ⟨1, 1, 0⟩, ⟨1, 2, 1⟩,
      some ⟨positional ⟨1, 3, 2⟩, [(⟨1, 4, 3⟩, named ⟨1, 6, 5⟩ ⟨1, 7, 6⟩ ⟨1, 9, 8⟩)]⟩, ⟨1, 10, 9⟩⟩
      (List.forall_mem_cons.2 ⟨hname _ _, List.forall_mem_singleton.2 (hname _ _)⟩) ⟨1, 11, 10⟩).1 ?_,
    (parseTokens_call ⟨"f", ⟨1, 1, 0⟩, ⟨1, 2, 1⟩,
      some ⟨named ⟨1, 3, 2⟩ ⟨1, 4, 3⟩ ⟨1, 6, 5⟩, [(⟨1, 7, 6⟩, positional ⟨1, 9, 8⟩)]⟩, ⟨1, 10, 9⟩⟩
      (List.forall_mem_cons.2 ⟨hname _ _, List.forall_mem_singleton.2 (hname _ _)⟩) ⟨1, 11, 10⟩).2 ?_⟩
  · exact pairwise_allows_cons_cons.2 ⟨fun _ => rfl, List.pairwise_singleton _ _⟩
  · intro hordered
    have hnamed := (pairwise_allows_cons_cons.1 hordered).1 rfl
    cases hnamed

end DrakeSyntax
