import DrakeSyntax.Proofs.Separators.Commas
import DrakeSyntax.Proofs.Separators.Key

/-!
# Mappings and blocks

Elements in braces are pairs of a key and a value or single expressions. Between commas they are read
as a mapping if all of them are pairs and as a block if all of them are single; anything else is
rejected (`parseTokens_braces`). The colon behind the first key decides which of the two is read.

A key may be any expression, also a typed name that the head of a lambda could take for a parameter
with a value (`Item.Alone.reads_key`).
-/

namespace DrakeSyntax

open DrakeSyntax.Parser

/-- What stands between two commas in braces. -/
inductive Element where
  | single (item : Item)
  | pair (key : Item) (colon : Position) (value : Item)

namespace Element

def tokens : Element → List PlacedToken
  | single item => item.tokens
  | pair key colon value => key.tokens ++ ⟨.punctuator .colon, colon⟩ :: value.tokens

/-- The items of the element are expressions by themselves. -/
def Alone : Element → Prop
  | single item => item.Alone
  | pair key _ value => key.Alone ∧ value.Alone

/-- The expression of a block that the element is. -/
def node? : Element → Option Node
  | single item => some item.node
  | pair _ _ _ => none

/-- The pair of a mapping that the element is. -/
def pair? : Element → Option Pair
  | single _ => none
  | pair key _ value => some ⟨key.node, value.node⟩

variable {e : Element} {depth : Nat} {w : List PlacedToken}

theorem Alone.opens (h : e.Alone) :
    ∃ t ts, e.tokens = t :: ts ∧ t.token.separates = false ∧ t.token.continues = false := by
  cases e with
  | single item => exact Item.Alone.opens h
  | pair key colon value =>
    obtain ⟨t, ts, htokens, ht⟩ := Item.Alone.opens h.1
    exact ⟨t, _, by rw [tokens, htokens, List.cons_append], ht⟩

/-- Of a pair, an expression reads the key. -/
theorem Alone.finds_node (h : e.Alone) (hw : EndsItem w) (hdepth : (e.tokens ++ w).length ≤ depth) :
    Finds e.node? (phrases depth).expression (e.tokens ++ w) w := by
  cases e with
  | single item => exact .of_reads (Item.Alone.reads h hw hdepth)
  | pair key colon value =>
    rw [tokens, List.append_assoc, List.cons_append] at hdepth ⊢
    refine (Item.Alone.reads_key h.1 h.2 hw hdepth).weaken ?_ fun _ => False.elim
    rintro _ _ ⟨-, rfl⟩
    exact .inr ⟨rfl, _, _, rfl, rfl⟩

/-- Behind a single expression there is no colon. -/
theorem Alone.finds_pair (h : e.Alone) (hw : EndsItem w) (hdepth : (e.tokens ++ w).length ≤ depth) :
    Finds e.pair? (Parser.pair (phrases depth)) (e.tokens ++ w) w := by
  cases e with
  | single item =>
    obtain ⟨t, us, rfl, hseparates⟩ := hw.exists_cons
    refine .of_fails ((Item.Alone.reads h hw hdepth).bind (RunsOn.discard_bind ?_))
    exact RunsOn.expect_bind_ne (Token.ne_of_apply hseparates rfl) fun _ => trivial
  | pair key colon value =>
    rw [tokens, List.append_assoc, List.cons_append] at hdepth ⊢
    refine .of_reads ((Item.Alone.reads_key h.1 h.2 hw hdepth).bind ?_)
    refine RunsOn.discard_bind (RunsOn.expect_bind rfl Token.noConfusion ?_)
    refine (Item.Alone.reads h.2 hw ?_).bind (RunsOn.pure ⟨rfl, rfl⟩)
    rw [List.length_append, List.length_cons] at hdepth
    omega

end Element

variable {elements : Row Element} {left right eof : Position} {depth : Nat} {w : List PlacedToken}

/-- What the elements in braces are read as, if all of them go with the first one. -/
def braces? (left : Position) (elements : Row Element) : Option Node :=
  match elements.first with
  | .single item =>
    (follow (fun _ => Element.node?) item.node (elements.more.map (·.2))).map fun nodes =>
      ⟨.block (item.node :: nodes), left⟩
  | .pair key _ value =>
    (follow (fun _ => Element.pair?) ⟨key.node, value.node⟩ (elements.more.map (·.2))).map fun pairs =>
      ⟨.mapping (⟨key.node, value.node⟩ :: pairs), left⟩

/-- The elements behind the first one are read as of one kind. -/
theorem finds_elements {α : Type} {kind? : Element → Option α} {q : Parser α}
    {more : List (Position × Element)} {close : PlacedToken} (last : α)
    (hq : ∀ {e : Element} {w : List PlacedToken}, e.Alone → EndsItem w →
      (e.tokens ++ w).length ≤ depth → Finds (kind? e) q (e.tokens ++ w) w)
    (hmore : ∀ m ∈ more, m.2.Alone) (hclose : close.token.closesList)
    (hend : ∃ e ∈ close :: w, e.token = .endOfInput)
    (hdepth : (commaBehind Element.tokens more ++ close :: w).length ≤ depth) :
    Finds ((follow (fun _ => kind?) last (more.map (·.2))).map fun as => ⟨last :: as, false⟩)
      (listBehind (phrases depth).rounds last q) (commaBehind Element.tokens more ++ close :: w)
      (close :: w) :=
  finds_listFrom_phrases last (fun m hm => ⟨(hmore m hm).opens, fun _ _ => hq (hmore m hm)⟩) hclose
    hend hdepth

/-- **The first element decides how those behind it are read.** -/
theorem accepts_brace (halone : ∀ e ∈ elements.entries, e.Alone)
    (hend : ∃ e ∈ w, e.token = .endOfInput)
    (hdepth : (elements.tokens Element.tokens ++ ⟨.punctuator .rightBrace, right⟩ :: w).length ≤ depth) :
    Accepts (braces? left elements) (brace (phrases depth))
      (⟨.punctuator .leftBrace, left⟩ ::
        (elements.tokens Element.tokens ++ ⟨.punctuator .rightBrace, right⟩ :: w)) w := by
  obtain ⟨first, more⟩ := elements
  obtain ⟨hfirst, hothers⟩ := List.forall_mem_cons.1 halone
  have hmore : ∀ m ∈ more, m.2.Alone := fun m hm => hothers _ (List.mem_map_of_mem hm)
  have hends := exists_endOfInput_cons ⟨.punctuator .rightBrace, right⟩ hend
  have hbehind : EndsItem (commaBehind Element.tokens more ++ ⟨.punctuator .rightBrace, right⟩ :: w) :=
    endsItem_commaBehind rfl hends
  simp only [Row.tokens, List.append_assoc] at hdepth ⊢
  have hdepth' : (commaBehind Element.tokens more ++ ⟨.punctuator .rightBrace, right⟩ :: w).length ≤
      depth := Nat.le_trans (by simp) hdepth
  -- no line break and no closing brace is in front of the first element
  obtain ⟨t, ts, htokens, hseparates, -⟩ := hfirst.opens
  refine RunsOn.expect_bind rfl Token.noConfusion (RunsOn.discard_bind ?_)
  rw [htokens, List.cons_append]
  refine RunsOn.eat_bind_ne (Token.ne_of_apply hseparates rfl) ?_
  refine RunsOn.eat_bind_ne (Token.ne_of_apply hseparates rfl) (RunsOn.ite_false ?_)
  rw [← List.cons_append, ← htokens]
  cases first with
  | single item =>
    have hitems := (finds_elements item.node Element.Alone.finds_node hmore rfl hends hdepth').closed rfl
      Token.noConfusion fun l => (⟨.block l.items, left⟩ : Node)
    obtain ⟨u, us, hu, hcolon⟩ := hbehind.exists_cons
    refine (Item.Alone.reads hfirst hbehind hdepth).bind ?_
    rw [hu] at hitems ⊢
    refine RunsOn.eat_bind_ne (Token.ne_of_apply hcolon rfl) (RunsOn.ite_false ?_)
    rw [Option.map_map] at hitems
    exact hitems
  | pair key colon value =>
    have hpairs := (finds_elements ⟨key.node, value.node⟩ Element.Alone.finds_pair hmore rfl hends
      hdepth').closed rfl Token.noConfusion fun l => (⟨.mapping l.items, left⟩ : Node)
    rw [Element.tokens, List.append_assoc, List.cons_append] at hdepth ⊢
    refine (Item.Alone.reads_key hfirst.1 hfirst.2 hbehind hdepth).bind ?_
    refine RunsOn.eat_bind rfl Token.noConfusion (RunsOn.ite_true ?_)
    refine (Item.Alone.reads hfirst.2 hbehind ?_).bind ?_
    · rw [List.length_append, List.length_cons] at hdepth
      omega
    · rw [Option.map_map] at hpairs
      exact hpairs

/-! ### Elements of one kind -/

theorem braces?_of_pairs (h : ∀ e ∈ elements.entries, e.pair?.isSome) :
    braces? left elements = some ⟨.mapping (elements.entries.filterMap Element.pair?), left⟩ := by
  obtain ⟨first, more⟩ := elements
  obtain ⟨hfirst, hmore⟩ := List.forall_mem_cons.1 h
  cases first with
  | single item => cases hfirst
  | pair key colon value =>
    simp only [braces?, follow_of_forall hmore]
    rfl

theorem braces?_of_singles (h : ∀ e ∈ elements.entries, e.node?.isSome) :
    braces? left elements = some ⟨.block (elements.entries.filterMap Element.node?), left⟩ := by
  obtain ⟨first, more⟩ := elements
  obtain ⟨hfirst, hmore⟩ := List.forall_mem_cons.1 h
  cases first with
  | single item =>
    simp only [braces?, follow_of_forall hmore]
    rfl
  | pair key colon value => cases hfirst

/-- Behind a first element of one kind, an element of the other kind stands for nothing. -/
theorem braces?_of_mixed (hpair : ∃ e ∈ elements.entries, e.node? = none)
    (hsingle : ∃ e ∈ elements.entries, e.pair? = none) : braces? left elements = none := by
  obtain ⟨first, more⟩ := elements
  cases first with
  | single item =>
    have hmore : ∃ e ∈ more.map (·.2), e.node? = none := by
      simpa [Row.entries, Element.node?] using hpair
    simp only [braces?, follow_of_exists hmore, Option.map_none]
  | pair key colon value =>
    have hmore : ∃ e ∈ more.map (·.2), e.pair? = none := by
      simpa [Row.entries, Element.pair?] using hsingle
    simp only [braces?, follow_of_exists hmore, Option.map_none]

/-- Braces as a program are read as the elements in them say. -/
theorem parseTokens_of_braces (halone : ∀ e ∈ elements.entries, e.Alone) (left right eof : Position) :
    match parseTokens ((Surroundings.braces left right).around (elements.tokens Element.tokens) ++
      [⟨.endOfInput, eof⟩]) with
    | .ok program => ∃ node, braces? left elements = some node ∧ program = ⟨[node]⟩
    | .error _ => braces? left elements = none := by
  generalize hts : (Surroundings.braces left right).around (elements.tokens Element.tokens) ++
    [(⟨.endOfInput, eof⟩ : PlacedToken)] = ts
  have htokens : ts = ⟨.punctuator .leftBrace, left⟩ :: (elements.tokens Element.tokens ++
      ⟨.punctuator .rightBrace, right⟩ :: [⟨.endOfInput, eof⟩]) := by
    rw [← hts, Surroundings.around, List.cons_append, List.append_assoc]
    rfl
  have hatom : Accepts (braces? left elements) (atom (phrases ts.length)) ts
      [⟨.endOfInput, eof⟩] := by
    rw [htokens]
    exact RunsOn.peek_bind (accepts_brace halone ⟨_, List.mem_singleton_self _, rfl⟩ (Nat.le_succ _))
  have hexpression : Accepts (braces? left elements) (expressionWith (phrases ts.length)) ts
      [⟨.endOfInput, eof⟩] := by
    rw [htokens] at hatom ⊢
    exact RunsOn.atom_expressionWith (fun _ _ h => h.2) rfl rfl
      (Opening.headless (.plain rfl rfl rfl)) hatom
  exact parseTokens_of_accepts (by rw [← hts]; simp [EndsInput]) ⟨_, _, htokens, rfl⟩ hexpression

/-- **A brace is all pairs or all expressions.** Elements with commas between them are accepted in
braces if and only if all of them are pairs or all of them are single expressions. -/
theorem parseTokens_braces (elements : Row Element) (halone : ∀ e ∈ elements.entries, e.Alone)
    (left right eof : Position) :
    ((∀ e ∈ elements.entries, e.pair?.isSome) →
      parseTokens ((Surroundings.braces left right).around (elements.tokens Element.tokens) ++
        [⟨.endOfInput, eof⟩]) =
        .ok ⟨[⟨.mapping (elements.entries.filterMap Element.pair?), left⟩]⟩) ∧
    ((∀ e ∈ elements.entries, e.node?.isSome) →
      parseTokens ((Surroundings.braces left right).around (elements.tokens Element.tokens) ++
        [⟨.endOfInput, eof⟩]) =
        .ok ⟨[⟨.block (elements.entries.filterMap Element.node?), left⟩]⟩) ∧
    (¬(∀ e ∈ elements.entries, e.pair?.isSome) → ¬(∀ e ∈ elements.entries, e.node?.isSome) →
      ∃ error, parseTokens ((Surroundings.braces left right).around (elements.tokens Element.tokens) ++
        [⟨.endOfInput, eof⟩]) = .error error) := by
  have hrun := parseTokens_of_braces halone left right eof
  generalize parseTokens ((Surroundings.braces left right).around (elements.tokens Element.tokens) ++
    [(⟨.endOfInput, eof⟩ : PlacedToken)]) = result at hrun ⊢
  cases result with
  | ok program =>
    obtain ⟨node, hnode, rfl⟩ := hrun
    refine ⟨fun hpairs => ?_, fun hsingles => ?_, fun hpairs hsingles => ?_⟩
    · rw [braces?_of_pairs hpairs] at hnode
      cases hnode
      rfl
    · rw [braces?_of_singles hsingles] at hnode
      cases hnode
      rfl
    · rw [braces?_of_mixed (by simpa using hsingles) (by simpa using hpairs)] at hnode
      cases hnode
  | error e =>
    refine ⟨fun hpairs => ?_, fun hsingles => ?_, fun _ _ => ⟨e, rfl⟩⟩
    · rw [braces?_of_pairs hpairs] at hrun
      cases hrun
    · rw [braces?_of_singles hsingles] at hrun
      cases hrun

/-- The key may be a declaration, and a pair does not go with a single expression. -/
theorem parseTokens_braces_declaration :
    parseTokens [⟨.punctuator .leftBrace, ⟨1, 1, 0⟩⟩, ⟨.punctuator .less, ⟨1, 2, 1⟩⟩,
        ⟨.identifier "T", ⟨1, 3, 2⟩⟩, ⟨.punctuator .greater, ⟨1, 4, 3⟩⟩,
        ⟨.identifier "x", ⟨1, 6, 5⟩⟩, ⟨.punctuator .colon, ⟨1, 7, 6⟩⟩,
        ⟨.identifier "a", ⟨1, 9, 8⟩⟩, ⟨.punctuator .rightBrace, ⟨1, 10, 9⟩⟩,
        ⟨.endOfInput, ⟨1, 11, 10⟩⟩] =
      .ok ⟨[⟨.mapping [⟨⟨.declaration ⟨false, ⟨"T", [], ⟨1, 3, 2⟩⟩, "x"⟩, ⟨1, 2, 1⟩⟩,
        ⟨.identifier "a", ⟨1, 9, 8⟩⟩⟩], ⟨1, 1, 0⟩⟩]⟩ ∧
    ∃ e, parseTokens [⟨.punctuator .leftBrace, ⟨1, 1, 0⟩⟩, ⟨.punctuator .less, ⟨1, 2, 1⟩⟩,
        ⟨.identifier "T", ⟨1, 3, 2⟩⟩, ⟨.punctuator .greater, ⟨1, 4, 3⟩⟩,
        ⟨.identifier "x", ⟨1, 6, 5⟩⟩, ⟨.punctuator .colon, ⟨1, 7, 6⟩⟩,
        ⟨.identifier "a", ⟨1, 9, 8⟩⟩, ⟨.punctuator .comma, ⟨1, 10, 9⟩⟩,
        ⟨.identifier "a", ⟨1, 12, 11⟩⟩, ⟨.punctuator .rightBrace, ⟨1, 13, 12⟩⟩,
        ⟨.endOfInput, ⟨1, 14, 13⟩⟩] = .error e := by
  let key : Item := ⟨[⟨.punctuator .less, ⟨1, 2, 1⟩⟩, ⟨.identifier "T", ⟨1, 3, 2⟩⟩,
    ⟨.punctuator .greater, ⟨1, 4, 3⟩⟩, ⟨.identifier "x", ⟨1, 6, 5⟩⟩],
    ⟨.declaration ⟨false, ⟨"T", [], ⟨1, 3, 2⟩⟩, "x"⟩, ⟨1, 2, 1⟩⟩⟩
  have hkey : key.Alone := ⟨.start, _, rfl, rfl⟩
  have hname (p : Position) : Item.Alone ⟨[⟨.identifier "a", p⟩], ⟨.identifier "a", p⟩⟩ :=
    ⟨.start, _, rfl, rfl⟩
  let pair : Element := .pair key ⟨1, 7, 6⟩ ⟨[⟨.identifier "a", ⟨1, 9, 8⟩⟩], ⟨.identifier "a", ⟨1, 9, 8⟩⟩⟩
  let single : Element := .single ⟨[⟨.identifier "a", ⟨1, 12, 11⟩⟩], ⟨.identifier "a", ⟨1, 12, 11⟩⟩⟩
  have hpair : pair.Alone := ⟨hkey, hname _⟩
  refine ⟨(parseTokens_braces ⟨pair, []⟩ (List.forall_mem_singleton.2 hpair) ⟨1, 1, 0⟩ ⟨1, 10, 9⟩
      ⟨1, 11, 10⟩).1 ?_,
    (parseTokens_braces ⟨pair, [(⟨1, 10, 9⟩, single)]⟩
      (List.forall_mem_cons.2 ⟨hpair, List.forall_mem_singleton.2 (hname _)⟩) ⟨1, 1, 0⟩ ⟨1, 13, 12⟩
      ⟨1, 14, 13⟩).2.2 ?_ ?_⟩
  · simp [Row.entries, pair, Element.pair?]
  · simp [Row.entries, pair, single, Element.pair?]
  · simp [Row.entries, pair, single, Element.node?]

end DrakeSyntax
