import DrakeSyntax.Proofs.Layout
import DrakeSyntax.Proofs.Leading
import DrakeSyntax.Proofs.Separators.Surroundings

/-!
# A phrase in brackets that is no range

What stands in brackets is read as an operand first, since it may be the start of a range. If it is
not, the operand is kept as the first item of a list where the item ends behind it, though items are
expressions. Nothing is lost by that: apart from ranges a phrase in brackets is read as lists are
read anywhere else, whatever its first item is (`ParserState.Among.ending_bracket`).
-/

namespace DrakeSyntax

open DrakeSyntax.Parser

/-- A list in brackets, read without a look at what it begins with. -/
def Parser.bracketList (g : Inner) : Parser Node := do
  let position ← expect (.punctuator .leftBracket)
  bracketItems position (list g.rounds g.expression)

/-- A bracketed phrase from its first item on, behind the bracket and a line break. -/
def Parser.bracketRest (g : Inner) (position : Position) : Parser Node := do
  let start ← mark
  if (← peek).token.closesList then bracketItems position (list g.rounds g.expression)
  else
    match ← attempt g.unary with
    | .error _ => bracketItems position (list g.rounds g.expression)
    | .ok first =>
      if ← eat (.punctuator .dotDot) then rangeBehind g first position
      else if ← isAtItemEnd then bracketItems position (listBehind g.rounds first g.expression)
      else
        reset start
        bracketItems position (list g.rounds g.expression)

variable {g : Inner} {w : Walk} {s r : ParserState} {ts : List PlacedToken} {n m : Nat}

section Endings

variable {α : Type} {p : Parser α}

/-- What is remembered does not matter for what a parser comes to that agrees with itself. -/
theorem Agree.ending_eq (h : Agree w n m p p) (hempty : w.table ∅) (hs : s.cursor.On w)
    (hn : s.cursor.rest.length ≤ n) (hcursor : r.cursor = s.cursor) :
    ending (p r) = ending (p s) := by
  obtain ⟨c, b⟩ := s
  obtain ⟨c', b'⟩ := r
  obtain rfl : c' = c := hcursor
  have hfresh := (h c' ∅ b' hs hn hempty).ending_eq
  exact hfresh.symm.trans (h c' ∅ b hs hn hempty).ending_eq

/-- Behind a line break that is taken none is left to take. -/
theorem list_pastBreak (rounds : Nat) (item : Parser α)
    (h : s.cursor.pastBreak.current.token ≠ .newline) :
    list rounds item s = list rounds item { s with cursor := s.cursor.pastBreak } := by
  obtain ⟨found, hbreak⟩ := eat_newline_run s
  have hnone : eat .newline { s with cursor := s.cursor.pastBreak } =
      .ok false { s with cursor := s.cursor.pastBreak } := eat_of_ne h
  change (discard (eat .newline) >>= _) s = (discard (eat .newline) >>= _) _
  rw [discard_bind, bind_of_ok hbreak, bind_of_ok hnone]

/-- A list that does not begin with a line break and is not closed at once has a first item. -/
theorem list_run (rounds : Nat) (item : Parser α) (hbreak : s.cursor.current.token ≠ .newline)
    (hcloses : ¬s.cursor.current.token.closesList) :
    list rounds item s = (item >>= fun first => listBehind rounds first item) s := by
  change (discard (eat .newline) >>= _) s = _
  rw [discard_bind, bind_of_ok (eat_of_ne hbreak),
    bind_of_ok (rfl : peek s = .ok s.cursor.current s), if_neg hcloses]
  rfl

end Endings

/-- The end of the input is ahead of every cursor on a walk. -/
theorem Cursor.On.ended {c : Cursor} (hc : c.On w) : c.Ended := by
  refine ⟨_, ?_, w.token_finish⟩
  rw [hc.rest, List.mem_iff_getElem]
  have hfinish := w.finish_lt
  have hle := hc.le_finish
  refine ⟨w.finish - c.index, by rw [List.length_drop]; omega, ?_⟩
  simp only [List.getElem_drop, List.get_eq_getElem, Nat.add_sub_cancel' hle]

theorem Cursor.On.pastBreak {c : Cursor} (hc : c.On w) : c.pastBreak.On w := by
  unfold Cursor.pastBreak
  split
  · exact hc.advance
  · exact hc

theorem Cursor.On.pastBreak_length_le {c : Cursor} (hc : c.On w) :
    c.pastBreak.rest.length ≤ c.rest.length := by
  unfold Cursor.pastBreak
  split
  · exact hc.advance_length_le
  · exact Nat.le_refl _

theorem Token.ne_endOfInput_of_closesList {t : Token} (h : ¬t.closesList) : t ≠ .endOfInput := by
  rintro rfl
  exact h rfl

theorem bracketContents_run (hopen : s.cursor.current.token = .punctuator .leftBracket) :
    bracketContents g s = bracketRest g s.cursor.current.position
      { s with cursor := s.cursor.advance.pastBreak } := by
  obtain ⟨found, hfound⟩ := eat_newline_run { s with cursor := s.cursor.advance }
  unfold bracketContents
  rw [bind_of_ok (expect_of_eq hopen), discard_bind, bind_of_ok hfound]
  rfl

theorem bracketList_run (hopen : s.cursor.current.token = .punctuator .leftBracket)
    (hbreak : s.cursor.advance.pastBreak.current.token ≠ .newline) :
    bracketList g s = bracketItems s.cursor.current.position (list g.rounds g.expression)
      { s with cursor := s.cursor.advance.pastBreak } := by
  rw [bracketList, bind_of_ok (expect_of_eq hopen)]
  simp only [bracketItems, Bind.bind, EStateM.bind]
  rw [list_pastBreak (s := { s with cursor := s.cursor.advance }) _ _ hbreak]

section Contents

variable (hsteady : g.SteadyAlone) (hg : g.deepen.Alike w n g.deepen) (hempty : w.table ∅)

include hsteady hg hempty

/-- An operand with the end of an item behind it is the first item that a list has there. -/
theorem ending_listBehind {node : Node} (position : Position) (hs : s.cursor.On w)
    (hn : s.cursor.rest.length ≤ n) (hbreak : s.cursor.current.token ≠ .newline)
    (hcloses : ¬s.cursor.current.token.closesList) (hunary : unary g s = .ok node r)
    (hstop : r.cursor.current.token.endsBracketItem) :
    ending (bracketItems position (listBehind g.deepen.rounds node g.deepen.expression) r) =
      ending (bracketItems position (list g.deepen.rounds g.deepen.expression) s) := by
  have htokens := tokens_of_current rfl (Token.ne_endOfInput_of_closesList hcloses)
  have hended : .endOfInput ∈ ParserState.tokens { s with cursor := s.cursor.advance } :=
    ended_iff.1 hs.advance.ended
  obtain ⟨r', hexpression, hcursor⟩ := expressionWith_of_unary hsteady htokens hended hunary
    (Token.endsOperation_of_endsBracketItem hstop)
  have hlist : list g.deepen.rounds g.deepen.expression s =
      listBehind g.deepen.rounds node g.deepen.expression r' := by
    rw [list_run _ _ hbreak hcloses]
    exact bind_of_ok hexpression
  have hitems : ending (bracketItems position (list g.deepen.rounds g.deepen.expression) s) =
      ending (bracketItems position (listBehind g.deepen.rounds node g.deepen.expression) r') := by
    simp only [bracketItems, Bind.bind, EStateM.bind, hlist]
  -- the two lists go on from the same cursor, with something else remembered at most
  have hagree : Agree w n n
      (bracketItems position (listBehind g.deepen.rounds node g.deepen.expression))
      (bracketItems position (listBehind g.deepen.rounds node g.deepen.expression)) :=
    agree_bracketItems position (agree_listBehind node hg.expression hg.rounds hg.rounds')
  have htaken := hg.unary.weak s.cursor ∅ s.brackets hs hn hempty
  change Alike w n _ (unary g s) at htaken
  rw [hunary] at htaken
  generalize g.deepen.unary ⟨s.cursor, ∅⟩ = fresh at htaken
  rw [hitems]
  cases htaken with
  | ok _ on room => exact (hagree.ending_eq hempty on room hcursor).symm

/-- From the first item on, a bracketed phrase that is no range comes to what a list comes to. -/
theorem ending_bracketRest (position : Position) (hs : s.cursor.On w)
    (hn : s.cursor.rest.length ≤ n) (hbreak : s.cursor.current.token ≠ .newline)
    (hdots : ∀ node r, unary g s = .ok node r → r.cursor.current.token ≠ .punctuator .dotDot) :
    ending (bracketRest g.deepen position s) =
      ending (bracketItems position (list g.deepen.rounds g.deepen.expression) s) := by
  -- a list that is read anew is read from the same cursor, whatever the operand left remembered
  have hanew {r : ParserState} (hr : r.cursor = s.cursor) :
      ending (bracketItems position (list g.deepen.rounds g.deepen.expression) r) =
        ending (bracketItems position (list g.deepen.rounds g.deepen.expression) s) :=
    Agree.ending_eq (agree_bracketItems position
      (agree_list hg.expression hg.rounds hg.rounds')) hempty hs hn hr
  unfold bracketRest
  rw [bind_of_ok (rfl : mark s = .ok s.cursor s),
    bind_of_ok (rfl : peek s = .ok s.cursor.current s)]
  by_cases hcloses : s.cursor.current.token.closesList
  · rw [if_pos hcloses]
  rw [if_neg hcloses]
  change ending ((attempt (unary g) >>= _) s) = _
  cases hunary : unary g s with
  | error e r =>
    rw [bind_of_ok (attempt_of_error hunary)]
    exact hanew rfl
  | ok node r =>
    rw [bind_of_ok (attempt_of_ok hunary)]
    simp only
    rw [bind_of_ok (eat_of_ne (hdots node r hunary)), if_neg Bool.false_ne_true,
      bind_of_ok (isAtItemEnd_eq r)]
    cases hstop : r.cursor.current.token.endsBracketItem with
    | true => exact ending_listBehind hsteady hg hempty position hs hn hbreak hcloses hunary hstop
    | false =>
      rw [if_neg Bool.false_ne_true]
      exact hanew (r := { r with cursor := s.cursor }) rfl

/-- **A bracketed phrase that is no range is a list in brackets.** -/
theorem ending_bracketContents (hs : s.cursor.On w) (hn : s.cursor.rest.length ≤ n + 1)
    (hopen : s.cursor.current.token = .punctuator .leftBracket)
    (hbreak : s.cursor.advance.pastBreak.current.token ≠ .newline)
    (hdots : ∀ node r, unary g { s with cursor := s.cursor.advance.pastBreak } = .ok node r →
      r.cursor.current.token ≠ .punctuator .dotDot) :
    ending (bracketContents g.deepen s) = ending (bracketList g.deepen s) := by
  rw [bracketContents_run hopen, bracketList_run hopen hbreak]
  have hlength := hs.advance_length (by rw [hopen]; exact Token.noConfusion)
  have hle := hs.advance.pastBreak_length_le
  have hroom : s.cursor.advance.pastBreak.rest.length ≤ n := by omega
  exact ending_bracketRest hsteady hg hempty _ hs.advance.pastBreak hroom hbreak hdots

end Contents

theorem isChain_apart_closeTokens (hts : ts.IsChain Apart) : (closeTokens ts).IsChain Apart := by
  rcases closeTokens_cases ts with ⟨hclosed, -⟩ | ⟨p, hclosed⟩
  · rwa [hclosed]
  · rw [hclosed]
    exact hts.append (.singleton _) fun t _ u hu hapart => by
      rw [Option.mem_def, List.head?_cons] at hu
      cases hu
      cases hapart.2

/-- No line break comes behind another one. -/
theorem Cursor.pastBreak_ne {c : Cursor} (hc : c.rest.IsChain Apart) :
    c.pastBreak.current.token ≠ .newline := by
  unfold pastBreak
  split
  · next hbreak =>
    obtain ⟨index, rest⟩ := c
    match rest with
    | [] => cases hbreak
    | t :: us =>
      have ht : t.token = .newline := hbreak
      have hadvance : Cursor.advance ⟨index, t :: us⟩ = ⟨index + 1, us⟩ := if_neg (by simp [ht])
      rw [hadvance]
      cases us with
      | nil => exact Token.noConfusion
      | cons u us => exact fun hu => (List.isChain_cons_cons.1 hc).1 ⟨ht, hu⟩
  · assumption

theorem ParserState.Among.isChain_advance (hs : s.Among ts) (hts : ts.IsChain Apart) :
    s.cursor.advance.rest.IsChain Apart := by
  have hrest := (hs.on.advance.among hs.faithful).rest
  simp only at hrest
  rw [hrest]
  exact (isChain_apart_closeTokens hts).suffix (List.drop_suffix ..)

/-- **Apart from ranges, brackets hold what a list holds.** At an opening bracket, where no line
break comes behind another one, a bracketed phrase comes to the same as a list of expressions
between brackets, and leaves the same cursor, also if it fails; unless two dots follow the operand
that is read behind the bracket and a line break. It does not matter how deep phrases may nest,
once they may nest as deep as there are tokens ahead, nor what is remembered. -/
theorem ParserState.Among.ending_bracket (hs : s.Among ts) (hts : ts.IsChain Apart)
    (hopen : s.cursor.current.token = .punctuator .leftBracket) (floor : Inner) {depth : Nat}
    (hdepth : s.cursor.rest.length ≤ depth)
    (hdots : ∀ node r,
      (floor.nest depth).unary { s with cursor := s.cursor.advance.pastBreak } = .ok node r →
        r.cursor.current.token ≠ .punctuator .dotDot) :
    ending (bracket (floor.nest depth) s) = ending (bracketList (floor.nest depth) s) := by
  obtain ⟨n, hn⟩ : ∃ n, s.cursor.rest.length = n + 1 :=
    ⟨s.cursor.rest.length - 1, by have := hs.on.length_pos; omega⟩
  -- both agree with phrases that remember nothing and nest just as deep as it takes
  have hagree := hs.agree_nest floor hdepth
  have hself := hs.agree_nest (.none false) (Nat.le_refl s.cursor.rest.length)
  rw [hn] at hagree hself
  have hlist : Agree (.onwards ts s.cursor.index hs.index_lt) (n + 1) (n + 1)
      (bracketList (floor.nest depth)) (bracketList (phrases n).deepen) :=
    (takes_expect Token.noConfusion).weak.bind fun position =>
      agree_bracketItems position (agree_list hagree.expression hagree.rounds hagree.rounds')
  have hbracket := (hagree.bracket.mono (Nat.le_succ _)).weak
  have hforgetful : bracket ((Inner.none false).nest (n + 1)) = bracketContents (phrases n).deepen :=
    bracket_forgetful rfl (n + 1)
  rw [hforgetful] at hbracket
  have hleft := (hbracket s.cursor s.brackets ∅ hs.on hn.le hs.faithful).ending_eq
  have hright := (hlist s.cursor s.brackets ∅ hs.on hn.le hs.faithful).ending_eq
  refine hleft.trans (Eq.trans ?_ hright.symm)
  refine ending_bracketContents (s := ⟨s.cursor, ∅⟩) (steadyAlone_phrases n) hself.toAlike
    (faithful_empty _) hs.on (hn.le.trans (Nat.le_succ _)) hopen
    (Cursor.pastBreak_ne (hs.isChain_advance hts)) fun node r hunary => ?_
  have hroom := hs.on.advance_length_le.trans hn.le
  have hoperand := (hagree.unary.weak s.cursor.advance.pastBreak s.brackets ∅
    hs.on.advance.pastBreak (hs.on.advance.pastBreak_length_le.trans hroom) hs.faithful).ending_eq
  obtain ⟨r', hunary', hcursor⟩ := ok_of_ending_eq hoperand.symm hunary
  exact hcursor ▸ hdots node r' hunary'

/-- In `[a, c]` the operand `a` behind the bracket is the first item, and the list goes on behind it.
In `[a + b, c]` it is not; the first item is read anew. -/
theorem ParserState.Among.ending_bracket_sum :
    (∃ s : ParserState, s.cursor.current.token = .punctuator .leftBracket ∧
      ending (bracketList (s.cursor.phrases true) s) =
        (.ok ⟨.list (.items [⟨.identifier "a", .start⟩, ⟨.identifier "c", .start⟩]), .start⟩,
          ⟨5, [⟨.endOfInput, .start⟩]⟩)) ∧
    ∃ s : ParserState, s.cursor.current.token = .punctuator .leftBracket ∧
      ending (bracketList (s.cursor.phrases true) s) =
        (.ok ⟨.list (.items [⟨.binary .add [⟨.identifier "a", .start⟩, ⟨.identifier "b", .start⟩],
            .start⟩, ⟨.identifier "c", .start⟩]), .start⟩, ⟨7, [⟨.endOfInput, .start⟩]⟩) := by
  -- behind the operand stand no two dots
  have hlist {ts : List PlacedToken} (depth : Nat) (hapart : ts.IsChain Apart)
      (hopen : (ParserState.ofTokens ts).cursor.current.token = .punctuator .leftBracket)
      (hdepth : (ParserState.ofTokens ts).cursor.rest.length ≤ depth)
      (hoperand : ∃ s', ((Inner.none true).nest depth).unary
        { ParserState.ofTokens ts with
          cursor := (ParserState.ofTokens ts).cursor.advance.pastBreak } =
            .ok ⟨.identifier "a", .start⟩ s' ∧ s'.cursor.current.token ≠ .punctuator .dotDot) :
      ending (bracketList ((Inner.none true).nest depth) (.ofTokens ts)) =
        ending (bracket ((Inner.none true).nest depth) (.ofTokens ts)) := by
    refine ((ofTokens ts).ending_bracket hapart hopen (.none true) hdepth
      fun node r hunary => ?_).symm
    obtain ⟨s', hname, hdots⟩ := hoperand
    rw [hname] at hunary
    cases hunary
    exact hdots
  constructor
  · let ts : List PlacedToken := ([.punctuator .leftBracket, .identifier "a", .punctuator .comma,
      .identifier "c", .punctuator .rightBracket] : List Token).map fun t => ⟨t, .start⟩
    have hapart : ts.IsChain Apart := by simp [ts, Apart]
    refine ⟨.ofTokens ts, rfl, ?_⟩
    exact (hlist 7 hapart rfl (by decide) ⟨_, rfl, by decide⟩).trans rfl
  · let ts : List PlacedToken := ([.punctuator .leftBracket, .identifier "a", .punctuator .plus,
      .identifier "b", .punctuator .comma, .identifier "c", .punctuator .rightBracket] :
      List Token).map fun t => ⟨t, .start⟩
    have hapart : ts.IsChain Apart := by simp [ts, Apart]
    refine ⟨.ofTokens ts, rfl, ?_⟩
    exact (hlist 9 hapart rfl (by decide) ⟨_, rfl, by decide⟩).trans rfl

end DrakeSyntax
