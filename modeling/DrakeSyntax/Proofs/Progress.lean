import DrakeSyntax.Proofs.Agreement.Part
import DrakeSyntax.Proofs.Memo
import DrakeSyntax.Proofs.Rounds

/-!
# Progress of the parser

A parser may be set on any of its tokens, also behind an end token (`ParserState.Among`). From there
an expression that is read takes a token at least, and a failure does not leave the cursor before
where it was. Every loop takes a token per round. So the tokens ahead bound both how deep phrases
nest and how many rounds loops make, and what stands at the bound is never come to.

* `Walk.onwards`: the tokens from an index on, as a walk.
* `Paced`: a loop whose rounds take a token each.
* `ParserState.Among.progress`: **the parser makes progress, and its bounds are never hit.**
-/

namespace DrakeSyntax

open DrakeSyntax.Parser

variable {α : Type} {ts : List PlacedToken} {s : ParserState}

/-- The cursor of the parser is among the tokens, and remembered outcomes are as they should. -/
structure ParserState.Among (ts : List PlacedToken) (s : ParserState) : Prop where
  rest : s.cursor.rest = (closeTokens ts).drop s.cursor.index
  index_lt : s.cursor.index < (closeTokens ts).length
  faithful : Faithful (closeTokens ts) s.brackets

/-- A run from the state `s` stays among the tokens and does not go back. On success it has taken
`taken` tokens at least. -/
inductive Onward (ts : List PlacedToken) (s : ParserState) (taken : Nat) :
    EStateM.Result ParseError ParserState α → Prop
  | ok (a : α) {s' : ParserState} (among : s'.Among ts)
      (index_le : s.cursor.index + taken ≤ s'.cursor.index) : Onward ts s taken (.ok a s')
  | error (e : ParseError) {s' : ParserState} (among : s'.Among ts)
      (index_le : s.cursor.index ≤ s'.cursor.index) : Onward ts s taken (.error e s')

/-- A loop that is allowed any number of rounds, run from the state `s`. What it returns counts
its rounds. Since a loop stops without a failure where it is allowed no more of them, `takes`
speaks of the rounds before a failure as well. -/
structure Paced (s : ParserState) (loop : Nat → Parser α) (count : α → Nat) : Prop where
  /-- Each round takes a token. -/
  takes {r : Nat} {a : α} {s' : ParserState} : loop r s = .ok a s' →
    s.cursor.index + count a ≤ s'.cursor.index
  /-- As many rounds as there are tokens ahead are enough. -/
  enough {r : Nat} : s.cursor.rest.length ≤ r →
    ending (loop r s) = ending (loop s.cursor.rest.length s)

/-- Every loop over the phrases inside is paced. A list has its first item from before the
loop. -/
structure Inner.Loops (g : Inner) (s : ParserState) : Prop where
  list {α : Type} {item : Option α → Parser α} (hitem : g.ListItem item)
    (separator : Option Separator) (last : α) :
    Paced s (fun r => listFrom item r separator last) fun l => l.items.length - 1
  trailers : Paced s (trailers g) List.length
  handlers : Paced s (handlers g) List.length
  chain (operators : List BinaryOperator) (levels : List OperatorLevel) :
    Paced s (chainRest operators (cascade g.rounds (Parser.unary g) levels)) List.length

/-! ### The tokens from an index on -/

/-- An end token comes last, so it is ahead of every token. -/
theorem hasEnd_drop {i : Nat} (hi : i < (closeTokens ts).length) :
    ∃ t ∈ (closeTokens ts).drop i, t.token = .endOfInput := by
  obtain ⟨t, hlast, hend⟩ := closeTokens_getLast? ts
  have ht : ((closeTokens ts).drop i).getLast? = some t := by
    rw [List.getLast?_drop, if_neg (Nat.not_le.2 hi), hlast]
  exact ⟨t, List.mem_of_getLast? ht, hend⟩

/-- There is no end token among line breaks. -/
theorem Walk.le_finish_of_replicate {w : Walk} {i : Nat} {us : List PlacedToken}
    (h : w.tokens = List.replicate i ⟨.newline, .start⟩ ++ us) : i ≤ w.finish := by
  have hbefore : (List.replicate i (⟨.newline, .start⟩ : PlacedToken)).findIdx
      (·.token == .endOfInput) = i := by
    rw [List.findIdx_eq_length_of_false, List.length_replicate]
    intro t ht
    rw [List.eq_of_mem_replicate ht]
    rfl
  rw [Walk.finish, h, List.findIdx_append, hbefore, List.length_replicate]
  split <;> omega

/-- The tokens from an index on. Line breaks stand for those before it, so that it does not matter
whether there are end tokens among them. -/
def Walk.onwards (ts : List PlacedToken) (i : Nat) (hi : i < (closeTokens ts).length) : Walk where
  tokens := List.replicate i ⟨.newline, .start⟩ ++ (closeTokens ts).drop i
  hasEnd := by
    obtain ⟨t, ht, hend⟩ := hasEnd_drop hi
    exact ⟨t, List.mem_append_right _ ht, hend⟩
  floor := i
  table := Faithful (closeTokens ts)

section Onwards

variable {i : Nat} {hi : i < (closeTokens ts).length}

theorem drop_onwards {j : Nat} (hj : i ≤ j) :
    (Walk.onwards ts i hi).tokens.drop j = (closeTokens ts).drop j := by
  simp only [Walk.onwards, List.drop_append, List.drop_replicate, List.length_replicate,
    Nat.sub_eq_zero_of_le hj, List.replicate_zero, List.nil_append, List.drop_drop,
    Nat.add_sub_of_le hj]

theorem freshEntry_onwards {j : Nat} (hj : i ≤ j) :
    freshEntry (Walk.onwards ts i hi).tokens j = freshEntry (closeTokens ts) j := by
  rw [freshEntry, drop_onwards hj, freshEntry]

theorem remembers_onwards : (Walk.onwards ts i hi).Remembers where
  empty := faithful_empty _
  faithful hb hc h := (hb _ _ h).trans (freshEntry_onwards hc.floor_le).symm
  insert hb hc := hb.insert (freshEntry_onwards hc.floor_le)

theorem length_onwards : (Walk.onwards ts i hi).tokens.length = (closeTokens ts).length := by
  simp only [Walk.onwards, List.length_append, List.length_replicate, List.length_drop]
  omega

theorem le_finish_onwards : i ≤ (Walk.onwards ts i hi).finish :=
  Walk.le_finish_of_replicate rfl

theorem ParserState.Among.on (hs : s.Among ts) :
    s.cursor.On (.onwards ts s.cursor.index hs.index_lt) where
  rest := hs.rest.trans (drop_onwards (Nat.le_refl _)).symm
  floor_le := Nat.le_refl _
  le_finish := le_finish_onwards

theorem Cursor.On.among {c : Cursor} (hc : c.On (.onwards ts i hi))
    {b : Std.TreeMap Nat BracketEntry} (hb : Faithful (closeTokens ts) b) :
    ParserState.Among ts ⟨c, b⟩ where
  rest := hc.rest.trans (drop_onwards hc.floor_le)
  index_lt := length_onwards ▸ hc.lt
  faithful := hb

end Onwards

/-! ### Bounds that are never hit -/

/-- The parser reads with phrases of a depth of its own and nothing at the bottom. -/
theorem expression_nest (s : ParserState) : Parser.expression s =
    ((Inner.none true).nest (s.cursor.rest.length + 1)).expression s := rfl

theorem program_nest (s : ParserState) : Parser.program s =
    programWith ((Inner.none true).nest (s.cursor.rest.length + 1)) s := rfl

namespace ParserState.Among

theorem length_rest (hs : s.Among ts) :
    s.cursor.index + s.cursor.rest.length = (closeTokens ts).length := by
  have hlt := hs.index_lt
  rw [hs.rest, List.length_drop]
  omega

theorem ofTokens (ts : List PlacedToken) : (ParserState.ofTokens ts).Among ts where
  rest := rfl
  index_lt := by
    obtain ⟨t, ht, -⟩ := closeTokens_hasEnd ts
    exact List.length_pos_of_mem ht
  faithful := faithful_empty _

variable {p p' q : Parser α} {m m' : Nat}

/-- A run with at most `m` tokens left at the end has taken the others. -/
theorem onward (hs : s.Among ts) {taken : Nat}
    (h : Agree (.onwards ts s.cursor.index hs.index_lt) s.cursor.rest.length m p q)
    (hm : m + taken ≤ s.cursor.rest.length) : Onward ts s taken (p s) := by
  have halike : DrakeSyntax.Alike _ m (p s) (q ⟨s.cursor, ∅⟩) :=
    h s.cursor s.brackets ∅ hs.on (Nat.le_refl _) hs.faithful
  generalize p s = r, q ⟨s.cursor, ∅⟩ = r' at halike ⊢
  cases halike with
  | @ok a c b _ on room table =>
    have hstart := hs.length_rest
    have hend : c.index + c.rest.length = _ := (on.among table).length_rest
    exact .ok a (on.among table) (by simp only; omega)
  | error e on table => exact .error e (on.among table) on.floor_le

/-- Runs that agree with the same third one end alike. -/
theorem ending_eq (hs : s.Among ts)
    (h : Agree (.onwards ts s.cursor.index hs.index_lt) s.cursor.rest.length m p q)
    (h' : Agree (.onwards ts s.cursor.index hs.index_lt) s.cursor.rest.length m' p' q) :
    ending (p s) = ending (p' s) := by
  have halike := h s.cursor s.brackets ∅ hs.on (Nat.le_refl _) hs.faithful
  have halike' := h' s.cursor s.brackets ∅ hs.on (Nat.le_refl _) hs.faithful
  exact halike.ending_eq.trans halike'.ending_eq.symm

theorem paced (hs : s.Among ts) {loop : Nat → Parser α} {count : α → Nat}
    (hspends : ∀ r, Spends (.onwards ts s.cursor.index hs.index_lt) s.cursor.rest.length (loop r)
      count)
    (hagree : ∀ {r}, s.cursor.rest.length ≤ r →
      Agree (.onwards ts s.cursor.index hs.index_lt) s.cursor.rest.length m (loop r) q) :
    Paced s loop count where
  takes {r a s'} hrun := by
    obtain ⟨hon, hspent⟩ :=
      hspends r s.cursor s.brackets hs.on (Nat.le_refl _) hs.faithful a s' hrun
    have hstart := hs.length_rest
    have hend : s'.cursor.index + s'.cursor.rest.length = _ := (hon.among hs.faithful).length_rest
    omega
  enough hr := hs.ending_eq (hagree hr) (hagree (Nat.le_refl _))

/-- The loops over phrases that agree with others are paced. -/
theorem loops (hs : s.Among ts) {g g' : Inner}
    (hg : g.Agree (.onwards ts s.cursor.index hs.index_lt) s.cursor.rest.length g') :
    g.Loops s where
  list hitem separator last := by
    obtain ⟨item', hitem'⟩ := takes_listItem hg hitem
    exact hs.paced (fun r => spends_listFrom hitem' r separator last)
      fun hr => agree_listFrom hitem' separator last hr (Nat.le_refl _)
  trailers := hs.paced (spends_trailers hg) fun hr => agree_trailers hg hr (Nat.le_refl _)
  handlers := hs.paced (spends_handlers hg) fun hr => agree_handlers hg hr (Nat.le_refl _)
  chain operators levels := by
    have hoperand := takes_cascade levels (hg.takes agree_unary) hg.rounds hg.rounds'
    have hoperand := hoperand.mono (Nat.le_succ _)
    exact hs.paced (spends_chainRest operators hoperand)
      fun hr => agree_chainRest operators hoperand hr (Nat.le_refl _)

/-! ### Expressions and programs -/

variable {depth : Nat}

theorem agree_nest (hs : s.Among ts) (floor : Inner) (hdepth : s.cursor.rest.length ≤ depth) :
    (floor.nest depth).Agree (.onwards ts s.cursor.index hs.index_lt) s.cursor.rest.length
      ((Inner.none false).nest s.cursor.rest.length) :=
  Inner.agree_nest_any remembers_onwards floor hdepth (Nat.le_refl _)

/-- An expression takes one of the tokens ahead. -/
theorem agree_expression (hs : s.Among ts) (floor : Inner)
    (hdepth : s.cursor.rest.length ≤ depth) :
    Agree (.onwards ts s.cursor.index hs.index_lt) s.cursor.rest.length
      (s.cursor.rest.length - 1) (floor.nest depth).expression
      ((Inner.none false).nest s.cursor.rest.length).expression := by
  have hpos := hs.on.length_pos
  have hagree := (hs.agree_nest floor hdepth).expression (s.cursor.rest.length - 1) (by omega)
  exact hagree.weaken (by omega) (Nat.le_refl _)

/-- The depth that the parser reads with is one of those that are enough. -/
theorem ending_expression (hs : s.Among ts) (floor : Inner)
    (hdepth : s.cursor.rest.length ≤ depth) :
    ending ((floor.nest depth).expression s) = ending (Parser.expression s) := by
  rw [expression_nest]
  exact hs.ending_eq (hs.agree_expression floor hdepth)
    (hs.agree_expression (.none true) (Nat.le_succ _))

theorem ending_program (hs : s.Among ts) (floor : Inner)
    (hdepth : s.cursor.rest.length ≤ depth) :
    ending (programWith (floor.nest depth) s) = ending (Parser.program s) := by
  rw [program_nest]
  exact hs.ending_eq (agree_programWith (hs.agree_nest floor hdepth))
    (agree_programWith (hs.agree_nest (.none true) (Nat.le_succ _)))

theorem onward_expression (hs : s.Among ts) : Onward ts s 1 (Parser.expression s) := by
  have hpos := hs.on.length_pos
  rw [expression_nest]
  exact hs.onward (hs.agree_expression (.none true) (Nat.le_succ _)) (by omega)

theorem onward_program (hs : s.Among ts) : Onward ts s 0 (Parser.program s) := by
  rw [program_nest]
  exact hs.onward (agree_programWith (hs.agree_nest (.none true) (Nat.le_succ _)))
    (Nat.le_refl _)

/-- **The parser makes progress.** Wherever among its tokens a parser is set, an expression takes a
token at least, and a failure leaves the cursor not before where it was; a program does not go back
either. Neither depends on how deep phrases may nest or on what stands at the greatest depth, once
they may nest as deep as there are tokens ahead; and every loop takes a token per round, so that it
never makes more rounds than that. -/
theorem progress (hs : s.Among ts) :
    Onward ts s 1 (Parser.expression s) ∧ Onward ts s 0 (Parser.program s) ∧
      ∀ (floor : Inner) (depth : Nat), s.cursor.rest.length ≤ depth →
        ending ((floor.nest depth).expression s) = ending (Parser.expression s) ∧
        ending (programWith (floor.nest depth) s) = ending (Parser.program s) ∧
        (floor.nest depth).Loops s :=
  ⟨hs.onward_expression, hs.onward_program, fun _ _ hdepth =>
    ⟨hs.ending_expression _ hdepth, hs.ending_program _ hdepth,
      hs.loops (hs.agree_nest _ hdepth)⟩⟩

/-- A parser that is set behind an end token reads on to the next one. For the three tokens there,
three levels of phrases are enough, whatever is below them. -/
theorem progress_behind_end :
    ∃ s : ParserState, s.cursor.index = 1 ∧
      s.Among [⟨.endOfInput, .start⟩, ⟨.punctuator .minus, .start⟩, ⟨.identifier "a", .start⟩] ∧
      ∀ floor : Inner, ending ((floor.nest 3).expression s) =
        (.ok ⟨.unary .negate ⟨.identifier "a", .start⟩, .start⟩,
          ⟨3, [⟨.endOfInput, .start⟩]⟩) := by
  have hover : ParserState.Among [⟨.endOfInput, .start⟩, ⟨.punctuator .minus, .start⟩,
      ⟨.identifier "a", .start⟩] ⟨⟨1, [⟨.punctuator .minus, .start⟩, ⟨.identifier "a", .start⟩,
        ⟨.endOfInput, .start⟩]⟩, ∅⟩ := ⟨rfl, by decide, faithful_empty _⟩
  obtain ⟨-, -, hbound⟩ := hover.progress
  exact ⟨_, rfl, hover, fun floor => (hbound floor 3 (Nat.le_refl _)).1.trans rfl⟩

end ParserState.Among

end DrakeSyntax
