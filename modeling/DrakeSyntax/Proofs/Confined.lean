import DrakeSyntax.Proofs.Coupling.Cut
import DrakeSyntax.Proofs.Progress

/-!
# The first end token is not passed

No cursor passes the first end token, neither that of a parser nor one that it remembers with the
outcome of a bracketed phrase (`ParserState.Within`). All parsers that phrases are read by keep it
so, on success and on failure (`ParserState.Within.part`), and with it everything that is done with
a parser (`Session.within_after`). So what the parser looks at are tokens that exist
(`Cursor.Looks`). What stands behind the first end token does not matter (`Session.CutTo.run`).

* `run_confined`: **in any sequence of steps the first end token is not passed, and the answers
  are those for the tokens that are cut off behind it.**
-/

namespace DrakeSyntax

open DrakeSyntax.Parser

variable {ts : List PlacedToken} {s s' : ParserState} {α : Type}

/-- The index of the first end token. -/
def firstEnd (ts : List PlacedToken) : Nat := (closeTokens ts).findIdx (·.token == .endOfInput)

/-- Remembered outcomes do not begin behind the first end token and do not leave the cursor
there. -/
def EntriesWithin (ts : List PlacedToken) (b : Std.TreeMap Nat BracketEntry) : Prop :=
  ∀ i entry, b[i]? = some entry → i ≤ firstEnd ts ∧ entry.cursor.index ≤ firstEnd ts

/-- The parser has not passed the first end token, and does not remember any cursor that has. -/
structure ParserState.Within (ts : List PlacedToken) (s : ParserState) : Prop
    extends s.Among ts where
  index_le : s.cursor.index ≤ firstEnd ts
  entries : EntriesWithin ts s.brackets

/-- The tokens that a parser looks at exist: the one at the cursor, and the one behind it unless
that is the last one. -/
structure Cursor.Looks (ts : List PlacedToken) (c : Cursor) : Prop where
  current : (closeTokens ts)[c.index]? = some c.current
  following : (closeTokens ts)[min (c.index + 1) ((closeTokens ts).length - 1)]?.map (·.token) =
    some c.following

/-- The state that a run leaves. -/
def stateAfter : EStateM.Result ParseError ParserState α → ParserState
  | .ok _ s => s
  | .error _ s => s

theorem ParserState.Among.looks (hs : s.Among ts) : s.cursor.Looks ts := by
  obtain ⟨⟨index, rest⟩, b⟩ := s
  obtain ⟨hrest, hlt, -⟩ := hs
  simp only at hrest hlt
  rw [List.drop_eq_getElem_cons hlt] at hrest
  subst hrest
  refine ⟨List.getElem?_eq_getElem hlt, ?_⟩
  simp only [Cursor.following, Cursor.current]
  by_cases hnext : index + 1 < (closeTokens ts).length
  · rw [Nat.min_eq_left (by omega), List.drop_eq_getElem_cons hnext,
      List.getElem?_eq_getElem hnext]
    rfl
  -- there is none behind the last token
  · rw [Nat.min_eq_right (by omega), List.drop_eq_nil_of_le (by omega),
      show (closeTokens ts).length - 1 = index by omega, List.getElem?_eq_getElem hlt]
    rfl

/-! ### The walk up to the first end token -/

/-- The tokens of a parser as a walk on which no remembered cursor passes the first end token. -/
def Walk.confined (ts : List PlacedToken) : Walk :=
  { Walk.ofTokens ts with table := fun b => Faithful (closeTokens ts) b ∧ EntriesWithin ts b }

/-- The cursor that a bracketed phrase leaves has not passed the first end token. -/
theorem freshEntry_index_le {c : Cursor} (hc : c.On (.ofTokens ts)) :
    (freshEntry (closeTokens ts) c.index).cursor.index ≤ firstEnd ts := by
  have htakes := takes_freshBracket (w := .ofTokens ts) (Nat.le_refl c.rest.length)
  have hrun := htakes _ (Nat.lt_succ_self _) c ∅ ∅ hc (Nat.le_succ _) (faithful_empty _)
  have hfresh : freshEntry (closeTokens ts) c.index = .ofResult (freshBracket ⟨c, ∅⟩) := by
    rw [freshEntry]
    exact congrArg (fun rest => BracketEntry.ofResult (freshBracket ⟨⟨c.index, rest⟩, ∅⟩))
      hc.rest.symm
  rw [hfresh]
  generalize freshBracket ⟨c, ∅⟩ = r, bracketContents _ _ = r' at hrun ⊢
  cases hrun with
  | ok node on => exact on.le_finish
  | error e on => exact on.le_finish

theorem remembers_confined (ts : List PlacedToken) : (Walk.confined ts).Remembers where
  empty := ⟨faithful_empty _, fun _ _ h => by simp at h⟩
  faithful hb _ h := hb.1 _ _ h
  insert hb hc := by
    have hentry := freshEntry_index_le ⟨hc.rest, hc.floor_le, hc.le_finish⟩
    exact ⟨hb.1.insert rfl, forall_getElem?_insert hb.2 ⟨hc.le_finish, hentry⟩⟩

theorem Cursor.On.within {c : Cursor} (hc : c.On (.confined ts))
    {b : Std.TreeMap Nat BracketEntry} (hb : (Walk.confined ts).table b) :
    ParserState.Within ts ⟨c, b⟩ where
  rest := hc.rest
  index_lt := hc.lt
  faithful := hb.1
  index_le := hc.le_finish
  entries := hb.2

namespace ParserState.Within

theorem ofTokens (ts : List PlacedToken) : (ParserState.ofTokens ts).Within ts := by
  have hstart : (ParserState.ofTokens ts).cursor.On (.confined ts) :=
    ⟨rfl, Nat.zero_le _, Nat.zero_le _⟩
  exact hstart.within (remembers_confined ts).empty

theorem stays (hs : s.Within ts) {p q : Parser α} {m : Nat}
    (h : Agree (.confined ts) s.cursor.rest.length m p q) : (stateAfter (p s)).Within ts := by
  have hon : s.cursor.On (.confined ts) := ⟨hs.rest, Nat.zero_le _, hs.index_le⟩
  have halike : DrakeSyntax.Alike _ m (p s) (q ⟨s.cursor, ∅⟩) :=
    h s.cursor s.brackets ∅ hon (Nat.le_refl _) ⟨hs.faithful, hs.entries⟩
  generalize p s = r, q ⟨s.cursor, ∅⟩ = r' at halike ⊢
  cases halike with
  | ok a on room table => exact on.within table
  | error e on table => exact on.within table

/-- No parser that phrases are read by passes the first end token. -/
theorem part (hs : s.Within ts) {floor : Inner} {depth : Nat}
    (hdepth : s.cursor.rest.length ≤ depth) {p : Parser α}
    (hp : (floor.nest depth).Part s.cursor.rest.length p) : (stateAfter (p s)).Within ts := by
  have hinner := Inner.agree_nest_any (remembers_confined ts) floor hdepth
    (Nat.le_refl s.cursor.rest.length)
  obtain ⟨q, hq⟩ := agree_part hinner hp
  exact hs.stays hq

theorem expression (hs : s.Within ts) : (stateAfter (Parser.expression s)).Within ts := by
  rw [expression_nest]
  exact hs.part (Nat.le_succ _) (.item .expression none)

theorem program (hs : s.Within ts) : (stateAfter (Parser.program s)).Within ts := by
  rw [program_nest]
  exact hs.part (Nat.le_succ _) .programWith

end ParserState.Within

/-! ### Sessions -/

theorem Answer.ofResult_snd (wrap : α → Answer) (r : EStateM.Result ParseError ParserState α) :
    (Answer.ofResult wrap r).2 = stateAfter r := by
  cases r <;> rfl

namespace Session

/-- The parser and the clones of it. -/
def states (s : Session) : List ParserState := s.current :: s.clones

/-- The session after a sequence of steps. -/
def after (r : Reader) (s : Session) : List Step → Session
  | [] => s
  | next :: steps => after r (s.step r next).2 steps

variable {session session' : Session}

/-- No step passes the first end token. -/
theorem within_step (h : ∀ s ∈ session.states, s.Within ts) (next : Step) :
    ∀ s ∈ (session.step .remembering next).2.states, s.Within ts := by
  obtain ⟨hcurrent, hclones⟩ := List.forall_mem_cons.1 h
  cases next with
  | expression =>
    refine List.forall_mem_cons.2 ⟨?_, hclones⟩
    simp only [step, Answer.ofResult_snd]
    exact hcurrent.expression
  | program =>
    refine List.forall_mem_cons.2 ⟨?_, hclones⟩
    simp only [step, Answer.ofResult_snd]
    exact hcurrent.program
  | clone => exact List.forall_mem_cons.2 ⟨hcurrent, h⟩
  | restore k =>
    refine List.forall_mem_cons.2 ⟨?_, hclones⟩
    simp only [step, List.getD_eq_getElem?_getD]
    cases hk : session.clones[k]? with
    | none => exact hcurrent
    | some c => exact hclones c (List.mem_of_getElem? hk)

theorem within_after (h : ∀ s ∈ session.states, s.Within ts) (steps : List Step) :
    ∀ s ∈ (session.after .remembering steps).states, s.Within ts := by
  induction steps generalizing session with
  | nil => exact h
  | cons next steps ih => exact ih (within_step h next)

end Session

/-! ### Tokens that are cut off -/

/-- The second parser is at the same place as the first one, of the tokens up to the first end
token. -/
structure ParserState.CutTo (ts : List PlacedToken) (s s' : ParserState) : Prop where
  among : s.Among ts
  among' : s'.Among (upToEnd ts)
  cursor : s'.cursor = s.cursor.cut

namespace ParserState.CutTo

theorem ofTokens (ts : List PlacedToken) :
    (ParserState.ofTokens ts).CutTo ts (.ofTokens (upToEnd ts)) where
  among := (Within.ofTokens ts).toAmong
  among' := (Within.ofTokens (upToEnd ts)).toAmong
  cursor := congrArg (Cursor.mk 0) (closeTokens_upToEnd ts)

theorem ended (h : s.CutTo ts s') : s.cursor.Ended := by
  have hend := hasEnd_drop h.among.index_lt
  rwa [← h.among.rest] at hend

theorem length_le (h : s.CutTo ts s') : s'.cursor.rest.length ≤ s.cursor.rest.length := by
  rw [h.cursor]
  exact length_upToEnd_le s.cursor.rest

/-- An expression is the same, or fails in the same way, and leaves the same cursor but for the
tokens that are cut off. -/
theorem ending_expression (h : s.CutTo ts s') :
    ending (Parser.expression s') =
      ((ending (Parser.expression s)).1, (ending (Parser.expression s)).2.cut) := by
  -- phrases that remember nothing and are deep enough for either
  have hphrases := (steady_phrases Coupling.colonless_cut s.cursor.rest.length).expression []
  have hsame : ∀ a b : Node, Coupling.cut.Views Node.relocate a b → b = a := by
    intro a b (hab : a.relocate id = b.relocate id)
    rw [← b.relocate_id, ← hab, a.relocate_id]
  rw [← h.among'.ending_expression (.none false) h.length_le,
    ← h.among.ending_expression (.none false) (Nat.le_refl _)]
  exact ending_cut hphrases hsame h.ended h.cursor

theorem ending_program (h : s.CutTo ts s') :
    ending (Parser.program s') =
      ((ending (Parser.program s)).1, (ending (Parser.program s)).2.cut) := by
  have hphrases := matches_programWith (k := []) (fun _ _ _ => id)
    (steady_phrases Coupling.colonless_cut s.cursor.rest.length)
  have hsame : ∀ a b : Program, Coupling.cut.Views Program.relocate a b → b = a := by
    intro a b (hab : a.relocate id = b.relocate id)
    rw [← b.relocate_id, ← hab, a.relocate_id]
  rw [← h.among'.ending_program (.none false) h.length_le,
    ← h.among.ending_program (.none false) (Nat.le_refl _)]
  exact ending_cut hphrases hsame h.ended h.cursor

end ParserState.CutTo

/-- Runs that end alike but for the tokens that are cut off give the same answer. -/
theorem Onward.answer_eq {p : Parser α} {taken : Nat}
    (hrun : Onward ts s taken (p s)) (hrun' : Onward (upToEnd ts) s' taken (p s'))
    (hending : ending (p s') = ((ending (p s)).1, (ending (p s)).2.cut)) (wrap : α → Answer) :
    (Answer.ofResult wrap (p s)).1 = (Answer.ofResult wrap (p s')).1 ∧
      (Answer.ofResult wrap (p s)).2.CutTo ts (Answer.ofResult wrap (p s')).2 := by
  generalize p s = r, p s' = r' at hrun hrun' hending ⊢
  cases hrun with
  | ok a among =>
    cases hrun' with
    | ok a' among' =>
      obtain ⟨hresult, hcursor⟩ := Prod.mk.inj hending
      cases hresult
      exact ⟨rfl, among, among', hcursor⟩
    | error e' among' => cases congrArg Prod.fst hending
  | error e among =>
    cases hrun' with
    | ok a' among' => cases congrArg Prod.fst hending
    | error e' among' =>
      obtain ⟨hresult, hcursor⟩ := Prod.mk.inj hending
      cases hresult
      exact ⟨rfl, among, among', hcursor⟩

/-- All parsers of the second session are at the same places, of the tokens up to the first end
token. -/
structure Session.CutTo (ts : List PlacedToken) (session session' : Session) : Prop where
  current : session.current.CutTo ts session'.current
  clones : List.Forall₂ (ParserState.CutTo ts) session.clones session'.clones

namespace Session.CutTo

variable {session session' : Session}

theorem ofTokens (ts : List PlacedToken) :
    (Session.ofTokens ts).CutTo ts (.ofTokens (upToEnd ts)) where
  current := .ofTokens ts
  clones := .nil

theorem restore (h : session.CutTo ts session') (k : Nat) :
    (session.clones.getD k session.current).CutTo ts
      (session'.clones.getD k session'.current) := by
  obtain ⟨hcurrent, hclones⟩ := h
  generalize session.clones = clones, session'.clones = clones' at hclones ⊢
  induction hclones generalizing k with
  | nil => exact hcurrent
  | cons hclone _ ih =>
    cases k with
    | zero => exact hclone
    | succ k => exact ih k

/-- A step gives the same answer. -/
theorem step (h : session.CutTo ts session') (next : Step) :
    (session.step .remembering next).1 = (session'.step .remembering next).1 ∧
      (session.step .remembering next).2.CutTo ts (session'.step .remembering next).2 := by
  obtain ⟨hcurrent, hclones⟩ := h
  cases next with
  | expression =>
    obtain ⟨hanswer, hcut⟩ := hcurrent.among.onward_expression.answer_eq
      hcurrent.among'.onward_expression hcurrent.ending_expression .node
    exact ⟨hanswer, hcut, hclones⟩
  | program =>
    obtain ⟨hanswer, hcut⟩ := hcurrent.among.onward_program.answer_eq
      hcurrent.among'.onward_program hcurrent.ending_program .program
    exact ⟨hanswer, hcut, hclones⟩
  | clone => exact ⟨rfl, hcurrent, .cons hcurrent hclones⟩
  | restore k => exact ⟨rfl, restore ⟨hcurrent, hclones⟩ k, hclones⟩

/-- **Tokens behind the first end token do not show.** -/
theorem run (h : session.CutTo ts session') (steps : List Step) :
    (session.run .remembering steps).map (fun (answer, cursor) => (answer, cursor.cut)) =
      session'.run .remembering steps := by
  induction steps generalizing session session' with
  | nil => rfl
  | cons next steps ih =>
    obtain ⟨hanswer, hcut⟩ := h.step next
    simp only [Session.run, List.map_cons, hanswer, ih hcut, hcut.current.cursor]

end Session.CutTo

/-- **The first end token is not passed.** Whatever tokens a parser is made from and whatever is
done with it and clones of it, also after errors, no cursor of theirs and none that they remember is
behind the first end token. This is kept by all parsers that phrases are read by, on success and on
failure, so that what they look at are tokens that exist. All answers are those for the tokens up to
the first end token, with the same cursors but for the tokens that are cut off. -/
theorem run_confined (ts : List PlacedToken) (steps : List Step) :
    (∀ s ∈ ((Session.ofTokens ts).after .remembering steps).states, s.Within ts) ∧
    (∀ s : ParserState, s.Within ts → s.cursor.Looks ts ∧
      ∀ (floor : Inner) (depth : Nat), s.cursor.rest.length ≤ depth →
        ∀ {α : Type} {p : Parser α}, (floor.nest depth).Part s.cursor.rest.length p →
          (stateAfter (p s)).Within ts) ∧
    ((Session.ofTokens ts).run .remembering steps).map
        (fun (answer, cursor) => (answer, cursor.cut)) =
      (Session.ofTokens (upToEnd ts)).run .remembering steps := by
  have hstart : ∀ s ∈ (Session.ofTokens ts).states, s.Within ts :=
    List.forall_mem_singleton.2 (.ofTokens ts)
  refine ⟨Session.within_after hstart steps, fun s hs => ⟨hs.looks, ?_⟩,
    (Session.CutTo.ofTokens ts).run steps⟩
  exact fun floor depth hdepth α p hp => hs.part hdepth hp

/-- An end token behind a list keeps the operator behind it from being read. -/
theorem run_confined_inner_end :
    (∀ s ∈ ((Session.ofTokens (([.punctuator .leftBracket, .identifier "a",
        .punctuator .rightBracket, .endOfInput, .punctuator .plus] : List Token).map
          fun t => ⟨t, .start⟩)).after .remembering [.expression, .expression]).states,
      s.cursor.index ≤ 3) ∧
    (Session.ofTokens (([.punctuator .leftBracket, .identifier "a", .punctuator .rightBracket,
        .endOfInput] : List Token).map fun t => ⟨t, .start⟩)).run .remembering
          [.expression, .expression] =
      [(.node ⟨.list (.items [⟨.identifier "a", .start⟩]), .start⟩, ⟨3, [⟨.endOfInput, .start⟩]⟩),
        (.failure (.unexpected ["expression"] ⟨.endOfInput, .start⟩),
          ⟨3, [⟨.endOfInput, .start⟩]⟩)] := by
  have hconfined := run_confined (([.punctuator .leftBracket, .identifier "a",
    .punctuator .rightBracket, .endOfInput, .punctuator .plus] : List Token).map
      fun t => ⟨t, .start⟩) [.expression, .expression]
  exact ⟨fun s hs => (hconfined.1 s hs).index_le, hconfined.2.2.symm.trans rfl⟩

end DrakeSyntax
