import DrakeSyntax.Proofs.Agreement.Expression

/-!
# Remembered outcomes do not show

Outcomes of bracketed phrases are kept for good: across trials that are given up, across errors
and in clones of a parser. Each of them is what reading the phrase anew would come to
(`Faithful`), so that a parser which remembers them gives the same answers as one which does
not.

* `Inner.agree_nest_remembering`: phrases that are remembered agree with phrases that are not.
* `Inner.agree_nest_any`: so phrases of any depth agree, once it is as great as there are tokens.
* `Session.Alike.step`: a step of a session keeps remembered outcomes faithful and answers as
  without them.
* `run_remembering`: **a session with any sequence of steps gives the same answers and leaves
  the same cursors whether or not outcomes are remembered.**
-/

namespace DrakeSyntax

open DrakeSyntax.Parser

/-- Reads the bracketed phrase at the cursor without remembering anything. -/
def freshBracket : Parser Node := fun s => bracketContents (s.cursor.phrases false) s

/-- The outcome of a run as it is remembered. -/
def BracketEntry.ofResult : EStateM.Result ParseError ParserState Node → BracketEntry
  | .ok node s => ⟨.ok node, s.cursor⟩
  | .error e s => ⟨.error e, s.cursor⟩

/-- What reading the bracketed phrase at an index anew comes to. -/
def freshEntry (ts : List PlacedToken) (i : Nat) : BracketEntry :=
  .ofResult (freshBracket ⟨⟨i, ts.drop i⟩, ∅⟩)

/-- Every remembered outcome is the one that reading the phrase anew comes to. -/
def Faithful (ts : List PlacedToken) (b : Std.TreeMap Nat BracketEntry) : Prop :=
  ∀ i entry, b[i]? = some entry → entry = freshEntry ts i

theorem faithful_empty (ts : List PlacedToken) : Faithful ts ∅ := by
  intro i entry h
  simp at h

/-- What holds of all entries still does when one more of which it holds is put in. -/
theorem forall_getElem?_insert {P : Nat → BracketEntry → Prop}
    {b : Std.TreeMap Nat BracketEntry} (hb : ∀ i entry, b[i]? = some entry → P i entry) {i : Nat}
    {entry : BracketEntry} (h : P i entry) :
    ∀ j other, (b.insert i entry)[j]? = some other → P j other := by
  intro j other hj
  rw [Std.TreeMap.getElem?_insert] at hj
  split at hj
  · rename_i hij
    rw [← Std.LawfulEqCmp.eq_of_compare hij]
    cases hj
    exact h
  · exact hb j other hj

theorem Faithful.insert {ts : List PlacedToken} {b : Std.TreeMap Nat BracketEntry} {i : Nat}
    {entry : BracketEntry} (hb : Faithful ts b)
    (h : entry = freshEntry ts i) : Faithful ts (b.insert i entry) :=
  forall_getElem?_insert hb h

variable {w : Walk} {n : Nat}

/-- How deep phrases may nest does not show in a bracketed phrase either. -/
theorem takes_freshBracket {d : Nat} (hd : n ≤ d) :
    Takes w (n + 1) freshBracket (bracketContents ((Inner.none false).nest d)) := by
  intro m hm c b b' hc hlen hb
  obtain ⟨k, hk⟩ : ∃ k, c.rest.length = k + 1 :=
    ⟨c.rest.length - 1, by have := hc.length_pos; omega⟩
  -- behind the opening bracket `k` tokens are left
  have hinner :
      ((Inner.none false).nest (c.rest.length + 1)).Agree w k ((Inner.none false).nest d) :=
    Inner.agree_nest rfl rfl (by omega) (by omega)
  have hagree := agree_bracketContents hinner.toAlike
  exact (hagree c b b' hc (Nat.le_of_eq hk) hb).weaken (by omega)

theorem Alike.ofResult_eq {m : Nat} {r r' : EStateM.Result ParseError ParserState Node}
    (h : Alike w m r r') : BracketEntry.ofResult r = .ofResult r' := by
  cases h <;> rfl

/-- The walk's property of remembered outcomes makes them faithful where cursors may stand, and
remembering one more that is faithful keeps it. -/
structure Walk.Remembers (w : Walk) : Prop where
  empty : w.table ∅
  faithful {b : Std.TreeMap Nat BracketEntry} {c : Cursor} {entry : BracketEntry} :
    w.table b → c.On w → b[c.index]? = some entry → entry = freshEntry w.tokens c.index
  insert {b : Std.TreeMap Nat BracketEntry} {c : Cursor} :
    w.table b → c.On w → w.table (b.insert c.index (freshEntry w.tokens c.index))

theorem Walk.Remembers.of_faithful (hw : w.table = Faithful w.tokens) : w.Remembers where
  empty := hw ▸ faithful_empty _
  faithful hb _ h := (hw ▸ hb : Faithful w.tokens _) _ _ h
  insert hb _ := hw ▸ (hw ▸ hb : Faithful w.tokens _).insert rfl

/-- A phrase that is remembered agrees with the phrase itself, as long as remembered outcomes are
faithful. -/
theorem takes_remembered (hw : w.Remembers) {p q : Parser Node} (hfresh : Takes w n freshBracket q)
    (hp : Takes w n p q) : Takes w n (remembered p) q := by
  intro m hm c b b' hc hlen hb
  have hfresh' := hfresh m hm c ∅ b' hc hlen hw.empty
  -- what is kept for this index, whether or not it was kept yet
  have hentry : freshEntry w.tokens c.index = .ofResult (q ⟨c, b'⟩) := by
    rw [freshEntry, ← hc.rest]
    exact hfresh'.ofResult_eq
  unfold remembered
  cases hmem : b[c.index]? with
  | some entry =>
    -- the entry is what a fresh run, and so `q`, comes to
    have heq : entry = .ofResult (q ⟨c, b'⟩) := by
      rw [← hentry]
      exact hw.faithful hb hc hmem
    generalize freshBracket ⟨c, ∅⟩ = r, q ⟨c, b'⟩ = r' at hfresh' heq ⊢
    cases hfresh' with
    | ok a on room _ => subst heq; exact .ok a on room hb
    | error e on _ => subst heq; exact .error e on hb
  | none =>
    -- the new entry is what `p`, so `q`, so a fresh run comes to
    have hp' := hp m hm c b b' hc hlen hb
    have hinsert : ∀ {b₁ : Std.TreeMap Nat BracketEntry}, w.table b₁ →
        w.table (b₁.insert c.index (.ofResult (p ⟨c, b⟩))) := by
      intro b₁ hb₁
      rw [hp'.ofResult_eq, ← hentry]
      exact hw.insert hb₁ hc
    dsimp only
    generalize p ⟨c, b⟩ = r, q ⟨c, b'⟩ = r' at hp' hinsert ⊢
    cases hp' with
    | ok a on room table => exact .ok a on room (hinsert table)
    | error e on table => exact .error e on (hinsert table)

/-- **Phrases that are remembered agree with phrases that are not**, whatever they are made of at
the greatest depth. -/
theorem Inner.agree_nest_remembering (hw : w.Remembers) (floor : Inner)
    (hfloor : floor.remembers = true) {d d' : Nat} (hd : n ≤ d) (hd' : n ≤ d') :
    (floor.nest d).Agree w n ((Inner.none false).nest d') := by
  refine Inner.agree_nest_of (fun {n d d'} _ hd' halike => ?_) hd hd'
  rw [bracket_remembering hfloor, bracket_forgetful rfl]
  refine takes_remembered hw (takes_freshBracket hd') fun m hm => ?_
  exact agree_bracketContents (halike.mono (Nat.le_of_lt_succ hm))

/-- Phrases agree, however deep they may nest and whatever they are made of at the greatest depth,
with phrases that remember nothing. -/
theorem Inner.agree_nest_any (hw : w.Remembers) (floor : Inner) {d d' : Nat}
    (hd : n ≤ d) (hd' : n ≤ d') : (floor.nest d).Agree w n ((Inner.none false).nest d') := by
  cases hfloor : floor.remembers with
  | true => exact Inner.agree_nest_remembering hw floor hfloor hd hd'
  | false => exact Inner.agree_nest hfloor rfl hd hd'

/-! ### Sessions -/

/-- A way to read expressions and programs. -/
structure Reader where
  expression : Parser Node
  program : Parser Program

namespace Reader

/-- Reads with remembered outcomes. -/
def remembering : Reader := ⟨Parser.expression, Parser.program⟩

/-- Neither looks at remembered outcomes nor adds to them. -/
def forgetful : Reader :=
  ⟨fun s => (s.cursor.phrases false).expression s, fun s => programWith (s.cursor.phrases false) s⟩

end Reader

theorem alike_expression (hw : w.table = Faithful w.tokens) {c : Cursor} (hc : c.On w)
    {b : Std.TreeMap Nat BracketEntry} (hb : w.table b) (b' : Std.TreeMap Nat BracketEntry) :
    Alike w c.rest.length (Reader.remembering.expression ⟨c, b⟩)
      (Reader.forgetful.expression ⟨c, b'⟩) := by
  have hinner := Inner.agree_nest_remembering (.of_faithful hw) (Inner.none true) rfl
    (Nat.le_refl (c.rest.length + 1)) (Nat.le_refl (c.rest.length + 1))
  exact hinner.expression.agree c b b' hc (Nat.le_succ _) hb

theorem alike_program (hw : w.table = Faithful w.tokens) {c : Cursor} (hc : c.On w)
    {b : Std.TreeMap Nat BracketEntry} (hb : w.table b) (b' : Std.TreeMap Nat BracketEntry) :
    Alike w (c.rest.length + 1) (Reader.remembering.program ⟨c, b⟩)
      (Reader.forgetful.program ⟨c, b'⟩) := by
  have hinner := Inner.agree_nest_remembering (.of_faithful hw) (Inner.none true) rfl
    (Nat.le_refl (c.rest.length + 1)) (Nat.le_refl (c.rest.length + 1))
  exact agree_programWith hinner c b b' hc (Nat.le_succ _) hb

/-- A parser at work, and clones of it. -/
structure Session where
  current : ParserState
  clones : List ParserState

/-- What can be done with a parser. -/
inductive Step where
  | expression
  | program
  /-- Keeps a clone of the parser. -/
  | clone
  /-- Goes on with the clone that was kept as the last but `k`, if there is one. -/
  | restore (k : Nat)

/-- What a step comes to. -/
inductive Answer where
  | node (n : Node)
  | program (p : Program)
  | failure (e : ParseError)
  | done

/-- The answer that a run gives, and the state that it leaves. -/
def Answer.ofResult (wrap : α → Answer) :
    EStateM.Result ParseError ParserState α → Answer × ParserState
  | .ok a s => (wrap a, s)
  | .error e s => (.failure e, s)

namespace Session

/-- The session at the first of some tokens. -/
def ofTokens (ts : List PlacedToken) : Session := ⟨.ofTokens ts, []⟩

/-- Takes a step. After an error the parser goes on from where it stopped. -/
def step (r : Reader) (s : Session) : Step → Answer × Session
  | .expression =>
    let (answer, current) := Answer.ofResult .node (r.expression s.current)
    (answer, { s with current })
  | .program =>
    let (answer, current) := Answer.ofResult .program (r.program s.current)
    (answer, { s with current })
  | .clone => (.done, { s with clones := s.current :: s.clones })
  | .restore k => (.done, { s with current := s.clones.getD k s.current })

/-- The answers to a sequence of steps, each with the cursor that the step leaves. -/
def run (r : Reader) (s : Session) : List Step → List (Answer × Cursor)
  | [] => []
  | next :: steps =>
    ((s.step r next).1, (s.step r next).2.current.cursor) :: run r (s.step r next).2 steps

end Session

/-- An end token is put behind the tokens unless they end with one already. -/
theorem closeTokens_cases (ts : List PlacedToken) :
    (closeTokens ts = ts ∧ ∃ t, ts.getLast? = some t ∧ t.token = .endOfInput) ∨
      ∃ p, closeTokens ts = ts ++ [⟨.endOfInput, p⟩] := by
  cases hlast : ts.getLast? with
  | none =>
    rw [List.getLast?_eq_none_iff] at hlast
    subst hlast
    exact .inr ⟨.start, rfl⟩
  | some t =>
    by_cases ht : t.token = .endOfInput
    · exact .inl ⟨by simp only [closeTokens, hlast, ht, if_true], t, rfl, ht⟩
    · exact .inr ⟨t.position, by simp only [closeTokens, hlast, ht, if_false]⟩

theorem closeTokens_getLast? (ts : List PlacedToken) :
    ∃ t, (closeTokens ts).getLast? = some t ∧ t.token = .endOfInput := by
  rcases closeTokens_cases ts with ⟨hts, hlast⟩ | ⟨p, hts⟩
  · rwa [hts]
  · exact ⟨⟨.endOfInput, p⟩, by rw [hts, List.getLast?_concat], rfl⟩

theorem closeTokens_hasEnd (ts : List PlacedToken) :
    ∃ t ∈ closeTokens ts, t.token = .endOfInput := by
  obtain ⟨t, hlast, ht⟩ := closeTokens_getLast? ts
  exact ⟨t, List.mem_of_getLast? hlast, ht⟩

/-- The tokens of a parser as a walk on which remembered outcomes are faithful. -/
def Walk.ofTokens (ts : List PlacedToken) : Walk where
  tokens := closeTokens ts
  hasEnd := closeTokens_hasEnd ts
  floor := 0
  table := Faithful (closeTokens ts)

/-- The states have the same cursor, and remembered outcomes of the first are as they should. -/
structure ParserState.Alike (w : Walk) (s s' : ParserState) : Prop where
  cursor : s'.cursor = s.cursor
  on : s.cursor.On w
  table : w.table s.brackets

theorem ParserState.Alike.ofTokens (ts : List PlacedToken) :
    (ParserState.ofTokens ts).Alike (.ofTokens ts) (.ofTokens ts) where
  cursor := rfl
  on := ⟨rfl, Nat.zero_le _, Nat.zero_le _⟩
  table := faithful_empty _

/-- Runs that come out alike give the same answer and leave states that are alike. -/
theorem Alike.answer_eq {α : Type} {m : Nat} {r r' : EStateM.Result ParseError ParserState α}
    (h : Alike w m r r') (wrap : α → Answer) :
    (Answer.ofResult wrap r).1 = (Answer.ofResult wrap r').1 ∧
      (Answer.ofResult wrap r).2.Alike w (Answer.ofResult wrap r').2 := by
  cases h with
  | ok a on room table => exact ⟨rfl, rfl, on, table⟩
  | error e on table => exact ⟨rfl, rfl, on, table⟩

/-- The sessions have the same cursors, also in their clones, and remembered outcomes of the first
are as they should. -/
structure Session.Alike (w : Walk) (s s' : Session) : Prop where
  current : s.current.Alike w s'.current
  clones : s'.clones.map (·.cursor) = s.clones.map (·.cursor)
  kept : ∀ c ∈ s.clones, c.cursor.On w ∧ w.table c.brackets

namespace Session

theorem Alike.restore {s s' : Session} (h : s.Alike w s') (k : Nat) :
    (s.clones.getD k s.current).Alike w (s'.clones.getD k s'.current) := by
  have hk := congrArg (·[k]?) h.clones
  simp only [List.getElem?_map] at hk
  simp only [List.getD_eq_getElem?_getD]
  cases hs : s.clones[k]? with
  | none =>
    -- no such clone, so none on the other side either
    rw [hs, Option.map_none, Option.map_eq_none_iff] at hk
    rw [hk]
    exact h.current
  | some c =>
    rw [hs, Option.map_some, Option.map_eq_some_iff] at hk
    obtain ⟨c', hc', hcursor⟩ := hk
    obtain ⟨on, table⟩ := h.kept c (List.mem_of_getElem? hs)
    rw [hc']
    exact ⟨hcursor, on, table⟩

/-- **A step gives the same answer** with remembered outcomes as without, and keeps them
faithful. -/
theorem Alike.step (hw : w.table = Faithful w.tokens) {s s' : Session} (h : s.Alike w s')
    (next : Step) :
    (s.step .remembering next).1 = (s'.step .forgetful next).1 ∧
      (s.step .remembering next).2.Alike w (s'.step .forgetful next).2 := by
  obtain ⟨⟨c, b⟩, kept⟩ := s
  obtain ⟨⟨c', b'⟩, kept'⟩ := s'
  obtain ⟨hcursor, on, table⟩ := h.current
  simp only at hcursor on table
  -- the states differ in what is remembered only
  subst hcursor
  cases next with
  | expression =>
    obtain ⟨hanswer, hstate⟩ := (alike_expression hw on table b').answer_eq .node
    exact ⟨hanswer, hstate, h.clones, h.kept⟩
  | program =>
    obtain ⟨hanswer, hstate⟩ := (alike_program hw on table b').answer_eq .program
    exact ⟨hanswer, hstate, h.clones, h.kept⟩
  | clone =>
    refine ⟨rfl, h.current, ?_, ?_⟩
    · simpa [Session.step] using h.clones
    · intro d hd
      rcases List.mem_cons.1 hd with rfl | hd
      · exact ⟨on, table⟩
      · exact h.kept d hd
  | restore k => exact ⟨rfl, h.restore k, h.clones, h.kept⟩

theorem Alike.ofTokens (ts : List PlacedToken) :
    (Session.ofTokens ts).Alike (.ofTokens ts) (.ofTokens ts) where
  current := .ofTokens ts
  clones := rfl
  kept := by simp [Session.ofTokens]

end Session

/-- **Remembered outcomes do not show.** Whatever tokens a parser is made from and whatever is
done with it and clones of it, also after errors, every step gives the same answer and leaves the
same cursor as with a parser that never looks at remembered outcomes. -/
theorem run_remembering (ts : List PlacedToken) (steps : List Step) :
    (Session.ofTokens ts).run .remembering steps = (Session.ofTokens ts).run .forgetful steps := by
  -- for any two sessions that are alike, since a step changes both
  have hrun : ∀ {s s' : Session}, s.Alike (.ofTokens ts) s' →
      s.run .remembering steps = s'.run .forgetful steps := by
    induction steps with
    | nil => exact fun _ => rfl
    | cons next steps ih =>
      intro s s' h
      obtain ⟨hanswer, halike⟩ := h.step rfl next
      simp only [Session.run, hanswer, halike.current.cursor, ih halike]
  exact hrun (Session.Alike.ofTokens ts)

end DrakeSyntax
