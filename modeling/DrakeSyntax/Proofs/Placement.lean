import DrakeSyntax.Proofs.Coupling.Diagonal
import DrakeSyntax.Proofs.Layout.Tokenize

/-!
# Positions do not decide how a program is read

The same tokens are read at two sequences of places. If the offsets increase on both sides, the
programs that are read are the same up to what the places do not have in common, or both fail at
the same token with the same complaint (`parseTokens_placed`). Positions are compared in one place
only, where of two errors the one that lies further on is reported, and there offsets in the same
order come to the same.

* `Placed`: the same tokens at two sequences of places.
* `parseTokens_placed`: programs and errors that are read from them.
* `parseTokens_anywhere`: programs are the same up to positions, and errors point at the same token.
-/

namespace DrakeSyntax

open DrakeSyntax.Parser

/-- The tokens of each pair are the same, at positions that are the same from a view and with
offsets in the same order. The last pair is the end. -/
structure Placed (view : Position → Position) (ps : List (PlacedToken × PlacedToken)) : Prop where
  token : ∀ p ∈ ps, p.1.token = p.2.token
  position : ∀ p ∈ ps, view p.1.position = view p.2.position
  offset : ∀ p ∈ ps, ∀ q ∈ ps, (p.1.position.offset < q.1.position.offset ↔
    p.2.position.offset < q.2.position.offset)
  ended : ps.getLast?.map (·.1.token) = some .endOfInput

/-- The errors complain about the same, each at its own place of the same pair. -/
structure ParseError.Beside (ps : List (PlacedToken × PlacedToken)) (e e' : ParseError) : Prop where
  place : ∃ p ∈ ps, e.position = p.1.position ∧ e'.position = p.2.position
  expected : e.expected = e'.expected
  found : e.found = e'.found
  note : e.note = e'.note

/-- The cursors are at the same pair. -/
structure Cursor.Beside (ps : List (PlacedToken × PlacedToken)) (c c' : Cursor) : Prop where
  index : c'.index = c.index
  rests : ∃ qs, qs <:+ ps ∧ c.rest = qs.map Prod.fst ∧ c'.rest = qs.map Prod.snd ∧
    ∃ q ∈ qs, q.1.token = .endOfInput

variable {view : Position → Position} {ps : List (PlacedToken × PlacedToken)} {c c' : Cursor}

theorem Cursor.Beside.current (h : c.Beside ps c') :
    ∃ p ∈ ps, c.current = p.1 ∧ c'.current = p.2 := by
  obtain ⟨-, qs, hsuffix, hrest, hrest', q, hq, -⟩ := h
  cases qs with
  | nil => cases hq
  | cons p qs =>
    refine ⟨p, hsuffix.subset (List.mem_cons_self ..), ?_, ?_⟩
    · rw [Cursor.current, hrest, List.map_cons]
    · rw [Cursor.current, hrest', List.map_cons]

theorem Cursor.Beside.advance (hps : Placed view ps) (h : c.Beside ps c') :
    c.advance.Beside ps c'.advance := by
  obtain ⟨⟨index, rest⟩, index', rest'⟩ := c, c'
  obtain ⟨hindex, qs, hsuffix, hrest, hrest', q, hq, hend⟩ := h
  simp only at hindex hrest hrest'
  subst hindex hrest hrest'
  cases qs with
  | nil => cases hq
  | cons p qs =>
    have htoken := hps.token p (hsuffix.subset (List.mem_cons_self ..))
    simp only [Cursor.advance, List.map_cons, ← htoken]
    split
    · exact ⟨rfl, _, hsuffix, rfl, rfl, q, hq, hend⟩
    · next hne =>
      refine ⟨rfl, qs, (List.suffix_cons p qs).trans hsuffix, rfl, rfl, q, ?_, hend⟩
      rcases List.mem_cons.1 hq with rfl | hq
      · exact absurd hend hne
      · exact hq

theorem ParseError.Beside.farther (hps : Placed view ps) {d d' e e' : ParseError}
    (hd : d.Beside ps d') (he : e.Beside ps e') :
    ParseError.Beside ps (if d.position.offset < e.position.offset then e else d)
      (if d'.position.offset < e'.position.offset then e' else d') := by
  obtain ⟨p, hp, hpd, hpd'⟩ := hd.place
  obtain ⟨q, hq, hqe, hqe'⟩ := he.place
  have hiff := hps.offset p hp q hq
  rw [← hpd, ← hpd', ← hqe, ← hqe'] at hiff
  by_cases h : d.position.offset < e.position.offset
  · rw [if_pos h, if_pos (hiff.1 h)]
    exact he
  · rw [if_neg h, if_neg fun h' => h (hiff.2 h')]
    exact hd

theorem Cursor.Beside.ended (hps : Placed view ps) (h : c.Beside ps c') : c.Ended ∧ c'.Ended := by
  obtain ⟨-, qs, hsuffix, hrest, hrest', q, hq, hend⟩ := h
  have hend' : q.2.token = .endOfInput := by rw [← hps.token q (hsuffix.subset hq), hend]
  refine ⟨⟨q.1, ?_, hend⟩, q.2, ?_, hend'⟩
  · rw [hrest]
    exact List.mem_map_of_mem hq
  · rw [hrest']
    exact List.mem_map_of_mem hq

theorem Cursor.Beside.token (hps : Placed view ps) (h : c.Beside ps c') :
    c.current.token = c'.current.token := by
  obtain ⟨p, hp, hcurrent, hcurrent'⟩ := h.current
  rw [hcurrent, hcurrent', hps.token p hp]

theorem Cursor.Beside.position (hps : Placed view ps) (h : c.Beside ps c') :
    view c.current.position = view c'.current.position := by
  obtain ⟨p, hp, hcurrent, hcurrent'⟩ := h.current
  rw [hcurrent, hcurrent', hps.position p hp]

theorem Cursor.Beside.unexpected (hps : Placed view ps) (h : c.Beside ps c')
    (expected : List String) :
    ParseError.Beside ps (.unexpected expected c.current) (.unexpected expected c'.current) := by
  obtain ⟨p, hp, hcurrent, hcurrent'⟩ := h.current
  rw [hcurrent, hcurrent']
  exact ⟨⟨p, hp, rfl, rfl⟩, rfl, congrArg Token.describe (hps.token p hp), rfl⟩

theorem Cursor.Beside.structural (hps : Placed view ps) (h : c.Beside ps c') (note : String) :
    ParseError.Beside ps (.structural note c.current) (.structural note c'.current) := by
  obtain ⟨p, hp, hcurrent, hcurrent'⟩ := h.current
  rw [hcurrent, hcurrent']
  exact ⟨⟨p, hp, rfl, rfl⟩, rfl, congrArg Token.describe (hps.token p hp), rfl⟩

theorem Cursor.Beside.index_lt_iff {d d' : Cursor} (h : c.Beside ps c') (h' : d.Beside ps d') :
    c.index < d.index ↔ c'.index < d'.index := by
  rw [h.index, h'.index]

/-- Tokens at two sequences of places. The runs never stop, since all tokens belong together. -/
def Coupling.placed (hps : Placed view ps) : Coupling where
  rel _ c c' := c.Beside ps c'
  stopped _ _ := False
  err := ParseError.Beside ps
  left _ _ := True
  view := view
  ended h := h.ended hps
  inside _ := id
  halts h := Cursor.halts_of_false h
  token h _ := h.token hps
  position h _ := h.position hps
  step h _ _ := h.advance hps
  index h h' := h.index_lt_iff h'
  unexpected _ h := h.unexpected hps _
  structural _ h := h.structural hps _
  leaves _ := trivial
  halted _ _ _ _ := False.elim
  farther := ParseError.Beside.farther hps

/-- The last token is an end token. -/
def EndsInput (ts : List PlacedToken) : Prop := ts.getLast?.map (·.token) = some .endOfInput

theorem EndsInput.closeTokens_eq {ts : List PlacedToken} (h : EndsInput ts) :
    closeTokens ts = ts := by
  obtain ⟨t, ht, hend⟩ := Option.map_eq_some_iff.1 h
  simp only [closeTokens, ht, hend, if_true]

theorem Placed.endsInput_fst (hps : Placed view ps) : EndsInput (ps.map Prod.fst) := by
  rw [EndsInput, List.getLast?_map, Option.map_map]
  exact hps.ended

theorem Placed.endsInput_snd (hps : Placed view ps) : EndsInput (ps.map Prod.snd) := by
  obtain ⟨p, hp, hend⟩ := Option.map_eq_some_iff.1 hps.ended
  rw [EndsInput, List.getLast?_map, Option.map_map, hp, Option.map_some, Function.comp_apply,
    ← hps.token p (List.mem_of_getLast? hp), hend]

/-- **Tokens are read alike wherever they stand.** -/
theorem parseTokens_placed (hps : Placed view ps) :
    (∃ p p', parseTokens (ps.map Prod.fst) = .ok p ∧ parseTokens (ps.map Prod.snd) = .ok p' ∧
        p.relocate view = p'.relocate view) ∨
      ∃ e e', parseTokens (ps.map Prod.fst) = .error e ∧
        parseTokens (ps.map Prod.snd) = .error e' ∧ e.Beside ps e' := by
  let K := Coupling.placed hps
  have hexact : K.Exact [] := fun _ _ _ => id
  have hcolonless : K.Colonless := fun _ _ => False.elim
  have hfst := hps.endsInput_fst.closeTokens_eq
  have hsnd := hps.endsInput_snd.closeTokens_eq
  rw [parseTokens_eq, parseTokens_eq, hfst, hsnd, List.length_map, List.length_map]
  have hstart : K.rel [] (ParserState.ofTokens (ps.map Prod.fst)).cursor
      (ParserState.ofTokens (ps.map Prod.snd)).cursor := by
    obtain ⟨p, hp, hend⟩ := Option.map_eq_some_iff.1 hps.ended
    exact ⟨rfl, ps, List.suffix_refl ps, hfst, hsnd, p, List.mem_of_getLast? hp, hend⟩
  have hrun := matches_programWith hexact (steady_phrases hcolonless (ps.length + 1)) _ _ hstart
  generalize programWith (phrases (ps.length + 1)) (.ofTokens (ps.map Prod.fst)) = r at hrun ⊢
  generalize programWith (phrases (ps.length + 1)) (.ofTokens (ps.map Prod.snd)) = r' at hrun ⊢
  cases hrun with
  | ok _ hview => exact .inl ⟨_, _, rfl, rfl, hview⟩
  | error herr => exact .inr ⟨_, _, rfl, rfl, herr⟩

/-! ### Arbitrary places -/

/-- Each token has a smaller offset than those behind it. -/
def Increasing (ts : List PlacedToken) : Prop :=
  ts.Pairwise fun t u => t.position.offset < u.position.offset

/-- Programs that are the same up to positions are read from the tokens, or reading fails at the
same token of both with the same complaint. -/
def ReadAlike (ts ts' : List PlacedToken) : Prop :=
  (∃ p p', parseTokens ts = .ok p ∧ parseTokens ts' = .ok p' ∧ p.same p') ∨
    ∃ (e e' : ParseError) (i : Nat) (t t' : PlacedToken), ts[i]? = some t ∧ ts'[i]? = some t' ∧
      parseTokens ts = .error e ∧ parseTokens ts' = .error e' ∧
      e.position = t.position ∧ e'.position = t'.position ∧
      e.expected = e'.expected ∧ e.found = e'.found ∧ e.note = e'.note

theorem mem_zip_iff {ts ts' : List PlacedToken} {p : PlacedToken × PlacedToken} :
    p ∈ ts.zip ts' ↔ ∃ i : Nat, ts[i]? = some p.1 ∧ ts'[i]? = some p.2 := by
  simp only [List.mem_iff_getElem?, List.getElem?_zip_eq_some]

/-- Offsets that increase on both sides are in the same order. -/
theorem offset_lt_iff {ts ts' : List PlacedToken} (hts : Increasing ts) (hts' : Increasing ts')
    {p q : PlacedToken × PlacedToken} (hp : p ∈ ts.zip ts') (hq : q ∈ ts.zip ts') :
    p.1.position.offset < q.1.position.offset ↔ p.2.position.offset < q.2.position.offset := by
  obtain ⟨i, hi, hi'⟩ := mem_zip_iff.1 hp
  obtain ⟨j, hj, hj'⟩ := mem_zip_iff.1 hq
  -- on either side it is the smaller index that has the smaller offset
  have hlt {us : List PlacedToken} (hus : Increasing us) {t u : PlacedToken} {i j : Nat}
      (ht : us[i]? = some t) (hu : us[j]? = some u) :
      t.position.offset < u.position.offset ↔ i < j := by
    obtain ⟨hi, rfl⟩ := List.getElem?_eq_some_iff.1 ht
    obtain ⟨hj, rfl⟩ := List.getElem?_eq_some_iff.1 hu
    have hpairwise := List.pairwise_iff_getElem.1 hus
    rcases Nat.lt_trichotomy i j with hij | rfl | hij
    · exact iff_of_true (hpairwise i j hi hj hij) hij
    · exact iff_of_false (Nat.lt_irrefl _) (Nat.lt_irrefl _)
    · have := hpairwise j i hj hi hij
      exact iff_of_false (by omega) (by omega)
  rw [hlt hts hi hj, hlt hts' hi' hj']

theorem placed_zip {ts ts' : List PlacedToken} (hend : EndsInput ts)
    (htokens : ts.map (·.token) = ts'.map (·.token)) (hts : Increasing ts)
    (hts' : Increasing ts') (hview : ts.map (view ·.position) = ts'.map (view ·.position)) :
    Placed view (ts.zip ts') where
  token p hp := by
    obtain ⟨i, hi, hi'⟩ := mem_zip_iff.1 hp
    have htoken := congrArg (·[i]?) htokens
    simpa [hi, hi'] using htoken
  position p hp := by
    obtain ⟨i, hi, hi'⟩ := mem_zip_iff.1 hp
    have hposition := congrArg (·[i]?) hview
    simpa [hi, hi'] using hposition
  offset p hp q hq := offset_lt_iff hts hts' hp hq
  ended := by
    have hlength : ts.length = ts'.length := by simpa using congrArg List.length htokens
    have hfst : (ts.zip ts').map Prod.fst = ts := List.map_fst_zip (Nat.le_of_eq hlength)
    rw [EndsInput, ← hfst, List.getLast?_map, Option.map_map] at hend
    exact hend

/-- Tokens that are the same up to what their places do not have in common. -/
theorem parseTokens_zip {ts ts' : List PlacedToken} (hend : EndsInput ts)
    (htokens : ts.map (·.token) = ts'.map (·.token)) (hts : Increasing ts)
    (hts' : Increasing ts') (hview : ts.map (view ·.position) = ts'.map (view ·.position)) :
    (∃ p p', parseTokens ts = .ok p ∧ parseTokens ts' = .ok p' ∧
        p.relocate view = p'.relocate view) ∨
      ∃ e e', parseTokens ts = .error e ∧ parseTokens ts' = .error e' ∧
        e.Beside (ts.zip ts') e' := by
  have hlength : ts.length = ts'.length := by simpa using congrArg List.length htokens
  have hplaced := parseTokens_placed (placed_zip hend htokens hts hts' hview)
  rwa [List.map_fst_zip (Nat.le_of_eq hlength), List.map_snd_zip (Nat.le_of_eq hlength.symm)]
    at hplaced

theorem readAlike {ts ts' : List PlacedToken} (hend : EndsInput ts)
    (htokens : ts.map (·.token) = ts'.map (·.token)) (hts : Increasing ts)
    (hts' : Increasing ts') : ReadAlike ts ts' := by
  -- places need not have anything in common
  have hview : ts.map (fun _ => Position.start) = ts'.map (fun _ => Position.start) := by
    have hlength : ts.length = ts'.length := by simpa using congrArg List.length htokens
    rw [List.map_const', List.map_const', hlength]
  rcases @parseTokens_zip (fun _ => .start) _ _ hend htokens hts hts' hview with
    ⟨p, p', hp, hp', hview⟩ | ⟨e, e', he, he', hbeside⟩
  · exact .inl ⟨p, p', hp, hp', Program.same_of_relocate hview⟩
  · obtain ⟨q, hq, hposition, hposition'⟩ := hbeside.place
    obtain ⟨i, hi, hi'⟩ := mem_zip_iff.1 hq
    exact .inr ⟨e, e', i, q.1, q.2, hi, hi', he, he', hposition, hposition', hbeside.expected,
      hbeside.found, hbeside.note⟩

/-- The tokens of a text end with an end token, and their offsets increase. -/
theorem endsInput_tokenize {text : String} {ts : List PlacedToken} (h : tokenize text = .ok ts) :
    EndsInput ts ∧ Increasing ts := by
  have hlaid := laidOut_of_tokenize h
  obtain ⟨us, p, rfl, -, -⟩ := hlaid.ends
  exact ⟨by simp [EndsInput], hlaid.sorted⟩

/-- **Layout does not influence parsing.** Tokens that end with an end token are read alike
wherever they stand, as long as their offsets increase. So texts with the same tokens are read as
programs that are the same up to positions, or reading fails with the same wording. -/
theorem parseTokens_anywhere :
    (∀ {ts ts' : List PlacedToken}, EndsInput ts → EndsInput ts' →
      ts.map (·.token) = ts'.map (·.token) → Increasing ts → Increasing ts' → ReadAlike ts ts') ∧
    ∀ {text text' : String} {ts ts' : List PlacedToken}, tokenize text = .ok ts →
      tokenize text' = .ok ts' → ts.map (·.token) = ts'.map (·.token) →
      (∃ p p', parse text = .ok p ∧ parse text' = .ok p' ∧ p.same p') ∨
        ∃ e e', parse text = .error e ∧ parse text' = .error e' ∧ e.summary = e'.summary := by
  refine ⟨fun hend _ => readAlike hend, fun {text text' ts ts'} h h' htokens => ?_⟩
  obtain ⟨hend, hts⟩ := endsInput_tokenize h
  obtain ⟨-, hts'⟩ := endsInput_tokenize h'
  rw [parse_of_tokenize h, parse_of_tokenize h']
  rcases readAlike hend htokens hts hts' with
    ⟨p, p', hp, hp', hsame⟩ | ⟨e, e', i, t, t', -, -, he, he', -, -, hexpected, hfound, hnote⟩
  · rw [hp, hp']
    exact .inl ⟨p, p', rfl, rfl, hsame⟩
  · rw [he, he']
    refine .inr ⟨.parse e, .parse e', rfl, rfl, ?_⟩
    simp only [SyntaxError.summary, ParseError.summary, hexpected, hfound, hnote]

/-- An operand is missing, on the first line or further down; and the same sum with blanks and a
comment inside. -/
theorem parseTokens_anywhere_sum :
    ReadAlike [⟨.punctuator .plus, ⟨1, 1, 0⟩⟩, ⟨.endOfInput, ⟨1, 2, 1⟩⟩]
      [⟨.punctuator .plus, ⟨7, 3, 40⟩⟩, ⟨.endOfInput, ⟨2, 9, 41⟩⟩] ∧
    ((∃ p p', parse "a+1" = .ok p ∧ parse " a +/*1*/ 1" = .ok p' ∧ p.same p') ∨
      ∃ e e', parse "a+1" = .error e ∧ parse " a +/*1*/ 1" = .error e' ∧
        e.summary = e'.summary) := by
  have hdense : tokenize "a+1" = .ok [⟨.identifier "a", ⟨1, 1, 0⟩⟩, ⟨.punctuator .plus, ⟨1, 2, 1⟩⟩,
      ⟨.number ⟨"1", .decimal⟩, ⟨1, 3, 2⟩⟩, ⟨.endOfInput, ⟨1, 4, 3⟩⟩] :=
    eq_ok_of_toOption (by decide +kernel)
  have hwide : tokenize " a +/*1*/ 1" = .ok [⟨.identifier "a", ⟨1, 2, 1⟩⟩,
      ⟨.punctuator .plus, ⟨1, 4, 3⟩⟩, ⟨.number ⟨"1", .decimal⟩, ⟨1, 11, 10⟩⟩,
      ⟨.endOfInput, ⟨1, 12, 11⟩⟩] :=
    eq_ok_of_toOption (by decide +kernel)
  refine ⟨?_, parseTokens_anywhere.2 hdense hwide rfl⟩
  refine parseTokens_anywhere.1 rfl rfl rfl ?_ ?_
  · simp [Increasing]
  · simp [Increasing]

end DrakeSyntax
