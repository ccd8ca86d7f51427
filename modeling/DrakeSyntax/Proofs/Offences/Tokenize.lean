import DrakeSyntax.Proofs.Cutting.Scan
import DrakeSyntax.Proofs.Cutting.Tokenize
import DrakeSyntax.Proofs.Offences
import DrakeSyntax.Proofs.Streaming

/-!
# The error of a text is that of its first offence

A text that cannot be read is read up to a place where no token can be scanned. What stands in front
of that place is a text that can be read, and its tokens are those that are handed out before the
error. What stands there is at fault (`tokenize_error`).

* `TokenStream.Stops`: where reading stops, and what has been read.
* `TokenStream.Stops.behind_lexeme`: a lexeme in front.
-/

namespace DrakeSyntax

/-- What the source begins with cannot be scanned, or it is a comment that is not closed. -/
inductive CellSource.Refuses : CellSource → LexError → Prop
  | lexeme {c : Cell} {cs : List Cell} {finish : Position} {e : LexError} {s' : CellSource}
      (clear : Gap.Clear (c :: cs))
      (run : CellScan.lexeme c.char c.position ⟨c :: cs, finish⟩ = .error e s') :
      Refuses ⟨c :: cs, finish⟩ e
  | comment {c d : Cell} {cs : List Cell} {finish : Position} (slash : c.char = '/')
      (star : d.char = '*') (unclosed : Gap.Unclosed false cs) :
      Refuses ⟨c :: d :: cs, finish⟩ ⟨.unterminatedComment, c.position⟩

variable {s s' t : CellSource} {c : Cell} {cs cells gone rest : List Cell} {finish : Position}
  {b : Option Position} {e : LexError} {front tail : List PlacedToken}

namespace CellSource

/-! ### The answers -/

/-- The answers to `n` calls that take a token from the cells. -/
def answers : CellSource → Nat → List TokenStream.Answer
  | _, 0 => []
  | s, n + 1 =>
    match CellScan.token s with
    | .ok u s' => .ok u :: answers s' n
    | .error e s' => .error e :: answers s' n

theorem answers_of_ok {u : PlacedToken} (h : CellScan.token s = .ok u s') (n : Nat) :
    answers s (n + 1) = .ok u :: answers s' n := by
  rw [answers, h]

theorem answers_of_error (h : CellScan.token s = .error e s') : answers s 1 = [.error e] := by
  rw [answers, h]
  rfl

/-- A gap is answered with its first line break. -/
theorem answers_of_gap (h : Gap.leading s.cells = ⟨b, none, rest⟩) (n : Nat) :
    answers s ((newlineAt b).length + (n + 1)) =
      (newlineAt b).map .ok ++ answers ⟨rest, s.finish⟩ (n + 1) := by
  cases b with
  | some p =>
    rw [newlineAt, Option.map_some, Option.toList_some, List.length_singleton, Nat.add_comm,
      answers_of_ok (CellScan.token_of_break (CellScan.gap_of_leading h))]
    rfl
  | none =>
    have htoken := CellScan.token_of_leading h
    rw [newlineAt, Option.map_none, Option.toList_none, List.length_nil, Nat.zero_add, List.map_nil,
      List.nil_append, answers, answers, htoken]

/-- A gap and the lexeme behind it are answered. -/
theorem answers_of_lexeme {a : Token} (hgap : Gap.leading s.cells = ⟨b, none, c :: cs⟩)
    (hclear : Gap.Clear (c :: cs))
    (hrun : CellScan.lexeme c.char c.position ⟨c :: cs, s.finish⟩ = .ok a s') (n : Nat) :
    answers s ((newlineAt b).length + (n + 1)) =
      (newlineAt b).map .ok ++ .ok ⟨a, c.position⟩ :: answers s' n := by
  have htoken := CellScan.token_of_clear hclear s.finish
  rw [hrun] at htoken
  rw [answers_of_gap hgap, answers_of_ok htoken]

/-! ### Where reading stops -/

/-- Reading the source comes to the error in front of `t`. The cells that stand there are read as
`front`, which is what is handed out before the error, and the end. -/
structure Stops (s : CellSource) (e : LexError) (cells : List Cell) (t : CellSource)
    (front tail : List PlacedToken) : Prop where
  behind : s = .behind cells t
  refuses : t.Refuses e
  rest : (tokens ⟨cells, t.position⟩) = .ok (front ++ tail)
  ends : ∀ u ∈ tail, u.token = .newline ∨ u.token = .endOfInput
  answers : answers s (front.length + 1) = front.map .ok ++ [.error e]

/-- Cells that are passed are read as a gap. -/
theorem tokens_of_passes {state : GapState} (hpasses : Gap.Passes .plain cells b state)
    (hplain : state.newline = .plain) (finish : Position) :
    (tokens ⟨cells, finish⟩) = .ok (newlineAt b ++ [⟨.endOfInput, finish⟩]) :=
  tokens_of_gap (s := ⟨cells, finish⟩) (hpasses.leading_end hplain)

/-- A comment is not closed. -/
theorem stops_of_opens (h : Gap.Opens .plain s.cells finish)
    (hopen : (Gap.leading s.cells).openComment = some finish) :
    ∃ cells t front tail, Stops s ⟨.unterminatedComment, finish⟩ cells t front tail := by
  obtain ⟨cells, last⟩ := s
  rcases h with ⟨star, hstate, -⟩ | ⟨pre, b, c, d, ds, rfl, rfl, hslash, hstar, hpasses, hunclosed⟩
  · cases hstate
  obtain ⟨s', hgap⟩ := CellScan.gap_of_open hopen
  refine ⟨pre, ⟨c :: d :: ds, last⟩, [], newlineAt b ++ [⟨.endOfInput, c.position⟩], rfl,
    .comment hslash hstar hunclosed, tokens_of_passes hpasses rfl _, fun u hu => ?_,
    answers_of_error (CellScan.bind_of_error hgap)⟩
  rcases List.mem_append.1 hu with hu | hu
  · obtain ⟨p, -, rfl⟩ := Option.map_eq_some_iff.1 (Option.mem_toList.1 hu)
    exact .inl rfl
  · exact .inr (by rw [List.mem_singleton.1 hu])

/-- The lexeme behind a gap cannot be scanned. -/
theorem stops_of_lexeme (hpasses : Gap.Passes .plain gone b .plain) (hclear : Gap.Clear (c :: cs))
    (hrun : CellScan.lexeme c.char c.position ⟨c :: cs, finish⟩ = .error e s') :
    Stops ⟨gone ++ c :: cs, finish⟩ e gone ⟨c :: cs, finish⟩ (newlineAt b)
      [⟨.endOfInput, c.position⟩] where
  behind := rfl
  refuses := .lexeme hclear hrun
  rest := tokens_of_passes hpasses rfl _
  ends u hu := .inr (by rw [List.mem_singleton.1 hu])
  answers := by
    have htoken := CellScan.token_of_clear hclear finish
    rw [hrun] at htoken
    rw [answers_of_gap (hpasses.leading hclear) 0, answers_of_error htoken]

/-- **A lexeme in front.** -/
theorem Stops.behind_lexeme {a : Token} (hpasses : Gap.Passes .plain gone b .plain)
    (hclear : Gap.Clear (c :: cs))
    (hrun : CellScan.lexeme c.char c.position ⟨c :: cs, finish⟩ = .ok a s')
    (h : Stops s' e cells t front tail) : ∃ more,
      Stops ⟨gone ++ c :: cs, finish⟩ e (gone ++ c :: more) t
        (newlineAt b ++ ⟨a, c.position⟩ :: front) tail := by
  obtain rfl : s' = .behind cells t := h.behind
  obtain ⟨more, rfl, rfl, hshort⟩ := CellScan.lexeme_cut hrun
  have hclear' : Gap.Clear (c :: more) := Gap.Clear.of_append hclear
  refine ⟨more, ?_, h.refuses, ?_, h.ends, ?_⟩
  · rw [CellSource.behind, List.append_assoc]
    rfl
  · rw [tokens_of_lexeme (s := ⟨gone ++ c :: more, t.position⟩) (hpasses.leading hclear') hclear'
      hshort, h.rest]
    exact congrArg Except.ok (by simp)
  · have hanswers := answers_of_lexeme (s := ⟨gone ++ c :: (more ++ t.cells), t.finish⟩)
      (hpasses.leading hclear) hclear hrun (front.length + 1)
    rw [List.length_append, List.length_cons, Nat.add_assoc, hanswers, h.answers]
    simp

/-- **Reading stops where what comes next is refused.** -/
theorem exists_stops (h : s.tokens = .error e) :
    ∃ cells t front tail, Stops s e cells t front tail := by
  induction hn : s.cells.length using Nat.strong_induction_on generalizing s with
  | _ n ih =>
    subst hn
    obtain ⟨cells, finish⟩ := s
    have hcrosses := Gap.crosses .plain cells
    cases hcrosses with
    | finished hpasses hplain =>
      rw [tokens_of_passes hpasses hplain] at h
      cases h
    | opened hpasses hopens =>
      rw [tokens_of_open hpasses.leading_open] at h
      cases h
      exact stops_of_opens hopens hpasses.leading_open
    | @clear gone rest b hpasses hmore hclear =>
      obtain ⟨c, cs, rfl⟩ := List.exists_cons_of_ne_nil hmore
      have hgap := hpasses.leading hclear
      cases hrun : CellScan.lexeme c.char c.position ⟨c :: cs, finish⟩ with
      | error e' s' =>
        rw [tokens_of_lexeme_error (s := ⟨gone ++ c :: cs, finish⟩) hgap hclear hrun] at h
        cases h
        exact ⟨_, _, _, _, stops_of_lexeme hpasses hclear hrun⟩
      | ok a s' =>
        -- less is left behind the lexeme, and the error is found there
        have hpast := CellScan.past_lexeme c cs finish c.position
        rw [CellScan.left_of_ok hrun] at hpast
        rw [tokens_of_lexeme (s := ⟨gone ++ c :: cs, finish⟩) hgap hclear hrun] at h
        have hlt : s'.cells.length < (gone ++ c :: cs).length := by
          rw [List.length_append]
          exact Nat.lt_of_lt_of_le hpast.2.2 (Nat.le_add_left ..)
        obtain ⟨cells', t, front, tail, hstops⟩ := ih _ hlt (eq_error_of_map h) rfl
        obtain ⟨more, hstops⟩ := hstops.behind_lexeme hpasses hclear hrun
        exact ⟨_, _, _, _, hstops⟩

end CellSource

/-! ### Texts -/

/-- A stream answers as the cells of its source do. -/
theorem TokenStream.answers_asCells (n : Nat) (s : Source) :
    ((ofSource s).calls (.replicate n .next)).1 = s.asCells.answers n := by
  induction n generalizing s with
  | zero => rfl
  | succ n ih =>
    have htoken : Scan.Mirrored s id (Scan.token s) (CellScan.token s.asCells) :=
      Scan.mirrors_token s
    generalize hrun : Scan.token s = r at htoken
    rw [List.replicate_succ, calls, CellSource.answers]
    generalize CellScan.token s.asCells = r' at htoken
    cases htoken with
    | ok value cells follows =>
      cases value
      subst cells
      rw [(standsAt_ofSource.call_of_ok hrun).1]
      exact congrArg (_ :: ·) (ih _)
    | error cells follows =>
      subst cells
      rw [standsAt_ofSource.call_of_error hrun]
      exact congrArg (_ :: ·) (ih _)

/-- What is refused is at fault. -/
theorem CellSource.Refuses.offendsAt {offset : Nat} {k : List Char} (h : t.Refuses e)
    (hs : t.Shows offset k) : e.OffendsAt t := by
  cases h with
  | @lexeme c cs finish e s' clear run =>
    obtain ⟨p, rfl, hp⟩ := hs
    obtain ⟨-, -, hline, -⟩ :=
      CellSource.eq_cons_of_ofChars (congrArg CellSource.cells hp).symm clear.2.1
    exact CellScan.offends_lexeme clear.1 hline finish e s' run
  | @comment c d cs finish slash star unclosed =>
    refine ⟨[], c :: d :: cs, rfl, unbroken_nil, rfl, ?_⟩
    rw [List.map_cons, List.map_cons, slash, star]
    exact .unterminatedComment unclosed

/-- **An error names the first offence.** The text in front of it, or in front of the literal that
it lies in, can be read: its tokens, up to the end and a line break in front of the end, are what is
handed out before the error. From the place of the error on, the text is at fault. -/
theorem tokenize_error {text : String} (h : tokenize text = .error e) :
    ∃ pre lit back front tail, text.toList = pre ++ (lit ++ back) ∧
      e.position.offset = byteLength (pre ++ lit) ∧ e.fault.Offends lit back ∧
      tokenize (String.ofList pre) = .ok (front ++ tail) ∧
      (∀ u ∈ tail, u.token = .newline ∨ u.token = .endOfInput) ∧
      ((TokenStream.ofString text).calls (.replicate (front.length + 1) .next)).1 =
        front.map .ok ++ [.error e] := by
  rw [tokenize_eq] at h
  obtain ⟨cells, t, front, tail, hstops⟩ := CellSource.exists_stops h
  obtain ⟨pre, k, htext, hpre, hk⟩ := CellSource.exists_cut hstops.behind
  have hoffset : t.position.offset = byteLength pre := by
    have hfinish := CellSource.finish_offset_ofChars .start pre
    rw [hpre] at hfinish
    exact hfinish.trans (Nat.zero_add _)
  have hshows : t.Shows (byteLength pre) k := ⟨t.position, hoffset, hk.symm⟩
  obtain ⟨lit, back, rfl, hposition, hoffends⟩ := (hstops.refuses.offendsAt hshows).shows hshows
  refine ⟨pre, lit, back, front, tail, htext, ?_, hoffends, ?_, hstops.ends, ?_⟩
  · rw [hposition, byteLength_append]
  · have hsource : CellSource.ofString (String.ofList pre) = ⟨cells, t.position⟩ := by
      rw [CellSource.ofString, String.toList_ofList, hpre]
    rw [tokenize_eq, hsource]
    exact hstops.rest
  · rw [← hstops.answers]
    exact TokenStream.answers_asCells _ (.ofString text)

/-- The first of two separators in a hexadecimal number is not followed by a digit. -/
theorem tokenize_error_separator :
    let e : LexError := ⟨.misplacedSeparator, ⟨2, 4, 5⟩⟩
    tokenize "a\n0xf__1" = .error e ∧
      ∃ pre lit back front tail, "a\n0xf__1".toList = pre ++ (lit ++ back) ∧
        e.position.offset = byteLength (pre ++ lit) ∧ e.fault.Offends lit back ∧
        tokenize (String.ofList pre) = .ok (front ++ tail) ∧
        (∀ u ∈ tail, u.token = .newline ∨ u.token = .endOfInput) ∧
        ((TokenStream.ofString "a\n0xf__1").calls (.replicate (front.length + 1) .next)).1 =
          front.map .ok ++ [.error e] := by
  intro e
  have h : tokenize "a\n0xf__1" = .error e := by decide +kernel
  exact ⟨h, tokenize_error h⟩

end DrakeSyntax
