import DrakeSyntax.Proofs.Lexeme
import Mathlib.Data.List.Chain

/-!
# How a text is laid out

A text is laid out as a sequence of tokens if it is cut into lexemes and the gaps in front of,
between and behind them: each lexeme writes a token at its own offset, each gap consists of
blanks, line breaks and comments (`Trivia`), and a gap that crosses a line break is itself a
token, which stands at the first break (`breakAt`). The tokens end with the end token.

* `LaidOut offset w ts` says that the text `w`, whose first character has the given offset, is
  laid out as the tokens `ts`.
* `LaidOut.ends`, `LaidOut.sorted` and `LaidOut.apart` say what that means for the tokens alone.
* `LaidOut.exists_cut` cuts the text where a token is written.
-/

namespace DrakeSyntax

/-- The blanks that stand in a line. -/
def blankChars : List Char := [' ', '\t', '\x0b', '\x0c']

/-- The text consists of blanks, line breaks and comments. A line comment runs to a line break;
only if the text is not `closed`, the last one may run to its end. -/
inductive Trivia : (closed : Bool) → List Char → Prop
  | nil {closed} : Trivia closed []
  | blank {closed c w} : c ∈ blankChars → Trivia closed w → Trivia closed (c :: w)
  | lineBreak {closed c w} : breaksLine c → Trivia closed w → Trivia closed (c :: w)
  | lineComment {closed body c w} : (∀ d ∈ body, breaksLine d = false) → breaksLine c →
      Trivia closed w → Trivia closed ('/' :: '/' :: (body ++ c :: w))
  | openComment {body} : (∀ d ∈ body, breaksLine d = false) → Trivia false ('/' :: '/' :: body)
  | blockComment {closed body w} : ¬ ['*', '/'] <:+: body → Trivia closed w →
      Trivia closed ('/' :: '*' :: (body ++ '*' :: '/' :: w))

theorem isBlank_iff {c : Char} : isBlank c ↔ c ∈ blankChars := by
  simp only [isBlank, blankChars, Bool.or_eq_true, beq_iff_eq, List.mem_cons, List.not_mem_nil,
    or_false, or_assoc]

/-- The offset of the first line break of a text, whose first character has the offset
`offset`. -/
def breakAt (offset : Nat) : List Char → Option Nat
  | [] => none
  | c :: w => if breaksLine c then some offset else breakAt (offset + c.utf8Size) w

/-- What stands for a gap whose first line break is at `offset?`. -/
def NewlineFor (offset? : Option Nat) (ts : List PlacedToken) : Prop :=
  match offset? with
  | none => ts = []
  | some offset => ∃ p : Position, p.offset = offset ∧ ts = [⟨.newline, p⟩]

/-- The text, which begins with a lexeme or is empty, is laid out as the tokens. -/
inductive Lexemes : (offset : Nat) → List Char → List PlacedToken → Prop
  | finish {offset p} : p.offset = offset → Lexemes offset [] [⟨.endOfInput, p⟩]
  | lexeme {offset w g k t nl ts} : t.position.offset = offset → Lexeme w t.token →
      Trivia (!k.isEmpty) g → NewlineFor (breakAt (offset + byteLength w) g) nl →
      Lexemes (offset + byteLength w + byteLength g) k ts →
      Lexemes offset (w ++ (g ++ k)) (t :: (nl ++ ts))

/-- **The text is laid out as the tokens.** -/
def LaidOut (offset : Nat) (text : List Char) (ts : List PlacedToken) : Prop :=
  ∃ g k nl us, text = g ++ k ∧ Trivia (!k.isEmpty) g ∧ NewlineFor (breakAt offset g) nl ∧
    Lexemes (offset + byteLength g) k us ∧ ts = nl ++ us

/-! ### The tokens of a layout -/

theorem Lexeme.ne_nil {w : List Char} {t : Token} (h : Lexeme w t) : w ≠ [] := by
  cases h with
  | keyword k => decide +revert +kernel
  | punctuator p => decide +revert +kernel
  | number h => cases h <;> simp
  | identifier | string => simp

/-- A lexeme writes neither a line break nor the end. -/
theorem Lexeme.token_ne {w : List Char} {t : Token} (h : Lexeme w t) :
    t ≠ .newline ∧ t ≠ .endOfInput := by
  cases h <;> simp

theorem byteLength_pos {w : List Char} (h : w ≠ []) : 0 < byteLength w := by
  cases w with
  | nil => exact absurd rfl h
  | cons c w =>
    have := c.utf8Size_pos
    rw [byteLength_cons]
    omega

/-- A text is cut alike by two cuts behind as many bytes. -/
theorem append_inj_of_byteLength {v v' w w' : List Char} (h : v ++ w = v' ++ w')
    (hlength : byteLength v = byteLength v') : v = v' ∧ w = w' := by
  have hnil {u : List Char} (hu : byteLength u = 0) : u = [] := by
    by_contra hne
    exact absurd hu (Nat.ne_of_gt (byteLength_pos hne))
  rcases List.append_eq_append_iff.1 h with ⟨u, rfl, rfl⟩ | ⟨u, rfl, rfl⟩ <;>
  · rw [byteLength_append] at hlength
    obtain rfl := hnil (u := u) (by omega)
    exact ⟨by rw [List.append_nil], rfl⟩

/-- The first line break of a text is inside it. -/
theorem breakAt_bounds {offset b : Nat} {w : List Char} (h : breakAt offset w = some b) :
    offset ≤ b ∧ b < offset + byteLength w := by
  induction w generalizing offset with
  | nil => cases h
  | cons c w ih =>
    have hpos := c.utf8Size_pos
    rw [breakAt] at h
    rw [byteLength_cons]
    split at h
    · cases h
      omega
    · have := ih h
      omega

theorem NewlineFor.mem {offset : Nat} {w : List Char} {nl : List PlacedToken}
    (h : NewlineFor (breakAt offset w) nl) {t : PlacedToken} (ht : t ∈ nl) :
    t.token = .newline ∧ offset ≤ t.position.offset ∧
      t.position.offset < offset + byteLength w := by
  cases hb : breakAt offset w with
  | none =>
    rw [hb] at h
    cases h
    cases ht
  | some b =>
    rw [hb] at h
    obtain ⟨p, rfl, rfl⟩ := h
    cases List.mem_singleton.1 ht
    exact ⟨rfl, breakAt_bounds hb⟩

/-- At most one token stands for a gap. -/
theorem NewlineFor.pairwise {offset? : Option Nat} {nl : List PlacedToken}
    (h : NewlineFor offset? nl) {R : PlacedToken → PlacedToken → Prop} : nl.Pairwise R := by
  cases offset? with
  | none =>
    cases h
    exact .nil
  | some offset =>
    obtain ⟨p, -, rfl⟩ := h
    exact List.pairwise_singleton ..

namespace Lexemes

variable {offset : Nat} {w : List Char} {ts : List PlacedToken}

theorem le_offset (h : Lexemes offset w ts) : ∀ t ∈ ts, offset ≤ t.position.offset := by
  induction h with
  | finish hp =>
    intro t ht
    cases List.mem_singleton.1 ht
    exact Nat.le_of_eq hp.symm
  | lexeme ht _ _ hnl _ ih =>
    intro u hu
    rcases List.mem_cons.1 hu with rfl | hu
    · exact Nat.le_of_eq ht.symm
    · rcases List.mem_append.1 hu with hu | hu
      · have := (hnl.mem hu).2.1
        omega
      · have := ih u hu
        omega

/-- The end token is the last one, at the end of the text. -/
theorem ends (h : Lexemes offset w ts) : ∃ us p, ts = us ++ [⟨.endOfInput, p⟩] ∧
    p.offset = offset + byteLength w ∧ ∀ t ∈ us, t.token ≠ .endOfInput := by
  induction h with
  | @finish offset p hp =>
    refine ⟨[], p, rfl, hp, ?_⟩
    intro t ht
    cases ht
  | @lexeme offset w g k t nl ts _ hlexeme _ hnl _ ih =>
    obtain ⟨us, p, rfl, hp, hus⟩ := ih
    refine ⟨t :: (nl ++ us), p, by simp, ?_, ?_⟩
    · rw [hp, byteLength_append, byteLength_append]
      omega
    · intro u hu
      rcases List.mem_cons.1 hu with rfl | hu
      · exact hlexeme.token_ne.2
      · rcases List.mem_append.1 hu with hu | hu
        · rw [(hnl.mem hu).1]
          decide
        · exact hus u hu

/-- The offsets of the tokens increase. -/
theorem sorted (h : Lexemes offset w ts) :
    ts.Pairwise fun t u => t.position.offset < u.position.offset := by
  induction h with
  | finish => exact List.pairwise_singleton ..
  | lexeme ht hlexeme _ hnl hts ih =>
    have hpos := byteLength_pos hlexeme.ne_nil
    refine List.pairwise_cons.2 ⟨?_, List.pairwise_append.2 ⟨hnl.pairwise, ih, ?_⟩⟩
    · intro u hu
      rcases List.mem_append.1 hu with hu | hu
      · have := (hnl.mem hu).2.1
        omega
      · have := hts.le_offset u hu
        omega
    · intro t ht u hu
      have := (hnl.mem ht).2.2
      have := hts.le_offset u hu
      omega

end Lexemes

/-- Not both tokens are line breaks. -/
def Apart (t u : PlacedToken) : Prop := ¬ (t.token = .newline ∧ u.token = .newline)

theorem isChain_apart_cons {t : PlacedToken} {ts : List PlacedToken} (ht : t.token ≠ .newline)
    (hts : ts.IsChain Apart) : (t :: ts).IsChain Apart := by
  cases ts with
  | nil => exact .singleton t
  | cons u ts => exact .cons_cons (fun h => ht h.1) hts

/-- A gap and the lexemes behind it have no two line breaks in a row, as the lexemes do not begin
with one. -/
theorem NewlineFor.apart {offset? : Option Nat} {offset : Nat} {w : List Char}
    {nl ts : List PlacedToken} (hnl : NewlineFor offset? nl) (hts : Lexemes offset w ts)
    (hchain : ts.IsChain Apart) : (nl ++ ts).IsChain Apart := by
  cases offset? with
  | none =>
    cases hnl
    exact hchain
  | some b =>
    obtain ⟨p, -, rfl⟩ := hnl
    cases hts with
    | finish => exact .cons_cons (by simp [Apart]) hchain
    | lexeme _ hlexeme => exact .cons_cons (fun h => hlexeme.token_ne.1 h.2) hchain

theorem Lexemes.apart {offset : Nat} {w : List Char} {ts : List PlacedToken}
    (h : Lexemes offset w ts) : ts.IsChain Apart := by
  induction h with
  | finish => exact .singleton _
  | lexeme _ hlexeme _ hnl hts ih =>
    exact isChain_apart_cons hlexeme.token_ne.1 (hnl.apart hts ih)

namespace LaidOut

variable {offset : Nat} {w : List Char} {ts : List PlacedToken}

/-- The end token is the last one, at the end of the text. -/
theorem ends (h : LaidOut offset w ts) : ∃ us p, ts = us ++ [⟨.endOfInput, p⟩] ∧
    p.offset = offset + byteLength w ∧ ∀ t ∈ us, t.token ≠ .endOfInput := by
  obtain ⟨g, k, nl, us, rfl, -, hnl, hus, rfl⟩ := h
  obtain ⟨vs, p, rfl, hp, hvs⟩ := hus.ends
  refine ⟨nl ++ vs, p, by simp, ?_, ?_⟩
  · rw [hp, byteLength_append]
    omega
  · intro t ht
    rcases List.mem_append.1 ht with ht | ht
    · rw [(hnl.mem ht).1]
      decide
    · exact hvs t ht

/-- The offsets of the tokens increase. -/
theorem sorted (h : LaidOut offset w ts) :
    ts.Pairwise fun t u => t.position.offset < u.position.offset := by
  obtain ⟨g, k, nl, us, rfl, -, hnl, hus, rfl⟩ := h
  refine List.pairwise_append.2 ⟨hnl.pairwise, hus.sorted, ?_⟩
  intro t ht u hu
  have := (hnl.mem ht).2.2
  have := hus.le_offset u hu
  omega

/-- No two line breaks are neighbours. -/
theorem apart (h : LaidOut offset w ts) : ts.IsChain Apart := by
  obtain ⟨g, k, nl, us, -, -, hnl, hus, rfl⟩ := h
  exact hnl.apart hus hus.apart

end LaidOut

/-! ### Where a token is written -/

variable {offset : Nat} {w : List Char} {pre us ts : List PlacedToken} {t : PlacedToken}

/-- The line break of a gap is not one of the tokens behind it. -/
theorem NewlineFor.exists_suffix {offset? : Option Nat} {nl : List PlacedToken}
    (h : NewlineFor offset? nl) (ht : t.token ≠ .newline)
    (hts : nl ++ ts = pre ++ t :: us) : ∃ pre', ts = pre' ++ t :: us := by
  cases offset? with
  | none =>
    cases h
    exact ⟨pre, hts⟩
  | some offset =>
    obtain ⟨p, -, rfl⟩ := h
    cases pre with
    | nil =>
      cases hts
      exact absurd rfl ht
    | cons t' pre => exact ⟨pre, (List.cons.inj hts).2⟩

/-- **A token stands in the text where it is written**, and the tokens behind it are written behind
it. -/
theorem Lexemes.exists_cut (h : Lexemes offset w ts) (hts : ts = pre ++ t :: us)
    (hnewline : t.token ≠ .newline) (hend : t.token ≠ .endOfInput) :
    ∃ before v after, w = before ++ (v ++ after) ∧ t.position.offset = offset + byteLength before ∧
      Lexeme v t.token ∧ LaidOut (t.position.offset + byteLength v) after us := by
  induction h generalizing pre with
  | @finish _ q =>
    have hmem : t ∈ [(⟨.endOfInput, q⟩ : PlacedToken)] := by
      rw [hts]
      exact List.mem_append_right pre List.mem_cons_self
    rw [List.mem_singleton.1 hmem] at hend
    exact absurd rfl hend
  | @lexeme offset w g k t' nl ts ht' hlexeme hg hnl hrest ih =>
    cases pre with
    | nil =>
      obtain ⟨rfl, rfl⟩ := List.cons.inj hts
      rw [← ht'] at hnl hrest
      exact ⟨[], w, g ++ k, rfl, ht', hlexeme, g, k, nl, ts, rfl, hg, hnl, hrest, rfl⟩
    | cons u pre =>
      obtain ⟨pre', hts'⟩ := hnl.exists_suffix hnewline (List.cons.inj hts).2
      obtain ⟨before, v, after, rfl, hoffset, hv, hafter⟩ := ih hts'
      refine ⟨w ++ (g ++ before), v, after, by simp, ?_, hv, hafter⟩
      rw [hoffset, byteLength_append, byteLength_append]
      omega

theorem LaidOut.exists_cut (h : LaidOut offset w (pre ++ t :: us)) (hnewline : t.token ≠ .newline)
    (hend : t.token ≠ .endOfInput) :
    ∃ before v after, w = before ++ (v ++ after) ∧ t.position.offset = offset + byteLength before ∧
      Lexeme v t.token ∧ LaidOut (t.position.offset + byteLength v) after us := by
  obtain ⟨g, k, nl, ts, rfl, -, hnl, hlexemes, hts⟩ := h
  obtain ⟨pre', hts'⟩ := hnl.exists_suffix hnewline hts.symm
  obtain ⟨before, v, after, rfl, hoffset, hv, hafter⟩ := hlexemes.exists_cut hts' hnewline hend
  refine ⟨g ++ before, v, after, by simp, ?_, hv, hafter⟩
  rw [hoffset, byteLength_append]
  omega

end DrakeSyntax
