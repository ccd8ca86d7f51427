import DrakeSyntax.Proofs.Wording
import DrakeSyntax.Report.Diagnostic
import DrakeSyntax.Report.Render

/-!
# The listing of tokens

A listing has one line for each token: the position, filled up with blanks to eight columns, and
what the token is called (`render_listing`). No line is broken by what stands in it, as the wording
of a token lies on one line, and the white space that is taken away at the end is the last line
break alone, as the last token is the end of the input.

A position that fills the eight columns by itself has no blank behind it
(`not_render_listing_spaced`).
-/

namespace DrakeSyntax

open Diagnostic (blanks)

/-! ### Lines -/

/-- The lines of a text. -/
def linesOf (s : String) : List String := (s.toList.splitOn '\n').map String.ofList

section

variable {s : String} {ss : List String}

theorem linesOf_oneLine (h : OneLine s) : linesOf s = [s] := by
  rw [linesOf, List.splitOn_eq_singleton h, List.map_singleton, String.ofList_toList]

/-- The first line break ends the first line. -/
theorem linesOf_append (h : OneLine s) (t : String) :
    linesOf (s ++ "\n" ++ t) = s :: linesOf t := by
  have htext : (s ++ "\n" ++ t).toList = s.toList ++ '\n' :: t.toList := by
    simp [String.toList_append]
  rw [linesOf, htext, List.splitOn_append_cons_self_of_not_mem h, List.map_cons,
    String.ofList_toList, linesOf]

theorem linesOf_join (hss : ∀ s ∈ ss, OneLine s) (h : OneLine s) :
    linesOf (String.join (ss.map (· ++ "\n")) ++ s) = ss ++ [s] := by
  induction ss with
  | nil =>
    rw [List.map_nil, String.join_nil, String.empty_append, List.nil_append, linesOf_oneLine h]
  | cons s' ss ih =>
    obtain ⟨hs', hss⟩ := List.forall_mem_cons.1 hss
    rw [List.map_cons, String.join_cons, String.append_assoc, linesOf_append hs', ih hss,
      List.cons_append]

/-- Behind a character that is no white space, only a line break is taken away. -/
theorem trimEnd_append_break (h : ∃ c ∈ s.toList.getLast?, Text.isWhitespace c = false) :
    Text.trimEnd (s ++ "\n") = s := by
  obtain ⟨c, hlast, hc⟩ := h
  obtain ⟨w, hw⟩ := List.getLast?_eq_some_iff.1 hlast
  have htext : (s ++ "\n").toList.reverse = '\n' :: c :: w.reverse := by
    simp [String.toList_append, hw]
  have hbreak : Text.isWhitespace '\n' = true := by decide
  rw [Text.trimEnd, htext, List.dropWhile_cons, if_pos hbreak, List.dropWhile_cons, hc]
  simp only [Bool.false_eq_true, if_false, List.reverse_cons, List.reverse_reverse]
  rw [← hw, String.ofList_toList]

end

/-! ### The line of a token -/

/-- A token as it is listed: its position and what it is called, `n` blanks apart. -/
def PlacedToken.listed (t : PlacedToken) (n : Nat) : String :=
  t.position.text ++ blanks n ++ t.token.describe

theorem PlacedToken.line_eq (t : PlacedToken) :
    t.line = t.listed (8 - t.position.text.length) := rfl

theorem Position.oneLine_text (p : Position) : OneLine p.text :=
  ((oneLine_toString p.line).append (by decide)).append (oneLine_toString p.column)

theorem oneLine_blanks (n : Nat) : OneLine (blanks n) :=
  .ofList fun h => absurd (List.eq_of_mem_replicate h) (by decide)

theorem PlacedToken.oneLine_line {t : PlacedToken} (h : OneLine t.token.describe) :
    OneLine t.line := by
  rw [t.line_eq]
  exact (t.position.oneLine_text.append (oneLine_blanks _)).append h

/-- The tokens in front of the end are listed with their line breaks, the end without one. -/
theorem tokenListing_concat (us : List PlacedToken) (p : Position) :
    tokenListing (us ++ [⟨.endOfInput, p⟩]) =
      String.join ((us.map PlacedToken.line).map (· ++ "\n")) ++
        PlacedToken.line ⟨.endOfInput, p⟩ := by
  have hjoin : String.join
      ((us ++ [(⟨.endOfInput, p⟩ : PlacedToken)]).map fun t => t.line ++ "\n") =
      String.join ((us.map PlacedToken.line).map (· ++ "\n")) ++
        PlacedToken.line ⟨.endOfInput, p⟩ ++ "\n" := by
    rw [List.map_append, String.join_append, List.map_map]
    simp [String.append_assoc, Function.comp_def]
  -- the last character is the last one of what the end is called
  have hend : (Token.describe .endOfInput).toList = "end of inpu".toList ++ ['t'] := by decide
  rw [tokenListing, hjoin, trimEnd_append_break]
  refine ⟨'t', ?_, by decide⟩
  rw [PlacedToken.line_eq, PlacedToken.listed, ← String.append_assoc, String.toList_append, hend,
    ← List.append_assoc, List.getLast?_concat]
  rfl

/-- **A listing has one line for each token.** -/
theorem linesOf_tokenListing {us : List PlacedToken} (p : Position)
    (h : ∀ t ∈ us, OneLine t.token.describe) :
    linesOf (tokenListing (us ++ [⟨.endOfInput, p⟩])) =
      (us ++ [(⟨.endOfInput, p⟩ : PlacedToken)]).map PlacedToken.line := by
  have hend : OneLine (Token.describe .endOfInput) := by decide
  have hlines : ∀ s ∈ us.map PlacedToken.line, OneLine s :=
    List.forall_mem_map.2 fun t ht => PlacedToken.oneLine_line (h t ht)
  rw [tokenListing_concat, linesOf_join hlines (PlacedToken.oneLine_line hend), List.map_append]
  rfl

/-- **Tokens are listed line by line.** If a text can be read, its tokens for people are as many
lines as there are tokens, and the line of each token is its position, blanks up to the eighth
column, and what the token is called. -/
theorem render_listing {text : String} {ts : List PlacedToken} (h : tokenize text = .ok ts) :
    ∃ out, render .tokens .plain text = .ok out ∧
      linesOf out = ts.map fun t => t.listed (8 - t.position.text.length) := by
  obtain ⟨us, p, rfl, -, -⟩ := (laidOut_of_tokenize h).ends
  refine ⟨tokenListing (us ++ [⟨.endOfInput, p⟩]), ?_, ?_⟩
  · simp only [render, h]
    rfl
  · exact linesOf_tokenListing p fun t ht => oneLine_of_tokenize h t (List.mem_append_left _ ht)

/-- A string that holds a line break, a line break and a tab. -/
theorem render_listing_string :
    tokenize "'\\n'\n\t1" = .ok [⟨.string "\n", ⟨1, 1, 0⟩⟩, ⟨.newline, ⟨1, 5, 4⟩⟩,
      ⟨.number ⟨"1", .decimal⟩, ⟨2, 2, 6⟩⟩, ⟨.endOfInput, ⟨2, 3, 7⟩⟩] ∧
    ∃ out, render .tokens .plain "'\\n'\n\t1" = .ok out ∧ linesOf out =
      ["1:1     string \"\\n\"", "1:5     newline", "2:2     number '1'",
        "2:3     end of input"] := by
  have h : tokenize "'\\n'\n\t1" = .ok [⟨.string "\n", ⟨1, 1, 0⟩⟩, ⟨.newline, ⟨1, 5, 4⟩⟩,
      ⟨.number ⟨"1", .decimal⟩, ⟨2, 2, 6⟩⟩, ⟨.endOfInput, ⟨2, 3, 7⟩⟩] :=
    eq_ok_of_toOption (by decide +kernel)
  obtain ⟨out, hout, hlines⟩ := render_listing h
  refine ⟨h, out, hout, ?_⟩
  rw [hlines]
  decide +kernel

/-- A position that is eight columns wide touches what stands behind it: so does the end of a text
that ends in line 1000 behind 99 blanks. -/
theorem not_render_listing_spaced :
    ¬ ∀ (text : String) (ts : List PlacedToken), tokenize text = .ok ts →
      ∃ out, render .tokens .plain text = .ok out ∧
        List.Forall₂ (fun line t => ∃ n, line = t.listed (n + 1)) (linesOf out) ts := by
  intro h
  have htokens : tokenize (String.ofList (List.replicate 999 '\n' ++ List.replicate 99 ' ')) =
      .ok [⟨.newline, ⟨1, 1, 0⟩⟩, ⟨.endOfInput, ⟨1000, 100, 1098⟩⟩] := by
    rw [tokenize, TokenStream.ofString, Source.ofString, String.toList_ofList]
    exact eq_ok_of_toOption (by decide +kernel)
  obtain ⟨out, hout, hlines⟩ := h _ _ htokens
  have hrender : out = tokenListing [⟨.newline, ⟨1, 1, 0⟩⟩, ⟨.endOfInput, ⟨1000, 100, 1098⟩⟩] := by
    rw [render, htokens] at hout
    exact (Except.ok.inj hout).symm
  have hlisted : linesOf out = ["1:1     newline", "1000:100end of input"] := by
    rw [hrender]
    decide +kernel
  rw [hlisted] at hlines
  cases hlines with
  | cons _ hrest =>
    cases hrest with
    | cons hend _ =>
      obtain ⟨n, hn⟩ := hend
      -- behind the position there is a letter, not a blank
      have htext : (⟨1000, 100, 1098⟩ : Position).text = "1000:100" := by decide
      have hletter := congrArg (fun s => s.toList[8]?) hn
      simp [PlacedToken.listed, htext, blanks, List.replicate_succ, String.toList_append] at hletter

end DrakeSyntax
