import DrakeSyntax.Proofs.Cells.Tokenize

/-!
# Positions that a token stream reports

A token stream is read by calls that take a token or look at one, and goes on after a call that
fails. Whatever the calls are, they report only positions that mark places of the text
(`TokenStream.calls_sound`), and none of them outgrows 32 bits as long as the text has fewer than
`UInt32.size - 1` characters.
-/

namespace DrakeSyntax

/-- What reading a token comes to. -/
abbrev TokenStream.Answer := Except LexError PlacedToken

/-- The position of the token, or of the error. -/
def TokenStream.Answer.position : Answer → Position
  | .ok t => t.position
  | .error e => e.position

namespace TokenStream

/-- A call that reads a token stream. -/
inductive Call where
  | next | peek

/-- Makes a call. -/
def Call.run : Call → EStateM LexError TokenStream PlacedToken
  | next => TokenStream.next
  | peek => TokenStream.peek

/-- The answer to a call and the stream behind it. -/
def call (s : TokenStream) (c : Call) : Answer × TokenStream :=
  match c.run s with
  | .ok t rest => (.ok t, rest)
  | .error e rest => (.error e, rest)

/-- The answers to some calls, each made where the one before left the stream, and the stream
behind all of them. -/
def calls (s : TokenStream) : List Call → List Answer × TokenStream
  | [] => ([], s)
  | c :: cs =>
    let (answer, rest) := s.call c
    let (answers, last) := rest.calls cs
    (answer :: answers, last)

/-- The counters of the stream and the token that was looked at are at positions in `P`. -/
def Within (P : Position → Prop) (s : TokenStream) : Prop :=
  P s.source.position ∧ ∀ t ∈ s.ahead, P t.position

/-- Wherever reading goes on, it stays at positions in `P`. -/
def Keeps (P : Position → Prop) (s : TokenStream) : Prop :=
  s.source.asCells.Within P ∧ ∀ t ∈ s.ahead, P t.position

variable {P : Position → Prop} {s : TokenStream}

theorem Keeps.within (h : s.Keeps P) : s.Within P := by
  have hposition := h.1.position
  rw [Source.position_asCells] at hposition
  exact ⟨hposition, h.2⟩

theorem next_keeps (h : s.Keeps P) : match next s with
    | .ok t rest => P t.position ∧ rest.source.asCells.Within P ∧ rest.ahead = none
    | .error e rest => P e.position ∧ rest.Keeps P := by
  obtain ⟨source, ahead⟩ := s
  obtain ⟨hsource, hahead⟩ := h
  cases ahead with
  | some t => exact ⟨hahead t rfl, hsource, rfl⟩
  | none =>
    -- what is scanned from the counters is what is scanned from the cells
    have hcells := CellScan.keeps_token source.asCells hsource
    have htoken : Scan.Mirrored source id (Scan.token source) (CellScan.token source.asCells) :=
      Scan.mirrors_token source
    unfold next
    generalize Scan.token source = r at htoken
    generalize CellScan.token source.asCells = r' at hcells htoken
    cases htoken with
    | ok value cells follows =>
      cases value
      subst cells
      exact ⟨hcells.1, hcells.2, rfl⟩
    | error cells follows =>
      subst cells
      exact ⟨hcells.1.1, hcells.2, hahead⟩

/-- A call reports a position within `P` and goes on at positions within `P`. -/
theorem call_keeps (h : s.Keeps P) (c : Call) :
    P (s.call c).1.position ∧ (s.call c).2.Keeps P := by
  have hnext := next_keeps h
  cases c with
  | next =>
    simp only [call, Call.run]
    cases hrun : next s with
    | ok t rest =>
      rw [hrun] at hnext
      obtain ⟨ht, hrest, hnone⟩ := hnext
      refine ⟨ht, hrest, ?_⟩
      rw [hnone]
      intro t ht
      cases ht
    | error e rest =>
      rw [hrun] at hnext
      exact hnext
  | peek =>
    simp only [call, Call.run, peek, Bind.bind, EStateM.bind]
    cases hrun : next s with
    | ok t rest =>
      rw [hrun] at hnext
      refine ⟨hnext.1, hnext.2.1, ?_⟩
      intro t' ht'
      cases ht'
      exact hnext.1
    | error e rest =>
      rw [hrun] at hnext
      exact hnext

theorem calls_keeps (h : s.Keeps P) (cs : List Call) :
    (∀ a ∈ (s.calls cs).1, P a.position) ∧ (s.calls cs).2.Keeps P := by
  induction cs generalizing s with
  | nil =>
    refine ⟨?_, h⟩
    intro a ha
    cases ha
  | cons c cs ih =>
    have hcall := call_keeps h c
    obtain ⟨hanswers, hlast⟩ := ih hcall.2
    exact ⟨List.forall_mem_cons.2 ⟨hcall.1, hanswers⟩, hlast⟩

end TokenStream

/-- The position marks a place of the text, and its line and column fit into 32 bits. -/
structure Position.Sound (text : String) (p : Position) : Prop where
  marks : p.Marks text.toList
  line_lt : p.line < UInt32.size
  column_lt : p.column < UInt32.size

theorem Position.Marks.sound {text : String} {p : Position} (h : p.Marks text.toList)
    (hlength : text.length < UInt32.size - 1) : p.Sound text := by
  have hle := h.le_length
  rw [String.length_toList] at hle
  exact ⟨h, by omega, by omega⟩

/-- **Positions are faithful.** Every answer to a sequence of calls, also behind calls that
failed, has a position that marks a place of the text, and so have the counters of the stream and
the token that it holds. -/
theorem TokenStream.calls_sound (text : String) (hlength : text.length < UInt32.size - 1)
    (cs : List Call) :
    (∀ a ∈ ((ofString text).calls cs).1, a.position.Sound text) ∧
      ((ofString text).calls cs).2.Within (Position.Sound text) := by
  have hstart : (ofString text).Keeps (Position.Sound text) := by
    have hmarks := CellSource.within_ofString text
    refine ⟨⟨fun c hc => (hmarks.1 c hc).sound hlength, hmarks.2.sound hlength⟩, ?_⟩
    intro t ht
    cases ht
  obtain ⟨hanswers, hlast⟩ := calls_keeps hstart cs
  exact ⟨hanswers, hlast.within⟩

/-- A string that is left open on the second line is reported there, and the end behind it. -/
theorem TokenStream.calls_sound_open_string :
    ((ofString "a\r\n'b").calls [.next, .next, .peek, .next]).1.map Answer.position =
      [⟨1, 1, 0⟩, ⟨1, 2, 1⟩, ⟨2, 1, 3⟩, ⟨2, 3, 5⟩] ∧
    ∀ p ∈ [⟨1, 1, 0⟩, ⟨1, 2, 1⟩, ⟨2, 1, 3⟩, ⟨2, 3, 5⟩], Position.Sound "a\r\n'b" p := by
  have hlength : "a\r\n'b".length < UInt32.size - 1 := by decide
  have hcalls : ((ofString "a\r\n'b").calls [.next, .next, .peek, .next]).1.map Answer.position =
      [⟨1, 1, 0⟩, ⟨1, 2, 1⟩, ⟨2, 1, 3⟩, ⟨2, 3, 5⟩] := by
    decide +kernel
  refine ⟨hcalls, ?_⟩
  rw [← hcalls]
  exact List.forall_mem_map.2 (calls_sound "a\r\n'b" hlength [.next, .next, .peek, .next]).1

end DrakeSyntax
