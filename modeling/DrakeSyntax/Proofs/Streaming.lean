import DrakeSyntax.Proofs.Place.Calls

/-!
# Reading a text call by call

A stream that holds a token which was looked at has its source behind that token already. All the
same it stands where it stood before the look (`TokenStream.StandsAt`), so that it makes no
difference in which order tokens are looked at and taken.

* `TokenStream.calls_rest`: **the tokens that calls take, with those that are left, are the tokens
  of the text.**
* `TokenStream.calls_reported`: **a look that succeeds does not show** in any other answer. A look
  that fails does: it moves on behind the characters that form no token, so that the error is not
  reported again (`TokenStream.not_calls_answersToNext`).
-/

namespace DrakeSyntax

variable {s s' : Source} {t : PlacedToken}

namespace TokenStream

variable {st : TokenStream} {e : LexError}

/-! ### Reading on -/

/-- How many tokens may be taken does not matter if there are more of them than characters. -/
theorem takeUpTo_eq {n m : Nat} (s : Source) (hn : s.chars.length < n) (hm : s.chars.length < m) :
    takeUpTo n ⟨s, none⟩ = takeUpTo m ⟨s, none⟩ := by
  have hle := CellSource.length_cells_ofChars s.position s.chars
  rw [takeUpTo_asCells, takeUpTo_asCells]
  exact CellSource.takeUpTo_eq _ (Nat.lt_of_le_of_lt hle hn) (Nat.lt_of_le_of_lt hle hm)

/-- The tokens of a source are the first one and those behind it. -/
theorem rest_eq (s : Source) : (ofSource s).rest =
    match Scan.token s with
    | .error e _ => .error e
    | .ok t s' => if t.token = .endOfInput then .ok [t] else (ofSource s').rest.map (t :: ·) := by
  simp only [rest, ofSource, takeUpTo, next]
  rcases Scan.token_cases s with hend | ⟨t, s', ht, hne, hpast⟩ | ⟨e, s', he, -⟩
  · simp only [hend, if_true]
  · simp only [ht, if_neg hne]
    have hlt := hpast.lt
    have hrest := takeUpTo_eq s' (m := s'.chars.length + 2) (Nat.lt_succ_of_lt hlt) (by omega)
    rw [takeUpTo, next] at hrest
    exact congrArg (Except.map (t :: ·)) hrest
  · simp only [he]

/-! ### Looking ahead -/

/-- No token behind the beginning of the source was taken, but the first one may have been looked
at. -/
inductive StandsAt (s : Source) : TokenStream → Prop
  | unread : StandsAt s ⟨s, none⟩
  | ahead {t : PlacedToken} {s' : Source} (scan : Scan.token s = .ok t s') : StandsAt s ⟨s', some t⟩

theorem standsAt_ofSource : (ofSource s).StandsAt s := .unread

namespace StandsAt

theorem next_of_ok (h : st.StandsAt s) (ht : Scan.token s = .ok t s') :
    next st = .ok t (ofSource s') := by
  cases h with
  | unread => simp only [next, ht, ofSource]
  | ahead scan =>
    rw [ht] at scan
    cases scan
    rfl

theorem next_of_error (h : st.StandsAt s) (he : Scan.token s = .error e s') :
    next st = .error e (ofSource s') := by
  cases h with
  | unread => simp only [next, he, ofSource]
  | ahead scan =>
    rw [he] at scan
    cases scan

/-- A token is looked at and taken alike, but to look at it leaves the stream where it stands. -/
theorem call_of_ok (h : st.StandsAt s) (ht : Scan.token s = .ok t s') :
    st.call .next = (.ok t, ofSource s') ∧ st.call .peek = (.ok t, ⟨s', some t⟩) := by
  constructor
  · simp only [call, Call.run, h.next_of_ok ht]
  · simp only [call, Call.run, peek, Bind.bind, EStateM.bind, h.next_of_ok ht]
    rfl

/-- An error moves the stream on, also one that a look comes to. -/
theorem call_of_error (h : st.StandsAt s) (he : Scan.token s = .error e s') (c : Call) :
    st.call c = (.error e, ofSource s') := by
  cases c with
  | next => simp only [call, Call.run, h.next_of_error he]
  | peek => simp only [call, Call.run, peek, Bind.bind, EStateM.bind, h.next_of_error he]

/-- What is left does not depend on whether a token was looked at. -/
theorem rest_eq (h : st.StandsAt s) : st.rest = (ofSource s).rest := by
  cases h with
  | unread => rfl
  | @ahead t s' scan =>
    rw [TokenStream.rest_eq s, scan]
    simp only [rest, takeUpTo, next]
    refine ite_congr rfl (fun _ => rfl) fun _ => ?_
    have hrest := takeUpTo_eq s' (Nat.lt_succ_self _) (Nat.lt_succ_of_lt (Nat.lt_succ_self _))
    exact congrArg (Except.map _) hrest

end StandsAt

/-! ### Sequences of calls -/

deriving instance DecidableEq for Call

/-- The calls with the answers to them. -/
def transcript (st : TokenStream) (cs : List Call) : List (Call × Answer) := cs.zip (st.calls cs).1

/-- The tokens that calls take. -/
def taken : List (Call × Answer) → List PlacedToken
  | [] => []
  | (.next, .ok t) :: log => t :: taken log
  | _ :: log => taken log

/-- The answers to calls that take a token. -/
def answersToNext : List (Call × Answer) → List Answer
  | [] => []
  | (.next, answer) :: log => answer :: answersToNext log
  | (.peek, _) :: log => answersToNext log

/-- The answers to all calls but those to looks that succeed. -/
def reported : List (Call × Answer) → List Answer
  | [] => []
  | (.peek, .ok _) :: log => reported log
  | (_, answer) :: log => answer :: reported log

/-- Whether the call takes a token. -/
def Call.takes : Call → Bool
  | next => true
  | peek => false

theorem transcript_cons (st : TokenStream) (c : Call) (cs : List Call) :
    st.transcript (c :: cs) = (c, (st.call c).1) :: (st.call c).2.transcript cs := rfl

/-- The call succeeded, and it did not take the end token. -/
def GoesOn (p : Call × Answer) : Prop :=
  ∃ t, p.2 = .ok t ∧ (p.1 = .next → t.token ≠ .endOfInput)

theorem rest_calls {cs : List Call} (hst : st.StandsAt s)
    (h : ∀ p ∈ st.transcript cs, GoesOn p) :
    (ofSource s).rest = (st.calls cs).2.rest.map (taken (st.transcript cs) ++ ·) := by
  induction cs generalizing st s with
  | nil =>
    have hrest := hst.rest_eq
    change (ofSource s).rest = st.rest.map _
    rw [hrest]
    cases (ofSource s).rest <;> rfl
  | cons c cs ih =>
    rw [transcript_cons, List.forall_mem_cons] at h
    obtain ⟨⟨t, ht, hend⟩, hbehind⟩ := h
    cases htoken : Scan.token s with
    | error e s' =>
      rw [hst.call_of_error htoken] at ht
      cases ht
    | ok t' s' =>
      obtain ⟨hnext, hpeek⟩ := hst.call_of_ok htoken
      cases c with
      | next =>
        rw [hnext] at ht hbehind
        cases ht
        have hne := hend rfl
        have hrest := ih standsAt_ofSource hbehind
        -- the token that is taken comes in front
        rw [TokenStream.rest_eq s, htoken]
        simp only [if_neg hne, hrest, transcript_cons, calls, hnext, taken]
        cases (calls (ofSource s') cs).2.rest <;> rfl
      | peek =>
        simp only [hpeek] at hbehind
        have hrest := ih (.ahead htoken) hbehind
        simp only [hrest, transcript_cons, calls, hpeek, taken]

theorem calls_replicate_reported (hst : st.StandsAt s) (cs : List Call) :
    ((ofSource s).calls (.replicate (reported (st.transcript cs)).length .next)).1 =
      reported (st.transcript cs) := by
  induction cs generalizing st s with
  | nil => rfl
  | cons c cs ih =>
    rw [transcript_cons]
    cases htoken : Scan.token s with
    | error e s' =>
      -- the error is reported whatever the call
      have hlog : reported ((c, .error e) :: (ofSource s').transcript cs) =
          .error e :: reported ((ofSource s').transcript cs) := by cases c <;> rfl
      simp only [hst.call_of_error htoken, hlog, List.length_cons, List.replicate_succ, calls,
        standsAt_ofSource.call_of_error htoken, ih standsAt_ofSource]
    | ok t s' =>
      obtain ⟨hnext, hpeek⟩ := hst.call_of_ok htoken
      cases c with
      | next =>
        simp only [hnext, reported, List.length_cons, List.replicate_succ, calls,
          (standsAt_ofSource.call_of_ok htoken).1, ih standsAt_ofSource]
      | peek =>
        simp only [hpeek, reported]
        exact ih (.ahead htoken)

/-- If no look fails, what is reported are the answers to the calls that take a token. -/
theorem reported_transcript {cs : List Call}
    (h : ∀ p ∈ st.transcript cs, p.1 = .peek → ∃ t, p.2 = .ok t) :
    reported (st.transcript cs) = answersToNext (st.transcript cs) ∧
      (reported (st.transcript cs)).length = (cs.filter Call.takes).length := by
  induction cs generalizing st with
  | nil => exact ⟨rfl, rfl⟩
  | cons c cs ih =>
    rw [transcript_cons, List.forall_mem_cons] at h
    obtain ⟨hreported, hlength⟩ := ih h.2
    rw [transcript_cons]
    cases c with
    | next =>
      simp only [reported, answersToNext, hreported, List.length_cons, true_and]
      rw [← hreported, hlength]
      rfl
    | peek =>
      obtain ⟨t, ht⟩ := h.1 rfl
      have hanswer : (st.call .peek).1 = .ok t := ht
      rw [hanswer]
      exact ⟨hreported, hlength⟩

/-- **Tokens are the same one by one and all at once.** As long as calls succeed and the end token
is not taken, the tokens that they take and then those that are left are the tokens of the text, or
what is left fails as the text does. -/
theorem calls_rest (text : String) (cs : List Call)
    (h : ∀ p ∈ (ofString text).transcript cs, GoesOn p) :
    tokenize text =
      ((ofString text).calls cs).2.rest.map (taken ((ofString text).transcript cs) ++ ·) :=
  rest_calls standsAt_ofSource h

/-- A name is taken and the operator behind it is looked at; the string behind both is open. -/
theorem calls_rest_open_string :
    (∀ p ∈ (ofString "a+'b").transcript [.peek, .next, .peek], GoesOn p) ∧
    tokenize "a+'b" = ((ofString "a+'b").calls [.peek, .next, .peek]).2.rest.map
      ([⟨.identifier "a", ⟨1, 1, 0⟩⟩] ++ ·) ∧
    tokenize "a+'b" = .error ⟨.unterminatedString, ⟨1, 3, 2⟩⟩ := by
  have hlog : (ofString "a+'b").transcript [.peek, .next, .peek] =
      [(.peek, .ok ⟨.identifier "a", ⟨1, 1, 0⟩⟩), (.next, .ok ⟨.identifier "a", ⟨1, 1, 0⟩⟩),
        (.peek, .ok ⟨.punctuator .plus, ⟨1, 2, 1⟩⟩)] := by
    decide +kernel
  have hgoesOn : ∀ p ∈ (ofString "a+'b").transcript [.peek, .next, .peek], GoesOn p := by
    rw [hlog]
    simp [GoesOn]
  have hrest := calls_rest "a+'b" [.peek, .next, .peek] hgoesOn
  rw [hlog] at hrest
  exact ⟨hgoesOn, hrest, by decide +kernel⟩

/-- **Looking ahead does not show unless it fails.** All answers but those to looks that succeed are
the answers to as many calls that take a token. So if no look fails, leaving all of them out changes
none of the other answers. -/
theorem calls_reported (text : String) (cs : List Call) :
    ((ofString text).calls
        (.replicate (reported ((ofString text).transcript cs)).length .next)).1 =
      reported ((ofString text).transcript cs) ∧
    ((∀ p ∈ (ofString text).transcript cs, p.1 = .peek → ∃ t, p.2 = .ok t) →
      ((ofString text).calls (cs.filter Call.takes)).1 =
        answersToNext ((ofString text).transcript cs)) := by
  have hreplicate : cs.filter Call.takes = .replicate (cs.filter Call.takes).length .next := by
    refine List.eq_replicate_of_mem fun c hc => ?_
    cases c with
    | next => rfl
    | peek => exact absurd (List.mem_filter.1 hc).2 (by decide)
  have hcalls := calls_replicate_reported (standsAt_ofSource (s := .ofString text)) cs
  refine ⟨hcalls, fun h => ?_⟩
  obtain ⟨hreported, hlength⟩ := reported_transcript h
  rw [hreplicate, ← hlength, ← hreported]
  exact hcalls

/-- Both looks succeed. Without them the same is taken, and the string behind is still open. -/
theorem calls_reported_open_string :
    (∀ p ∈ (ofString "a+'b").transcript [.peek, .next, .peek, .next, .next],
      p.1 = .peek → ∃ t, p.2 = .ok t) ∧
    ((ofString "a+'b").calls [.next, .next, .next]).1 =
      [.ok ⟨.identifier "a", ⟨1, 1, 0⟩⟩, .ok ⟨.punctuator .plus, ⟨1, 2, 1⟩⟩,
        .error ⟨.unterminatedString, ⟨1, 3, 2⟩⟩] := by
  have hlog : (ofString "a+'b").transcript [.peek, .next, .peek, .next, .next] =
      [(.peek, .ok ⟨.identifier "a", ⟨1, 1, 0⟩⟩), (.next, .ok ⟨.identifier "a", ⟨1, 1, 0⟩⟩),
        (.peek, .ok ⟨.punctuator .plus, ⟨1, 2, 1⟩⟩), (.next, .ok ⟨.punctuator .plus, ⟨1, 2, 1⟩⟩),
        (.next, .error ⟨.unterminatedString, ⟨1, 3, 2⟩⟩)] := by
    decide +kernel
  have hlooks : ∀ p ∈ (ofString "a+'b").transcript [.peek, .next, .peek, .next, .next],
      p.1 = .peek → ∃ t, p.2 = .ok t := by
    rw [hlog]
    simp
  have hcalls := (calls_reported "a+'b" [.peek, .next, .peek, .next, .next]).2 hlooks
  rw [hlog] at hcalls
  exact ⟨hlooks, hcalls⟩

/-- A look that fails takes the error with it. -/
theorem not_calls_answersToNext :
    ¬ ∀ (text : String) (cs : List Call), ((ofString text).calls (cs.filter Call.takes)).1 =
      answersToNext ((ofString text).transcript cs) := by
  intro h
  have hpositions := congrArg (List.map Answer.position) (h "@" [.peek, .next])
  revert hpositions
  decide +kernel

end TokenStream

end DrakeSyntax
