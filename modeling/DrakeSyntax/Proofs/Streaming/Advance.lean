import DrakeSyntax.Proofs.Streaming

/-!
# Reading never gets stuck

Neither a token nor an error is scanned without taking a character (`Scan.token_cases`). So each
call that takes a token or comes to an error moves on towards the end of the source, where the end
token is handed out again and again.

* `TokenStream.Moves`: what a call that takes a token does to the stream.
* `TokenStream.calls_advance`: **every call moves on, and the end is reached.**
-/

namespace DrakeSyntax

namespace TokenStream

variable {s s' : Source} {st : TokenStream}

/-- The answer is the end token. -/
def Answer.Ends (a : Answer) : Prop := ∃ t, a = .ok t ∧ t.token = .endOfInput

/-- The answer that the text has ended at the position. -/
def Answer.finished (finish : Position) : Answer := .ok ⟨.endOfInput, finish⟩

/-- What a call comes to where the source `s` begins. -/
inductive Answered (s : Source) (c : Call) (p : Answer × TokenStream) : Prop
  /-- The end was reached, and what is left ends there too. -/
  | finished {s' : Source} (answer : p.1 = .finished s.finish) (stands : p.2.StandsAt s')
      (follows : s'.Follows s)
      (ended : Scan.token s' = .ok ⟨.endOfInput, s.finish⟩ ⟨[], s.finish⟩)
  /-- A token was looked at. -/
  | looked {t : PlacedToken} (peek : c = .peek) (answer : p.1 = .ok t)
      (token : t.token ≠ .endOfInput) (stands : p.2.StandsAt s)
  /-- A token was taken, or there was an error, which is taken whatever the call. -/
  | onwards {s' : Source} (answer : ¬ p.1.Ends) (past : s'.Past s) (behind : p.2 = ofSource s')

/-- **What one call does.** -/
theorem StandsAt.answered (h : st.StandsAt s) (c : Call) : Answered s c (st.call c) := by
  rcases Scan.token_cases s with hend | ⟨t, s', ht, hne, hpast⟩ | ⟨e, s', he, hpast⟩
  · obtain ⟨hnext, hpeek⟩ := h.call_of_ok hend
    cases c with
    | next =>
      rw [hnext]
      exact .finished rfl standsAt_ofSource (s.follows_finish) (Scan.token_nil _)
    | peek =>
      rw [hpeek]
      exact .finished rfl (.ahead hend) (.refl s) hend
  · obtain ⟨hnext, hpeek⟩ := h.call_of_ok ht
    cases c with
    | next =>
      rw [hnext]
      refine .onwards ?_ hpast rfl
      rintro ⟨u, hu, hend⟩
      cases hu
      exact hne hend
    | peek =>
      rw [hpeek]
      exact .looked rfl rfl hne (.ahead ht)
  · rw [h.call_of_error he c]
    refine .onwards ?_ hpast rfl
    rintro ⟨u, hu, -⟩
    cases hu

/-- A stream that was read stands somewhere in the source that it began with. -/
theorem StandsAt.calls (h : st.StandsAt s) (cs : List Call) :
    ∃ s', (st.calls cs).2.StandsAt s' ∧ s'.Follows s := by
  induction cs generalizing st s with
  | nil => exact ⟨s, h, .refl s⟩
  | cons c cs ih =>
    change ∃ s', ((st.call c).2.calls cs).2.StandsAt s' ∧ _
    rcases h.answered c with ⟨-, hstands, hfollows, -⟩ | ⟨-, -, -, hstands⟩ | ⟨-, hpast, hbehind⟩
    · obtain ⟨s', hs', hfollows'⟩ := ih hstands
      exact ⟨s', hs', hfollows'.trans hfollows⟩
    · exact ih hstands
    · obtain ⟨s', hs', hfollows'⟩ := ih (hbehind ▸ standsAt_ofSource)
      exact ⟨s', hs', hfollows'.trans hpast.toFollows⟩

/-- At the end every call reports it, and so does every call behind. -/
theorem StandsAt.calls_finished (h : st.StandsAt s)
    (hend : Scan.token s = .ok ⟨.endOfInput, s.finish⟩ ⟨[], s.finish⟩) (cs : List Call) :
    (st.calls cs).1 = .replicate cs.length (.finished s.finish) := by
  induction cs generalizing st s with
  | nil => rfl
  | cons c cs ih =>
    obtain ⟨hnext, hpeek⟩ := h.call_of_ok hend
    rw [List.length_cons, List.replicate_succ]
    cases c with
    | next =>
      have htail := ih (s := ⟨[], s.finish⟩) standsAt_ofSource (Scan.token_nil _)
      change (st.call .next).1 :: ((st.call .next).2.calls cs).1 = _
      rw [hnext, htail]
      rfl
    | peek =>
      have htail := ih (.ahead hend) hend
      change (st.call .peek).1 :: ((st.call .peek).2.calls cs).1 = _
      rw [hpeek, htail]
      rfl

/-- **The answers to any calls** are first some that are not the end, and then only the end. All
of the first ones but those to looks that succeed take a character. -/
theorem StandsAt.calls_split (h : st.StandsAt s) (cs : List Call) :
    ∃ front k, (st.calls cs).1 = front ++ .replicate k (.finished s.finish) ∧
      (∀ a ∈ front, ¬ a.Ends) ∧ (reported (cs.zip front)).length ≤ s.chars.length := by
  induction cs generalizing st s with
  | nil => exact ⟨[], 0, rfl, by simp, Nat.zero_le _⟩
  | cons c cs ih =>
    change ∃ front k, (st.call c).1 :: ((st.call c).2.calls cs).1 = _ ∧ _
    rcases h.answered c with ⟨hanswer, hstands, hfollows, hend⟩ | ⟨rfl, hanswer, hne, hstands⟩ |
      ⟨hanswer, hpast, hbehind⟩
    · have hfinish := hfollows.finish_eq
      have htail := hstands.calls_finished (hfinish ▸ hend) cs
      refine ⟨[], cs.length + 1, ?_, by simp, Nat.zero_le _⟩
      rw [hanswer, htail, hfinish]
      rfl
    · obtain ⟨front, k, hfront, hnone, hlength⟩ := ih hstands
      refine ⟨(st.call .peek).1 :: front, k, by rw [hfront, List.cons_append], ?_, ?_⟩
      · refine List.forall_mem_cons.2 ⟨?_, hnone⟩
        rw [hanswer]
        rintro ⟨u, hu, hend⟩
        cases hu
        exact hne hend
      · rw [hanswer]
        exact hlength
    · have hfinish := hpast.finish_eq
      have hlt := hpast.lt
      obtain ⟨front, k, hfront, hnone, hlength⟩ := ih (hbehind ▸ standsAt_ofSource)
      refine ⟨(st.call c).1 :: front, k, by rw [hfront, hfinish, List.cons_append],
        List.forall_mem_cons.2 ⟨hanswer, hnone⟩, ?_⟩
      have hle : (reported ((c, (st.call c).1) :: cs.zip front)).length ≤
          (reported (cs.zip front)).length + 1 := by
        cases c with
        | next => exact Nat.le_refl _
        | peek => cases (st.call .peek).1 with
          | ok t => exact Nat.le_succ _
          | error e => exact Nat.le_refl _
      exact Nat.le_trans hle (by omega)

/-- Tokens are taken and errors are passed until the end is reached, and then it is reached again
and again. -/
theorem StandsAt.calls_next (h : st.StandsAt s) : ∃ xs : List Answer,
    xs.length ≤ s.chars.length ∧ (∀ a ∈ xs, ¬ a.Ends) ∧
      ∀ k, (st.calls (.replicate (xs.length + k) .next)).1 =
        xs ++ .replicate k (.finished s.finish) := by
  induction hn : s.chars.length using Nat.strong_induction_on generalizing st s with
  | _ n ih =>
    subst hn
    rcases h.answered .next with ⟨hanswer, hstands, hfollows, hend⟩ | ⟨hpeek, -⟩ |
      ⟨hanswer, hpast, hbehind⟩
    · have hfinish := hfollows.finish_eq
      refine ⟨[], Nat.zero_le _, by simp, ?_⟩
      intro k
      cases k with
      | zero => rfl
      | succ k =>
        have htail := hstands.calls_finished (hfinish ▸ hend) (.replicate k .next)
        rw [List.length_nil, Nat.zero_add, List.replicate_succ, List.replicate_succ]
        change (st.call .next).1 :: ((st.call .next).2.calls _).1 = _
        rw [hanswer, htail, List.length_replicate, hfinish]
        rfl
    · cases hpeek
    · have hfinish := hpast.finish_eq
      have hlt := hpast.lt
      have hstands : (st.call .next).2.StandsAt _ := hbehind ▸ standsAt_ofSource
      obtain ⟨xs, hlength, hnone, hcalls⟩ := ih _ hlt hstands rfl
      refine ⟨(st.call .next).1 :: xs, Nat.lt_of_le_of_lt hlength hlt,
        List.forall_mem_cons.2 ⟨hanswer, hnone⟩, ?_⟩
      intro k
      rw [List.length_cons, Nat.add_right_comm, List.replicate_succ, List.cons_append, ← hfinish,
        ← hcalls k]
      rfl

/-- What a call that takes a token does to the stream: it hands out the token that was looked at,
moves on in the source, or reports the end and leaves all as it is. -/
inductive Moves (finish : Position) (st : TokenStream) : Prop
  | buffered {t : PlacedToken} (ahead : st.ahead = some t)
      (call : st.call .next = (.ok t, ofSource st.source))
  | onwards {s' : Source} (ahead : st.ahead = none) (behind : (st.call .next).2 = ofSource s')
      (past : s'.Past st.source) (offset : st.source.position.offset < s'.position.offset)
  | finished (ahead : st.ahead = none) (chars : st.source.chars = [])
      (position : st.source.position = finish) (call : st.call .next = (.finished finish, st))

theorem StandsAt.moves (h : st.StandsAt s) : Moves s.finish st := by
  cases h with
  | @ahead t s' scan => exact .buffered rfl rfl
  | unread =>
    rcases Scan.token_cases s with hend | ⟨t, s', ht, -, hpast⟩ | ⟨e, s', he, hpast⟩
    · have hcall := (standsAt_ofSource.call_of_ok hend).1
      cases hchars : s.chars with
      | nil =>
        obtain ⟨cs, p⟩ := s
        cases hchars
        exact .finished rfl rfl rfl hcall
      | cons c cs =>
        -- what is left is a gap, which is taken with the end
        have hpast : Source.Past ⟨[], s.finish⟩ s :=
          ⟨s.follows_finish, by rw [hchars]; exact Nat.succ_pos _⟩
        exact .onwards rfl (congrArg Prod.snd hcall) hpast hpast.offset_lt
    · have hcall := (standsAt_ofSource.call_of_ok ht).1
      exact .onwards rfl (congrArg Prod.snd hcall) hpast hpast.offset_lt
    · have hcall := standsAt_ofSource.call_of_error he .next
      exact .onwards rfl (congrArg Prod.snd hcall) hpast hpast.offset_lt

/-- **Reading never gets stuck.** Behind any calls, also behind those that failed, a call that takes
a token hands out the one that was looked at, moves on, or reports the end and changes nothing. The
answers are first some that are not the end, and then the end at the same position; all of the first
ones but those to looks that succeed are no more than the text has characters. And from behind any
calls the end is reached after no more answers than that. -/
theorem calls_advance (text : String) (cs : List Call) :
    Moves (Source.ofString text).finish ((ofString text).calls cs).2 ∧
    (∃ front k, ((ofString text).calls cs).1 =
        front ++ .replicate k (.finished (Source.ofString text).finish) ∧
      (∀ a ∈ front, ¬ a.Ends) ∧ (reported (cs.zip front)).length ≤ text.length) ∧
    ∃ xs : List Answer, xs.length ≤ text.length ∧ (∀ a ∈ xs, ¬ a.Ends) ∧
      ∀ k, (((ofString text).calls cs).2.calls (.replicate (xs.length + k) .next)).1 =
        xs ++ .replicate k (.finished (Source.ofString text).finish) := by
  have hstart : (ofString text).StandsAt (.ofString text) := standsAt_ofSource
  have hcount : (Source.ofString text).chars.length = text.length := String.length_toList
  obtain ⟨s, hstands, hfollows⟩ := hstart.calls cs
  have hfinish : s.finish = (Source.ofString text).finish := hfollows.finish
  rw [← hcount]
  refine ⟨hfinish ▸ hstands.moves, hstart.calls_split cs, ?_⟩
  obtain ⟨xs, hlength, hnone, hcalls⟩ := hstands.calls_next
  rw [hfinish] at hcalls
  exact ⟨xs, Nat.le_trans hlength hfollows.length_le, hnone, hcalls⟩

end TokenStream

end DrakeSyntax
