import DrakeSyntax.Proofs.Coupling.Phrase

/-!
# Heads of lambdas side by side

A lambda may begin with a single parameter that is not in parentheses. If a key ends behind what
looks like one, the runs do not see the same: in one of them a colon may follow, and then a value is
read for the parameter that is not there in the other one. Neither run finds an arrow behind that, so
that none of them sees a lambda there (`fails_bareHead`).

* `keywordParameter_outcome`: parameters belong together, or the runs are stopped behind their names.
* `matches_lambdaHead`: **both runs read the head of a lambda, or neither does.**
-/

namespace DrakeSyntax

open DrakeSyntax.Parser
open Coupling

variable {K : Coupling} {k : List Token} {g : Inner} {s s' r : ParserState}

/-- A name with its type in front of it. -/
def Parser.typedName (g : Inner) : Parser (TypeHint × String) := do
  let hint ← typeHint g
  let (name, _) ← identifier
  return (hint, name)

/-- The head of a lambda with a single parameter. -/
def Parser.bareHead (g : Inner) : Parser LambdaHead := do
  let item ← longer (positionalParameter g) (keywordParameter g)
  discard (expect (.punctuator .arrow))
  return ⟨(separate [item]).1, (separate [item]).2⟩

theorem matches_typedName (hg : g.Steady K) :
    K.Matches k k (fun a b => K.Views TypeHint.relocate a.1 b.1 ∧ a.2 = b.2) (typedName g)
      (typedName g) := by
  refine (matches_typeHint hg).bind fun hint hint' hhint => ?_
  refine matches_identifier.bind ?_
  rintro ⟨name, _⟩ ⟨_, _⟩ ⟨rfl, -⟩
  exact .pure ⟨hhint, rfl⟩

/-- What follows the name of a parameter that may have a value. -/
def Parser.defaultBehind (g : Inner) (a : TypeHint × String) : Parser KeywordParameter := do
  if ← eat (.punctuator .colon) then return ⟨a.1, a.2, .default (← g.expression)⟩
  else return ⟨a.1, a.2, .required⟩

theorem positionalParameter_run (hstar : s.cursor.current.token ≠ .punctuator .star) :
    positionalParameter g s =
      (typedName g >>= fun a => return (⟨a.1, false, a.2⟩ : PositionalParameter)) s := by
  rw [positionalParameter, bind_of_ok (eat_of_ne hstar), typedName]
  simp only [bind_assoc, pure_bind]

theorem keywordParameter_run (hstars : s.cursor.current.token ≠ .punctuator .starStar) :
    keywordParameter g s = (typedName g >>= defaultBehind g) s := by
  rw [keywordParameter, bind_of_ok (eat_of_ne hstars), typedName]
  simp only [bind_assoc, pure_bind]
  rfl

theorem keywordParameter_run_starStar (hstars : s.cursor.current.token = .punctuator .starStar) :
    keywordParameter g s =
      (typedName g >>= fun a => return (⟨a.1, a.2, .collector⟩ : KeywordParameter))
        { s with cursor := s.cursor.advance } := by
  rw [keywordParameter, bind_of_ok (eat_of_eq hstars), typedName]
  simp only [bind_assoc, pure_bind]
  rfl

/-- A typed name begins with the bracket of its type. -/
theorem current_of_typedName {a : TypeHint × String} (h : typedName g s = .ok a r) :
    s.cursor.current.token = .punctuator .less := by
  by_contra hne
  rw [typedName, typeHint, bind_of_error (by rw [discard_bind, bind_of_error (expect_of_ne hne)])] at h
  cases h

/-- Where the runs are not stopped behind the name of a parameter, what follows it belongs
together. -/
theorem defaultBehind_outcome (hg : g.Steady K) {a b : TypeHint × String}
    (hab : K.Views TypeHint.relocate a.1 b.1 ∧ a.2 = b.2) (hrel : K.rel k s.cursor s'.cursor)
    (hstop : ¬K.stopped s.cursor s'.cursor) :
    K.Outcome k (K.Views KeywordParameter.relocate) (defaultBehind g a s) (defaultBehind g b s') := by
  have htoken := K.token hrel hstop
  by_cases hcolon : s.cursor.current.token = .punctuator .colon
  · rw [defaultBehind, bind_of_ok (eat_of_eq hcolon), defaultBehind,
      bind_of_ok (eat_of_eq (htoken ▸ hcolon))]
    refine (hg.expression k).bind ?_ _ _ (K.step hrel hstop (by rw [hcolon]; rfl))
    intro value value' hvalue
    refine .pure ?_
    simp only [Views, KeywordParameter.relocate, KeywordParameterKind.relocate, hab, hvalue]
  · rw [defaultBehind, bind_of_ok (eat_of_ne hcolon), defaultBehind,
      bind_of_ok (eat_of_ne (htoken ▸ hcolon))]
    refine .ok hrel ?_
    simp only [Views, KeywordParameter.relocate, KeywordParameterKind.relocate, hab]

/-- Two named parameters belong together, unless the runs are stopped behind their names. -/
theorem keywordParameter_outcome (hg : g.Steady K) (hrel : K.rel k s.cursor s'.cursor) :
    K.Outcome k (K.Views KeywordParameter.relocate) (keywordParameter g s) (keywordParameter g s') ∨
      ∃ a r b r', typedName g s = .ok a r ∧ typedName g s' = .ok b r' ∧
        K.stopped r.cursor r'.cursor := by
  have hiff := current_eq_iff (t := .punctuator .starStar) hrel (.inr rfl)
  by_cases hstars : s.cursor.current.token = .punctuator .starStar
  · -- a collector has no value
    left
    rw [keywordParameter_run_starStar hstars, keywordParameter_run_starStar (hiff.1 hstars)]
    have hstop := stopped_false_of_current (t := .punctuator .starStar) hrel (.inr rfl) hstars
    refine (matches_typedName hg).bind ?_ _ _ (K.step hrel hstop (by rw [hstars]; rfl))
    rintro ⟨hint, name⟩ ⟨hint', _⟩ ⟨hhint, rfl⟩
    refine .pure ?_
    simp only [Views, KeywordParameter.relocate, KeywordParameterKind.relocate, hhint]
  rw [keywordParameter_run hstars, keywordParameter_run fun h => hstars (hiff.2 h)]
  have htyped := matches_typedName hg s s' hrel
  generalize hrun : typedName g s = result, hrun' : typedName g s' = result' at htyped
  cases htyped with
  | error err left =>
    rw [bind_of_error hrun, bind_of_error hrun']
    exact .inl (.error err left)
  | @ok a b r r' hrel' hview =>
    by_cases hstop : K.stopped r.cursor r'.cursor
    · exact .inr ⟨a, r, b, r', rfl, rfl, hstop⟩
    left
    rw [bind_of_ok hrun, bind_of_ok hrun']
    exact defaultBehind_outcome hg hview hrel' hstop

/-- Where a key ends behind a typed name, no head of a lambda is read. -/
theorem fails_bareHead {a : TypeHint × String} (hkeeps : KeepsTable g.type)
    (htyped : typedName g s = .ok a r) (hhalts : r.cursor.Halts)
    (harrow : r.cursor.Arrowless g.expression) : ∃ e s₁, bareHead g s = .error e s₁ := by
  have hless := current_of_typedName htyped
  have hpositional : positionalParameter g s = .ok ⟨a.1, false, a.2⟩ r := by
    rw [positionalParameter_run (by rw [hless]; decide), bind_of_ok htyped]
    rfl
  have hkeyword : keywordParameter g s = defaultBehind g a r := by
    rw [keywordParameter_run (by rw [hless]; decide), bind_of_ok htyped]
  -- no arrow is behind the name, and none behind a value that belongs to it
  have hname : r.cursor.current.token ≠ .punctuator .arrow := by
    intro h
    have hfalse := hhalts.token
    rw [h] at hfalse
    cases hfalse
  have hvalue (b : KeywordParameter) (r' : ParserState) (h : defaultBehind g a r = .ok b r')
      (hlt : r.cursor.index < r'.cursor.index) :
      r'.cursor.current.token ≠ .punctuator .arrow := by
    unfold defaultBehind at h
    by_cases hcolon : r.cursor.current.token = .punctuator .colon
    · rw [bind_of_ok (eat_of_eq hcolon)] at h
      obtain ⟨value, s₁, hrun, hpure⟩ := bind_eq_ok h
      cases hpure
      exact harrow hcolon _ value _ rfl hrun
    · rw [bind_of_ok (eat_of_ne hcolon)] at h
      cases h
      exact absurd hlt (Nat.lt_irrefl _)
  unfold bareHead
  obtain ⟨item, r', hlonger, hr'⟩ : ∃ item r', longer (positionalParameter g) (keywordParameter g) s =
      .ok item r' ∧ r'.cursor.current.token ≠ .punctuator .arrow := by
    rw [longer_run_of_keeps (keepsTable_positionalParameter hkeeps), hpositional, hkeyword]
    cases hdefault : defaultBehind g a r with
    | error e r' => exact ⟨_, _, rfl, hname⟩
    | ok b r' =>
      simp only [longerOf]
      split
      · next hlt => exact ⟨_, _, rfl, hvalue b r' hdefault hlt⟩
      · exact ⟨_, _, rfl, hname⟩
  rw [bind_of_ok hlonger, discard_bind, bind_of_error (expect_of_ne hr')]
  exact ⟨_, _, rfl⟩

/-- Both runs read a single parameter and the arrow behind it, or neither does. -/
theorem matches_bareHead (hg : g.Steady K) :
    K.lax.Matches k k (LambdaHead.Matches K) (bareHead g) (bareHead g) := by
  intro s s' hrel
  rcases keywordParameter_outcome hg hrel with hkeyword | ⟨a, r, b, r', hrun, hrun', hstop⟩
  · have hpositional := matches_positionalParameter hg s s' hrel
    have hlonger := hpositional.lax.longer hrel hkeyword.lax
    rw [← longer_run_of_keeps (keepsTable_positionalParameter hg.keeps),
      ← longer_run_of_keeps (keepsTable_positionalParameter hg.keeps)] at hlonger
    refine hlonger.bind fun item item' hitem => ?_
    refine (matches_expect (.inr rfl) rfl rfl).discard_bind (.pure ?_)
    obtain ⟨hpositionals, hkeywords⟩ := listsMatch_separate (.cons hitem .nil)
    exact ⟨hpositionals, hkeywords⟩
  · -- the runs are stopped behind the name
    obtain ⟨hhalts, hhalts'⟩ := K.halts hstop
    obtain ⟨harrow, harrow'⟩ := hg.arrowless hstop
    obtain ⟨e, t, he⟩ := fails_bareHead hg.keeps hrun hhalts harrow
    obtain ⟨e', t', he'⟩ := fails_bareHead hg.keeps hrun' hhalts' harrow'
    rw [he, he']
    exact .error trivial trivial

theorem lambdaHead_eq (g : Inner) : lambdaHead g = (do
    if ← eat (.punctuator .leftParen) then
      let lists ← twoKindList g.rounds (positionalParameter g) (keywordParameter g)
      discard (expect (.punctuator .rightParen))
      discard (expect (.punctuator .arrow))
      return ⟨lists.1, lists.2⟩
    else bareHead g) := by
  unfold lambdaHead twoKindDelimited bareHead
  rw [bind_assoc]
  refine congrArg (eat (.punctuator .leftParen) >>= ·) (funext fun found => ?_)
  cases found with
  | true => simp only [if_true, bind_assoc, pure_bind]
  | false => simp only [Bool.false_eq_true, if_false, bind_assoc, pure_bind]

/-- **Both runs read the head of a lambda, or neither does.** -/
theorem matches_lambdaHead (hg : g.Steady K) :
    K.lax.Matches k k (LambdaHead.Matches K) (lambdaHead g) (lambdaHead g) := by
  rw [lambdaHead_eq]
  refine Matches.eat_ite (.inr rfl) rfl ?_ (matches_bareHead hg)
  refine Matches.bind ((matches_twoKindList exact_cons (matches_positionalParameter hg)
    (matches_keywordParameter exact_cons hg) g.rounds).lax) fun lists lists' hlists => ?_
  refine (matches_expect (.inl exact_cons) rfl rfl).discard_bind ?_
  exact (matches_expect (.inr rfl) rfl rfl).discard_bind (.pure ⟨hlists.1, hlists.2⟩)

end DrakeSyntax
