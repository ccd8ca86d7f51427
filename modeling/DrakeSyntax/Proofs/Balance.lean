import DrakeSyntax.Grammar.ItemList

/-!
# Balanced brackets

Brackets, braces and parentheses are tracked by the closing tokens that are still missing
(`shiftAll`). In balanced tokens none is missing at the end and none is left over.

* `Balanced.unique`: a closing token behind balanced tokens is found in one place only.
-/

namespace DrakeSyntax

/-- The closing tokens that are missing behind the token if those of `k` are missing in front of
it, the innermost first. -/
def Token.shift : Token → List Token → Option (List Token)
  | .punctuator .leftParen, k => some (.punctuator .rightParen :: k)
  | .punctuator .leftBracket, k => some (.punctuator .rightBracket :: k)
  | .punctuator .leftBrace, k => some (.punctuator .rightBrace :: k)
  | t, k =>
    if t.closesList then
      match k with
      | u :: k => if u = t ∧ t ≠ .endOfInput then some k else none
      | [] => none
    else some k

/-- The closing tokens that are missing behind the tokens if those of `k` are missing in front of
them. -/
def shiftAll : List Token → List Token → Option (List Token)
  | [], k => some k
  | t :: ts, k => (t.shift k).bind (shiftAll ts)

/-- Every opening token has its closing token behind it, and the other way round. -/
def Balanced (ts : List Token) : Prop := shiftAll ts [] = some []

/-- Whether a token neither opens nor closes anything. -/
def Token.isPlain : Token → Bool
  | .punctuator .leftParen | .punctuator .leftBracket | .punctuator .leftBrace => false
  | t => !t.closesList

variable {t u : Token} {ts us k l m : List Token}

theorem Token.shift_of_isPlain (h : t.isPlain) (k : List Token) : t.shift k = some k := by
  unfold isPlain at h
  unfold shift
  split at h
  · cases h
  · cases h
  · cases h
  · split
    · contradiction
    · contradiction
    · contradiction
    · rw [Bool.not_eq_true'] at h
      rw [h]
      rfl

theorem Token.ne_endOfInput_of_isPlain (h : t.isPlain) : t ≠ .endOfInput := by
  rintro rfl
  cases h

/-- Nothing is closed that was not opened. -/
theorem Token.shift_nil_of_closesList (h : t.closesList) : t.shift [] = none := by
  unfold closesList at h
  split at h
  · rfl
  · rfl
  · rfl
  · rfl
  · cases h

theorem shiftAll_append (ts us k : List Token) :
    shiftAll (ts ++ us) k = (shiftAll ts k).bind (shiftAll us) := by
  induction ts generalizing k with
  | nil => rfl
  | cons t ts ih =>
    rw [List.cons_append, shiftAll, shiftAll, Option.bind_assoc]
    exact congrArg _ (funext ih)

namespace Balanced

theorem nil : Balanced [] := rfl

theorem append (ht : Balanced ts) (hu : Balanced us) : Balanced (ts ++ us) := by
  unfold Balanced at *
  rw [shiftAll_append, ht]
  exact hu

/-- Behind balanced tokens no closing token goes on with balanced ones. -/
theorem not_append_closing (ht : Balanced ts) (hu : u.closesList) (us : List Token) :
    ¬Balanced (ts ++ u :: us) := by
  unfold Balanced at *
  rw [shiftAll_append, ht]
  simp [shiftAll, Token.shift_nil_of_closesList hu]

/-- **A closing token behind balanced tokens is found in one place only.** -/
theorem unique {rest rest' : List Token} (ht : Balanced ts) (hu : Balanced us)
    (hclose : t.closesList) (hclose' : u.closesList) (h : ts ++ t :: rest = us ++ u :: rest') :
    ts = us := by
  rcases List.append_eq_append_iff.1 h with ⟨v, rfl, hv⟩ | ⟨v, rfl, hv⟩
  · cases v with
    | nil => simp
    | cons x v =>
      obtain ⟨rfl, -⟩ := List.cons.inj hv
      exact absurd hu (ht.not_append_closing hclose v)
  · cases v with
    | nil => simp
    | cons x v =>
      obtain ⟨rfl, -⟩ := List.cons.inj hv
      exact absurd ht (hu.not_append_closing hclose' v)

end Balanced

end DrakeSyntax
