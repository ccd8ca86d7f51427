import DrakeSyntax.Proofs.Agreement.Expression

/-!
# Tokens that the rounds of a loop take

Lists, trailers, handlers and chains of operators are read round by round, and what is returned has
an entry for each round. A round takes a token at least, so that a loop takes no fewer tokens than
it makes rounds, however many of them it is allowed (`Spends`).

* `spends_listFrom`: lists, which have their first item from before the loop.
* `spends_trailers`, `spends_handlers`, `spends_chainRest`: the other loops.
-/

namespace DrakeSyntax

open DrakeSyntax.Parser

/-- With at most `n` tokens ahead, a success takes as many of them as its result counts, at
least. -/
def Spends (w : Walk) (n : Nat) {α : Type} (p : Parser α) (count : α → Nat) : Prop :=
  ∀ c b, c.On w → c.rest.length ≤ n → w.table b → ∀ a s', p ⟨c, b⟩ = .ok a s' →
    s'.cursor.On w ∧ s'.cursor.rest.length + count a ≤ n

variable {w : Walk} {n : Nat} {α β : Type} {p p' : Parser α} {f : α → Parser β}

namespace Spends

variable {count : α → Nat} {count' : β → Nat}

/-- There is no cursor on the walk that has no tokens ahead. -/
theorem zero : Spends w 0 p count := by
  intro c b hc hn
  have := hc.length_pos
  omega

theorem pure {a : α} (h : count a = 0) : Spends w n (Pure.pure a) count := by
  intro c b hc hn _ a' s' hrun
  cases hrun
  exact ⟨hc, by rw [h]; exact hn⟩

theorem reject (note : String) : Spends w n (Parser.reject note) count := by
  intro c b _ _ _ a s' hrun
  cases hrun

theorem ite {p q : Parser α} {t : Prop} [Decidable t] (hp : t → Spends w n p count)
    (hq : ¬t → Spends w n q count) : Spends w n (if t then p else q) count := by
  split
  · exact hp ‹_›
  · exact hq ‹_›

theorem bind (hp : Agree w n n p p') (hf : ∀ a, Spends w n (f a) count') :
    Spends w n (p >>= f) count' := by
  intro c b hc hn hb a' s' hrun
  obtain ⟨a, s₁, hfirst, hrest⟩ := bind_eq_ok hrun
  have halike := hp c b b hc hn hb
  rw [hfirst] at halike
  generalize p' ⟨c, b⟩ = r at halike
  cases halike with
  | ok _ on room table => exact hf a _ _ on room table a' s' hrest

/-- A phrase that takes a token makes up for one that is counted. -/
theorem take_bind (hp : Agree w (n + 1) n p p')
    (hf : ∀ a, Spends w n (f a) fun b => count' b - 1) : Spends w (n + 1) (p >>= f) count' := by
  intro c b hc hn hb a' s' hrun
  obtain ⟨a, s₁, hfirst, hrest⟩ := bind_eq_ok hrun
  have halike := hp c b b hc hn hb
  rw [hfirst] at halike
  generalize p' ⟨c, b⟩ = r at halike
  cases halike with
  | ok _ on room table =>
    obtain ⟨hon, hspent⟩ := hf a _ _ on room table a' s' hrest
    simp only at hspent
    exact ⟨hon, by omega⟩

theorem map {g : α → β} (hp : Spends w n p count) (h : ∀ a, count' (g a) ≤ count a) :
    Spends w n (p >>= fun a => Pure.pure (g a)) count' := by
  intro c b hc hn hb a' s' hrun
  obtain ⟨a, s₁, hfirst, hrest⟩ := bind_eq_ok hrun
  cases hrest
  obtain ⟨hon, hspent⟩ := hp c b hc hn hb a _ hfirst
  have hcount := h a
  exact ⟨hon, by omega⟩

end Spends

/-- Every item behind the first one takes a token. -/
theorem spends_listFrom {item item' : Option α → Parser α}
    (hitem : ∀ last, Takes w n (item last) (item' last)) (r : Nat) (separator : Option Separator)
    (last : α) : Spends w n (listFrom item r separator last) fun l => l.items.length - 1 := by
  induction r generalizing n separator last with
  | zero => exact .pure rfl
  | succ r ih =>
    cases n with
    | zero => exact .zero
    | succ n =>
      -- one more item, behind either separator
      have hmore (separator : Option Separator) : Spends w (n + 1)
          (do let next ← item (some last)
              return (← listFrom item r separator next).cons last)
          fun l => l.items.length - 1 := by
        refine .take_bind (hitem _).agree fun next => ?_
        have hrest := ih (fun last => (hitem last).mono (Nat.le_succ _)) separator next
        exact .map hrest fun l => Nat.le_refl _
      unfold listFrom
      refine .bind (agree_isAt _) fun atComma => .ite (fun _ => ?_) fun _ => ?_
      · refine .ite (fun _ => .reject _) fun _ => .bind agree_advance.discard fun _ => ?_
        refine .bind (agree_eat _).discard fun _ => .bind agree_peek fun t => ?_
        exact .ite (fun _ => .pure rfl) fun _ => hmore _
      · refine .bind (agree_isAt _) fun atNewline => .ite (fun _ => ?_) fun _ => .pure rfl
        refine .bind agree_peekFollowing fun following => .ite (fun _ => ?_) fun _ => ?_
        · exact .bind agree_advance.discard fun _ => .pure rfl
        · refine .ite (fun _ => .bind agree_advance.discard fun _ => .reject _) fun _ => ?_
          refine .ite (fun _ => .reject _) fun _ => ?_
          exact .bind agree_advance.discard fun _ => hmore _

/-- Every operator has an operand behind it, which takes a token. -/
theorem spends_chainRest (operators : List BinaryOperator) {operand operand' : Parser Node}
    (hoperand : Takes w n operand operand') (r : Nat) :
    Spends w n (chainRest operators operand r) List.length := by
  induction r generalizing n with
  | zero => exact .pure rfl
  | succ r ih =>
    cases n with
    | zero => exact .zero
    | succ n =>
      unfold chainRest
      refine .bind (agree_operatorAmong operators) fun found => ?_
      cases found with
      | none => exact .pure rfl
      | some operator =>
        refine .take_bind hoperand.agree fun right => ?_
        exact .map (ih (hoperand.mono (Nat.le_succ n))) fun rest => Nat.le_refl _

variable {g g' : Inner}

/-- A trailer takes a token behind the one that it begins with, if it takes that. -/
theorem spends_trailers (hg : g.Agree w n g') (r : Nat) :
    Spends w n (trailers g r) List.length := by
  induction r generalizing n with
  | zero => exact .pure rfl
  | succ r ih =>
    cases n with
    | zero => exact .zero
    | succ n =>
      have hmore (t : Trailer) : Spends w n (do return t :: (← trailers g r))
          fun ts => ts.length - 1 :=
        .map (ih (hg.mono (Nat.le_succ n))) fun ts => Nat.le_refl _
      unfold trailers
      refine .bind (agree_eat _) fun isAttribute => .ite (fun _ => ?_) fun _ => ?_
      · exact .take_bind takes_identifier.agree fun name => hmore (.attribute name.1)
      refine .bind (agree_eat _) fun isCall => .ite (fun _ => ?_) fun _ => ?_
      · refine .bind (agree_twoKindList hg.expression (takes_keywordArgument hg) hg.rounds
          hg.rounds') fun arguments => ?_
        exact .take_bind (takes_expect Token.noConfusion).agree.discard fun _ =>
          hmore (.call arguments.1 arguments.2)
      refine .bind (agree_isAt _) fun isIndex => .ite (fun _ => ?_) fun _ => .pure rfl
      exact .take_bind (hg.bracket.mono (Nat.le_succ _)).agree fun operand => hmore _

/-- A handler takes the name of what it handles. -/
theorem spends_handlers (hg : g.Agree w n g') (r : Nat) :
    Spends w n (handlers g r) List.length := by
  induction r generalizing n with
  | zero => exact .pure rfl
  | succ r ih =>
    cases n with
    | zero => exact .zero
    | succ n =>
      unfold handlers
      refine .bind (agree_skipNewlineBefore _) fun found => .ite (fun _ => ?_) fun _ => .pure rfl
      refine .bind agree_advance fun t => .take_bind takes_identifier.agree fun name => ?_
      refine .bind agree_catchBinding fun binding => ?_
      refine .bind (hg.expression.mono (Nat.le_succ n)).weak fun handler => ?_
      exact .map (ih (hg.mono (Nat.le_succ n))) fun rest => Nat.le_refl _

end DrakeSyntax
