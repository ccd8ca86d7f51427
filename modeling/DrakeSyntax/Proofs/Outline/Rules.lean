import DrakeSyntax.Proofs.Account.Operand
import DrakeSyntax.Proofs.Outline

/-!
# What a parser adds to an outline

A parser outlines what it reads if, behind tokens that an outline runs along, it takes such tokens
that the outline of its result runs along both (`Outlines`). Rules compose such statements along the
way parsers are composed. The place of each token that is taken is known; most of them are not
needed (`Outlines.drop`).

* `OutlinesAt`: the same from a token on that was looked at and not taken yet.
* `Outlines.phrase`: a phrase adds its own outline to what was read before.
* `outlines_listWith`, `outlines_twoKindList`: a list adds the outlines of its items.
-/

namespace DrakeSyntax

open DrakeSyntax.Parser

variable {α β : Type} {p : Parser α} {f : α → Parser β} {w : List Mark} {t : PlacedToken}
variable {u : α → List Mark} {v : β → List Mark}

/-- From the token `t` on, the parser takes such tokens that the outline `w` of those before becomes
the outline of its result. -/
def OutlinesAt (t : PlacedToken) (w : List Mark) (p : Parser α) (u : α → List Mark) : Prop :=
  ∀ s a s', s.cursor.current = t → p s = .ok a s' →
    ∃ vs, s.cursor.rest = vs ++ s'.cursor.rest ∧ ∀ us, Along us w → Along (us ++ vs) (u a)

/-- The parser takes such tokens that the outline `w` of those before becomes the outline of its
result. -/
def Outlines (w : List Mark) (p : Parser α) (u : α → List Mark) : Prop :=
  ∀ t, OutlinesAt t w p u

/-- A token that is taken is the first of those that were left. -/
theorem Cursor.rest_eq_cons {c : Cursor} (h : c.current.token ≠ .endOfInput) :
    c.rest = c.current :: c.advance.rest := by
  obtain ⟨index, rest⟩ := c
  cases rest with
  | nil => exact absurd rfl h
  | cons t ts =>
    have hne : t.token ≠ .endOfInput := h
    simp only [current, advance, if_neg hne]

namespace OutlinesAt

theorem bind (hp : OutlinesAt t w p u) (hf : ∀ a, Outlines (u a) (f a) v) :
    OutlinesAt t w (p >>= f) v := by
  intro s b s' ht hrun
  obtain ⟨a, s₁, ha, hb⟩ := bind_eq_ok hrun
  obtain ⟨vs, hvs, halong⟩ := hp s a s₁ ht ha
  obtain ⟨vs', hvs', halong'⟩ := hf a _ s₁ b s' rfl hb
  refine ⟨vs ++ vs', by rw [hvs, hvs', List.append_assoc], ?_⟩
  intro us hus
  rw [← List.append_assoc]
  exact halong' _ (halong us hus)

theorem weaken {u' : α → List Mark} (hp : OutlinesAt t w p u)
    (h : ∀ a us, Along us (u a) → Along us (u' a)) : OutlinesAt t w p u' := by
  intro s a s' ht hrun
  obtain ⟨vs, hvs, halong⟩ := hp s a s' ht hrun
  exact ⟨vs, hvs, fun us hus => h a _ (halong us hus)⟩

/-- What is known of the results may be used for their outlines. -/
theorem yielding {u' : α → List Mark} {Q : α → Prop} (hp : OutlinesAt t w p u) (hQ : Yields p Q)
    (h : ∀ a, Q a → u a = u' a) : OutlinesAt t w p u' := by
  intro s a s' ht hrun
  obtain ⟨vs, hvs, halong⟩ := hp s a s' ht hrun
  rw [h a (hQ s a s' hrun)] at halong
  exact ⟨vs, hvs, halong⟩

theorem ite {p q : Parser α} {c : Prop} [Decidable c] (hp : OutlinesAt t w p u)
    (hq : OutlinesAt t w q u) : OutlinesAt t w (if c then p else q) u := by
  split
  · exact hp
  · exact hq

theorem ite_true {p q : Parser α} (h : OutlinesAt t w p u) :
    OutlinesAt t w (if true = true then p else q) u := h

/-- The outline of fewer tokens may be known. -/
theorem drop (hp : OutlinesAt t w p u) (ms : List Mark) : OutlinesAt t (w ++ ms) p u := by
  intro s a s' ht hrun
  obtain ⟨vs, hvs, halong⟩ := hp s a s' ht hrun
  exact ⟨vs, hvs, fun us hus => halong us hus.left⟩

/-! ### The token at the cursor -/

/-- Something may begin at the token that is taken. -/
theorem take_bind {a : α} (ht : t.token ≠ .endOfInput)
    (hp : ∀ s : ParserState, s.cursor.current = t →
      p s = .ok a { s with cursor := s.cursor.advance })
    (hf : Outlines (w ++ [.place t.position]) (f a) v) : OutlinesAt t w (p >>= f) v := by
  intro s b s' hs hrun
  rw [bind_of_ok (hp s hs)] at hrun
  obtain ⟨vs, hvs, halong⟩ := hf _ _ b s' rfl hrun
  refine ⟨t :: vs, ?_, ?_⟩
  · have hrest := Cursor.rest_eq_cons (c := s.cursor) (by rw [hs]; exact ht)
    rw [hrest, hs]
    exact congrArg (t :: ·) hvs
  · intro us hus
    have h := halong _ (hus.take t)
    rwa [List.append_assoc] at h

theorem advance_bind {f : PlacedToken → Parser β} (ht : t.token ≠ .endOfInput)
    (hf : Outlines (w ++ [.place t.position]) (f t) v) : OutlinesAt t w (advance >>= f) v := by
  refine take_bind ht (fun s hs => ?_) hf
  rw [← hs]
  rfl

theorem discard_advance_bind {f : Unit → Parser β} (ht : t.token ≠ .endOfInput)
    (hf : Outlines (w ++ [.place t.position]) (f ()) v) :
    OutlinesAt t w (discard advance >>= f) v := by
  rw [Parser.discard_bind]
  exact advance_bind ht hf

theorem expect_bind {k : Token} {f : Position → Parser β} (hk : k ≠ .endOfInput)
    (hf : Outlines (w ++ [.place t.position]) (f t.position) v) :
    OutlinesAt t w (expect k >>= f) v := by
  by_cases ht : t.token = k
  · refine take_bind (ht ▸ hk) (fun s hs => ?_) hf
    rw [← hs] at ht ⊢
    exact expect_of_eq ht
  · intro s b s' hs hrun
    rw [← hs] at ht
    rw [bind_of_error (expect_of_ne ht)] at hrun
    cases hrun

theorem eat_bind {k : Token} {f : Bool → Parser β} (hk : k ≠ .endOfInput)
    (htrue : Outlines (w ++ [.place t.position]) (f true) v)
    (hfalse : OutlinesAt t w (f false) v) : OutlinesAt t w (eat k >>= f) v := by
  by_cases ht : t.token = k
  · refine take_bind (ht ▸ hk) (fun s hs => ?_) htrue
    rw [← hs] at ht
    exact eat_of_eq ht
  · intro s b s' hs hrun
    have hne : s.cursor.current.token ≠ k := by rwa [hs]
    rw [bind_of_ok (eat_of_ne hne)] at hrun
    exact hfalse s b s' hs hrun

theorem identifier_bind {f : String × Position → Parser β}
    (hf : ∀ name, Outlines (w ++ [.place t.position]) (f (name, t.position)) v) :
    OutlinesAt t w (identifier >>= f) v := by
  by_cases ht : ∃ name, t.token = .identifier name
  · obtain ⟨name, ht⟩ := ht
    refine take_bind (by rw [ht]; simp) (fun s hs => ?_) (hf name)
    rw [← hs] at ht ⊢
    exact identifier_of_eq ht
  · intro s b s' hs hrun
    rw [← hs] at ht
    rw [bind_of_error (identifier_of_ne (not_exists.1 ht))] at hrun
    cases hrun

theorem peek_bind {f : PlacedToken → Parser β} (hf : OutlinesAt t w (f t) v) :
    OutlinesAt t w (peek >>= f) v := by
  intro s b s' hs hrun
  rw [bind_of_ok (rfl : peek s = .ok s.cursor.current s), hs] at hrun
  exact hf s b s' hs hrun

/-- A look at the tokens leaves the parser where it is. -/
theorem look_bind {p : Parser α} {a : ParserState → α} (hp : ∀ s, p s = .ok (a s) s)
    (hf : ∀ a, OutlinesAt t w (f a) v) : OutlinesAt t w (p >>= f) v := by
  intro s b s' hs hrun
  rw [bind_of_ok (hp s)] at hrun
  exact hf _ s b s' hs hrun

theorem isAt_bind {k : Token} {f : Bool → Parser β}
    (htrue : t.token = k → OutlinesAt t w (f true) v)
    (hfalse : OutlinesAt t w (f false) v) : OutlinesAt t w (isAt k >>= f) v := by
  intro s b s' hs hrun
  rw [bind_of_ok (isAt_run k s)] at hrun
  by_cases hat : s.cursor.current.token = k
  · rw [beq_iff_eq.2 hat] at hrun
    exact htrue (hs ▸ hat) s b s' hs hrun
  · rw [beq_false_of_ne hat] at hrun
    exact hfalse s b s' hs hrun

/-- A trial that fails leaves the parser where it is. -/
theorem attempt_bind {f : Except ParseError α → Parser β} (hp : OutlinesAt t w p u)
    (hok : ∀ a, Outlines (u a) (f (.ok a)) v) (herror : ∀ e, OutlinesAt t w (f (.error e)) v) :
    OutlinesAt t w (attempt p >>= f) v := by
  intro s b s' hs hrun
  cases hp' : p s with
  | ok a s₂ =>
    have hbind : (p >>= fun a => f (.ok a)) s = .ok b s' := by
      rw [bind_of_ok (attempt_of_ok hp')] at hrun
      rw [bind_of_ok hp', hrun]
    exact hp.bind hok s b s' hs hbind
  | error e s₂ =>
    rw [bind_of_ok (attempt_of_error hp')] at hrun
    exact herror e { s₂ with cursor := s.cursor } b s' hs hrun

theorem attemptIf_bind {condition : Bool} {f : Option α → Parser β} (hp : OutlinesAt t w p u)
    (hsome : ∀ a, Outlines (u a) (f (some a)) v) (hnone : OutlinesAt t w (f none) v) :
    OutlinesAt t w (attemptIf condition p >>= f) v := by
  cases condition with
  | false => exact hnone
  | true =>
    simp only [attemptIf, if_true, bind_assoc, pure_bind]
    exact hp.attempt_bind hsome fun _ => hnone

end OutlinesAt

namespace Outlines

theorem weaken {u' : α → List Mark} (hp : Outlines w p u)
    (h : ∀ a us, Along us (u a) → Along us (u' a)) : Outlines w p u' :=
  fun t => (hp t).weaken h

theorem pure {a : α} (h : ∀ us, Along us w → Along us (u a)) : Outlines w (Pure.pure a) u := by
  intro t s b s' _ hrun
  cases hrun
  refine ⟨[], rfl, fun us hus => ?_⟩
  rw [List.append_nil]
  exact h us hus

/-- Nothing is added. -/
theorem done {a : α} (h : w = u a) : Outlines w (Pure.pure a) u := pure fun _ hus => h ▸ hus

/-- The outline is that of a whole node. -/
theorem node {kind : NodeKind} {position : Position} (h : w = .place position :: kind.marks) :
    Outlines w (Pure.pure (⟨kind, position⟩ : Node)) Node.mark :=
  pure fun _ hus => (h ▸ hus).node

theorem fail {p : Parser α} (h : ∀ s a s', p s ≠ .ok a s') : Outlines w p u := by
  intro t s a s' _ hrun
  exact absurd hrun (h s a s')

theorem failExpecting (expected : List String) : Outlines w (failExpecting (α := α) expected) u :=
  fail fun _ _ _ h => by cases h

theorem reject (note : String) : Outlines w (reject (α := α) note) u :=
  fail fun _ _ _ h => by cases h

theorem rejectAt (t : PlacedToken) (note : String) : Outlines w (rejectAt (α := α) t note) u :=
  fail fun _ _ _ h => by cases h

theorem bind (hp : Outlines w p u) (hf : ∀ a, Outlines (u a) (f a) v) : Outlines w (p >>= f) v :=
  fun t => (hp t).bind hf

/-- A phrase outlines what it reads whatever was read before. -/
theorem behind (hp : Outlines [] p u) (w : List Mark) : Outlines w p fun a => w ++ u a := by
  intro t s a s' hs hrun
  obtain ⟨vs, hvs, halong⟩ := hp t s a s' hs hrun
  exact ⟨vs, hvs, fun us hus => hus.append (halong [] .nil)⟩

/-- A phrase adds its own outline to what was read before. -/
theorem phrase (hp : Outlines [] p u) (hf : ∀ a, Outlines (w ++ u a) (f a) v) :
    Outlines w (p >>= f) v := (hp.behind w).bind hf

theorem map {h : α → β} (hp : Outlines w p fun a => v (h a)) : Outlines w (h <$> p) v := by
  rw [← bind_pure_comp]
  exact hp.bind fun _ => .done rfl

theorem ite {p q : Parser α} {c : Prop} [Decidable c] (hp : Outlines w p u)
    (hq : Outlines w q u) : Outlines w (if c then p else q) u := fun t => (hp t).ite (hq t)

theorem drop (hp : Outlines w p u) (ms : List Mark) : Outlines (w ++ ms) p u :=
  fun t => (hp t).drop ms

/-- Parsers that only look at tokens. -/
theorem look_bind {p : Parser α} (hp : ∀ s, ∃ a, p s = .ok a s) (hf : ∀ a, Outlines w (f a) v) :
    Outlines w (p >>= f) v := by
  intro t s b s' hs hrun
  obtain ⟨a, ha⟩ := hp s
  rw [bind_of_ok ha] at hrun
  exact hf a t s b s' hs hrun

theorem peek_bind {f : PlacedToken → Parser β} (hf : ∀ t, OutlinesAt t w (f t) v) :
    Outlines w (peek >>= f) v := fun t => OutlinesAt.peek_bind (hf t)

theorem expect_bind {k : Token} {f : Position → Parser β} (hk : k ≠ .endOfInput)
    (hf : ∀ q, Outlines (w ++ [.place q]) (f q) v) : Outlines w (expect k >>= f) v :=
  fun t => OutlinesAt.expect_bind hk (hf t.position)

/-- Nothing begins at the token. -/
theorem skip_bind {k : Token} {f : Unit → Parser β} (hk : k ≠ .endOfInput)
    (hf : Outlines w (f ()) v) : Outlines w (discard (expect k) >>= f) v := by
  rw [Parser.discard_bind]
  exact expect_bind hk fun q => hf.drop _

theorem eat_bind {k : Token} {f : Bool → Parser β} (hk : k ≠ .endOfInput)
    (htrue : Outlines w (f true) v) (hfalse : Outlines w (f false) v) :
    Outlines w (eat k >>= f) v :=
  fun t => OutlinesAt.eat_bind hk (htrue.drop _) (hfalse t)

theorem eat_newline_bind {f : Unit → Parser β} (hf : Outlines w (f ()) v) :
    Outlines w (discard (eat .newline) >>= f) v := by
  rw [Parser.discard_bind]
  exact eat_bind (by simp) hf hf

theorem identifier_bind {f : String × Position → Parser β}
    (hf : ∀ name q, Outlines (w ++ [.place q]) (f (name, q)) v) :
    Outlines w (identifier >>= f) v :=
  fun t => OutlinesAt.identifier_bind fun name => hf name t.position

/-- Nothing begins at the name. -/
theorem name_bind {f : String × Position → Parser β}
    (hf : ∀ name q, Outlines w (f (name, q)) v) : Outlines w (identifier >>= f) v :=
  identifier_bind fun name q => (hf name q).drop _

/-- In front of a keyword a line break is skipped. -/
theorem skipNewlineBefore_bind {k : Keyword} {f : Bool → Parser β}
    (htrue : ∀ t : PlacedToken, t.token = .keyword k → OutlinesAt t w (f true) v)
    (hfalse : Outlines w (f false) v) : Outlines w (skipNewlineBefore k >>= f) v := by
  intro t s b s' hs hrun
  have hat : Outlines w (isAt (.keyword k) >>= f) v :=
    fun t => OutlinesAt.isAt_bind (htrue t) (hfalse t)
  have heq : (skipNewlineBefore k >>= f) s = (isAt (.keyword k) >>= f)
      (if s.cursor.current.token = .newline ∧ s.cursor.following = .keyword k then
        { s with cursor := s.cursor.advance } else s) := by
    simp only [Bind.bind, EStateM.bind, skipNewlineBefore_run]
  rw [heq] at hrun
  obtain ⟨vs, hvs, halong⟩ := hat _ _ b s' rfl hrun
  split at hvs
  · next hnewline =>
    have hrest := Cursor.rest_eq_cons (c := s.cursor) (by simp [hnewline.1])
    refine ⟨s.cursor.current :: vs, ?_, ?_⟩
    · rw [hrest]
      exact congrArg _ hvs
    · intro us hus
      have h := halong _ (hus.pass [s.cursor.current])
      rwa [List.append_assoc] at h
  · exact ⟨vs, hvs, halong⟩

end Outlines

/-! ### Lists -/

variable {r : Nat}

theorem outlines_listFrom {item : Option α → Parser α} (hitem : ∀ last, Outlines [] (item last) u)
    (separator : Option Separator) (last : α) :
    Outlines (w ++ u last) (listFrom item r separator last) fun l => w ++ l.items.flatMap u := by
  induction r generalizing w separator last with
  | zero =>
    apply Outlines.done
    simp
  | succ r ih =>
    -- one more item
    have hmore (separator : Option Separator) :
        Outlines (w ++ u last) (do
          let next ← item (some last)
          return (← listFrom item r separator next).cons last)
          fun l => w ++ l.items.flatMap u := by
      refine (hitem (some last)).phrase fun next => ?_
      refine (ih separator next).bind fun l => ?_
      apply Outlines.done
      simp [ItemList.cons]
    -- the list ends here
    have hlast (trailing : Bool) :
        Outlines (w ++ u last) (return (⟨[last], trailing⟩ : ItemList α))
          fun l => w ++ l.items.flatMap u := by
      apply Outlines.done
      simp
    intro t
    unfold listFrom
    refine OutlinesAt.isAt_bind (fun ht => OutlinesAt.ite_true ?_)
      (OutlinesAt.isAt_bind (fun ht => OutlinesAt.ite_true ?_) (hlast _ t))
    · have hne : t.token ≠ .endOfInput := by simp [ht]
      refine OutlinesAt.ite (Outlines.reject _ t) ?_
      refine OutlinesAt.discard_advance_bind hne (Outlines.drop ?_ _)
      refine Outlines.eat_newline_bind (Outlines.peek_bind fun t => ?_)
      exact OutlinesAt.ite (hlast _ t) (hmore _ t)
    · have hne : t.token ≠ .endOfInput := by simp [ht]
      refine OutlinesAt.look_bind (fun s => rfl) fun following => ?_
      refine OutlinesAt.ite ?_ (OutlinesAt.ite ?_ (OutlinesAt.ite (Outlines.reject _ t) ?_))
      · exact OutlinesAt.discard_advance_bind hne ((hlast _).drop _)
      · exact OutlinesAt.discard_advance_bind hne (Outlines.reject _)
      · exact OutlinesAt.discard_advance_bind hne ((hmore _).drop _)

theorem outlines_listWith {item : Option α → Parser α}
    (hitem : ∀ last, Outlines [] (item last) u) :
    Outlines w (listWith r item) fun l => w ++ l.items.flatMap u := by
  unfold listWith
  refine Outlines.eat_newline_bind (Outlines.peek_bind fun t => OutlinesAt.ite ?_ ?_)
  · apply Outlines.done
    simp
  · exact (hitem none).phrase (fun first => outlines_listFrom hitem none first) t

theorem outlines_list {item : Parser α} (hitem : Outlines [] item u) :
    Outlines w (list r item) fun l => w ++ l.items.flatMap u :=
  outlines_listWith fun _ => hitem

theorem outlines_listBehind {item : Parser α} (hitem : Outlines [] item u) (first : α) :
    Outlines (w ++ u first) (listBehind r first item) fun l => w ++ l.items.flatMap u :=
  outlines_listFrom (fun _ => hitem) none first

/-- A single item may begin at the token where the list does. -/
theorem outlinesAt_delimited {item : Parser α} (hitem : Outlines [] item u)
    (hsingle : OutlinesAt t w item fun a => w ++ .place t.position :: u a) :
    OutlinesAt t w (delimited r item) fun items => w ++ .place t.position :: items.flatMap u := by
  unfold delimited
  refine OutlinesAt.eat_bind (by simp) ?_ (hsingle.bind fun a => Outlines.done (by simp))
  refine (outlines_list hitem).bind fun l => ?_
  refine Outlines.skip_bind (by simp) (Outlines.done ?_)
  simp

/-! ### The longer of two phrases -/

theorem outlinesAt_longer {p : Parser α} {q : Parser β} (hp : OutlinesAt t w p u)
    (hq : OutlinesAt t w q v) : OutlinesAt t w (longer p q) (Sum.elim u v) := by
  intro s a s' hs hrun
  rw [longer_run] at hrun
  cases hrunp : p s with
  | ok x s₁ =>
    have hx := hp s x s₁ hs hrunp
    rw [hrunp] at hrun
    simp only at hrun
    -- the second phrase starts at the same cursor
    cases hrunq : q { s₁ with cursor := s.cursor } with
    | ok y s₂ =>
      have hy := hq { s₁ with cursor := s.cursor } y s₂ hs hrunq
      rw [hrunq] at hrun
      simp only at hrun
      split at hrun
      · cases hrun
        exact hy
      · cases hrun
        exact hx
    | error e s₂ =>
      rw [hrunq] at hrun
      cases hrun
      exact hx
  | error e s₁ =>
    rw [hrunp] at hrun
    simp only at hrun
    cases hrunq : q { s₁ with cursor := s.cursor } with
    | ok y s₂ =>
      rw [hrunq] at hrun
      cases hrun
      exact hq { s₁ with cursor := s.cursor } y _ hs hrunq
    | error e' s₂ =>
      rw [hrunq] at hrun
      cases hrun

theorem outlines_eitherItem {p : Parser α} {q : Parser β} (hp : Outlines [] p u)
    (hq : Outlines [] q v) (last : Option (α ⊕ β)) :
    Outlines [] (eitherItem p q last) (Sum.elim u v) := by
  match last with
  | some (.inr c) =>
    refine hq.bind fun b => ?_
    exact Outlines.done rfl
  | some (.inl a) => exact fun t => outlinesAt_longer (hp t) (hq t)
  | none => exact fun t => outlinesAt_longer (hp t) (hq t)

theorem outlines_twoKindList {p : Parser α} {q : Parser β} (hp : Outlines [] p u)
    (hq : Outlines [] q v) :
    Outlines w (twoKindList r p q) fun lists =>
      w ++ (lists.1.flatMap u ++ lists.2.flatMap v) := by
  have hlist : Outlines w (listWith r (eitherItem p q)) fun l =>
      w ++ ((separate l.items).1.flatMap u ++ (separate l.items).2.flatMap v) := by
    intro t
    refine (outlines_listWith (outlines_eitherItem hp hq) t).yielding
      (yields_listWith (yields_eitherItem_kindOrder p q)) fun l hl => ?_
    rw [(flatMap_separate hl).1]
  exact hlist.bind fun l => Outlines.done rfl

/-- A single item of either kind may begin at the token where the list does. -/
theorem outlinesAt_twoKindDelimited {p : Parser α} {q : Parser β} (hp : Outlines [] p u)
    (hq : Outlines [] q v) (hp' : OutlinesAt t w p fun a => w ++ .place t.position :: u a)
    (hq' : OutlinesAt t w q fun b => w ++ .place t.position :: v b) :
    OutlinesAt t w (twoKindDelimited r p q) fun lists =>
      w ++ .place t.position :: (lists.1.flatMap u ++ lists.2.flatMap v) := by
  unfold twoKindDelimited
  refine OutlinesAt.eat_bind (by simp) ?_ ((outlinesAt_longer hp' hq').bind fun item => ?_)
  · refine (outlines_twoKindList hp hq).bind fun lists => ?_
    refine Outlines.skip_bind (by simp) (Outlines.done ?_)
    simp
  · apply Outlines.done
    cases item with
    | inl a => simp [separate]
    | inr b => simp [separate]

end DrakeSyntax
