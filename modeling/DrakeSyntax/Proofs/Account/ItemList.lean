import DrakeSyntax.Proofs.Account

/-!
# What becomes of the tokens of lists

A list accounts for the tokens it takes by its items, and the longer of two phrases by the one that
is kept.

* `accounts_listWith`: whatever separates the items and wherever they come from.
* `accounts_twoKindList`: the items of the first kind and then those of the second kind are all
  items in the order they were read, since behind one of the second kind only that kind is tried.
-/

namespace DrakeSyntax

open DrakeSyntax.Parser

variable {α β : Type} {w : List Token} {u : α → List Token} {v : β → List Token} {r : Nat}

/-! ### Lists -/

theorem accounts_listFrom {item : Option α → Parser α} (hitem : ∀ last, Accounts [] (item last) u)
    (separator : Option Separator) (last : α) :
    Accounts (w ++ u last) (listFrom item r separator last) fun l => w ++ l.items.flatMap u := by
  induction r generalizing w separator last with
  | zero =>
    apply Accounts.pure
    simp
  | succ r ih =>
    -- one more item
    have hmore (separator : Option Separator) :
        Accounts (w ++ u last) (do
          let next ← item (some last)
          return (← listFrom item r separator next).cons last)
          fun l => w ++ l.items.flatMap u := by
      refine (hitem (some last)).phrase fun next => ?_
      refine (ih separator next).bind fun l => ?_
      apply Accounts.pure
      simp [ItemList.cons]
    -- the list ends here
    have hlast (trailing : Bool) :
        Accounts (w ++ u last) (return (⟨[last], trailing⟩ : ItemList α))
          fun l => w ++ l.items.flatMap u := by
      apply Accounts.pure
      simp
    -- separators do not count
    have hcomma : significant (w ++ u last ++ [.punctuator .comma]) = significant (w ++ u last) := by
      simp
    have hnewline : significant (w ++ u last ++ [.newline]) = significant (w ++ u last) := by
      simp
    unfold listFrom
    refine Accounts.isAt_bind (AccountsAt.ite_true ?_)
      (Accounts.isAt_bind (AccountsAt.ite_true ?_) (hlast _))
    · refine AccountsAt.ite (Accounts.reject _).at ?_
      refine AccountsAt.discard_advance_bind (by simp) (Accounts.congr ?_ hcomma)
      refine Accounts.discard_bind (Accounts.eat_newline_bind fun _ => ?_)
      exact Accounts.peek_bind fun t => (Accounts.ite (hlast _) (hmore _)).at
    · refine AccountsAt.peekFollowing_bind fun following => ?_
      refine AccountsAt.ite ?_ (AccountsAt.ite ?_ (AccountsAt.ite (Accounts.reject _).at ?_))
      · exact AccountsAt.discard_advance_bind (by simp) ((hlast _).congr hnewline)
      · exact AccountsAt.discard_advance_bind (by simp) (Accounts.reject _)
      · exact AccountsAt.discard_advance_bind (by simp) ((hmore _).congr hnewline)

theorem accounts_listWith {item : Option α → Parser α}
    (hitem : ∀ last, Accounts [] (item last) u) :
    Accounts w (listWith r item) fun l => w ++ l.items.flatMap u := by
  unfold listWith
  refine Accounts.discard_bind (Accounts.eat_newline_bind fun _ => ?_)
  refine Accounts.peek_bind fun t => (Accounts.ite ?_ ?_).at
  · apply Accounts.pure
    simp
  · exact (hitem none).phrase fun first => accounts_listFrom hitem none first

theorem accounts_list {item : Parser α} (hitem : Accounts [] item u) :
    Accounts w (list r item) fun l => w ++ l.items.flatMap u :=
  accounts_listWith fun _ => hitem

theorem accounts_listBehind {item : Parser α} (hitem : Accounts [] item u) (first : α) :
    Accounts (w ++ u first) (listBehind r first item) fun l => w ++ l.items.flatMap u :=
  accounts_listFrom (fun _ => hitem) none first

theorem accounts_delimited {item : Parser α} (hitem : Accounts [] item u) :
    Accounts w (delimited r item) fun items => w ++ items.flatMap u := by
  unfold delimited
  refine Accounts.eat_bind (by simp) ?_ (hitem.phrase fun a => ?_)
  · refine (accounts_list hitem).bind fun l => ?_
    refine Accounts.discard_bind (Accounts.expect_bind (by simp) fun _ => ?_)
    apply Accounts.pure
    simp
  · apply Accounts.pure
    simp

/-! ### The longer of two phrases -/

theorem accounts_longer {p : Parser α} {q : Parser β} (hp : Accounts w p u) (hq : Accounts w q v) :
    Accounts w (longer p q) (Sum.elim u v) := by
  intro s a s' hrun
  rw [longer_run] at hrun
  cases hrunp : p s with
  | ok x s₁ =>
    have hx := hp s x s₁ hrunp
    rw [hrunp] at hrun
    simp only at hrun
    -- the second phrase starts at the same cursor
    cases hrunq : q { s₁ with cursor := s.cursor } with
    | ok y s₂ =>
      have hy := hq _ y s₂ hrunq
      rw [hrunq] at hrun
      simp only at hrun
      split at hrun
      · cases hrun
        exact hy
      · cases hrun
        exact hx
    | error e s₂ =>
      rw [hrunq] at hrun
      cases hrun
      exact hx
  | error e s₁ =>
    rw [hrunp] at hrun
    simp only at hrun
    cases hrunq : q { s₁ with cursor := s.cursor } with
    | ok y s₂ =>
      rw [hrunq] at hrun
      cases hrun
      exact hq { s₁ with cursor := s.cursor } y _ hrunq
    | error e' s₂ =>
      rw [hrunq] at hrun
      cases hrun

/-! ### Lists of two kinds -/

/-- Behind an item of the second kind comes another one of that kind. -/
def KindOrder (last : Option (α ⊕ β)) (item : α ⊕ β) : Prop :=
  (∃ b, last = some (.inr b)) → ∃ b, item = .inr b

theorem yields_eitherItem_kindOrder (p : Parser α) (q : Parser β) (last : Option (α ⊕ β)) :
    Yields (eitherItem p q last) (KindOrder last) := by
  match last with
  | some (.inr c) => exact Yields.skip fun b => .pure fun _ => ⟨b, rfl⟩
  | some (.inl a) => exact (Yields.any _).weaken fun _ _ h => by simp at h
  | none => exact (Yields.any _).weaken fun _ _ h => by simp at h

/-- Items in order are those of the first kind and then those of the second kind. -/
theorem flatMap_separate {γ : Type} {u : α → List γ} {v : β → List γ} {last : Option (α ⊕ β)}
    {items : List (α ⊕ β)} (h : Linked KindOrder last items) :
    (separate items).1.flatMap u ++ (separate items).2.flatMap v =
      items.flatMap (Sum.elim u v) ∧
    ((∃ b, last = some (.inr b)) → (separate items).1 = []) := by
  induction items generalizing last with
  | nil => exact ⟨rfl, fun _ => rfl⟩
  | cons item items ih =>
    obtain ⟨hitem, hrest⟩ := h
    obtain ⟨hflat, hnone⟩ := ih hrest
    cases item with
    | inl a =>
      refine ⟨?_, fun hlast => ?_⟩
      · simp only [separate, List.flatMap_cons, Sum.elim_inl, List.append_assoc, hflat]
      · obtain ⟨b, hb⟩ := hitem hlast
        cases hb
    | inr b =>
      -- no item of the first kind follows
      have hfirst := hnone ⟨b, rfl⟩
      rw [hfirst, List.flatMap_nil, List.nil_append] at hflat
      refine ⟨?_, fun _ => hfirst⟩
      simp only [separate, hfirst, List.flatMap_nil, List.nil_append, List.flatMap_cons,
        Sum.elim_inr, hflat]

theorem accounts_eitherItem {p : Parser α} {q : Parser β} (hp : Accounts [] p u)
    (hq : Accounts [] q v) (last : Option (α ⊕ β)) :
    Accounts [] (eitherItem p q last) (Sum.elim u v) := by
  match last with
  | some (.inr c) =>
    refine hq.bind fun b => ?_
    exact Accounts.pure rfl
  | some (.inl a) => exact accounts_longer hp hq
  | none => exact accounts_longer hp hq

theorem accounts_twoKindList {p : Parser α} {q : Parser β} (hp : Accounts [] p u)
    (hq : Accounts [] q v) :
    Accounts w (twoKindList r p q) fun lists =>
      w ++ (lists.1.flatMap u ++ lists.2.flatMap v) := by
  have hlist : Accounts w (listWith r (eitherItem p q)) fun l =>
      w ++ ((separate l.items).1.flatMap u ++ (separate l.items).2.flatMap v) := by
    refine (accounts_listWith (accounts_eitherItem hp hq)).yielding
      (yields_listWith (yields_eitherItem_kindOrder p q)) fun l hl => ?_
    rw [(flatMap_separate hl).1]
  exact hlist.bind fun l => Accounts.pure rfl

theorem accounts_twoKindDelimited {p : Parser α} {q : Parser β} (hp : Accounts [] p u)
    (hq : Accounts [] q v) :
    Accounts w (twoKindDelimited r p q) fun lists =>
      w ++ (lists.1.flatMap u ++ lists.2.flatMap v) := by
  unfold twoKindDelimited
  refine Accounts.eat_bind (by simp) ?_ ((accounts_longer hp hq).phrase fun item => ?_)
  · refine (accounts_twoKindList hp hq).bind fun lists => ?_
    refine Accounts.discard_bind (Accounts.expect_bind (by simp) fun _ => ?_)
    apply Accounts.pure
    simp
  · apply Accounts.pure
    cases item with
    | inl a => simp [separate]
    | inr b => simp [separate]

end DrakeSyntax
