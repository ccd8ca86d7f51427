import Mathlib.Data.List.Forall2
import DrakeSyntax.Grammar.Longest
import DrakeSyntax.Proofs.Runs

/-!
# Reading lists

A list whose items are written one after the other with commas between them is read as the list
of these items. The items of a list may depend on the ones before them (`ReadsEach`), as they do
in lists of two kinds.

* `runs_listWith`, `reads_list`: lists of one kind.
* `reads_twoKindList`: a list of items of a first kind and then of a second kind.
-/

namespace DrakeSyntax

open DrakeSyntax.Parser

/-- The tokens begin with one for which the condition holds. -/
def Ahead (P : Token → Bool) : List Token → Prop
  | t :: _ => P t
  | [] => False

theorem Ahead.exists_cons {P : Token → Bool} {l : List Token} (h : Ahead P l) :
    ∃ t k, l = t :: k ∧ P t := by
  cases l with
  | nil => exact h.elim
  | cons t k => exact ⟨t, k, rfl, h⟩

theorem Ahead.append {P : Token → Bool} {l : List Token} (h : Ahead P l) (k : List Token) :
    Ahead P (l ++ k) := by
  obtain ⟨t, l', rfl, ht⟩ := h.exists_cons
  exact ht

/-- Tokens differ when a condition holds of only one of them. -/
theorem Token.ne_of_apply {P : Token → Bool} {t u : Token} {b : Bool} (ht : P t = b)
    (hu : P u = !b) : t ≠ u := by
  rintro rfl
  rw [ht] at hu
  cases b <;> cases hu

/-- Whether an item of a list can begin with the token. -/
def Token.opensItem (t : Token) : Bool := t != .newline && !t.closesList

/-- Whether an item of a list ends in front of the token. -/
def Token.endsItem (t : Token) : Bool := t == .punctuator .comma || t.closesList

theorem Token.endsItem_of_closesList {t : Token} (h : t.closesList) : t.endsItem := by
  simp [Token.endsItem, h]

theorem Token.endsItem_cases {t : Token} (h : t.endsItem) :
    t = .punctuator .comma ∨ t = .punctuator .rightParen ∨ t = .punctuator .rightBracket ∨
      t = .punctuator .rightBrace ∨ t = .endOfInput := by
  simp only [Token.endsItem, Token.closesList, Bool.or_eq_true, beq_iff_eq] at h
  rcases h with rfl | h
  · exact .inl rfl
  · split at h
    all_goals simp at h ⊢

/-- Items with commas between them. -/
def commaList (ws : List (List Token)) : List Token := [Token.punctuator .comma].intercalate ws

/-- What stands behind the first item of a list: further items, each with a comma in front, and
perhaps one more comma. -/
def listTail (ws : List (List Token)) (trailing : Bool) : List Token :=
  ws.flatMap (.punctuator .comma :: ·) ++ if trailing then [.punctuator .comma] else []

theorem commaList_cons (w : List Token) (ws : List (List Token)) :
    commaList (w :: ws) = w ++ listTail ws false := by
  unfold commaList listTail
  induction ws generalizing w with
  | nil => simp
  | cons w' ws ih =>
    rw [List.intercalate_cons_cons, ih]
    simp

theorem listTail_cons (w : List Token) (ws : List (List Token)) (trailing : Bool) :
    listTail (w :: ws) trailing = .punctuator .comma :: (w ++ listTail ws trailing) := by
  simp [listTail]

theorem ahead_listTail (ws : List (List Token)) (trailing : Bool) {k : List Token}
    (hk : Ahead Token.closesList k) : Ahead Token.endsItem (listTail ws trailing ++ k) := by
  obtain ⟨t, k, rfl, ht⟩ := hk.exists_cons
  cases ws with
  | nil =>
    cases trailing with
    | true => rfl
    | false => exact Token.endsItem_of_closesList ht
  | cons w ws => rfl

/-- Where an item begins, a list goes on. -/
theorem Runs.item_ahead {α : Type} {b c : Parser α} {l : List Token} {R : α → List Token → Prop}
    {E : Prop} (hl : Ahead Token.opensItem l) (h : Runs c l R E) : Runs (do
      discard (eat .newline)
      if (← peek).token.closesList then b else c) l R E := by
  obtain ⟨t, l, rfl, ht⟩ := hl.exists_cons
  simp only [Token.opensItem, Bool.and_eq_true, bne_iff_ne, Bool.not_eq_true'] at ht
  obtain ⟨hnewline, hcloses⟩ := ht
  refine Runs.discard_bind (Runs.eat_bind_ne hnewline ?_)
  refine Runs.peek_bind fun _ => ?_
  rw [hcloses]
  exact Runs.ite_false h

/-- Where a list is closed, it ends. -/
theorem Runs.closer_ahead {α : Type} {b c : Parser α} {l : List Token} {R : α → List Token → Prop}
    {E : Prop} (hl : Ahead Token.closesList l) (h : Runs b l R E) : Runs (do
      discard (eat .newline)
      if (← peek).token.closesList then b else c) l R E := by
  obtain ⟨t, l, rfl, ht⟩ := hl.exists_cons
  have hnewline : t ≠ .newline := Token.ne_of_apply ht rfl
  refine Runs.discard_bind (Runs.eat_bind_ne hnewline ?_)
  refine Runs.peek_bind fun _ => ?_
  rw [ht]
  exact Runs.ite_true h

section Items

variable {α β : Type} {write : β → List Token} {Q : β → α → Prop} {E : Prop}
variable {item : Option α → Parser α} {k : List Token} {bs : List β} {r : Nat}

/-- Each of the items is read as it should be behind the item before it, the first one behind
`last`. -/
def ReadsEach (E : Prop) (item : Option α → Parser α) (write : β → List Token)
    (Q : β → α → Prop) : (last : Option α) → List β → Prop
  | _, [] => True
  | last, b :: bs =>
    (∀ k, Ahead Token.endsItem k → ReadsOr E (item last) (write b ++ k) k (Q b)) ∧
      ∀ a, Q b a → ReadsEach E item write Q (some a) bs

theorem readsEach_of_forall {p : Parser α}
    (h : ∀ b ∈ bs, ∀ k, Ahead Token.endsItem k → ReadsOr E p (write b ++ k) k (Q b))
    (last : Option α) : ReadsEach E (fun _ => p) write Q last bs := by
  induction bs generalizing last with
  | nil => trivial
  | cons b bs ih =>
    obtain ⟨hb, hbs⟩ := List.forall_mem_cons.1 h
    exact ⟨hb, fun a _ => ih hbs (some a)⟩

/-- A list goes on behind an item as it is written. -/
theorem runs_listFrom (hk : Ahead Token.closesList k) (trailing : Bool) {last : α}
    (heach : ReadsEach E item write Q (some last) bs)
    (hopens : ∀ b ∈ bs, Ahead Token.opensItem (write b)) (hr : bs.length < r)
    (separator : Option Separator) (hseparator : separator ≠ some .newline) :
    ReadsOr E (listFrom item r separator last) (listTail (bs.map write) trailing ++ k) k fun l =>
      l.trailingComma = trailing ∧ ∃ as, l.items = last :: as ∧ List.Forall₂ Q bs as := by
  induction bs generalizing last r separator with
  | nil =>
    obtain ⟨r, rfl⟩ : ∃ r', r = r' + 1 := ⟨r - 1, by omega⟩
    cases trailing with
    -- the last comma, and no item behind it
    | true =>
      refine Runs.isAt_bind (Runs.ite_true ?_)
      rw [if_neg hseparator]
      refine Runs.discard_bind (Runs.advance_bind (by decide) fun _ => ?_)
      exact Runs.closer_ahead hk (ReadsOr.pure ⟨rfl, [], rfl, .nil⟩)
    | false =>
      -- neither separator is ahead, so the list ends here
      obtain ⟨closer, k, rfl, hcloser⟩ := hk.exists_cons
      have hcomma : (closer == .punctuator .comma) = false :=
        beq_false_of_ne (Token.ne_of_apply hcloser rfl)
      have hnewline : (closer == .newline) = false :=
        beq_false_of_ne (Token.ne_of_apply hcloser rfl)
      refine Runs.isAt_bind ?_
      rw [hcomma]
      refine Runs.ite_false (Runs.isAt_bind ?_)
      rw [hnewline]
      exact Runs.ite_false (ReadsOr.pure ⟨rfl, [], rfl, .nil⟩)
  | cons b bs ih =>
    obtain ⟨r, rfl⟩ : ∃ r', r = r' + 1 := ⟨r - 1, by omega⟩
    obtain ⟨hb, hbs⟩ := heach
    obtain ⟨hopen, hopens⟩ := List.forall_mem_cons.1 hopens
    rw [List.map_cons, listTail_cons, List.cons_append, List.append_assoc]
    refine Runs.isAt_bind (Runs.ite_true ?_)
    rw [if_neg hseparator]
    refine Runs.discard_bind (Runs.advance_bind (by decide) fun _ => ?_)
    have hitem := hb _ (ahead_listTail (bs.map write) trailing hk)
    refine Runs.item_ahead (hopen.append _) (hitem.bind fun next hnext => ?_)
    -- from here on the separator is a comma
    have htail := ih (hbs next hnext) hopens (by simpa using hr) (some .comma) (by simp)
    refine htail.bind fun l hl => ?_
    obtain ⟨htrailing, as, hitems, has⟩ := hl
    exact ReadsOr.pure ⟨htrailing, next :: as, by simp [ItemList.cons, hitems], .cons hnext has⟩

/-- A list is read as it is written. -/
theorem runs_listWith (hk : Ahead Token.closesList k)
    (heach : ReadsEach E item write Q none bs)
    (hopens : ∀ b ∈ bs, Ahead Token.opensItem (write b)) (hr : bs.length ≤ r) :
    ReadsOr E (listWith r item) (commaList (bs.map write) ++ k) k fun l =>
      l.trailingComma = false ∧ List.Forall₂ Q bs l.items := by
  cases bs with
  | nil => exact Runs.closer_ahead hk (ReadsOr.pure ⟨rfl, .nil⟩)
  | cons b bs =>
    obtain ⟨hb, hbs⟩ := heach
    obtain ⟨hopen, hopens⟩ := List.forall_mem_cons.1 hopens
    rw [List.map_cons, commaList_cons, List.append_assoc]
    have hitem := hb _ (ahead_listTail (bs.map write) false hk)
    refine Runs.item_ahead (hopen.append _) (hitem.bind fun first hfirst => ?_)
    refine (runs_listFrom hk false (hbs first hfirst) hopens hr none (by simp)).weaken ?_
    rintro l ⟨htrailing, as, hitems, has⟩
    exact ⟨htrailing, hitems ▸ .cons hfirst has⟩

theorem reads_list {p : Parser α}
    (h : ∀ b ∈ bs, ∀ k, Ahead Token.endsItem k → ReadsOr E p (write b ++ k) k (Q b))
    (hopens : ∀ b ∈ bs, Ahead Token.opensItem (write b)) (hk : Ahead Token.closesList k)
    (hr : bs.length ≤ r) :
    ReadsOr E (list r p) (commaList (bs.map write) ++ k) k fun l =>
      l.trailingComma = false ∧ List.Forall₂ Q bs l.items :=
  runs_listWith hk (readsEach_of_forall h none) hopens hr

/-- A list behind its first item is read as it is written. -/
theorem reads_listBehind {p : Parser α}
    (h : ∀ b ∈ bs, ∀ k, Ahead Token.endsItem k → ReadsOr E p (write b ++ k) k (Q b))
    (hopens : ∀ b ∈ bs, Ahead Token.opensItem (write b)) (hk : Ahead Token.closesList k)
    (hr : bs.length < r) (trailing : Bool) {first : α} {b : β} (hfirst : Q b first) :
    ReadsOr E (listBehind r first p) (listTail (bs.map write) trailing ++ k) k fun l =>
      l.trailingComma = trailing ∧ List.Forall₂ Q (b :: bs) l.items := by
  have heach := readsEach_of_forall h (some first)
  refine (runs_listFrom hk trailing heach hopens hr none (by simp)).weaken ?_
  rintro l ⟨htrailing, as, hitems, has⟩
  exact ⟨htrailing, hitems ▸ .cons hfirst has⟩

/-- A list with one item and a comma behind it. -/
theorem reads_list_trailing {p : Parser α} {w : List Token} {Q : α → Prop}
    (h : ∀ k, Ahead Token.endsItem k → ReadsOr E p (w ++ k) k Q) (hopen : Ahead Token.opensItem w)
    (hk : Ahead Token.closesList k) (hr : 0 < r) :
    ReadsOr E (list r p) (w ++ .punctuator .comma :: k) k fun l =>
      ∃ a, l = ⟨[a], true⟩ ∧ Q a := by
  have hitem := h (.punctuator .comma :: k) rfl
  refine Runs.item_ahead (hopen.append _) (hitem.bind fun first hfirst => ?_)
  -- the comma is a list behind the item, without items of its own
  have hbehind : ReadsOr E (listBehind r first p) (listTail ([].map fun _ : Unit => w) true ++ k) k
      fun l => l.trailingComma = true ∧ List.Forall₂ (fun _ a => a = first) [()] l.items :=
    reads_listBehind (by simp) (by simp) hk hr true rfl
  refine hbehind.weaken ?_
  rintro ⟨items, trailing⟩ ⟨rfl, hitems⟩
  cases hitems with
  | cons hfirst' hrest =>
    cases hrest
    exact ⟨_, rfl, hfirst' ▸ hfirst⟩

/-- A list in parentheses is read as it is written. -/
theorem reads_delimited {p : Parser α}
    (h : ∀ b ∈ bs, ∀ k, Ahead Token.endsItem k → ReadsOr E p (write b ++ k) k (Q b))
    (hopens : ∀ b ∈ bs, Ahead Token.opensItem (write b)) (hr : bs.length ≤ r) (k : List Token) :
    ReadsOr E (delimited r p)
      (.punctuator .leftParen :: (commaList (bs.map write) ++ .punctuator .rightParen :: k)) k
      (List.Forall₂ Q bs) := by
  refine Runs.eat_bind (by decide) (Runs.ite_true ?_)
  refine (reads_list (k := .punctuator .rightParen :: k) h hopens rfl hr).bind fun l hl => ?_
  exact Runs.discard_bind (Runs.expect_bind (by decide) fun _ => ReadsOr.pure hl.2)

end Items

/-! ### Lists of two kinds -/

section TwoKinds

variable {α β γ δ : Type} {p : Parser α} {q : Parser β} {write : γ → List Token}
variable {write' : δ → List Token} {Q : γ → α → Prop} {R : δ → β → Prop} {E : Prop}
variable {cs : List γ} {ds : List δ} {k : List Token} {r : Nat}

theorem readsEach_second {last : Option (α ⊕ β)} (hlast : ∃ b, last = some (.inr b))
    (hq : ∀ d ∈ ds, ∀ k, Ahead Token.endsItem k → ReadsOr E q (write' d ++ k) k (R d)) :
    ReadsEach E (eitherItem p q) (Sum.elim write write') (Sum.LiftRel Q R) last
      (ds.map Sum.inr) := by
  induction ds generalizing last with
  | nil => trivial
  | cons d ds ih =>
    obtain ⟨b, rfl⟩ := hlast
    obtain ⟨hd, hds⟩ := List.forall_mem_cons.1 hq
    refine ⟨fun k hk => (hd k hk).bind fun b hb => ReadsOr.pure (.inr hb), fun a ha => ?_⟩
    cases ha with
    | inr => exact ih ⟨_, rfl⟩ hds

theorem readsEach_first {last : Option (α ⊕ β)} (hlast : ∀ b, last ≠ some (.inr b))
    (hp : ∀ c ∈ cs, ∀ k, Ahead Token.endsItem k →
      ReadsOr E (longer p q) (write c ++ k) k (Sum.elim (Q c) fun _ => False))
    (hchosen : ∀ d ∈ ds.head?, ∀ k, Ahead Token.endsItem k →
      ReadsOr E (longer p q) (write' d ++ k) k (Sum.elim (fun _ => False) (R d)))
    (hq : ∀ d ∈ ds, ∀ k, Ahead Token.endsItem k → ReadsOr E q (write' d ++ k) k (R d)) :
    ReadsEach E (eitherItem p q) (Sum.elim write write') (Sum.LiftRel Q R) last
      (cs.map Sum.inl ++ ds.map Sum.inr) := by
  -- behind no item of the second kind both are tried
  have hitem : eitherItem p q last = longer p q := by
    match last with
    | some (.inr b) => exact absurd rfl (hlast b)
    | some (.inl _) | none => rfl
  induction cs generalizing last with
  | nil =>
    cases ds with
    | nil => trivial
    | cons d ds =>
      refine ⟨fun k hk => ?_, fun x hx => ?_⟩
      · rw [hitem]
        refine (hchosen d rfl k hk).weaken fun x hx => ?_
        cases x with
        | inl a => exact hx.elim
        | inr b => exact .inr hx
      · cases hx with
        | inr => exact readsEach_second ⟨_, rfl⟩ (List.forall_mem_cons.1 hq).2
  | cons c cs ih =>
    obtain ⟨hc, hcs⟩ := List.forall_mem_cons.1 hp
    refine ⟨fun k hk => ?_, fun x hx => ?_⟩
    · rw [hitem]
      refine (hc k hk).weaken fun x hx => ?_
      cases x with
      | inl a => exact .inl hx
      | inr b => exact hx.elim
    · cases hx with
      | inl => exact ih (by simp) hcs rfl

theorem separate_of_forall₂ {items : List (α ⊕ β)}
    (h : List.Forall₂ (Sum.LiftRel Q R) (cs.map Sum.inl ++ ds.map Sum.inr) items) :
    List.Forall₂ Q cs (separate items).1 ∧ List.Forall₂ R ds (separate items).2 := by
  induction cs generalizing items with
  | nil =>
    induction ds generalizing items with
    | nil =>
      cases h
      exact ⟨.nil, .nil⟩
    | cons d ds ih =>
      cases h with
      | cons hd hds =>
        obtain ⟨hfirsts, hseconds⟩ := ih hds
        cases hd with
        | inr hd => exact ⟨hfirsts, .cons hd hseconds⟩
  | cons c cs ih =>
    cases h with
    | cons hc hcs =>
      cases hc with
      | inl hc => exact ⟨.cons hc (ih hcs).1, (ih hcs).2⟩

/-- A list of two kinds is read as it is written: its items of the first kind must not be longer
as items of the second kind, nor the first item of the second kind as one of the first. -/
theorem reads_twoKindList (hk : Ahead Token.closesList k)
    (hp : ∀ c ∈ cs, ∀ k, Ahead Token.endsItem k →
      ReadsOr E (longer p q) (write c ++ k) k (Sum.elim (Q c) fun _ => False))
    (hchosen : ∀ d ∈ ds.head?, ∀ k, Ahead Token.endsItem k →
      ReadsOr E (longer p q) (write' d ++ k) k (Sum.elim (fun _ => False) (R d)))
    (hq : ∀ d ∈ ds, ∀ k, Ahead Token.endsItem k → ReadsOr E q (write' d ++ k) k (R d))
    (hopens : ∀ c ∈ cs, Ahead Token.opensItem (write c))
    (hopens' : ∀ d ∈ ds, Ahead Token.opensItem (write' d)) (hr : cs.length + ds.length ≤ r) :
    ReadsOr E (twoKindList r p q) (commaList (cs.map write ++ ds.map write') ++ k) k fun lists =>
      List.Forall₂ Q cs lists.1 ∧ List.Forall₂ R ds lists.2 := by
  have heach : ReadsEach E (eitherItem p q) (Sum.elim write write') (Sum.LiftRel Q R) none
      (cs.map Sum.inl ++ ds.map Sum.inr) := readsEach_first (by simp) hp hchosen hq
  have hlist := runs_listWith (r := r) hk heach ?_ (by simpa using hr)
  · simp only [List.map_append, List.map_map] at hlist
    exact hlist.bind fun l hl => ReadsOr.pure (separate_of_forall₂ hl.2)
  · intro x hx
    simp only [List.mem_append, List.mem_map] at hx
    rcases hx with ⟨c, hc, rfl⟩ | ⟨d, hd, rfl⟩
    · exact hopens c hc
    · exact hopens' d hd

end TwoKinds

end DrakeSyntax
