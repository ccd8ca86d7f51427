import DrakeSyntax.Grammar.Longest
import DrakeSyntax.Proofs.Step

/-!
# What a parser yields

A property of all results of a parser (`Yields`), and rules that compose such properties along
the way parsers are composed. Failures yield nothing.

* `yields_listWith`: the items of a list, each related to the one before it.
* `longer_eq_inr`: a result of the second kind is longer than any result of the first.
* `yields_twoKindList`: the items of a list of two kinds, and what tells the first one of the
  second kind apart.
-/

namespace DrakeSyntax

open DrakeSyntax.Parser

variable {α β : Type}

/-- Every result of the parser has the property. -/
def Yields (p : Parser α) (Q : α → Prop) : Prop := ∀ s a s', p s = .ok a s' → Q a

/-- Every result that the parser gives at the token `t` has the property. -/
def YieldsAt (t : PlacedToken) (p : Parser α) (Q : α → Prop) : Prop :=
  ∀ s a s', s.cursor.current = t → p s = .ok a s' → Q a

variable {p : Parser α} {f : α → Parser β} {Q Q' : α → Prop} {R : β → Prop}

namespace Yields

theorem any (p : Parser α) : Yields p fun _ => True := fun _ _ _ _ => trivial

theorem weaken (hp : Yields p Q) (h : ∀ a, Q a → Q' a) : Yields p Q' := by
  intro s a s' hrun
  exact h a (hp s a s' hrun)

theorem pure {a : α} (h : Q a) : Yields (Pure.pure a) Q := by
  intro s b s' hrun
  cases hrun
  exact h

theorem bind (hp : Yields p Q) (hf : ∀ a, Q a → Yields (f a) R) : Yields (p >>= f) R := by
  intro s b s' hrun
  obtain ⟨a, s₁, ha, hb⟩ := bind_eq_ok hrun
  exact hf a (hp s a s₁ ha) s₁ b s' hb

/-- Nothing need be known of the first result. -/
theorem skip (hf : ∀ a, Yields (f a) R) : Yields (p >>= f) R := (any p).bind fun a _ => hf a

theorem map {g : α → β} (hp : Yields p Q) (h : ∀ a, Q a → R (g a)) : Yields (g <$> p) R := by
  rw [← bind_pure_comp]
  exact hp.bind fun a ha => .pure (h a ha)

theorem ite {p q : Parser α} {t : Prop} [Decidable t] (hp : t → Yields p Q)
    (hq : ¬t → Yields q Q) : Yields (if t then p else q) Q := by
  split
  · exact hp ‹_›
  · exact hq ‹_›

/-- What comes behind a look at the token may use that the cursor is at it. -/
theorem peek_bind {f : PlacedToken → Parser β} (hf : ∀ t, YieldsAt t (f t) R) :
    Yields (peek >>= f) R := by
  intro s b s' hrun
  exact hf s.cursor.current s b s' rfl hrun

theorem attempt_bind {f : Except ParseError α → Parser β} (hp : Yields p Q)
    (hok : ∀ a, Q a → Yields (f (.ok a)) R) (herror : ∀ e, Yields (f (.error e)) R) :
    Yields (attempt p >>= f) R := by
  intro s b s' hrun
  obtain ⟨r, s₁, hr, hb⟩ := bind_eq_ok hrun
  unfold attempt at hr
  cases hp' : p s with
  | ok a s₂ =>
    rw [hp'] at hr
    cases hr
    exact hok a (hp s a _ hp') _ _ _ hb
  | error e s₂ =>
    rw [hp'] at hr
    cases hr
    exact herror e _ _ _ hb

theorem attemptIf_bind {condition : Bool} {f : Option α → Parser β} (hp : Yields p Q)
    (hsome : ∀ a, Q a → Yields (f (some a)) R) (hnone : Yields (f none) R) :
    Yields (attemptIf condition p >>= f) R := by
  cases condition with
  | false => exact hnone
  | true =>
    -- with the condition it is a trial
    simp only [attemptIf, if_true, bind_assoc, pure_bind]
    exact hp.attempt_bind hsome fun _ => hnone

end Yields

theorem Yields.at {t : PlacedToken} (hp : Yields p Q) : YieldsAt t p Q := by
  intro s a s' _ hrun
  exact hp s a s' hrun

theorem yields_failExpecting (expected : List String) :
    Yields (failExpecting (α := α) expected) Q := by
  intro s a s' hrun
  cases hrun

theorem yields_rejectAt (t : PlacedToken) (note : String) :
    Yields (rejectAt (α := α) t note) Q := by
  intro s a s' hrun
  cases hrun

theorem yields_reject (note : String) : Yields (reject (α := α) note) Q := by
  intro s a s' hrun
  cases hrun

/-! ### Lists -/

/-- Each of the items is related to the one before it, the first one to `last`. -/
def Linked (Rel : Option α → α → Prop) : (last : Option α) → List α → Prop
  | _, [] => True
  | last, a :: as => Rel last a ∧ Linked Rel (some a) as

variable {r : Nat}

theorem yields_listFrom {Rel : Option α → α → Prop} {item : Option α → Parser α}
    (hitem : ∀ last, Yields (item last) (Rel last)) (separator : Option Separator) (last : α) :
    Yields (listFrom item r separator last) fun l =>
      ∃ more, l.items = last :: more ∧ Linked Rel (some last) more := by
  induction r generalizing separator last with
  | zero => exact .pure ⟨[], rfl, trivial⟩
  | succ r ih =>
    -- one more item, related to the last one
    have hmore (separator : Option Separator) :
        Yields (do let next ← item (some last)
                   return (← listFrom item r separator next).cons last)
          fun l => ∃ more, l.items = last :: more ∧ Linked Rel (some last) more := by
      refine (hitem (some last)).bind fun next hnext => ?_
      refine (ih separator next).bind fun l hl => ?_
      obtain ⟨more, hitems, hlinked⟩ := hl
      exact .pure ⟨next :: more, by simp [ItemList.cons, hitems], hnext, hlinked⟩
    -- the list ends here
    have hlast (trailing : Bool) :
        Yields (return (⟨[last], trailing⟩ : ItemList α)) fun l =>
          ∃ more, l.items = last :: more ∧ Linked Rel (some last) more :=
      .pure ⟨[], rfl, trivial⟩
    unfold listFrom
    refine .skip fun atComma => .ite (fun _ => ?_) fun _ => .skip fun atNewline => ?_
    · refine .ite (fun _ => yields_reject _) fun _ => ?_
      refine .skip fun _ => .skip fun _ => .skip fun t => ?_
      exact .ite (fun _ => hlast _) fun _ => hmore _
    · refine .ite (fun _ => .skip fun following => .ite (fun _ => ?_) fun _ => ?_) fun _ => hlast _
      · exact .skip fun _ => hlast _
      · refine .ite (fun _ => .skip fun _ => yields_reject _) fun _ => ?_
        exact .ite (fun _ => yields_reject _) fun _ => .skip fun _ => hmore _

theorem yields_listWith {Rel : Option α → α → Prop} {item : Option α → Parser α}
    (hitem : ∀ last, Yields (item last) (Rel last)) :
    Yields (listWith r item) fun l => Linked Rel none l.items := by
  refine .skip fun _ => .skip fun t => .ite (fun _ => .pure trivial) fun _ => ?_
  refine (hitem none).bind fun first hfirst => (yields_listFrom hitem none first).weaken ?_
  rintro l ⟨more, hitems, hlinked⟩
  rw [hitems]
  exact ⟨hfirst, hlinked⟩

theorem Linked.forall_mem {last : Option α} {as : List α} (h : Linked (fun _ => Q) last as) :
    ∀ a ∈ as, Q a := by
  induction as generalizing last with
  | nil => simp
  | cons a as ih =>
    rintro b hb
    rcases List.mem_cons.1 hb with rfl | hb
    · exact h.1
    · exact ih h.2 b hb

theorem yields_list {item : Parser α} (hitem : Yields item Q) :
    Yields (list r item) fun l => ∀ a ∈ l.items, Q a :=
  (yields_listWith fun _ => hitem).weaken fun _ h => h.forall_mem

theorem yields_listBehind {item : Parser α} {first : α} (hfirst : Q first) (hitem : Yields item Q) :
    Yields (listBehind r first item) fun l => l.items ≠ [] ∧ ∀ a ∈ l.items, Q a := by
  refine (yields_listFrom (fun _ => hitem) none first).weaken ?_
  rintro l ⟨more, hitems, hlinked⟩
  rw [hitems]
  refine ⟨List.cons_ne_nil _ _, fun a ha => ?_⟩
  rcases List.mem_cons.1 ha with rfl | ha
  · exact hfirst
  · exact hlinked.forall_mem a ha

/-! ### The longer of two phrases -/

/-- The parser does not change what is remembered. -/
def KeepsTable (p : Parser α) : Prop :=
  ∀ s, match p s with
    | .ok _ s' | .error _ s' => s'.brackets = s.brackets

namespace KeepsTable

theorem pure (a : α) : KeepsTable (Pure.pure a) := fun _ => rfl

theorem bind (hp : KeepsTable p) (hf : ∀ a, KeepsTable (f a)) : KeepsTable (p >>= f) := by
  intro s
  have h := hp s
  simp only [Bind.bind, EStateM.bind]
  cases hrun : p s with
  | ok a s₁ =>
    rw [hrun] at h
    have h' := hf a s₁
    simp only at h h' ⊢
    rw [h] at h'
    exact h'
  | error e s₁ =>
    rw [hrun] at h
    exact h

theorem ite {p q : Parser α} {t : Prop} [Decidable t] (hp : KeepsTable p) (hq : KeepsTable q) :
    KeepsTable (if t then p else q) := by
  split
  · exact hp
  · exact hq

end KeepsTable

/-- Where the first phrase keeps what is remembered, the second one begins in the same state. -/
theorem longer_run_of_keeps (hp : KeepsTable p) (q : Parser β) (s : ParserState) :
    longer p q s = longerOf s.cursor (p s) (q s) := by
  obtain ⟨b, hlonger, hb⟩ := exists_longer_eq p q s
  have hkeep := hp s
  have hbrackets : b = s.brackets := by
    cases hrun : p s with
    | ok a s₁ =>
      rw [hrun] at hb hkeep
      exact hb.trans hkeep
    | error e s₁ =>
      rw [hrun] at hb hkeep
      exact hb.trans hkeep
  rw [hlonger, hbrackets]

/-- A result of the second kind is longer than any of the first kind. -/
theorem longer_eq_inr {q : Parser β} {s s' : ParserState} {b : β} (hp : KeepsTable p)
    (h : longer p q s = .ok (.inr b) s') :
    q s = .ok b s' ∧ ∀ a s₁, p s = .ok a s₁ → s₁.cursor.index < s'.cursor.index := by
  rw [longer_run_of_keeps hp] at h
  cases hrun : p s with
  | ok a s₁ =>
    cases hq : q s with
    | ok b' s₂ =>
      simp only [hrun, hq, longerOf] at h
      split at h
      · cases h
        exact ⟨rfl, fun a' s₁' h' => by cases h'; assumption⟩
      · cases h
    | error e s₂ => simp [hrun, hq, longerOf] at h
  | error e s₁ =>
    cases hq : q s with
    | ok b' s₂ =>
      simp only [hrun, hq, longerOf] at h
      cases h
      exact ⟨rfl, fun a s₁ h' => by cases h'⟩
    | error e s₂ => simp [hrun, hq, longerOf] at h

/-- The longer of two phrases is a phrase of its kind. -/
theorem yields_longer {q : Parser β} (hp : Yields p Q) (hq : Yields q R) :
    Yields (longer p q) (Sum.elim Q R) := by
  refine .skip fun start => ?_
  refine hp.attempt_bind (fun a ha => ?_) fun e => ?_
  · refine .skip fun firstEnd => .skip fun _ => hq.attempt_bind (fun b hb => ?_) fun e => ?_
    · exact .skip fun secondEnd => .ite (fun _ => .pure hb) fun _ => .skip fun _ => .pure ha
    · exact .skip fun secondEnd => .skip fun _ => .pure ha
  · refine .skip fun firstEnd => .skip fun _ => hq.attempt_bind (fun b hb => ?_) fun e' => ?_
    · exact .skip fun secondEnd => .pure hb
    · refine .skip fun secondEnd => .skip fun _ => ?_
      intro s a s' hrun
      cases hrun

/-! ### Lists of two kinds -/

/-- The first item is right, or the first of the second kind behind items of the first kind. -/
def KindLinked (Q : α → Prop) (R S : β → Prop) (last : Option (α ⊕ β)) : α ⊕ β → Prop
  | .inl a => Q a
  | .inr b => R b ∧ ((∀ c, last ≠ some (.inr c)) → S b)

variable {q : Parser β} {S : β → Prop}

theorem yields_eitherItem (hp : Yields p Q) (hq : Yields q R)
    (hchosen : Yields (longer p q) (Sum.elim (fun _ => True) S)) (last : Option (α ⊕ β)) :
    Yields (eitherItem p q last) (KindLinked Q R S last) := by
  -- where both kinds are possible the longer one is taken
  have hlonger : Yields (longer p q) (KindLinked Q R S last) := by
    intro s item s' hrun
    have h := yields_longer hp hq s item s' hrun
    have h' := hchosen s item s' hrun
    cases item with
    | inl a => exact h
    | inr b => exact ⟨h, fun _ => h'⟩
  match last with
  | some (.inr c) => exact hq.bind fun b hb => .pure ⟨hb, fun h => absurd rfl (h c)⟩
  | some (.inl _) | none => exact hlonger

theorem separate_of_linked {last : Option (α ⊕ β)} {items : List (α ⊕ β)}
    (h : Linked (KindLinked Q R S) last items) :
    (∀ a ∈ (separate items).1, Q a) ∧ (∀ b ∈ (separate items).2, R b) ∧
      ((∀ c, last ≠ some (.inr c)) → ∀ b ∈ (separate items).2.head?, S b) := by
  induction items generalizing last with
  | nil => simp [separate]
  | cons item items ih =>
    obtain ⟨hitem, hrest⟩ := h
    obtain ⟨hfirsts, hseconds, hhead⟩ := ih hrest
    cases item with
    | inl a =>
      -- an item of the first kind changes nothing for the second kind
      refine ⟨?_, hseconds, fun _ => hhead (by simp)⟩
      simp only [separate, List.forall_mem_cons]
      exact ⟨hitem, hfirsts⟩
    | inr b =>
      refine ⟨hfirsts, ?_, ?_⟩
      · simp only [separate, List.forall_mem_cons]
        exact ⟨hitem.1, hseconds⟩
      · intro hlast b' hb'
        simp only [separate, List.head?_cons, Option.mem_some_iff] at hb'
        subst hb'
        exact hitem.2 hlast

/-- The items of a list of two kinds. Those of the second kind have the property `R`; the first of
them was chosen although an item of the first kind was possible, and has the property `S`. -/
theorem yields_twoKindList (hp : Yields p Q) (hq : Yields q R)
    (hchosen : Yields (longer p q) (Sum.elim (fun _ => True) S)) :
    Yields (twoKindList r p q) fun lists =>
      (∀ a ∈ lists.1, Q a) ∧ (∀ b ∈ lists.2, R b) ∧ ∀ b ∈ lists.2.head?, S b := by
  refine (yields_listWith (yields_eitherItem hp hq hchosen)).bind fun l hl => .pure ?_
  obtain ⟨hfirsts, hseconds, hhead⟩ := separate_of_linked hl
  exact ⟨hfirsts, hseconds, hhead (by simp)⟩

theorem yields_twoKindDelimited (hp : Yields p Q) (hq : Yields q R)
    (hchosen : Yields (longer p q) (Sum.elim (fun _ => True) S)) :
    Yields (twoKindDelimited r p q) fun lists =>
      (∀ a ∈ lists.1, Q a) ∧ (∀ b ∈ lists.2, R b) ∧ ∀ b ∈ lists.2.head?, S b := by
  refine .skip fun inParens => .ite (fun _ => ?_) fun _ => ?_
  · exact (yields_twoKindList hp hq hchosen).bind fun lists h => .skip fun _ => .pure h
  · refine (yields_eitherItem hp hq hchosen none).bind fun item hitem => .pure ?_
    have hlinked : Linked (KindLinked Q R S) none [item] := ⟨hitem, trivial⟩
    obtain ⟨hfirsts, hseconds, hhead⟩ := separate_of_linked hlinked
    exact ⟨hfirsts, hseconds, hhead (by simp)⟩

end DrakeSyntax
