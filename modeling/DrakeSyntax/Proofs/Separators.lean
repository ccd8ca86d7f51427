import DrakeSyntax.Proofs.Coupling.Excerpt

/-!
# Lists and their separators

Items are joined by commas, each perhaps with a line break behind it, or by line breaks (`Joint`). A
list of joined items is accepted if and only if its separators are uniform (`Uniform`), and what it is
read as are the items; otherwise it is rejected since it mixes separators (`Listing.decides_list`).
This is proved behind each item by induction on the items that are left, with the kind of the
separators so far (`decides_listFrom`).

* `RunsOn`: what a parser does with given tokens and their positions.
* `Decides`: a parser accepts tokens or finds that separators are mixed, as a condition says.
* `Joint`, `Item`, `Listing`: lists as they are written.
* `Item.ReadBy`: a parser reads an item, whatever ends it.
-/

namespace DrakeSyntax

open DrakeSyntax.Parser

/-! ### Given tokens -/

/-- With the tokens `us` ahead, the parser succeeds so that `Q` holds of its result and of the tokens
left, or it fails with an error of which `E` holds. -/
def RunsOn {α : Type} (p : Parser α) (us : List PlacedToken) (Q : α → List PlacedToken → Prop)
    (E : ParseError → Prop) : Prop :=
  ∀ s : ParserState, s.cursor.rest = us →
    match p s with
    | .ok a s' => Q a s'.cursor.rest
    | .error e _ => E e

/-- With the tokens `us` ahead, the parser returns `a` and leaves the tokens `vs`. -/
abbrev ReadsOn {α : Type} (p : Parser α) (us : List PlacedToken) (a : α) (vs : List PlacedToken) :
    Prop :=
  RunsOn p us (fun b ws => b = a ∧ ws = vs) fun _ => False

/-- With the tokens `us` ahead, the parser returns `a` and leaves the tokens `vs` if the condition
holds. Otherwise it complains about mixed separators. -/
abbrev Decides {α : Type} (condition : Prop) (p : Parser α) (us : List PlacedToken) (a : α)
    (vs : List PlacedToken) : Prop :=
  RunsOn p us (fun b ws => condition ∧ b = a ∧ ws = vs) fun e =>
    ¬condition ∧ e.note = some mixedSeparators

section Rules

variable {α β : Type} {p : Parser α} {f : α → Parser β} {t : PlacedToken} {u : Token}
variable {us vs ws : List PlacedToken} {a : α} {b : β} {c : Prop}
variable {P : α → List PlacedToken → Prop} {Q : β → List PlacedToken → Prop}
variable {E : ParseError → Prop}

theorem current_of_rest {s : ParserState} (h : s.cursor.rest = t :: us) : s.cursor.current = t := by
  rw [Cursor.current, h]

theorem rest_advance {s : ParserState} (h : s.cursor.rest = t :: us)
    (ht : t.token ≠ .endOfInput) : s.cursor.advance.rest = us := by
  rw [Cursor.advance, h]
  simp only [if_neg ht]

/-- The end of the input is ahead of one more token as well. -/
theorem exists_endOfInput_cons (t : PlacedToken) (h : ∃ e ∈ us, e.token = .endOfInput) :
    ∃ e ∈ t :: us, e.token = .endOfInput := by
  obtain ⟨e, he, htoken⟩ := h
  exact ⟨e, List.mem_cons_of_mem _ he, htoken⟩

/-- The end of the input is ahead of more tokens as well. -/
theorem exists_endOfInput_append (ts : List PlacedToken) (h : ∃ e ∈ us, e.token = .endOfInput) :
    ∃ e ∈ ts ++ us, e.token = .endOfInput := by
  obtain ⟨e, he, htoken⟩ := h
  exact ⟨e, List.mem_append_right _ he, htoken⟩

namespace RunsOn

theorem pure {a : α} (h : P a us) : RunsOn (Pure.pure a) us P E := by
  rintro s rfl
  exact h

theorem bind (hp : RunsOn p us P E) (hf : ∀ a vs, P a vs → RunsOn (f a) vs Q E) :
    RunsOn (p >>= f) us Q E := by
  intro s hs
  have hrun := hp s hs
  simp only [Bind.bind, EStateM.bind]
  cases h : p s with
  | ok a s' =>
    rw [h] at hrun
    exact hf a _ hrun s' rfl
  | error e s' =>
    rw [h] at hrun
    exact hrun

theorem weaken {P' : α → List PlacedToken → Prop} {E' : ParseError → Prop} (hp : RunsOn p us P E)
    (hP : ∀ a vs, P a vs → P' a vs) (hE : ∀ e, E e → E' e) : RunsOn p us P' E' := by
  intro s hs
  have hrun := hp s hs
  cases h : p s with
  | ok a s' =>
    rw [h] at hrun
    exact hP a _ hrun
  | error e s' =>
    rw [h] at hrun
    exact hE e hrun

theorem discard_bind {f : Unit → Parser β} (h : RunsOn (p >>= fun _ => f ()) us Q E) :
    RunsOn (discard p >>= f) us Q E := by
  rw [Parser.discard_bind]
  exact h

theorem peek_bind {f : PlacedToken → Parser β} (h : RunsOn (f t) (t :: us) Q E) :
    RunsOn (peek >>= f) (t :: us) Q E := by
  intro s hs
  have hrun := h s hs
  rwa [← current_of_rest hs] at hrun

theorem peekFollowing_bind {f : Token → Parser β} {t' : PlacedToken}
    (h : RunsOn (f t'.token) (t :: t' :: us) Q E) :
    RunsOn (peekFollowing >>= f) (t :: t' :: us) Q E := by
  intro s hs
  have hrun := h s hs
  have hfollowing : s.cursor.following = t'.token := by rw [Cursor.following, hs]
  rwa [← hfollowing] at hrun

theorem isAt_bind {f : Bool → Parser β} (h : RunsOn (f (t.token == u)) (t :: us) Q E) :
    RunsOn (isAt u >>= f) (t :: us) Q E := by
  intro s hs
  have hrun := h s hs
  rwa [bind_of_ok (isAt_run u s), current_of_rest hs]

/-- The token that is looked for is there. -/
theorem isAt_bind_eq {f : Bool → Parser β} (hu : t.token = u) (h : RunsOn (f true) (t :: us) Q E) :
    RunsOn (isAt u >>= f) (t :: us) Q E :=
  isAt_bind (by rwa [beq_iff_eq.2 hu])

theorem isAt_bind_ne {f : Bool → Parser β} (hu : t.token ≠ u)
    (h : RunsOn (f false) (t :: us) Q E) : RunsOn (isAt u >>= f) (t :: us) Q E :=
  isAt_bind (by rwa [beq_false_of_ne hu])

theorem advance_bind {f : PlacedToken → Parser β} (ht : t.token ≠ .endOfInput)
    (h : RunsOn (f t) us Q E) : RunsOn (advance >>= f) (t :: us) Q E := by
  intro s hs
  have hrun := h { s with cursor := s.cursor.advance } (rest_advance hs ht)
  rwa [← current_of_rest hs] at hrun

theorem eat_bind {f : Bool → Parser β} (hu : t.token = u) (ht : u ≠ .endOfInput)
    (h : RunsOn (f true) us Q E) : RunsOn (eat u >>= f) (t :: us) Q E := by
  intro s hs
  have hat : s.cursor.current.token = u := by rw [current_of_rest hs, hu]
  rw [bind_of_ok (eat_of_eq hat)]
  exact h _ (rest_advance hs (hu ▸ ht))

theorem eat_bind_ne {f : Bool → Parser β} (hu : t.token ≠ u) (h : RunsOn (f false) (t :: us) Q E) :
    RunsOn (eat u >>= f) (t :: us) Q E := by
  intro s hs
  have hat : s.cursor.current.token ≠ u := by rwa [current_of_rest hs]
  rw [bind_of_ok (eat_of_ne hat)]
  exact h s hs

theorem expect_bind {f : Position → Parser β} (hu : t.token = u) (ht : u ≠ .endOfInput)
    (h : RunsOn (f t.position) us Q E) : RunsOn (expect u >>= f) (t :: us) Q E := by
  intro s hs
  have hat : s.cursor.current.token = u := by rw [current_of_rest hs, hu]
  rw [bind_of_ok (expect_of_eq hat), current_of_rest hs]
  exact h _ (rest_advance hs (hu ▸ ht))

theorem reject {note : String} (h : ∀ e : ParseError, e.note = some note → E e) :
    RunsOn (reject note) us P E :=
  fun _ _ => h _ rfl

theorem ite_true {p q : Parser α} (h : RunsOn p us P E) :
    RunsOn (if true = true then p else q) us P E := h

theorem ite_false {p q : Parser α} (h : RunsOn q us P E) :
    RunsOn (if false = true then p else q) us P E := h

end RunsOn

/-- What is read before the rest does not fail. -/
theorem ReadsOn.bind (hp : ReadsOn p us a vs) (hf : RunsOn (f a) vs Q E) :
    RunsOn (p >>= f) us Q E := by
  refine RunsOn.bind (hp.weaken (fun _ _ h => h) fun _ h => h.elim) ?_
  rintro _ _ ⟨rfl, rfl⟩
  exact hf

/-- What a parser that reads given tokens does in a state. -/
theorem ReadsOn.exists_run (h : ReadsOn p us a vs) {s : ParserState} (hs : s.cursor.rest = us) :
    ∃ s', p s = .ok a s' ∧ s'.cursor.rest = vs := by
  have hrun := h s hs
  cases hp : p s with
  | ok a' s' =>
    rw [hp] at hrun
    obtain ⟨rfl, hrest⟩ := hrun
    exact ⟨s', rfl, hrest⟩
  | error e s' =>
    rw [hp] at hrun
    exact hrun.elim

/-- What is read behind the rest does not fail either. -/
theorem Decides.bind (hp : Decides c p us a vs) (hf : c → ReadsOn (f a) vs b ws) :
    Decides c (p >>= f) us b ws := by
  refine RunsOn.bind hp ?_
  rintro _ _ ⟨hc, rfl, rfl⟩
  exact (hf hc).weaken (fun _ _ h => ⟨hc, h⟩) fun _ h => h.elim

theorem Decides.of_reads (hp : ReadsOn p us a vs) (hc : c) : Decides c p us a vs :=
  hp.weaken (fun _ _ h => ⟨hc, h⟩) fun _ h => h.elim

theorem Decides.iff {c' : Prop} (hp : Decides c p us a vs) (hc : c ↔ c') : Decides c' p us a vs := by
  rwa [← hc]

end Rules

/-! ### Joined items -/

/-- What stands between two items: a comma, perhaps with a line break behind it, or a line break. -/
inductive Joint where
  | comma (position : Position) (behind : Option Position)
  | newline (position : Position)

/-- A line break, if there is one. -/
def newlineTokens (position? : Option Position) : List PlacedToken :=
  position?.toList.map fun position => ⟨.newline, position⟩

/-- A line break that may stand somewhere is skipped. -/
theorem RunsOn.newlineTokens_bind {β : Type} {f : Unit → Parser β} {position? : Option Position}
    {t : PlacedToken} {us : List PlacedToken} {Q : β → List PlacedToken → Prop}
    {E : ParseError → Prop} (ht : t.token ≠ .newline) (h : RunsOn (f ()) (t :: us) Q E) :
    RunsOn (discard (eat .newline) >>= f) (newlineTokens position? ++ t :: us) Q E := by
  refine RunsOn.discard_bind ?_
  cases position? with
  | none => exact RunsOn.eat_bind_ne ht h
  | some position => exact RunsOn.eat_bind rfl (by decide) h

namespace Joint

def tokens : Joint → List PlacedToken
  | comma position behind => ⟨.punctuator .comma, position⟩ :: newlineTokens behind
  | newline position => [⟨.newline, position⟩]

def kind : Joint → Separator
  | comma _ _ => .comma
  | newline _ => .newline

end Joint

/-- An item of a list as it is written, and the expression that it is. -/
structure Item where
  tokens : List PlacedToken
  node : Node

/-- What stands behind the first item of a list: further items, each with a joint in front of it,
and perhaps one more joint. -/
def joinedBehind : List (Joint × Item) → Option Joint → List PlacedToken
  | [], tail => tail.elim [] Joint.tokens
  | (joint, item) :: more, tail => joint.tokens ++ (item.tokens ++ joinedBehind more tail)

/-- The joints from some item on go with the separator that the items before it have. -/
def Fits : Option Separator → List (Joint × Item) → Option Joint → Prop
  | separator, [], tail => ∀ joint ∈ tail, joint.kind = .comma → separator ≠ some .newline
  | separator, (joint, _) :: more, tail =>
    (separator = none ∨ separator = some joint.kind) ∧ Fits (some joint.kind) more tail

/-- **All items have commas between them, or all have line breaks between them** and no comma behind
the last one. Behind a single item anything may stand. -/
def Uniform (more : List (Joint × Item)) (tail : Option Joint) : Prop :=
  (∀ m ∈ more, m.1.kind = .comma) ∨
    (∀ m ∈ more, m.1.kind = .newline) ∧ (more = [] ∨ ∀ joint ∈ tail, joint.kind ≠ .comma)

/-- Whether a comma stands behind the last item. -/
def endsInComma (tail : Option Joint) : Bool := tail.any (·.kind == .comma)

/-- There are only two separators. -/
theorem Separator.none_or_some {separator : Option Separator} {kind other : Separator}
    (hkind : kind ≠ other) (h : separator ≠ some other) :
    separator = none ∨ separator = some kind := by
  cases separator with
  | none => exact .inl rfl
  | some separator => cases separator <;> cases kind <;> cases other <;> simp_all

theorem fits_some {separator : Separator} {more : List (Joint × Item)} {tail : Option Joint} :
    Fits (some separator) more tail ↔ (∀ m ∈ more, m.1.kind = separator) ∧
      ∀ joint ∈ tail, joint.kind = .comma → separator ≠ .newline := by
  induction more generalizing separator with
  | nil => simp [Fits]
  | cons m more ih =>
    obtain ⟨joint, item⟩ := m
    simp only [Fits, reduceCtorEq, false_or, Option.some.injEq, List.forall_mem_cons, and_assoc]
    constructor
    · rintro ⟨rfl, hrest⟩
      exact ⟨rfl, ih.1 hrest⟩
    · rintro ⟨rfl, hrest⟩
      exact ⟨rfl, ih.2 hrest⟩

/-- The first joint decides which separator a list has. -/
theorem fits_none {more : List (Joint × Item)} {tail : Option Joint} :
    Fits none more tail ↔ Uniform more tail := by
  cases more with
  | nil => simp [Fits, Uniform]
  | cons m more =>
    obtain ⟨joint, item⟩ := m
    simp only [Fits, true_or, true_and, fits_some, Uniform, List.forall_mem_cons, reduceCtorEq,
      false_or]
    cases hkind : joint.kind <;> simp

theorem balanced_newlineTokens (position? : Option Position) :
    Balanced ((newlineTokens position?).map (·.token)) := by
  cases position? with
  | none => rfl
  | some position => rfl

theorem Joint.balanced (joint : Joint) : Balanced (joint.tokens.map (·.token)) := by
  cases joint with
  | comma position behind =>
    cases behind with
    | none => rfl
    | some position => rfl
  | newline position => rfl

theorem balanced_joinedBehind {more : List (Joint × Item)} {tail : Option Joint}
    (h : ∀ m ∈ more, Balanced (m.2.tokens.map (·.token))) :
    Balanced ((joinedBehind more tail).map (·.token)) := by
  induction more with
  | nil =>
    cases tail with
    | none => rfl
    | some joint => exact joint.balanced
  | cons m more ih =>
    obtain ⟨hm, hmore⟩ := List.forall_mem_cons.1 h
    rw [joinedBehind, List.map_append, List.map_append]
    exact m.1.balanced.append (hm.append (ih hmore))

theorem length_le_joinedBehind (more : List (Joint × Item)) (tail : Option Joint) :
    more.length ≤ (joinedBehind more tail).length := by
  induction more with
  | nil => exact Nat.zero_le _
  | cons m more ih =>
    have hjoint : 0 < m.1.tokens.length := by
      cases m.1 with
      | comma position behind => exact Nat.succ_pos _
      | newline position => exact Nat.succ_pos _
    simp only [joinedBehind, List.length_append, List.length_cons]
    omega

theorem length_item_le_joinedBehind {more : List (Joint × Item)} {tail : Option Joint}
    {m : Joint × Item} (hm : m ∈ more) :
    m.2.tokens.length ≤ (joinedBehind more tail).length := by
  induction more with
  | nil => cases hm
  | cons m' more ih =>
    simp only [joinedBehind, List.length_append]
    rcases List.mem_cons.1 hm with rfl | hm
    · omega
    · have := ih hm
      omega

/-- The parser reads the item in front of anything that ends it. An item does not begin where one
ends, nor with a keyword that goes on with the item before it. -/
structure Item.ReadBy (parser : Parser Node) (item : Item) : Prop where
  opens : ∃ t ts, item.tokens = t :: ts ∧ t.token.separates = false ∧ t.token.continues = false
  reads : ∀ w, EndsItem w → ReadsOn parser (item.tokens ++ w) item.node w

section Lists

variable {parser : Parser Node} {more : List (Joint × Item)} {tail : Option Joint}
variable {close t u : PlacedToken} {w us : List PlacedToken} {separator : Option Separator}
variable {last : Node} {rounds : Nat}

theorem Token.closesList_of_separates {t : Token} (h : t.separates = false) :
    ¬t.closesList = true := by
  intro hcloses
  simp [Token.separates, Token.endsItem_of_closesList hcloses] at h

theorem Token.continues_of_closesList {t : Token} (h : t.closesList) : t.continues = false := by
  unfold closesList at h
  split at h
  · rfl
  · rfl
  · rfl
  · rfl
  · cases h

theorem Token.separates_of_closesList {t : Token} (h : t.closesList) : t.separates := by
  simp [separates, endsItem_of_closesList h]

/-- A list that is closed ends an item. -/
theorem endsItem_close (hclose : close.token.closesList)
    (hend : ∃ e ∈ close :: w, e.token = .endOfInput) : EndsItem (close :: w) where
  separates := Token.separates_of_closesList hclose
  halts := by
    refine ⟨Token.halts_of_separates (Token.separates_of_closesList hclose), fun hnewline => ?_⟩
    · have htoken : close.token = .newline := hnewline
      rw [htoken] at hclose
      cases hclose
  ended := hend

/-- A comma ends an item. -/
theorem endsItem_comma {p : Position} (hend : ∃ e ∈ us, e.token = .endOfInput) :
    EndsItem (⟨.punctuator .comma, p⟩ :: us) where
  separates := rfl
  halts := ⟨rfl, fun hnewline => by cases hnewline⟩
  ended := exists_endOfInput_cons _ hend

/-- A joint ends an item unless the item goes on behind it. -/
theorem endsItem_joint (joint : Joint) (hu : u.token.continues = false)
    (hend : ∃ e ∈ u :: us, e.token = .endOfInput) : EndsItem (joint.tokens ++ u :: us) where
  separates := by cases joint <;> rfl
  halts := by
    cases joint with
    | comma position behind => exact ⟨rfl, fun hnewline => by cases hnewline⟩
    | newline position => exact ⟨rfl, fun _ => hu⟩
  ended := exists_endOfInput_append _ hend

/-- What is left of a list ends the item in front of it. -/
theorem endsItem_joinedBehind (hmore : ∀ m ∈ more, m.2.ReadBy parser)
    (hclose : close.token.closesList) (hend : ∃ e ∈ close :: w, e.token = .endOfInput) :
    EndsItem (joinedBehind more tail ++ close :: w) := by
  cases more with
  | nil =>
    cases tail with
    | none => exact endsItem_close hclose hend
    | some joint => exact endsItem_joint joint (Token.continues_of_closesList hclose) hend
  | cons m more =>
    obtain ⟨joint, item⟩ := m
    obtain ⟨⟨t, ts, htokens, -, hcontinues⟩, -⟩ := hmore _ (List.mem_cons_self ..)
    rw [joinedBehind, List.append_assoc, htokens, List.cons_append, List.cons_append]
    refine endsItem_joint joint hcontinues ?_
    obtain ⟨e, he, htoken⟩ := hend
    exact ⟨e, by simp [he], htoken⟩

/-! ### Reading a list -/

section AnyItems

variable {α : Type} {item : Option α → Parser α} {last : α}

/-- A list ends in front of anything but a comma or a line break. -/
theorem listFrom_run {s : ParserState} (hcomma : s.cursor.current.token ≠ .punctuator .comma)
    (hnewline : s.cursor.current.token ≠ .newline) :
    listFrom item rounds separator last s = .ok ⟨[last], false⟩ s := by
  cases rounds with
  | zero => rfl
  | succ rounds =>
    unfold listFrom
    rw [bind_of_ok (isAt_run _ s), beq_false_of_ne hcomma, if_neg Bool.false_ne_true,
      bind_of_ok (isAt_run _ s), beq_false_of_ne hnewline]
    rfl

theorem reads_listFrom_end (hcomma : t.token ≠ .punctuator .comma) (hnewline : t.token ≠ .newline) :
    ReadsOn (listFrom item rounds separator last) (t :: us) ⟨[last], false⟩ (t :: us) := by
  intro s hs
  rw [← current_of_rest hs] at hcomma hnewline
  rw [listFrom_run hcomma hnewline]
  exact ⟨rfl, hs⟩

/-- A list ends where it is closed. -/
theorem reads_listFrom_close (hclose : close.token.closesList) :
    ReadsOn (listFrom item rounds separator last) (close :: w) ⟨[last], false⟩ (close :: w) :=
  reads_listFrom_end (Token.ne_of_apply hclose rfl) (Token.ne_of_apply hclose rfl)

/-- A comma is rejected behind items with line breaks between them. -/
theorem runsOn_listFrom_comma {P : ItemList α → List PlacedToken → Prop} {E : ParseError → Prop}
    {position : Position} {behind : Option Position} (hu : u.token ≠ .newline)
    (hmixed : separator = some .newline → ∀ e : ParseError, e.note = some mixedSeparators → E e)
    (hclose : separator ≠ some .newline → u.token.closesList → P ⟨[last], true⟩ (u :: us))
    (hnext : separator ≠ some .newline → u.token.closesList = false →
      RunsOn (do
        let next ← item (some last)
        return (← listFrom item rounds (some .comma) next).cons last) (u :: us) P E) :
    RunsOn (listFrom item (rounds + 1) separator last)
      ((Joint.comma position behind).tokens ++ u :: us) P E := by
  refine RunsOn.isAt_bind_eq rfl (RunsOn.ite_true ?_)
  by_cases hseparator : separator = some .newline
  · rw [if_pos hseparator]
    exact RunsOn.reject (hmixed hseparator)
  · rw [if_neg hseparator]
    refine RunsOn.discard_bind (RunsOn.advance_bind (by simp) (RunsOn.newlineTokens_bind hu ?_))
    refine RunsOn.peek_bind ?_
    cases hcloses : u.token.closesList with
    | true => exact RunsOn.ite_true (RunsOn.pure (hclose hseparator hcloses))
    | false => exact RunsOn.ite_false (hnext hseparator hcloses)

end AnyItems

variable {P : ItemList Node → List PlacedToken → Prop} {E : ParseError → Prop}

/-- A line break is rejected behind items with commas between them, unless the list is closed
behind it. -/
theorem runsOn_listFrom_newline {position : Position} (hu : u.token ≠ .punctuator .comma)
    (hclose : u.token.closesList → P ⟨[last], false⟩ (u :: us))
    (hmixed : u.token.closesList = false → separator = some .comma →
      ∀ e : ParseError, e.note = some mixedSeparators → E e)
    (hnext : u.token.closesList = false → separator ≠ some .comma →
      RunsOn (do
        let next ← parser
        return (← listFrom (fun _ => parser) rounds (some .newline) next).cons last)
        (u :: us) P E) :
    RunsOn (listFrom (fun _ => parser) (rounds + 1) separator last)
      ((Joint.newline position).tokens ++ u :: us) P E := by
  refine RunsOn.isAt_bind_ne (by simp) (RunsOn.ite_false ?_)
  refine RunsOn.isAt_bind_eq rfl (RunsOn.ite_true ?_)
  refine RunsOn.peekFollowing_bind ?_
  cases hcloses : u.token.closesList with
  | true =>
    refine RunsOn.ite_true (RunsOn.discard_bind (RunsOn.advance_bind (by simp) ?_))
    exact RunsOn.pure (hclose hcloses)
  | false =>
    refine RunsOn.ite_false ?_
    rw [if_neg hu]
    by_cases hseparator : separator = some .comma
    · rw [if_pos hseparator]
      exact RunsOn.reject (hmixed hcloses hseparator)
    · rw [if_neg hseparator]
      refine RunsOn.discard_bind (RunsOn.advance_bind (by simp) ?_)
      exact hnext hcloses hseparator

/-- A list may end with a joint, unless it is a comma behind items with line breaks between them. -/
theorem decides_listFrom_tail {joint : Joint} (hclose : close.token.closesList) :
    Decides (Fits separator [] (some joint)) (listFrom (fun _ => parser) (rounds + 1) separator last)
      (joint.tokens ++ close :: w) ⟨[last], endsInComma (some joint)⟩ (close :: w) := by
  have hopens : close.token.closesList ≠ false := by simp [hclose]
  cases joint with
  | comma position behind =>
    refine runsOn_listFrom_comma (Token.ne_of_apply hclose rfl) (fun hseparator e he => ⟨?_, he⟩)
      (fun hseparator _ => ⟨?_, rfl, rfl⟩) fun _ h => absurd h hopens
    · simpa [Fits, Joint.kind] using hseparator
    · simpa [Fits, Joint.kind] using hseparator
  | newline position =>
    refine runsOn_listFrom_newline (Token.ne_of_apply hclose rfl) (fun _ => ⟨?_, rfl, rfl⟩)
      (fun h => absurd h hopens) fun h => absurd h hopens
    simp [Fits, Joint.kind]

/-- Behind a joint a list goes on with the next item, unless the joint is of another kind than those
before it. -/
theorem decides_listFrom_joint {joint : Joint} {item : Item} (hitem : item.ReadBy parser)
    (hrest : EndsItem (joinedBehind more tail ++ close :: w))
    (h : Decides (Fits (some joint.kind) more tail)
      (listFrom (fun _ => parser) rounds (some joint.kind) item.node)
      (joinedBehind more tail ++ close :: w)
      ⟨item.node :: more.map (·.2.node), endsInComma tail⟩ (close :: w)) :
    Decides (Fits separator ((joint, item) :: more) tail)
      (listFrom (fun _ => parser) (rounds + 1) separator last)
      (joint.tokens ++ (item.tokens ++ (joinedBehind more tail ++ close :: w)))
      ⟨last :: item.node :: more.map (·.2.node), endsInComma tail⟩ (close :: w) := by
  have hnext : Decides (Fits (some joint.kind) more tail) (do
        let next ← parser
        return (← listFrom (fun _ => parser) rounds (some joint.kind) next).cons last)
      (item.tokens ++ (joinedBehind more tail ++ close :: w))
      ⟨last :: item.node :: more.map (·.2.node), endsInComma tail⟩ (close :: w) :=
    ReadsOn.bind (hitem.reads _ hrest) (Decides.bind h fun _ => RunsOn.pure ⟨rfl, rfl⟩)
  obtain ⟨t, ts, htokens, hseparates, -⟩ := hitem.opens
  have hopens := Token.closesList_of_separates hseparates
  rw [htokens, List.cons_append] at hnext ⊢
  cases joint with
  | comma position behind =>
    refine runsOn_listFrom_comma (Token.ne_of_apply hseparates rfl)
      (fun hseparator e he => ⟨?_, he⟩) (fun _ h => absurd h hopens) fun hseparator _ => ?_
    · simp [Fits, Joint.kind, hseparator]
    · have hfits := Separator.none_or_some (by decide : Separator.comma ≠ .newline) hseparator
      exact hnext.iff (by simp only [Fits, Joint.kind, hfits, true_and])
  | newline position =>
    refine runsOn_listFrom_newline (Token.ne_of_apply hseparates rfl) (fun h => absurd h hopens)
      (fun _ hseparator e he => ⟨?_, he⟩) fun _ hseparator => ?_
    · simp [Fits, Joint.kind, hseparator]
    · have hfits := Separator.none_or_some (by decide : Separator.newline ≠ .comma) hseparator
      exact hnext.iff (by simp only [Fits, Joint.kind, hfits, true_and])

/-- Behind the items so far, a list is read to its end if it goes on with the same separator. -/
theorem decides_listFrom (hmore : ∀ m ∈ more, m.2.ReadBy parser) (hrounds : more.length < rounds)
    (hclose : close.token.closesList) (hend : ∃ e ∈ close :: w, e.token = .endOfInput) :
    Decides (Fits separator more tail) (listFrom (fun _ => parser) rounds separator last)
      (joinedBehind more tail ++ close :: w)
      ⟨last :: more.map (·.2.node), endsInComma tail⟩ (close :: w) := by
  induction more generalizing separator last rounds with
  | nil =>
    obtain ⟨rounds, rfl⟩ := Nat.exists_eq_add_one.2 hrounds
    cases tail with
    | none => exact .of_reads (reads_listFrom_close hclose) (by simp [Fits])
    | some joint => exact decides_listFrom_tail hclose
  | cons m more ih =>
    obtain ⟨rounds, rfl⟩ := Nat.exists_eq_add_one.2 (Nat.zero_lt_of_lt hrounds)
    obtain ⟨hitem, hmore⟩ := List.forall_mem_cons.1 hmore
    rw [joinedBehind, List.append_assoc, List.append_assoc]
    exact decides_listFrom_joint hitem (endsItem_joinedBehind hmore hclose hend)
      (ih hmore (Nat.lt_of_succ_lt_succ hrounds))

end Lists

/-! ### Lists from their first item on -/

/-- A list as it is written: perhaps a line break, items with joints between them and perhaps one
more joint. -/
structure Listing where
  lead : Option Position
  first : Item
  more : List (Joint × Item)
  tail : Option Joint

namespace Listing

def items (l : Listing) : List Item := l.first :: l.more.map (·.2)

def nodes (l : Listing) : List Node := l.items.map (·.node)

/-- The tokens behind the line break that the list may begin with. -/
def body (l : Listing) : List PlacedToken := l.first.tokens ++ joinedBehind l.more l.tail

def tokens (l : Listing) : List PlacedToken := newlineTokens l.lead ++ l.body

/-- The separators of the list are not mixed. -/
def Uniform (l : Listing) : Prop := DrakeSyntax.Uniform l.more l.tail

/-- What the list is read as. -/
def contents (l : Listing) : ItemList Node := ⟨l.nodes, endsInComma l.tail⟩

variable {l : Listing} {parser : Parser Node} {close : PlacedToken} {w : List PlacedToken}
variable {rounds : Nat}

theorem forall_more {P : Item → Prop} (h : ∀ item ∈ l.items, P item) : ∀ m ∈ l.more, P m.2 :=
  fun _ hm => h _ (List.mem_cons_of_mem _ (List.mem_map_of_mem hm))

theorem decides_listBehind (hitems : ∀ item ∈ l.items, item.ReadBy parser)
    (hrounds : l.more.length < rounds) (hclose : close.token.closesList)
    (hend : ∃ e ∈ close :: w, e.token = .endOfInput) :
    Decides l.Uniform (listBehind rounds l.first.node parser)
      (joinedBehind l.more l.tail ++ close :: w) l.contents (close :: w) := by
  have hdecides : Decides (Fits none l.more l.tail)
      (listFrom (fun _ => parser) rounds none l.first.node)
      (joinedBehind l.more l.tail ++ close :: w)
      ⟨l.first.node :: l.more.map (·.2.node), endsInComma l.tail⟩ (close :: w) :=
    decides_listFrom (forall_more hitems) hrounds hclose hend
  rw [contents, nodes, items, List.map_cons, List.map_map]
  exact hdecides.iff fits_none

/-- The first item is in front of the list behind it. -/
theorem endsItem_behind (hitems : ∀ item ∈ l.items, item.ReadBy parser)
    (hclose : close.token.closesList) (hend : ∃ e ∈ close :: w, e.token = .endOfInput) :
    EndsItem (joinedBehind l.more l.tail ++ close :: w) :=
  endsItem_joinedBehind (forall_more hitems) hclose hend

/-- The list begins with a token that neither separates items nor closes a list. -/
theorem exists_body (h : l.first.ReadBy parser) (us : List PlacedToken) :
    ∃ t ts, l.body ++ us = t :: ts ∧ t.token.separates = false := by
  obtain ⟨t, ts, htokens, hseparates, -⟩ := h.opens
  exact ⟨t, ts ++ joinedBehind l.more l.tail ++ us, by simp [body, htokens], hseparates⟩

/-- **A list is read if and only if its separators are uniform.** -/
theorem decides_list (hitems : ∀ item ∈ l.items, item.ReadBy parser)
    (hrounds : l.more.length < rounds) (hclose : close.token.closesList)
    (hend : ∃ e ∈ close :: w, e.token = .endOfInput) :
    Decides l.Uniform (list rounds parser) (l.tokens ++ close :: w) l.contents (close :: w) := by
  have hfirst := hitems l.first (List.mem_cons_self ..)
  have hlist := (hfirst.reads _ (endsItem_behind hitems hclose hend)).bind
    (decides_listBehind hitems hrounds hclose hend)
  obtain ⟨t, ts, hbody, hseparates⟩ := exists_body hfirst (close :: w)
  rw [← List.append_assoc, ← body, hbody] at hlist
  rw [tokens, List.append_assoc, hbody]
  refine RunsOn.newlineTokens_bind (Token.ne_of_apply hseparates rfl) (RunsOn.peek_bind ?_)
  rw [if_neg (Token.closesList_of_separates hseparates)]
  exact hlist

/-- The tokens of a list are balanced if those of its items are. -/
theorem balanced (h : ∀ item ∈ l.items, Balanced (item.tokens.map (·.token))) :
    Balanced (l.tokens.map (·.token)) := by
  have hbehind : Balanced ((joinedBehind l.more l.tail).map (·.token)) :=
    balanced_joinedBehind (forall_more h)
  rw [tokens, body, List.map_append, List.map_append]
  exact (balanced_newlineTokens l.lead).append ((h _ (List.mem_cons_self ..)).append hbehind)

theorem length_more_le (l : Listing) : l.more.length ≤ l.tokens.length := by
  have hbehind := length_le_joinedBehind l.more l.tail
  simp only [tokens, body, List.length_append]
  omega

theorem length_item_le (l : Listing) {item : Item} (h : item ∈ l.items) :
    item.tokens.length ≤ l.tokens.length := by
  have hitem : item.tokens.length ≤ l.body.length := by
    rw [body, List.length_append]
    rcases List.mem_cons.1 h with rfl | h
    · exact Nat.le_add_right _ _
    · obtain ⟨m, hm, rfl⟩ := List.mem_map.1 h
      exact Nat.le_add_left_of_le (length_item_le_joinedBehind hm)
  rw [tokens, List.length_append]
  exact Nat.le_add_left_of_le hitem

end Listing

end DrakeSyntax
