import DrakeSyntax.Proofs.Separators.Surroundings

/-!
# Rows of entries of several kinds

The entries of a list with commas between them may be of kinds that do not go with one another, so
that an entry stands for nothing behind some of the others. A list reads the entries if each of them
stands for something behind those before it; otherwise it fails, or it stops in front of a colon that
belongs to an entry (`finds_listFrom`).

* `Accepts`, `Finds`: a parser returns what there is to be read, if there is something.
* `Row`: entries with commas between them.
* `follow`: what the entries behind an item stand for.
-/

namespace DrakeSyntax

open DrakeSyntax.Parser

variable {α β ε : Type} {p : Parser α} {f : α → Parser β} {a? : Option α}
variable {us vs w : List PlacedToken} {t close : PlacedToken}
variable {Q : β → List PlacedToken → Prop} {E : ParseError → Prop}

/-! ### What there is to be read -/

/-- With the tokens `us` ahead, the parser returns what there is to be read and leaves the tokens
`vs`. If there is nothing, it fails. -/
abbrev Accepts (a? : Option α) (p : Parser α) (us vs : List PlacedToken) : Prop :=
  RunsOn p us (fun a ws => a? = some a ∧ ws = vs) fun _ => a? = none

theorem Accepts.bind (h : Accepts a? p us vs) (hsome : ∀ a, a? = some a → RunsOn (f a) vs Q E)
    (herror : a? = none → ∀ e, E e) : RunsOn (p >>= f) us Q E := by
  refine RunsOn.bind (h.weaken (fun _ _ h => h) fun e he => herror he e) ?_
  rintro a _ ⟨ha, rfl⟩
  exact hsome a ha

/-- The first token is a colon. -/
def AtColon (us : List PlacedToken) : Prop := ∃ t ts, us = t :: ts ∧ t.token = .punctuator .colon

/-- With the tokens `us` ahead, the parser returns what there is to be read and leaves the tokens
`vs`. If there is nothing, it fails or stops in front of a colon. -/
abbrev Finds (a? : Option α) (p : Parser α) (us vs : List PlacedToken) : Prop :=
  RunsOn p us (fun a ws => a? = some a ∧ ws = vs ∨ a? = none ∧ AtColon ws) fun _ => a? = none

/-- The token that is expected is not there. -/
theorem RunsOn.expect_bind_ne {f : Position → Parser β} {u : Token} (hu : t.token ≠ u)
    (herror : ∀ e, E e) : RunsOn (expect u >>= f) (t :: us) Q E := by
  intro s hs
  rw [bind_of_error (expect_of_ne (by rwa [current_of_rest hs]))]
  exact herror _

theorem Finds.of_reads {a : α} (h : ReadsOn p us a vs) : Finds (some a) p us vs :=
  h.weaken (fun _ _ h => .inl ⟨by rw [h.1], h.2⟩) fun _ h => h.elim

theorem Finds.of_fails (h : RunsOn p us (fun _ _ => False) fun _ => True) : Finds none p us vs :=
  h.weaken (fun _ _ h => h.elim) fun _ _ => rfl

theorem Finds.bind (h : Finds a? p us vs) (hsome : ∀ a, a? = some a → RunsOn (f a) vs Q E)
    (hcolon : a? = none → ∀ a ws, AtColon ws → RunsOn (f a) ws Q E)
    (herror : a? = none → ∀ e, E e) : RunsOn (p >>= f) us Q E := by
  refine RunsOn.bind (h.weaken (fun _ _ h => h) fun e he => herror he e) fun a ws ha => ?_
  rcases ha with ⟨hvalue, rfl⟩ | ⟨hnone, hws⟩
  · exact hsome a hvalue
  · exact hcolon hnone a ws hws

theorem Finds.map (h : Finds a? p us vs) (g : α → β) :
    Finds (a?.map g) (p >>= fun a => Pure.pure (g a)) us vs :=
  h.bind (fun _ ha => RunsOn.pure (.inl ⟨congrArg _ ha, rfl⟩))
    (fun hnone _ _ hws => RunsOn.pure (.inr ⟨congrArg _ hnone, hws⟩)) fun hnone _ => congrArg _ hnone

/-- Where something is closed there is no colon. -/
theorem Finds.expect_bind {f : α → Parser β} (h : Finds a? p us (close :: w))
    (hclose : close.token.closesList) (hend : close.token ≠ .endOfInput)
    (hsome : ∀ a, a? = some a → RunsOn (f a) w Q E) (herror : a? = none → ∀ e, E e) :
    RunsOn (do
      let a ← p
      discard (expect close.token)
      f a) us Q E := by
  refine h.bind (fun a ha => ?_) (fun hnone a ws hws => ?_) herror
  · exact RunsOn.discard_bind (RunsOn.expect_bind rfl hend (hsome a ha))
  · obtain ⟨t, ts, rfl, ht⟩ := hws
    have hne : t.token ≠ close.token := by
      rw [ht]
      exact (Token.ne_of_apply hclose rfl).symm
    exact RunsOn.discard_bind (RunsOn.expect_bind_ne hne (herror hnone))

theorem Finds.closed (h : Finds a? p us (close :: w)) (hclose : close.token.closesList)
    (hend : close.token ≠ .endOfInput) (g : α → β) :
    Accepts (a?.map g) (do
      let a ← p
      discard (expect close.token)
      return g a) us w :=
  h.expect_bind hclose hend (fun _ ha => RunsOn.pure ⟨congrArg _ ha, rfl⟩) fun hnone _ =>
    congrArg _ hnone

/-! ### Rows -/

/-- Entries with commas between them. -/
structure Row (ε : Type) where
  first : ε
  more : List (Position × ε)

section Rows

variable (tokensOf : ε → List PlacedToken) (value? : α → ε → Option α)

/-- Entries with a comma in front of each. -/
def commaBehind : List (Position × ε) → List PlacedToken
  | [] => []
  | (position, e) :: more => ⟨.punctuator .comma, position⟩ :: (tokensOf e ++ commaBehind more)

namespace Row

def tokens (row : Row ε) : List PlacedToken := tokensOf row.first ++ commaBehind tokensOf row.more

def entries (row : Row ε) : List ε := row.first :: row.more.map (·.2)

end Row

/-- What the entries behind the item `last` stand for, if each of them stands for something behind
the one before it. -/
def follow : α → List ε → Option (List α)
  | _, [] => some []
  | last, e :: es => (value? last e).bind fun a => (follow a es).map (a :: ·)

/-- Behind an item the parser reads the entry as what it stands for there, whatever ends it, with at
most `n` tokens ahead. -/
structure EntryRead (n : Nat) (item : Option α → Parser α) (e : ε) : Prop where
  opens : ∃ t ts, tokensOf e = t :: ts ∧ t.token.separates = false ∧ t.token.continues = false
  finds : ∀ last w, EndsItem w → (tokensOf e ++ w).length ≤ n →
    Finds (value? last e) (item (some last)) (tokensOf e ++ w) w

end Rows

section Lists

variable {tokensOf : ε → List PlacedToken} {value? : α → ε → Option α} {n rounds : Nat}
variable {item : Option α → Parser α} {more : List (Position × ε)} {separator : Option Separator}
variable {last : α}

theorem follow_of_some {a : α} {e : ε} {es : List ε} (h : value? last e = some a) :
    follow value? last (e :: es) = (follow value? a es).map (a :: ·) := by
  rw [follow, h, Option.bind_some]

theorem follow_of_none {e : ε} {es : List ε} (h : value? last e = none) :
    follow value? last (e :: es) = none := by
  rw [follow, h, Option.bind_none]

section Uniform

variable {kind? : ε → Option α} {es : List ε}

/-- If it does not matter what an entry is behind, all entries have to stand for something. -/
theorem follow_of_forall (h : ∀ e ∈ es, (kind? e).isSome) :
    follow (fun _ => kind?) last es = some (es.filterMap kind?) := by
  induction es generalizing last with
  | nil => rfl
  | cons e es ih =>
    obtain ⟨he, hes⟩ := List.forall_mem_cons.1 h
    obtain ⟨a, ha⟩ := Option.isSome_iff_exists.1 he
    rw [follow_of_some ha, ih hes, Option.map_some, List.filterMap_cons_some ha]

theorem follow_of_exists (h : ∃ e ∈ es, kind? e = none) : follow (fun _ => kind?) last es = none := by
  induction es generalizing last with
  | nil =>
    obtain ⟨e, he, -⟩ := h
    cases he
  | cons e es ih =>
    cases ha : kind? e with
    | none => exact follow_of_none ha
    | some a =>
      obtain ⟨e', he', hnone⟩ := h
      rcases List.mem_cons.1 he' with rfl | he'
      · rw [ha] at hnone
        cases hnone
      · rw [follow_of_some ha, ih ⟨e', he', hnone⟩, Option.map_none]

end Uniform

theorem length_le_commaBehind (tokensOf : ε → List PlacedToken) (more : List (Position × ε)) :
    more.length ≤ (commaBehind tokensOf more).length := by
  induction more with
  | nil => exact Nat.zero_le _
  | cons m more ih =>
    simp only [commaBehind, List.length_cons, List.length_append]
    omega

/-- What is left of a row ends the entry in front of it. -/
theorem endsItem_commaBehind (hclose : close.token.closesList)
    (hend : ∃ e ∈ close :: w, e.token = .endOfInput) :
    EndsItem (commaBehind tokensOf more ++ close :: w) := by
  cases more with
  | nil => exact endsItem_close hclose hend
  | cons m more => exact endsItem_comma (exists_endOfInput_append _ hend)

/-- **A list reads the entries of a row if each of them stands for something behind the one before
it.** -/
theorem finds_listFrom (hmore : ∀ m ∈ more, EntryRead tokensOf value? n item m.2)
    (hrounds : more.length < rounds) (hclose : close.token.closesList)
    (hend : ∃ e ∈ close :: w, e.token = .endOfInput)
    (hn : (commaBehind tokensOf more ++ close :: w).length ≤ n)
    (hseparator : separator ≠ some .newline) :
    Finds ((follow value? last (more.map (·.2))).map fun as => ⟨last :: as, false⟩)
      (listFrom item rounds separator last) (commaBehind tokensOf more ++ close :: w) (close :: w) := by
  induction more generalizing separator last rounds with
  | nil => exact .of_reads (reads_listFrom_close hclose)
  | cons m more ih =>
    obtain ⟨position, e⟩ := m
    obtain ⟨rounds, rfl⟩ := Nat.exists_eq_add_one.2 (Nat.zero_lt_of_lt hrounds)
    obtain ⟨⟨⟨t, ts, htokens, hseparates, -⟩, hfinds⟩, hmore⟩ := List.forall_mem_cons.1 hmore
    simp only [commaBehind, List.cons_append, List.append_assoc, List.length_cons] at hn
    have hnext := hfinds last _ (endsItem_commaBehind hclose hend) (Nat.le_of_succ_le hn)
    rw [List.length_append] at hn
    simp only [htokens] at hnext
    simp only [commaBehind, htokens, List.cons_append, List.append_assoc]
    change Finds _ _ ((Joint.comma position none).tokens ++ t :: (ts ++ _)) _
    refine runsOn_listFrom_comma (Token.ne_of_apply hseparates rfl) (fun h => absurd h hseparator)
      (fun _ h => absurd h (Token.closesList_of_separates hseparates)) fun _ _ => ?_
    refine hnext.bind (fun a ha => ?_) (fun hnone a ws hws => ?_) fun hnone _ => ?_
    · -- the list goes on behind the entry
      have hlist : Finds _ (listFrom item rounds (some .comma) a) _ (close :: w) :=
        ih hmore (Nat.lt_of_succ_lt_succ hrounds) (by omega) (by simp)
      have hcons := hlist.map (ItemList.cons last)
      rw [Option.map_map] at hcons
      rw [List.map_cons, follow_of_some ha, Option.map_map]
      exact hcons
    · -- the list stops at the colon
      obtain ⟨u, us, rfl, hu⟩ := hws
      have hcomma : u.token ≠ .punctuator .comma := by simp [hu]
      have hnewline : u.token ≠ .newline := by simp [hu]
      refine (reads_listFrom_end hcomma hnewline).bind (RunsOn.pure (.inr ⟨?_, u, us, rfl, hu⟩))
      rw [List.map_cons, follow_of_none hnone, Option.map_none]
    · rw [List.map_cons, follow_of_none hnone, Option.map_none]

/-- Phrases that are deep enough for the tokens allow enough rounds. -/
theorem finds_listFrom_phrases (last : α) (hmore : ∀ m ∈ more, EntryRead tokensOf value? n item m.2)
    (hclose : close.token.closesList) (hend : ∃ e ∈ close :: w, e.token = .endOfInput)
    (hn : (commaBehind tokensOf more ++ close :: w).length ≤ n) :
    Finds ((follow value? last (more.map (·.2))).map fun as => ⟨last :: as, false⟩)
      (listFrom item (phrases n).rounds none last) (commaBehind tokensOf more ++ close :: w)
      (close :: w) := by
  refine finds_listFrom hmore ?_ hclose hend hn (Option.some_ne_none _).symm
  have hlength := length_le_commaBehind tokensOf more
  rw [phrases_rounds]
  simp only [List.length_append, List.length_cons] at hn
  omega

end Lists

/-! ### Programs -/

/-- What phrases do that are deep enough for the tokens, a parser does that is made from them. -/
theorem parseTokens_of_runsOn {ts : List PlacedToken} {P : Program → List PlacedToken → Prop}
    {E : ParseError → Prop} (hts : EndsInput ts)
    (h : RunsOn (programWith (phrases (ts.length + 1))) ts P E) :
    match parseTokens ts with
    | .ok program => ∃ vs, P program vs
    | .error e => E e := by
  have hclosed : closeTokens ts = ts := hts.closeTokens_eq
  have hrun := h (.ofTokens ts) hclosed
  rw [parseTokens_eq, hclosed]
  generalize programWith (phrases (ts.length + 1)) (.ofTokens ts) = result at hrun ⊢
  cases result with
  | ok program s => exact ⟨_, hrun⟩
  | error e s => exact hrun

/-- The only expression of a program is what the program is read as. -/
theorem parseTokens_of_accepts {ts : List PlacedToken} {node? : Option Node} {eof : Position}
    (hts : EndsInput ts) (hopens : ∃ t us, ts = t :: us ∧ t.token.separates = false)
    (h : Accepts node? (expressionWith (phrases ts.length)) ts [⟨.endOfInput, eof⟩]) :
    match parseTokens ts with
    | .ok program => ∃ node, node? = some node ∧ program = ⟨[node]⟩
    | .error _ => node? = none := by
  have hprogram : RunsOn (programWith (phrases (ts.length + 1))) ts
      (fun program vs => ∃ node, (node? = some node ∧ vs = [⟨.endOfInput, eof⟩]) ∧
        program = ⟨[node]⟩) fun _ => node? = none := by
    obtain ⟨t, us, rfl, ht⟩ := hopens
    exact RunsOn.single ht (fun _ _ h => h.2) h
  have hrun := parseTokens_of_runsOn hts hprogram
  generalize parseTokens ts = result at hrun ⊢
  cases result with
  | ok program =>
    obtain ⟨_, node, ⟨hnode, -⟩, hbody⟩ := hrun
    exact ⟨node, hnode, hbody⟩
  | error e => exact hrun

end DrakeSyntax
