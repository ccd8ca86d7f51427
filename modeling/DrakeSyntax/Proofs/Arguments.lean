import DrakeSyntax.Command.Run
import DrakeSyntax.Proofs.Cutting.Tokenize

/-!
# The verbose argument among others

What a command does is said of any reader of arguments that treats the verbose argument as a flag
(`HeedsVerbose`). The reader that the command is run with is such a one
(`heedsVerbose_readArguments`). It reads that argument like any other option: first the pending
option is recorded, then the flag itself. The arguments behind it notice neither. With the flag set
they are read as without it, unless it is among them (`Reading.HeedsOnce`), and a pending option may
be recorded before its time (`Reading.Settles`).
-/

namespace DrakeSyntax

/-- The settings with milestones reported or not. -/
def Settings.withVerbose (b : Bool) (s : Settings) : Settings := { s with verbose := b }

/-- The reading with milestones reported or not. -/
def Reading.withVerbose (b : Bool) (r : Reading) : Reading :=
  { r with settings := r.settings.withVerbose b }

/-- The request with milestones reported or not. -/
def Request.withVerbose (b : Bool) (r : Request) : Request := { r with verbose := b }

/-- The argument asks for milestones and for nothing else. -/
def AsksForMilestones (arg : String) : Prop := arg = "--verbose" ∨ arg = "-v"

/-- The reader treats the verbose argument as a flag: it switches on a field of the request. -/
structure HeedsVerbose (read : List String → Except Outcome Request) : Prop where
  /-- Among arguments that are accepted with it and without it, it sets the field and no other. -/
  eq_withVerbose {flag : String} {xs ys : List String} {r r' : Request} : AsksForMilestones flag →
    read (xs ++ ys) = .ok r → read (xs ++ flag :: ys) = .ok r' → r' = r.withVerbose true
  /-- Arguments are still accepted with it in front, unless it is one of them. -/
  exists_ok {flag : String} {args : List String} {r : Request} : AsksForMilestones flag →
    read args = .ok r → r.verbose = false → ∃ r', read (flag :: args) = .ok r'

theorem except_bind_eq_ok_iff {ε α β : Type} {x : Except ε α} {f : α → Except ε β} {b : β} :
    x >>= f = .ok b ↔ ∃ a, x = .ok a ∧ f a = .ok b := by
  constructor
  · intro h
    cases x with
    | error e => cases h
    | ok a => exact ⟨a, rfl, h⟩
  · rintro ⟨a, rfl, h⟩
    exact h

/-! ### One option -/

namespace Settings

variable {s s' : Settings} {o : CommandOption}

theorem bind_eq_map {α : Type} {x : Except UsageError α} {f g : α → Settings}
    {k : Settings → Settings} (h : ∀ a, g a = k (f a)) :
    (x >>= fun a => pure (g a)) = (x >>= fun a => pure (f a)).map k := by
  cases x with
  | error e => rfl
  | ok a => exact congrArg Except.ok (h a)

theorem recordValue_withVerbose (b : Bool) (s : Settings) (o : CommandOption) (value : String) :
    (s.withVerbose b).recordValue o value = (s.recordValue o value).map (withVerbose b) := by
  cases o with
  | file | eval | emit | format | output => exact bind_eq_map fun _ => rfl
  | verbose | help | version => rfl

/-- The one flag that can be recorded. -/
theorem recordFlag_eq_ok_iff :
    s.recordFlag o = .ok s' ↔ o = .verbose ∧ s.verbose = false ∧ s' = s.withVerbose true := by
  cases o with
  | verbose =>
    cases hs : s.verbose with
    | false => simp [recordFlag, hs, pure, Except.pure, withVerbose, eq_comm]
    | true => simp [recordFlag, hs, throw, throwThe, MonadExceptOf.throw]
  | file | eval | emit | format | output | help | version =>
    simp [recordFlag, throw, throwThe, MonadExceptOf.throw]

end Settings

namespace Reading

variable {r r' σ σ' : Reading} {o : CommandOption} {arg : String}

theorem settle_withVerbose (b : Bool) (r : Reading) :
    (r.withVerbose b).settle = r.settle.map (withVerbose b) := by
  obtain ⟨settings, pending, ended⟩ := r
  match pending with
  | none | some (_, none) => rfl
  | some (o, some value) =>
    change ((settings.withVerbose b).recordValue o value >>= _) =
      (settings.recordValue o value >>= _).map _
    rw [Settings.recordValue_withVerbose]
    cases settings.recordValue o value <;> rfl

theorem valued_withVerbose (b : Bool) (r : Reading) (o : CommandOption)
    (attached : Option (List Char)) :
    (r.withVerbose b).valued o attached = (r.valued o attached).map (withVerbose b) := by
  unfold valued
  rw [settle_withVerbose]
  cases r.settle with
  | error e => rfl
  | ok σ =>
    cases attached with
    | none => rfl
    | some value =>
      change ((σ.settings.withVerbose b).recordValue o _ >>= _) =
        (σ.settings.recordValue o _ >>= _).map _
      rw [Settings.recordValue_withVerbose]
      cases σ.settings.recordValue o (String.ofList value) <;> rfl

theorem plainArgument_withVerbose (b : Bool) (r : Reading) (value : String) :
    (r.withVerbose b).plainArgument value = (r.plainArgument value).map (withVerbose b) := by
  obtain ⟨settings, pending, ended⟩ := r
  match pending with
  | none | some (_, some _) | some (_, none) => rfl

/-- What commutes with setting the flag leaves it as it is. -/
theorem verbose_of_commutes {read : Reading → Except UsageError Reading}
    (hread : ∀ b r, read (r.withVerbose b) = (read r).map (withVerbose b))
    (h : read r = .ok r') : r'.settings.verbose = r.settings.verbose := by
  have hown := hread r.settings.verbose r
  rw [show r.withVerbose r.settings.verbose = r from rfl, h] at hown
  exact congrArg (fun r => r.settings.verbose) (Except.ok.inj hown)

/-- The one flag that can be read, once. -/
theorem flag_eq_ok_iff : r.flag o = .ok r' ↔
    o = .verbose ∧ ∃ σ, r.settle = .ok σ ∧ σ.settings.verbose = false ∧
      r' = σ.withVerbose true := by
  constructor
  · intro h
    obtain ⟨σ, hσ, h⟩ := except_bind_eq_ok_iff.1 h
    obtain ⟨s, hs, h⟩ := except_bind_eq_ok_iff.1 h
    obtain ⟨ho, hset, rfl⟩ := Settings.recordFlag_eq_ok_iff.1 hs
    cases h
    exact ⟨ho, σ, hσ, hset, rfl⟩
  · rintro ⟨ho, σ, hσ, hset, rfl⟩
    exact except_bind_eq_ok_iff.2 ⟨σ, hσ, except_bind_eq_ok_iff.2
      ⟨_, Settings.recordFlag_eq_ok_iff.2 ⟨ho, hset, rfl⟩, rfl⟩⟩

/-! ### Arguments behind the verbose one -/

/-- With the flag set, the reading goes as without it unless it meets the flag again. -/
structure HeedsOnce (read : Reading → Except UsageError Reading) : Prop where
  kept {r r' : Reading} : read r = .ok r' → r.settings.verbose = true → r'.settings.verbose = true
  ok_iff {r r₁ : Reading} : r.settings.verbose = false →
    (read (r.withVerbose true) = .ok r₁ ↔
      ∃ r', read r = .ok r' ∧ r'.settings.verbose = false ∧ r₁ = r'.withVerbose true)

namespace HeedsOnce

variable {read next : Reading → Except UsageError Reading}

theorem of_commutes (hread : ∀ b r, read (r.withVerbose b) = (read r).map (withVerbose b)) :
    HeedsOnce read where
  kept h hset := (verbose_of_commutes hread h).trans hset
  ok_iff hset := by
    rw [hread]
    constructor
    · intro h
      obtain ⟨r', hr', rfl⟩ := exists_of_map_eq_ok h
      exact ⟨r', hr', (verbose_of_commutes hread hr').trans hset, rfl⟩
    · rintro ⟨r', hr', -, rfl⟩
      rw [hr']
      rfl

theorem fails (e : UsageError) : HeedsOnce fun _ => throw e := of_commutes fun _ _ => rfl

theorem flag (o : CommandOption) : HeedsOnce (flag · o) where
  kept h _ := by
    obtain ⟨-, σ, -, -, rfl⟩ := flag_eq_ok_iff.1 h
    rfl
  ok_iff _ := by
    constructor
    · -- a second flag is a conflict
      intro h
      obtain ⟨-, σ, hσ, hset, -⟩ := flag_eq_ok_iff.1 h
      rw [settle_withVerbose] at hσ
      obtain ⟨σ', -, rfl⟩ := exists_of_map_eq_ok hσ
      cases hset
    · rintro ⟨r', hr', hset, -⟩
      obtain ⟨-, σ, -, -, rfl⟩ := flag_eq_ok_iff.1 hr'
      cases hset

theorem bind (hread : HeedsOnce read) (hnext : HeedsOnce next) :
    HeedsOnce fun r => read r >>= next where
  kept h hset := by
    obtain ⟨μ, hμ, h⟩ := except_bind_eq_ok_iff.1 h
    exact hnext.kept h (hread.kept hμ hset)
  ok_iff hset := by
    constructor
    · intro h
      obtain ⟨μ₁, hμ₁, h⟩ := except_bind_eq_ok_iff.1 h
      obtain ⟨μ, hμ, hquiet, rfl⟩ := (hread.ok_iff hset).1 hμ₁
      obtain ⟨r', hr', hr⟩ := (hnext.ok_iff hquiet).1 h
      exact ⟨r', except_bind_eq_ok_iff.2 ⟨μ, hμ, hr'⟩, hr⟩
    · rintro ⟨r', h, hquiet', rfl⟩
      obtain ⟨μ, hμ, hr'⟩ := except_bind_eq_ok_iff.1 h
      have hquiet : μ.settings.verbose = false := by
        rw [← Bool.not_eq_true]
        intro hloud
        rw [hnext.kept hr' hloud] at hquiet'
        cases hquiet'
      exact except_bind_eq_ok_iff.2 ⟨μ.withVerbose true, (hread.ok_iff hset).2 ⟨μ, hμ, hquiet, rfl⟩,
        (hnext.ok_iff hquiet).2 ⟨r', hr', hquiet', rfl⟩⟩

theorem unlessEnded (hread : HeedsOnce read) :
    HeedsOnce fun r => if r.ended then throw .unknownArgument else read r where
  kept h hset := by
    split at h
    · cases h
    · exact hread.kept h hset
  ok_iff {r _} hset := by
    change (if r.ended then _ else _) = _ ↔ _
    split
    · constructor
      · intro h
        cases h
      · rintro ⟨r', h, -⟩
        cases h
    · exact hread.ok_iff hset

theorem longOption (name : List Char) (attached : Option (List Char)) :
    HeedsOnce (longOption · name attached) := by
  unfold Reading.longOption
  cases CommandOption.ofLong? name with
  | none => exact fails _
  | some o =>
    dsimp only
    split
    · exact of_commutes fun b r => valued_withVerbose b r o attached
    · split
      · exact fails _
      · exact flag o

theorem shortOptions (cs : List Char) : HeedsOnce (shortOptions · cs) := by
  induction cs with
  | nil => exact of_commutes fun _ _ => rfl
  | cons c cs ih =>
    unfold Reading.shortOptions
    cases CommandOption.ofShort? c with
    | none => exact fails _
    | some o =>
      dsimp only
      split
      · exact of_commutes fun b r => valued_withVerbose b r o (attachedValue cs)
      · exact (flag o).bind ih

theorem argument (arg : String) : HeedsOnce (argument · arg) := by
  unfold Reading.argument
  refine unlessEnded ?_
  split
  · exact of_commutes fun _ _ => rfl
  · split
    · exact longOption _ _
    · exact longOption _ _
  · exact shortOptions _
  · exact of_commutes fun b r => plainArgument_withVerbose b r arg

/-- With the flag set, all arguments are read as without it unless it is among them. -/
theorem arguments (args : List String) : HeedsOnce (args.foldlM Reading.argument) := by
  induction args with
  | nil => exact of_commutes fun _ _ => rfl
  | cons arg args ih => exact (argument arg).bind ih

end HeedsOnce

/-! ### Arguments behind an option that is recorded early -/

/-- The second reading is the first one, with its pending option recorded or not. -/
def Settles (r σ : Reading) : Prop := r = σ ∨ r.settle = .ok σ

theorem settle_eq_ok (h : r.settle = .ok σ) : σ.pending = none ∧ σ.ended = r.ended := by
  obtain ⟨settings, pending, ended⟩ := r
  match pending with
  | none =>
    cases h
    exact ⟨rfl, rfl⟩
  | some (o, none) => cases h
  | some (o, some value) =>
    obtain ⟨s, -, hσ⟩ := except_bind_eq_ok_iff.1 h
    cases hσ
    exact ⟨rfl, rfl⟩

/-- Nothing is left to record. -/
theorem settle_settled (h : r.settle = .ok σ) : σ.settle = .ok σ := by
  unfold settle
  rw [(settle_eq_ok h).1]
  rfl

theorem Settles.settle_eq (h : Settles r σ) : r.settle = σ.settle := by
  rcases h with rfl | h
  · rfl
  · rw [h, settle_settled h]

theorem settle_end (h : r.settle = .ok σ) :
    { r with ended := true }.settle = .ok { σ with ended := true } := by
  obtain ⟨settings, pending, ended⟩ := r
  match pending with
  | none =>
    cases h
    rfl
  | some (o, none) => cases h
  | some (o, some value) =>
    obtain ⟨s, hs, hσ⟩ := except_bind_eq_ok_iff.1 h
    cases hσ
    exact except_bind_eq_ok_iff.2 ⟨s, hs, rfl⟩

theorem longOption_of_settle (h : r.settle = .ok σ) (name : List Char)
    (attached : Option (List Char)) : r.longOption name attached = σ.longOption name attached := by
  simp only [longOption, valued, flag, h, settle_settled h]

theorem shortOptions_of_settle (h : r.settle = .ok σ) (c : Char) (cs : List Char) :
    r.shortOptions (c :: cs) = σ.shortOptions (c :: cs) := by
  simp only [shortOptions, valued, flag, h, settle_settled h]

theorem Settles.argument (h : Settles r σ) (hσ : σ.argument arg = .ok σ') :
    ∃ r', r.argument arg = .ok r' ∧ Settles r' σ' := by
  rcases h with rfl | h
  · exact ⟨σ', hσ, .inl rfl⟩
  obtain ⟨hpending, hended⟩ := settle_eq_ok h
  unfold Reading.argument at hσ ⊢
  rw [hended] at hσ
  split at hσ
  · cases hσ
  · rw [if_neg ‹_›]
    split at hσ
    · cases hσ
      exact ⟨_, rfl, .inr (settle_end h)⟩
    · split at hσ
      · exact ⟨σ', (longOption_of_settle h ..).trans hσ, .inl rfl⟩
      · exact ⟨σ', (longOption_of_settle h ..).trans hσ, .inl rfl⟩
    · exact ⟨σ', (shortOptions_of_settle h ..).trans hσ, .inl rfl⟩
    · -- no option waits for a value
      unfold plainArgument at hσ
      rw [hpending] at hσ
      cases hσ

/-- An option that is recorded early does not change how the rest is read. -/
theorem Settles.arguments {args : List String} (h : Settles r σ)
    (hσ : args.foldlM Reading.argument σ = .ok σ') :
    ∃ r', args.foldlM Reading.argument r = .ok r' ∧ Settles r' σ' := by
  induction args generalizing r σ with
  | nil =>
    cases hσ
    exact ⟨r, rfl, h⟩
  | cons arg args ih =>
    obtain ⟨μ, hμ, hσ⟩ := except_bind_eq_ok_iff.1 hσ
    obtain ⟨ν, hν, hsettles⟩ := h.argument hμ
    obtain ⟨r', hr', hsettles'⟩ := ih hsettles hσ
    exact ⟨r', except_bind_eq_ok_iff.2 ⟨ν, hν, hr'⟩, hsettles'⟩

/-! ### Requests -/

/-- The request that all arguments make together. -/
def request (r : Reading) : Except UsageError Request := do
  let s := (← r.settle).settings
  s.nameSource
  return ⟨s.file, s.eval, s.emit.getD .program, s.format.getD .plain, s.output, s.verbose⟩

theorem ofArguments_eq (args : List String) :
    Request.ofArguments args = args.foldlM argument {} >>= request := rfl

theorem request_withVerbose (b : Bool) (r : Reading) :
    (r.withVerbose b).request = r.request.map (Request.withVerbose b) := by
  unfold request
  rw [settle_withVerbose]
  cases r.settle with
  | error e => rfl
  | ok σ =>
    change ((σ.settings.withVerbose b).nameSource >>= _) = (σ.settings.nameSource >>= _).map _
    rw [show (σ.settings.withVerbose b).nameSource = σ.settings.nameSource from rfl]
    cases σ.settings.nameSource <;> rfl

theorem verbose_of_request {q : Request} (h : r.request = .ok q) :
    q.verbose = r.settings.verbose := by
  have hown := request_withVerbose r.settings.verbose r
  rw [show r.withVerbose r.settings.verbose = r from rfl, h] at hown
  exact congrArg (fun q => q.verbose) (Except.ok.inj hown)

theorem Settles.request_eq (h : Settles r σ) : r.request = σ.request := by
  unfold request
  rw [h.settle_eq]

theorem argument_of_asks (h : AsksForMilestones arg) (r : Reading) :
    r.argument arg = if r.ended then throw .unknownArgument else r.flag .verbose := by
  rcases h with rfl | rfl
  · rfl
  · have hshort (x : Except UsageError Reading) : (x >>= fun r => pure r) = x := by cases x <;> rfl
    exact congrArg (if r.ended then throw .unknownArgument else ·) (hshort (r.flag .verbose))

end Reading

namespace Request

open Reading

variable {arg : String} {xs ys : List String} {q q₁ : Request}

/-- **The verbose argument changes nothing but that milestones are reported.** Where it is accepted
among other arguments, these are accepted without it, and the requests agree otherwise. -/
theorem ofArguments_insert (harg : AsksForMilestones arg)
    (h : ofArguments (xs ++ arg :: ys) = .ok q₁) :
    ∃ q, ofArguments (xs ++ ys) = .ok q ∧ q.verbose = false ∧ q₁ = q.withVerbose true := by
  rw [ofArguments_eq] at h
  obtain ⟨τ₁, hread, hq₁⟩ := except_bind_eq_ok_iff.1 h
  rw [List.foldlM_append] at hread
  obtain ⟨ρ, hxs, hread⟩ := except_bind_eq_ok_iff.1 hread
  rw [List.foldlM_cons] at hread
  obtain ⟨ρ₁, hflag, hys⟩ := except_bind_eq_ok_iff.1 hread
  rw [argument_of_asks harg] at hflag
  split at hflag
  · cases hflag
  obtain ⟨-, σ, hσ, hset, rfl⟩ := flag_eq_ok_iff.1 hflag
  -- first without the flag, then with the pending option left pending
  obtain ⟨τ, hτ, hquiet, rfl⟩ := ((HeedsOnce.arguments ys).ok_iff hset).1 hys
  obtain ⟨τ', hτ', hsettles⟩ := Settles.arguments (.inr hσ) hτ
  rw [request_withVerbose] at hq₁
  obtain ⟨q, hq, rfl⟩ := exists_of_map_eq_ok hq₁
  refine ⟨q, ?_, (verbose_of_request hq).trans hquiet, rfl⟩
  rw [ofArguments_eq, List.foldlM_append]
  refine except_bind_eq_ok_iff.2 ⟨τ', except_bind_eq_ok_iff.2 ⟨ρ, hxs, hτ'⟩, ?_⟩
  rw [hsettles.request_eq, hq]

/-- In front of all others it is accepted, unless it is among them already. -/
theorem ofArguments_cons (harg : AsksForMilestones arg) (h : ofArguments xs = .ok q)
    (hquiet : q.verbose = false) : ofArguments (arg :: xs) = .ok (q.withVerbose true) := by
  rw [ofArguments_eq] at h ⊢
  obtain ⟨τ, hxs, hq⟩ := except_bind_eq_ok_iff.1 h
  have hτ := (verbose_of_request hq).symm.trans hquiet
  have hflag : ({} : Reading).argument arg = .ok (({} : Reading).withVerbose true) := by
    rw [argument_of_asks harg]
    rfl
  rw [List.foldlM_cons, hflag]
  have hread := ((HeedsOnce.arguments xs).ok_iff (r := {}) rfl).2 ⟨τ, hxs, hτ, rfl⟩
  refine except_bind_eq_ok_iff.2 ⟨_, hread, ?_⟩
  rw [request_withVerbose, hq]
  rfl

end Request

theorem ofArguments_of_readArguments {args : List String} {r : Request}
    (h : readArguments args = .ok r) : Request.ofArguments args = .ok r := by
  unfold readArguments at h
  cases hread : Request.ofArguments args with
  | error e =>
    rw [hread] at h
    cases h
  | ok r' =>
    rw [hread] at h
    cases h
    rfl

theorem heedsVerbose_readArguments : HeedsVerbose readArguments where
  eq_withVerbose hflag h h' := by
    obtain ⟨q, hq, -, rfl⟩ := Request.ofArguments_insert hflag (ofArguments_of_readArguments h')
    cases hq.symm.trans (ofArguments_of_readArguments h)
    rfl
  exists_ok {flag args r} hflag h hquiet := by
    refine ⟨r.withVerbose true, ?_⟩
    rw [readArguments, Request.ofArguments_cons hflag (ofArguments_of_readArguments h) hquiet]
    rfl

end DrakeSyntax
