import Mathlib.Data.List.Nodup
import DrakeSyntax.Proofs.Lexeme
import DrakeSyntax.Proofs.Json
import DrakeSyntax.Proofs.TreeInduction
import DrakeSyntax.Report.Render

/-!
# Results as JSON lose nothing

Tokens and programs can be read off their JSON, positions included. As JSON a record loses its name
and a value that is there is not marked as such, so not every datum can be told from every other
one; but data of one type can (`Legible`). No two variants of a type have one name, and nothing that
may be missing is `null` when it is there.
-/

namespace DrakeSyntax

/-- No other value of the type has the same JSON. -/
def Legible {α : Type} (datum : α → Datum) (a : α) : Prop :=
  ∀ b, (datum a).json = (datum b).json → a = b

/-! ### Parts of data -/

namespace Datum

variable {name : String} {d e : Datum} {fs gs : List (String × Datum)}

theorem text_inj {s t : String} : (text s).json = (text t).json ↔ s = t :=
  iff_of_eq (Json.string.injEq s t)

theorem natural_inj {m n : Nat} : (natural m).json = (natural n).json ↔ m = n :=
  iff_of_eq (Json.number.injEq m n)

theorem boolean_inj {b c : Bool} : (boolean b).json = (boolean c).json ↔ b = c :=
  iff_of_eq (Json.boolean.injEq b c)

theorem variant_inj {name' : String} :
    (variant name).json = (variant name').json ↔ name = name' :=
  text_inj

theorem tagged_inj : (tagged name d).json = (tagged name e).json ↔ d.json = e.json := by
  show Json.object [(name, d.json)] = Json.object [(name, e.json)] ↔ d.json = e.json
  simp

theorem record_inj :
    (record name fs).json = (record name gs).json ↔ jsonFields fs = jsonFields gs :=
  iff_of_eq (Json.object.injEq (jsonFields fs) (jsonFields gs))

theorem taggedRecord_inj :
    (taggedRecord name fs).json = (taggedRecord name gs).json ↔ jsonFields fs = jsonFields gs :=
  (tagged_inj (d := record name fs) (e := record name gs)).trans record_inj

theorem fields_inj : jsonFields ((name, d) :: fs) = jsonFields ((name, e) :: gs) ↔
    d.json = e.json ∧ jsonFields fs = jsonFields gs := by
  show (name, d.json) :: jsonFields fs = (name, e.json) :: jsonFields gs ↔ _
  simp

end Datum

/-- The name of a variant as JSON: the text that it is, or the key in front of its content. -/
def Json.variantName : Json → String
  | .string s => s
  | .object ((name, _) :: _) => name
  | _ => ""

/-- Variants with the same JSON are made by the same constructor if no two constructors have one
name. -/
theorem ctorIdx_eq_of_json {α : Type} {datum : α → Datum} {ctorIdx : α → Nat}
    (names : List String) (hname : ∀ a, names[ctorIdx a]? = some (datum a).json.variantName)
    (hnodup : names.Nodup) {a b : α} (h : (datum a).json = (datum b).json) :
    ctorIdx a = ctorIdx b := by
  have hlt : ctorIdx a < names.length := (List.getElem?_eq_some_iff.1 (hname a)).1
  refine (List.getElem?_inj hlt hnodup).1 ?_
  rw [hname, hname, h]

namespace Legible

open Datum

variable {α : Type} {datum : α → Datum}

/-- A list is legible if its elements are. -/
theorem ofList {as bs : List α} (has : ∀ a ∈ as, Legible datum a)
    (h : (list (as.map datum)).json = (list (bs.map datum)).json) : as = bs := by
  simp only [json, Json.array.injEq] at h
  induction as generalizing bs with
  | nil =>
    cases bs with
    | nil => rfl
    | cons b bs => cases h
  | cons a as ih =>
    obtain ⟨ha, has⟩ := List.forall_mem_cons.1 has
    cases bs with
    | nil => cases h
    | cons b bs =>
      simp only [List.map_cons, jsonItems, List.cons.injEq] at h
      rw [ha b h.1, ih has h.2]

/-- A value that may be missing is legible if it is never `null` when it is there. -/
theorem ofOption {a b : Option α} (ha : ∀ x ∈ a.toList, Legible datum x)
    (hnull : ∀ x, (datum x).json ≠ .null)
    (h : (Datum.ofOption datum a).json = (Datum.ofOption datum b).json) : a = b := by
  cases a with
  | none =>
    cases b with
    | none => rfl
    | some y => exact absurd h.symm (by simpa [Datum.ofOption, json] using hnull y)
  | some x =>
    cases b with
    | none => exact absurd h (by simpa [Datum.ofOption, json] using hnull x)
    | some y =>
      simp only [Datum.ofOption, json] at h
      rw [ha x (.head _) y h]

end Legible

/-! ### Names -/

/-- Names tell apart what is listed if no two of the listed have one name. -/
theorem eq_of_name_eq {α : Type} [DecidableEq α] {name : α → String} (xs : List α)
    (hall : ∀ a, xs.elem a) (hnodup : (xs.map name).Nodup) {a b : α} (h : name a = name b) :
    a = b :=
  List.inj_on_of_nodup_map hnodup (List.mem_of_elem_eq_true (hall a))
    (List.mem_of_elem_eq_true (hall b)) h

theorem TargetModifier.name_inj {a b : TargetModifier} (h : a.name = b.name) : a = b :=
  eq_of_name_eq [nonlocal, const] (fun m => by cases m <;> rfl) (by decide) h

theorem NumberBase.name_inj {a b : NumberBase} (h : a.name = b.name) : a = b :=
  eq_of_name_eq [binary, octal, hexadecimal, decimal] (fun b => by cases b <;> rfl) (by decide) h

theorem Keyword.name_inj {a b : Keyword} (h : a.name = b.name) : a = b :=
  List.inj_on_of_nodup_map (by decide +kernel) a.mem_all b.mem_all h

theorem Punctuator.name_inj {a b : Punctuator} (h : a.name = b.name) : a = b :=
  List.inj_on_of_nodup_map (by decide +kernel) a.mem_byLength b.mem_byLength h

theorem BinaryOperator.name_inj {a b : BinaryOperator} (h : a.name = b.name) : a = b :=
  eq_of_name_eq (OperatorLevel.all.flatMap (·.operators)) (fun o => by cases o <;> rfl)
    (by decide +kernel) h

theorem UnaryOperator.name_inj {a b : UnaryOperator} (h : a.name = b.name) : a = b :=
  eq_of_name_eq [not, invert, negate] (fun o => by cases o <;> rfl) (by decide) h

theorem AssignmentOperator.name_inj {a b : AssignmentOperator} (h : a.name = b.name) : a = b :=
  eq_of_name_eq
    [assign, addAssign, subtractAssign, multiplyAssign, divideAssign, moduloAssign, powerAssign,
      bitAndAssign, bitOrAssign, bitXorAssign, shiftLeftAssign, shiftRightAssign]
    (fun o => by cases o <;> rfl) (by decide) h

/-! ### Tokens -/

theorem Position.legible (p : Position) : Legible Position.datum p := by
  intro q h
  obtain ⟨line, column, offset⟩ := p
  obtain ⟨line', column', offset'⟩ := q
  simp only [Position.datum, Datum.record_inj, Datum.fields_inj, Datum.natural_inj, and_true] at h
  rw [h.1, h.2.1, h.2.2]

theorem NumberLiteral.legible (n : NumberLiteral) : Legible NumberLiteral.datum n := by
  intro m h
  obtain ⟨text, base⟩ := n
  obtain ⟨text', base'⟩ := m
  simp only [NumberLiteral.datum, Datum.record_inj, Datum.fields_inj, Datum.text_inj,
    Datum.variant_inj, and_true] at h
  rw [h.1, NumberBase.name_inj h.2]

theorem Token.legible (t : Token) : Legible Token.datum t := by
  intro u h
  have hctor : t.ctorIdx = u.ctorIdx :=
    ctorIdx_eq_of_json ["Identifier", "Keyword", "String", "Number", "Punctuator", "Newline", "EOF"]
      (fun t => by cases t <;> rfl) (by decide) h
  cases t with
  | identifier name | string name =>
    cases u <;> cases hctor
    rw [Datum.text_inj.1 (Datum.tagged_inj.1 h)]
  | keyword word =>
    cases u <;> cases hctor
    rw [Keyword.name_inj (Datum.variant_inj.1 (Datum.tagged_inj.1 h))]
  | number literal =>
    cases u <;> cases hctor
    rw [literal.legible _ (Datum.tagged_inj.1 h)]
  | punctuator mark =>
    cases u <;> cases hctor
    rw [Punctuator.name_inj (Datum.variant_inj.1 (Datum.tagged_inj.1 h))]
  | newline | endOfInput =>
    cases u <;> cases hctor
    rfl

theorem PlacedToken.legible (t : PlacedToken) : Legible PlacedToken.datum t := by
  intro u h
  obtain ⟨token, position⟩ := t
  obtain ⟨token', position'⟩ := u
  simp only [PlacedToken.datum, Datum.record_inj, Datum.fields_inj, and_true] at h
  rw [token.legible _ h.1, position.legible _ h.2]

/-! ### What contains no nodes -/

theorem Literal.legible (l : Literal) : Legible Literal.datum l := by
  intro m h
  have hctor : l.ctorIdx = m.ctorIdx := ctorIdx_eq_of_json ["String", "Number", "Boolean", "None"]
    (fun l => by cases l <;> rfl) (by decide) h
  cases l with
  | string value =>
    cases m <;> cases hctor
    rw [Datum.text_inj.1 (Datum.tagged_inj.1 h)]
  | number literal =>
    cases m <;> cases hctor
    rw [literal.legible _ (Datum.tagged_inj.1 h)]
  | boolean value =>
    cases m <;> cases hctor
    rw [Datum.boolean_inj.1 (Datum.tagged_inj.1 h)]
  | none =>
    cases m <;> cases hctor
    rfl

theorem TypeHint.data_eq_map (ts : List TypeHint) : TypeHint.data ts = ts.map TypeHint.datum := by
  induction ts with
  | nil => rfl
  | cons t ts ih => rw [TypeHint.data, ih, List.map_cons]

mutual

theorem TypeHint.legible (t : TypeHint) : Legible TypeHint.datum t := by
  intro u h
  obtain ⟨name, parameters, position⟩ := t
  obtain ⟨name', parameters', position'⟩ := u
  simp only [TypeHint.datum, TypeHint.data_eq_map, Datum.record_inj, Datum.fields_inj,
    Datum.text_inj, and_true] at h
  rw [h.1, Legible.ofList (TypeHint.legible_all parameters) h.2.1, position.legible _ h.2.2]

theorem TypeHint.legible_all (ts : List TypeHint) : ∀ t ∈ ts, Legible TypeHint.datum t := by
  cases ts with
  | nil => exact List.forall_mem_nil _
  | cons t ts => exact List.forall_mem_cons.2 ⟨t.legible, TypeHint.legible_all ts⟩

end

theorem TypeHint.json_ne_null (t : TypeHint) : t.datum.json ≠ .null := by
  obtain ⟨name, parameters, position⟩ := t
  intro h
  cases h

theorem Target.legible (t : Target) : Legible Target.datum t := by
  intro u h
  obtain ⟨modifier, hint, name, position⟩ := t
  obtain ⟨modifier', hint', name', position'⟩ := u
  simp only [Target.datum, Datum.record_inj, Datum.fields_inj, Datum.text_inj, and_true] at h
  have hmodifier := Legible.ofOption
    (fun m _ n hmn => TargetModifier.name_inj (Datum.variant_inj.1 hmn))
    (fun m hm => by cases hm) h.1
  have hhint := Legible.ofOption (fun t _ => t.legible) TypeHint.json_ne_null h.2.1
  rw [hmodifier, hhint, h.2.2.1, position.legible _ h.2.2.2]

theorem Declaration.legible (d : Declaration) : Legible Declaration.datum d := by
  intro e h
  obtain ⟨constant, hint, name⟩ := d
  obtain ⟨constant', hint', name'⟩ := e
  simp only [Declaration.datum, Datum.record_inj, Datum.fields_inj, Datum.boolean_inj,
    Datum.text_inj, and_true] at h
  rw [h.1, hint.legible _ h.2.1, h.2.2]

theorem PositionalParameter.legible (p : PositionalParameter) :
    Legible PositionalParameter.datum p := by
  intro q h
  obtain ⟨hint, variadic, name⟩ := p
  obtain ⟨hint', variadic', name'⟩ := q
  simp only [PositionalParameter.datum, Datum.record_inj, Datum.fields_inj, Datum.boolean_inj,
    Datum.text_inj, and_true] at h
  rw [hint.legible _ h.1, h.2.1, h.2.2]

theorem EnumMember.legible (m : EnumMember) : Legible EnumMember.datum m := by
  intro n h
  obtain ⟨name, value, position⟩ := m
  obtain ⟨name', value', position'⟩ := n
  simp only [EnumMember.datum, Datum.record_inj, Datum.fields_inj, Datum.text_inj, and_true] at h
  have hvalue := Legible.ofOption (fun v _ => v.legible) (fun v hv => by cases hv) h.2.1
  rw [h.1, hvalue, position.legible _ h.2.2]

/-! ### Nodes -/

theorem Node.data_eq_map (ns : List Node) : Node.data ns = ns.map Node.datum := by
  induction ns with
  | nil => rfl
  | cons n ns ih => rw [Node.data, ih, List.map_cons]

theorem Pair.data_eq_map (ps : List Pair) : Pair.data ps = ps.map Pair.datum := by
  induction ps with
  | nil => rfl
  | cons p ps ih => rw [Pair.data, ih, List.map_cons]

theorem Trailer.data_eq_map (ts : List Trailer) : Trailer.data ts = ts.map Trailer.datum := by
  induction ts with
  | nil => rfl
  | cons t ts ih => rw [Trailer.data, ih, List.map_cons]

theorem KeywordArgument.data_eq_map (as : List KeywordArgument) :
    KeywordArgument.data as = as.map KeywordArgument.datum := by
  induction as with
  | nil => rfl
  | cons a as ih => rw [KeywordArgument.data, ih, List.map_cons]

theorem KeywordParameter.data_eq_map (ps : List KeywordParameter) :
    KeywordParameter.data ps = ps.map KeywordParameter.datum := by
  induction ps with
  | nil => rfl
  | cons p ps ih => rw [KeywordParameter.data, ih, List.map_cons]

theorem CatchClause.data_eq_map (cs : List CatchClause) :
    CatchClause.data cs = cs.map CatchClause.datum := by
  induction cs with
  | nil => rfl
  | cons c cs ih => rw [CatchClause.data, ih, List.map_cons]

theorem Node.optionalDatum_eq (o : Option Node) :
    Node.optionalDatum o = .ofOption Node.datum o := by
  cases o with
  | none => rfl
  | some n => rfl

/-- A node that may be missing is never `null` when it is there. -/
theorem Node.json_ne_null (n : Node) : n.datum.json ≠ .null := by
  obtain ⟨kind, position⟩ := n
  intro h
  cases h

/-- The names of the kinds of expression, one for each constructor. -/
def NodeKind.names : List String :=
  ["Literal", "Identifier", "Declaration", "Assignment", "BinaryOp", "UnaryOp", "Primary",
    "Lambda", "If", "Case", "Try", "For", "While", "Iter", "Do", "Object", "Module", "Exception",
    "Enum", "Mutable", "Throw", "Return", "Yield", "YieldFrom", "Break", "Continue", "Pass",
    "Mapping", "List", "Tuple", "Block"]

theorem NodeKind.ctorIdx_eq_of_json {a b : NodeKind} (h : a.datum.json = b.datum.json) :
    a.ctorIdx = b.ctorIdx :=
  DrakeSyntax.ctorIdx_eq_of_json names (fun k => by cases k <;> rfl) (by decide +kernel) h

theorem Pair.legible {p : Pair} (hp : ∀ n ∈ p.nodes, Legible Node.datum n) :
    Legible Pair.datum p := by
  intro q h
  obtain ⟨key, value⟩ := p
  obtain ⟨key', value'⟩ := q
  simp only [Pair.datum, Datum.record_inj, Datum.fields_inj, and_true] at h
  rw [hp key (.head _) _ h.1, hp value (.tail _ (.head _)) _ h.2]

theorem KeywordArgument.legible {a : KeywordArgument} (ha : Legible Node.datum a.value) :
    Legible KeywordArgument.datum a := by
  intro b h
  obtain ⟨name, value⟩ := a
  obtain ⟨name', value'⟩ := b
  simp only [KeywordArgument.datum, Datum.record_inj, Datum.fields_inj, Datum.text_inj,
    and_true] at h
  rw [h.1, show value = value' from ha _ h.2]

theorem Trailer.legible {t : Trailer} (ht : ∀ n ∈ t.nodes, Legible Node.datum n) :
    Legible Trailer.datum t := by
  intro u h
  have hctor : t.ctorIdx = u.ctorIdx := ctorIdx_eq_of_json ["Attribute", "Call", "Index"]
    (fun t => by cases t <;> rfl) (by decide) h
  cases t <;> cases u <;> cases hctor
  · rw [Datum.text_inj.1 (Datum.tagged_inj.1 h)]
  · obtain ⟨hpositional, hkeyword⟩ := List.forall_mem_append.1 ht
    simp only [Trailer.datum, Node.data_eq_map, KeywordArgument.data_eq_map,
      Datum.taggedRecord_inj, Datum.fields_inj, and_true] at h
    have hnamed : ∀ a ∈ _, Legible KeywordArgument.datum a := fun a ha =>
      KeywordArgument.legible (List.forall_mem_map.1 hkeyword a ha)
    rw [Legible.ofList hpositional h.1, Legible.ofList hnamed h.2]
  · rw [ht _ (.head _) _ (Datum.tagged_inj.1 h)]

theorem KeywordParameterKind.legible {k : KeywordParameterKind}
    (hk : ∀ n ∈ k.nodes, Legible Node.datum n) : Legible KeywordParameterKind.datum k := by
  intro k' h
  have hctor : k.ctorIdx = k'.ctorIdx := ctorIdx_eq_of_json ["Required", "Default", "Collector"]
    (fun k => by cases k <;> rfl) (by decide) h
  cases k with
  | default value =>
    cases k' <;> cases hctor
    rw [hk value (.head _) _ (Datum.tagged_inj.1 h)]
  | required | collector =>
    cases k' <;> cases hctor
    rfl

theorem KeywordParameter.legible {p : KeywordParameter}
    (hp : ∀ n ∈ p.kind.nodes, Legible Node.datum n) : Legible KeywordParameter.datum p := by
  intro q h
  obtain ⟨hint, name, kind⟩ := p
  obtain ⟨hint', name', kind'⟩ := q
  simp only [KeywordParameter.datum, Datum.record_inj, Datum.fields_inj, Datum.text_inj,
    and_true] at h
  rw [hint.legible _ h.1, h.2.1, show kind = kind' from KeywordParameterKind.legible hp _ h.2.2]

theorem CatchClause.legible {c : CatchClause} (hc : Legible Node.datum c.handler) :
    Legible CatchClause.datum c := by
  intro d h
  obtain ⟨exceptionType, binding, handler, position⟩ := c
  obtain ⟨exceptionType', binding', handler', position'⟩ := d
  simp only [CatchClause.datum, Datum.record_inj, Datum.fields_inj, Datum.text_inj,
    and_true] at h
  have hbinding := Legible.ofOption (fun s _ t hst => Datum.text_inj.1 hst)
    (fun s hs => by cases hs) h.2.1
  have hhandler : handler = handler' := hc _ h.2.2.1
  rw [h.1, hbinding, hhandler, position.legible _ h.2.2.2]

theorem ListLiteral.legible {l : ListLiteral} (hl : ∀ n ∈ l.nodes, Legible Node.datum n) :
    Legible ListLiteral.datum l := by
  intro m h
  have hctor : l.ctorIdx = m.ctorIdx := ctorIdx_eq_of_json ["Items", "Range"]
    (fun l => by cases l <;> rfl) (by decide) h
  cases l with
  | items ns =>
    cases m <;> cases hctor
    simp only [ListLiteral.datum, Node.data_eq_map, Datum.tagged_inj] at h
    rw [show ns = _ from Legible.ofList hl h]
  | range start stop step =>
    cases m <;> cases hctor
    obtain ⟨hstart, hrest⟩ := List.forall_mem_cons.1 hl
    obtain ⟨hstop, hstep⟩ := List.forall_mem_append.1 hrest
    simp only [ListLiteral.datum, Node.optionalDatum_eq, Datum.taggedRecord_inj, Datum.fields_inj,
      and_true] at h
    rw [hstart _ h.1, Legible.ofOption hstop Node.json_ne_null h.2.1,
      Legible.ofOption hstep Node.json_ne_null h.2.2]

theorem NodeKind.legible {a : NodeKind} (ha : ∀ n ∈ a.children, Legible Node.datum n) :
    Legible NodeKind.datum a := by
  intro b h
  have hctor := NodeKind.ctorIdx_eq_of_json h
  cases a with
  | literal value =>
    cases b <;> cases hctor
    rw [value.legible _ (Datum.tagged_inj.1 h)]
  | identifier name =>
    cases b <;> cases hctor
    rw [Datum.text_inj.1 (Datum.tagged_inj.1 h)]
  | declaration value =>
    cases b <;> cases hctor
    rw [value.legible _ (Datum.tagged_inj.1 h)]
  | assignment targets operator value =>
    cases b <;> cases hctor
    simp only [NodeKind.datum, Datum.taggedRecord_inj, Datum.fields_inj, Datum.variant_inj,
      and_true] at h
    rw [Legible.ofList (fun t _ => t.legible) h.1, AssignmentOperator.name_inj h.2.1,
      ha value (.head _) _ h.2.2]
  | binary operator operands =>
    cases b <;> cases hctor
    simp only [NodeKind.datum, Node.data_eq_map, Datum.taggedRecord_inj, Datum.fields_inj,
      Datum.variant_inj, and_true] at h
    rw [BinaryOperator.name_inj h.1, show operands = _ from Legible.ofList ha h.2]
  | unary operator operand =>
    cases b <;> cases hctor
    simp only [NodeKind.datum, Datum.taggedRecord_inj, Datum.fields_inj, Datum.variant_inj,
      and_true] at h
    rw [UnaryOperator.name_inj h.1, ha operand (.head _) _ h.2]
  | primary base trailers =>
    cases b <;> cases hctor
    obtain ⟨hbase, htrailers⟩ := List.forall_mem_cons.1 ha
    simp only [NodeKind.datum, Trailer.data_eq_map, Datum.taggedRecord_inj, Datum.fields_inj,
      and_true] at h
    rw [hbase _ h.1, Legible.ofList
      (fun t ht => Trailer.legible (List.forall_mem_flatMap.1 htrailers t ht)) h.2]
  | lambda positional keyword body =>
    cases b <;> cases hctor
    obtain ⟨hkeyword, hbody⟩ := List.forall_mem_append.1 ha
    simp only [NodeKind.datum, KeywordParameter.data_eq_map, Datum.tagged_inj, Datum.record_inj,
      Datum.fields_inj, and_true] at h
    rw [Legible.ofList (fun p _ => p.legible) h.1, Legible.ofList
      (fun p hp => KeywordParameter.legible (List.forall_mem_flatMap.1 hkeyword p hp)) h.2.1,
      hbody body (.head _) _ h.2.2]
  | conditional condition consequence otherwise =>
    cases b <;> cases hctor
    obtain ⟨hcondition, hrest⟩ := List.forall_mem_cons.1 ha
    obtain ⟨hconsequence, hotherwise⟩ := List.forall_mem_cons.1 hrest
    simp only [NodeKind.datum, Node.optionalDatum_eq, Datum.taggedRecord_inj, Datum.fields_inj,
      and_true] at h
    rw [hcondition _ h.1, hconsequence _ h.2.1,
      Legible.ofOption hotherwise Node.json_ne_null h.2.2]
  | case subject branches otherwise =>
    cases b <;> cases hctor
    obtain ⟨hsubject, hrest⟩ := List.forall_mem_cons.1 ha
    obtain ⟨hbranches, hotherwise⟩ := List.forall_mem_append.1 hrest
    simp only [NodeKind.datum, Pair.data_eq_map, Node.optionalDatum_eq, Datum.taggedRecord_inj,
      Datum.fields_inj, and_true] at h
    rw [hsubject _ h.1, Legible.ofList
      (fun p hp => Pair.legible (List.forall_mem_flatMap.1 hbranches p hp)) h.2.1,
      Legible.ofOption hotherwise Node.json_ne_null h.2.2]
  | try_ body handlers cleanup =>
    cases b <;> cases hctor
    obtain ⟨hbody, hrest⟩ := List.forall_mem_cons.1 ha
    obtain ⟨hhandlers, hcleanup⟩ := List.forall_mem_append.1 hrest
    simp only [NodeKind.datum, CatchClause.data_eq_map, Node.optionalDatum_eq,
      Datum.taggedRecord_inj, Datum.fields_inj, and_true] at h
    rw [hbody _ h.1, Legible.ofList
      (fun c hc => CatchClause.legible (List.forall_mem_map.1 hhandlers c hc)) h.2.1,
      Legible.ofOption hcleanup Node.json_ne_null h.2.2]
  | for_ targets iterable body =>
    cases b <;> cases hctor
    simp only [NodeKind.datum, Datum.taggedRecord_inj, Datum.fields_inj, and_true] at h
    rw [Legible.ofList (fun t _ => t.legible) h.1, ha iterable (.head _) _ h.2.1,
      ha body (.tail _ (.head _)) _ h.2.2]
  | while_ condition body =>
    cases b <;> cases hctor
    simp only [NodeKind.datum, Datum.taggedRecord_inj, Datum.fields_inj, and_true] at h
    rw [ha condition (.head _) _ h.1, ha body (.tail _ (.head _)) _ h.2]
  | enum flags members =>
    cases b <;> cases hctor
    simp only [NodeKind.datum, Datum.taggedRecord_inj, Datum.fields_inj, Datum.boolean_inj,
      and_true] at h
    rw [h.1, Legible.ofList (fun m _ => m.legible) h.2]
  | iter n | mutable n | throw n | yieldFrom n =>
    cases b <;> cases hctor
    rw [ha n (.head _) _ (Datum.tagged_inj.1 h)]
  | do_ items | object items | module_ items | exception items | tuple items | block items =>
    cases b <;> cases hctor
    simp only [NodeKind.datum, Node.data_eq_map, Datum.tagged_inj] at h
    rw [show items = _ from Legible.ofList ha h]
  | return_ value | yield value =>
    cases b <;> cases hctor
    simp only [NodeKind.datum, Node.optionalDatum_eq, Datum.tagged_inj] at h
    rw [show value = _ from Legible.ofOption ha Node.json_ne_null h]
  | mapping pairs =>
    cases b <;> cases hctor
    simp only [NodeKind.datum, Pair.data_eq_map, Datum.tagged_inj] at h
    rw [Legible.ofList (fun p hp => Pair.legible (List.forall_mem_flatMap.1 ha p hp)) h]
  | list content =>
    cases b <;> cases hctor
    rw [show content = _ from ListLiteral.legible ha _ (Datum.tagged_inj.1 h)]
  | break_ | continue_ | pass =>
    cases b <;> cases hctor
    rfl

/-- **A node can be read off its JSON**: all of its parts stand in it, and the kind of an
expression stands in front of its parts. -/
theorem Node.legible (n : Node) : Legible Node.datum n := by
  induction n using Node.induction with
  | node kind position ih =>
    rintro ⟨kind', position'⟩ h
    simp only [Node.datum, Datum.record_inj, Datum.fields_inj, and_true] at h
    rw [NodeKind.legible ih _ h.1, position.legible _ h.2]

theorem Program.legible (p : Program) : Legible Program.datum p := by
  intro q h
  obtain ⟨body⟩ := p
  obtain ⟨body'⟩ := q
  simp only [Program.datum, Node.data_eq_map, Datum.record_inj, Datum.fields_inj, and_true] at h
  rw [Legible.ofList (fun n _ => n.legible) h]

/-! ### Texts -/

theorem placedTokens_inj {ts us : List PlacedToken} :
    (Datum.ofList PlacedToken.datum ts).json = (Datum.ofList PlacedToken.datum us).json ↔
      ts = us :=
  ⟨Legible.ofList fun t _ => t.legible, fun h => by rw [h]⟩

/-- **JSON loses nothing**: programs with one JSON text are identical, positions included, and so
are tokens. This holds of the compact text and of the pretty one, which is what is rendered. -/
theorem json_text_inj (p q : Program) (ts us : List PlacedToken) :
    (p.datum.json.compact = q.datum.json.compact ↔ p = q) ∧
      (p.render .json = q.render .json ↔ p = q) ∧
      ((Datum.ofList PlacedToken.datum ts).json.compact =
        (Datum.ofList PlacedToken.datum us).json.compact ↔ ts = us) ∧
      (renderTokens ts .json = renderTokens us .json ↔ ts = us) := by
  have hprogram : p.datum.json = q.datum.json ↔ p = q :=
    ⟨p.legible q, fun h => by rw [h]⟩
  refine ⟨?_, ?_, ?_, ?_⟩
  · rw [Json.compact_inj, hprogram]
  · rw [Program.render, Program.render, Json.pretty_inj, hprogram]
  · rw [Json.compact_inj, placedTokens_inj]
  · rw [renderTokens, renderTokens, Json.pretty_inj, placedTokens_inj]

end DrakeSyntax
