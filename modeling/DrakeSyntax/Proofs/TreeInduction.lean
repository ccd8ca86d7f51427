import DrakeSyntax.Proofs.WellFormed

/-!
# Induction on trees

A node is larger than the nodes directly inside it (`NodeKind.sizeOf_lt`), so what a node inherits
from them holds of every node (`Node.induction`). Between a node and the nodes directly inside it
there may be lists, optional nodes, pairs, trailers, parameters and handlers.
-/

namespace DrakeSyntax

variable {n : Node}

/-! ### What stands between two nodes -/

theorem sizeOf_lt_of_mem_toList {o : Option Node} (h : n ∈ o.toList) : sizeOf n < sizeOf o := by
  obtain rfl := Option.mem_toList.1 h
  simp

theorem Pair.sizeOf_lt {p : Pair} (h : n ∈ p.nodes) : sizeOf n < sizeOf p := by
  obtain ⟨key, value⟩ := p
  simp only [nodes, List.mem_cons, List.not_mem_nil, or_false] at h
  rcases h with rfl | rfl
  all_goals
    simp only [mk.sizeOf_spec]
    omega

theorem Trailer.sizeOf_lt {t : Trailer} (h : n ∈ t.nodes) : sizeOf n < sizeOf t := by
  cases t <;> simp only [nodes, List.not_mem_nil, List.mem_append, List.mem_map,
    List.mem_singleton] at h
  · rcases h with h | ⟨a, ha, rfl⟩
    · have := List.sizeOf_lt_of_mem h
      simp only [call.sizeOf_spec]
      omega
    · have := List.sizeOf_lt_of_mem ha
      obtain ⟨name, value⟩ := a
      simp only [call.sizeOf_spec, KeywordArgument.mk.sizeOf_spec] at this ⊢
      omega
  · subst h
    simp

theorem KeywordParameter.sizeOf_lt {p : KeywordParameter} (h : n ∈ p.kind.nodes) :
    sizeOf n < sizeOf p := by
  obtain ⟨hint, name, kind⟩ := p
  cases kind <;> simp only [KeywordParameterKind.nodes, List.not_mem_nil, List.mem_singleton] at h
  subst h
  simp only [mk.sizeOf_spec, KeywordParameterKind.default.sizeOf_spec]
  omega

theorem ListLiteral.sizeOf_lt {l : ListLiteral} (h : n ∈ l.nodes) : sizeOf n < sizeOf l := by
  cases l <;> simp only [nodes, List.mem_cons, List.mem_append] at h
  · have := List.sizeOf_lt_of_mem h
    simp only [items.sizeOf_spec]
    omega
  · rcases h with rfl | h | h
    · simp only [range.sizeOf_spec]
      omega
    all_goals
      have := sizeOf_lt_of_mem_toList h
      simp only [range.sizeOf_spec]
      omega

theorem sizeOf_lt_of_mem_flatMap {α : Type} [SizeOf α] {f : α → List Node} {as : List α}
    (h : n ∈ as.flatMap f) (hf : ∀ {a}, n ∈ f a → sizeOf n < sizeOf a) : sizeOf n < sizeOf as := by
  obtain ⟨a, ha, hn⟩ := List.mem_flatMap.1 h
  exact Nat.lt_trans (hf hn) (List.sizeOf_lt_of_mem ha)

theorem CatchClause.sizeOf_lt {cs : List CatchClause} (h : n ∈ cs.map (·.handler)) :
    sizeOf n < sizeOf cs := by
  obtain ⟨c, hc, rfl⟩ := List.mem_map.1 h
  have hlt := List.sizeOf_lt_of_mem hc
  obtain ⟨exceptionType, binding, handler, position⟩ := c
  simp only [mk.sizeOf_spec] at hlt ⊢
  omega

/-! ### Nodes -/

/-- A node directly inside another one is smaller. -/
theorem NodeKind.sizeOf_lt {kind : NodeKind} (h : n ∈ kind.children) : sizeOf n < sizeOf kind := by
  cases kind with
  | literal | identifier | declaration | enum | break_ | continue_ | pass => cases h
  | assignment | unary | iter | mutable | throw | yieldFrom =>
    obtain rfl := List.mem_singleton.1 h
    simp +arith
  | binary | do_ | object | module_ | exception | tuple | block =>
    simp only [children] at h
    have := List.sizeOf_lt_of_mem h
    simp only [binary.sizeOf_spec, do_.sizeOf_spec, object.sizeOf_spec, module_.sizeOf_spec,
      exception.sizeOf_spec, tuple.sizeOf_spec, block.sizeOf_spec]
    omega
  | return_ | yield =>
    have := sizeOf_lt_of_mem_toList h
    simp only [return_.sizeOf_spec, yield.sizeOf_spec]
    omega
  | for_ | while_ =>
    simp only [children, List.mem_cons, List.not_mem_nil, or_false] at h
    rcases h with rfl | rfl
    all_goals simp +arith
  | primary =>
    rcases List.mem_cons.1 h with rfl | h
    · simp +arith
    · have := sizeOf_lt_of_mem_flatMap h Trailer.sizeOf_lt
      simp only [primary.sizeOf_spec]
      omega
  | lambda =>
    rcases List.mem_append.1 h with h | h
    · have := sizeOf_lt_of_mem_flatMap h KeywordParameter.sizeOf_lt
      simp only [lambda.sizeOf_spec]
      omega
    · obtain rfl := List.mem_singleton.1 h
      simp +arith
  | conditional =>
    rcases List.mem_cons.1 h with rfl | h
    · simp +arith
    rcases List.mem_cons.1 h with rfl | h
    · simp +arith
    · have := sizeOf_lt_of_mem_toList h
      simp only [conditional.sizeOf_spec]
      omega
  | case =>
    rcases List.mem_cons.1 h with rfl | h
    · simp +arith
    rcases List.mem_append.1 h with h | h
    · have := sizeOf_lt_of_mem_flatMap h Pair.sizeOf_lt
      simp only [case.sizeOf_spec]
      omega
    · have := sizeOf_lt_of_mem_toList h
      simp only [case.sizeOf_spec]
      omega
  | try_ =>
    rcases List.mem_cons.1 h with rfl | h
    · simp +arith
    rcases List.mem_append.1 h with h | h
    · have := CatchClause.sizeOf_lt h
      simp only [try_.sizeOf_spec]
      omega
    · have := sizeOf_lt_of_mem_toList h
      simp only [try_.sizeOf_spec]
      omega
  | mapping =>
    have := sizeOf_lt_of_mem_flatMap h Pair.sizeOf_lt
    simp only [mapping.sizeOf_spec]
    omega
  | list =>
    have := ListLiteral.sizeOf_lt h
    simp only [list.sizeOf_spec]
    omega

/-- **Induction on nodes**: what holds of a node if it holds of all nodes directly inside it holds
of every node. -/
@[elab_as_elim]
theorem Node.induction {motive : Node → Prop}
    (node : ∀ kind position, (∀ c ∈ kind.children, motive c) → motive ⟨kind, position⟩)
    (n : Node) : motive n := by
  obtain ⟨kind, position⟩ := n
  refine node kind position fun c hc => ?_
  have hlt := NodeKind.sizeOf_lt hc
  exact Node.induction node c
termination_by sizeOf n
decreasing_by
  simp only [mk.sizeOf_spec]
  omega

end DrakeSyntax
