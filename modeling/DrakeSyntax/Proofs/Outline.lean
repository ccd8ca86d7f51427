import DrakeSyntax.Proofs.WellFormed

/-!
# Trees along their tokens

A tree is visited from front to back, each node before what is inside it. What is met on the way are
the positions of the tree (`Node.positions`). They are followed along tokens: the outline of what
was read so far is a list of marks, places and whole nodes, and it runs along the tokens if the
places are those of some of the tokens in the same order (`Along`).

* `NodeKind.marks`: what is met behind the place of a node, whose nodes are those directly inside
  (`NodeKind.markedNodes_marks`).
* `Along.append`: tokens and outlines are put together piece by piece.
* `Along.node`: a node is the place where it begins and its outline behind that.
-/

namespace DrakeSyntax

/-! ### The positions of a tree -/

mutual

/-- The positions of a type and of its parameters. -/
def TypeHint.positions : TypeHint → List Position
  | ⟨_, parameters, position⟩ => position :: TypeHint.positionsAll parameters

/-- The positions of the types of a list. -/
def TypeHint.positionsAll : List TypeHint → List Position
  | [] => []
  | t :: ts => t.positions ++ TypeHint.positionsAll ts

end

/-- The positions of a target and of its type. -/
def Target.positions (t : Target) : List Position :=
  t.position :: t.typeHint.toList.flatMap TypeHint.positions

mutual

/-- The positions of a node and of all that is inside it, as they are met from front to back. -/
def Node.positions : Node → List Position
  | ⟨kind, position⟩ => position :: kind.positions

/-- The positions inside an expression. -/
def NodeKind.positions : NodeKind → List Position
  | .literal _ | .identifier _ | .break_ | .continue_ | .pass => []
  | .declaration value => value.typeHint.positions
  | .assignment targets _ value => targets.flatMap Target.positions ++ value.positions
  | .binary _ operands => Node.positionsAll operands
  | .unary _ operand => operand.positions
  | .primary base trailers => base.positions ++ Trailer.positionsAll trailers
  | .lambda positional keyword body =>
    positional.flatMap (·.typeHint.positions) ++ KeywordParameter.positionsAll keyword
      ++ body.positions
  | .conditional condition consequence otherwise =>
    condition.positions ++ consequence.positions ++ Node.positionsOptional otherwise
  | .case subject branches otherwise =>
    subject.positions ++ Pair.positionsAll branches ++ Node.positionsOptional otherwise
  | .try_ body handlers cleanup =>
    body.positions ++ CatchClause.positionsAll handlers ++ Node.positionsOptional cleanup
  | .for_ targets iterable body =>
    targets.flatMap Target.positions ++ iterable.positions ++ body.positions
  | .while_ condition body => condition.positions ++ body.positions
  | .iter operand | .mutable operand => operand.positions
  | .do_ items | .object items | .module_ items | .exception items => Node.positionsAll items
  | .enum _ members => members.map (·.position)
  | .throw value | .yieldFrom value => value.positions
  | .return_ value | .yield value => Node.positionsOptional value
  | .mapping pairs => Pair.positionsAll pairs
  | .list content => content.positions
  | .tuple items | .block items => Node.positionsAll items

/-- The positions of the nodes of a list. -/
def Node.positionsAll : List Node → List Position
  | [] => []
  | n :: ns => n.positions ++ Node.positionsAll ns

/-- The positions of a node, if there is one. -/
def Node.positionsOptional : Option Node → List Position
  | none => []
  | some n => n.positions

/-- The positions of a key and its value. -/
def Pair.positions : Pair → List Position
  | ⟨key, value⟩ => key.positions ++ value.positions

/-- The positions of the pairs of a list. -/
def Pair.positionsAll : List Pair → List Position
  | [] => []
  | p :: ps => p.positions ++ Pair.positionsAll ps

/-- The positions in arguments or in an index. -/
def Trailer.positions : Trailer → List Position
  | .attribute _ => []
  | .call positional keyword =>
    Node.positionsAll positional ++ KeywordArgument.positionsAll keyword
  | .index operand => operand.positions

/-- The positions of the trailers of a list. -/
def Trailer.positionsAll : List Trailer → List Position
  | [] => []
  | t :: ts => t.positions ++ Trailer.positionsAll ts

/-- The positions of the value of an argument. -/
def KeywordArgument.positions : KeywordArgument → List Position
  | ⟨_, value⟩ => value.positions

/-- The positions of the named arguments of a list. -/
def KeywordArgument.positionsAll : List KeywordArgument → List Position
  | [] => []
  | a :: as => a.positions ++ KeywordArgument.positionsAll as

/-- The positions of the type of a parameter and of its default value. -/
def KeywordParameter.positions : KeywordParameter → List Position
  | ⟨typeHint, _, kind⟩ => typeHint.positions ++ kind.positions

/-- The positions of the named parameters of a list. -/
def KeywordParameter.positionsAll : List KeywordParameter → List Position
  | [] => []
  | p :: ps => p.positions ++ KeywordParameter.positionsAll ps

/-- The positions of a default value. -/
def KeywordParameterKind.positions : KeywordParameterKind → List Position
  | .required | .collector => []
  | .default value => value.positions

/-- The positions of a catch clause and of its handler. -/
def CatchClause.positions : CatchClause → List Position
  | ⟨_, _, handler, position⟩ => position :: handler.positions

/-- The positions of the catch clauses of a list. -/
def CatchClause.positionsAll : List CatchClause → List Position
  | [] => []
  | c :: cs => c.positions ++ CatchClause.positionsAll cs

/-- The positions between brackets. -/
def ListLiteral.positions : ListLiteral → List Position
  | .items items => Node.positionsAll items
  | .range start stop step =>
    start.positions ++ Node.positionsOptional stop ++ Node.positionsOptional step

end

/-- The positions of a program, as they are met from front to back. -/
def Program.positions (p : Program) : List Position := p.body.flatMap Node.positions

/-! ### Outlines -/

/-- What an outline of a tree is made of: the place where something begins, or a whole node. -/
inductive Mark where
  | place (position : Position)
  | node (n : Node)

/-- The positions that a mark stands for. -/
def Mark.positions : Mark → List Position
  | place position => [position]
  | node n => n.positions

@[simp]
theorem Mark.positions_place (p : Position) : (place p).positions = [p] := rfl

@[simp]
theorem Mark.positions_node (n : Node) : (node n).positions = n.positions := rfl

/-- The node that a mark is. -/
def Mark.node? : Mark → Option Node
  | place _ => none
  | node n => some n

/-- A node is one mark. -/
def Node.mark (n : Node) : List Mark := [.node n]

/-- The marks of a type are places. -/
def TypeHint.marks (t : TypeHint) : List Mark := t.positions.map .place

/-- The marks of a target are places. -/
def Target.marks (t : Target) : List Mark := t.positions.map .place

/-- The marks of a positional parameter are those of its type. -/
def PositionalParameter.marks (p : PositionalParameter) : List Mark := p.typeHint.marks

/-- The marks of a named parameter are those of its type and its default value. -/
def KeywordParameter.marks (p : KeywordParameter) : List Mark :=
  p.typeHint.marks ++ p.kind.nodes.map .node

/-- A member of an enumeration is a place. -/
def EnumMember.marks (m : EnumMember) : List Mark := [.place m.position]

/-- A catch clause has a place in front of its handler. -/
def CatchClause.marks (c : CatchClause) : List Mark := [.place c.position, .node c.handler]

/-- The only mark of an argument is its value. -/
def KeywordArgument.marks (a : KeywordArgument) : List Mark := [.node a.value]

/-- The marks of a pair are its two nodes. -/
def Pair.marks (p : Pair) : List Mark := p.nodes.map .node

/-- The marks of a trailer are its nodes. -/
def Trailer.marks (t : Trailer) : List Mark := t.nodes.map .node

/-- The outline of an expression behind its own place. -/
def NodeKind.marks : NodeKind → List Mark
  | .declaration value => value.typeHint.marks
  | .assignment targets _ value => targets.flatMap Target.marks ++ [.node value]
  | .lambda positional keyword body =>
    positional.flatMap PositionalParameter.marks ++ keyword.flatMap KeywordParameter.marks
      ++ [.node body]
  | .try_ body handlers cleanup =>
    .node body :: (handlers.flatMap CatchClause.marks ++ cleanup.toList.map .node)
  | .for_ targets iterable body =>
    targets.flatMap Target.marks ++ [.node iterable, .node body]
  | .enum _ members => members.flatMap EnumMember.marks
  | kind => kind.children.map .node

/-- The positions that an outline stands for. -/
def markedPositions (ms : List Mark) : List Position := ms.flatMap Mark.positions

/-- The nodes of an outline. -/
def markedNodes (ms : List Mark) : List Node := ms.filterMap Mark.node?

section Marks

variable (ms ms' : List Mark)

@[simp]
theorem Node.mark_eq (n : Node) : n.mark = [.node n] := rfl

@[simp]
theorem flatMap_mark (ns : List Node) : ns.flatMap Node.mark = ns.map .node :=
  List.map_eq_flatMap.symm

@[simp]
theorem markedPositions_nil : markedPositions [] = [] := rfl

@[simp]
theorem markedPositions_cons (m : Mark) :
    markedPositions (m :: ms) = m.positions ++ markedPositions ms := List.flatMap_cons

@[simp]
theorem markedPositions_append :
    markedPositions (ms ++ ms') = markedPositions ms ++ markedPositions ms' := List.flatMap_append

@[simp]
theorem markedPositions_place (ps : List Position) : markedPositions (ps.map .place) = ps := by
  induction ps with
  | nil => rfl
  | cons p ps ih =>
    rw [List.map_cons, markedPositions_cons, ih]
    rfl

@[simp]
theorem markedPositions_node (ns : List Node) :
    markedPositions (ns.map .node) = ns.flatMap Node.positions := List.flatMap_map ..

@[simp]
theorem markedPositions_flatMap {α : Type} (l : List α) (f : α → List Mark) :
    markedPositions (l.flatMap f) = l.flatMap fun a => markedPositions (f a) :=
  List.flatMap_assoc ..

@[simp]
theorem markedNodes_nil : markedNodes [] = [] := rfl

@[simp]
theorem markedNodes_place_cons (p : Position) : markedNodes (.place p :: ms) = markedNodes ms :=
  rfl

@[simp]
theorem markedNodes_node_cons (n : Node) : markedNodes (.node n :: ms) = n :: markedNodes ms := rfl

@[simp]
theorem markedNodes_append : markedNodes (ms ++ ms') = markedNodes ms ++ markedNodes ms' :=
  List.filterMap_append ..

@[simp]
theorem markedNodes_place (ps : List Position) : markedNodes (ps.map .place) = [] := by
  induction ps with
  | nil => rfl
  | cons p ps ih => exact ih

@[simp]
theorem markedNodes_node (ns : List Node) : markedNodes (ns.map .node) = ns := by
  induction ns with
  | nil => rfl
  | cons n ns ih => exact congrArg (n :: ·) ih

@[simp]
theorem markedNodes_flatMap {α : Type} (l : List α) (f : α → List Mark) :
    markedNodes (l.flatMap f) = l.flatMap fun a => markedNodes (f a) := by
  induction l with
  | nil => rfl
  | cons a l ih => rw [List.flatMap_cons, markedNodes_append, ih, List.flatMap_cons]

end Marks

/-! ### The outline of an expression -/

theorem Node.positionsAll_eq (ns : List Node) :
    Node.positionsAll ns = ns.flatMap Node.positions := by
  induction ns with
  | nil => rfl
  | cons n ns ih => rw [Node.positionsAll, ih, List.flatMap_cons]

theorem Node.positionsOptional_eq (n : Option Node) :
    Node.positionsOptional n = n.toList.flatMap Node.positions := by
  cases n with
  | none => rfl
  | some n => rw [Node.positionsOptional, Option.toList_some, List.flatMap_singleton]

theorem TypeHint.positionsAll_eq (ts : List TypeHint) :
    TypeHint.positionsAll ts = ts.flatMap TypeHint.positions := by
  induction ts with
  | nil => rfl
  | cons t ts ih => rw [TypeHint.positionsAll, ih, List.flatMap_cons]

theorem TypeHint.marks_eq (t : TypeHint) :
    t.marks = .place t.position :: t.parameters.flatMap TypeHint.marks := by
  obtain ⟨name, parameters, position⟩ := t
  rw [marks, positions, positionsAll_eq, List.map_cons, List.map_flatMap]
  rfl

theorem Target.marks_eq (t : Target) :
    t.marks = .place t.position :: t.typeHint.toList.flatMap TypeHint.marks := by
  rw [marks, positions, List.map_cons, List.map_flatMap]
  rfl

theorem Pair.positionsAll_eq (ps : List Pair) :
    Pair.positionsAll ps = ps.flatMap fun p => markedPositions p.marks := by
  induction ps with
  | nil => rfl
  | cons p ps ih =>
    obtain ⟨key, value⟩ := p
    rw [Pair.positionsAll, ih, List.flatMap_cons]
    simp [Pair.marks, Pair.nodes, Pair.positions]

theorem KeywordArgument.positionsAll_eq (as : List KeywordArgument) :
    KeywordArgument.positionsAll as = as.flatMap fun a => a.value.positions := by
  induction as with
  | nil => rfl
  | cons a as ih =>
    obtain ⟨name, value⟩ := a
    rw [KeywordArgument.positionsAll, ih, List.flatMap_cons, KeywordArgument.positions]

theorem Trailer.positionsAll_eq (ts : List Trailer) :
    Trailer.positionsAll ts = ts.flatMap fun t => markedPositions t.marks := by
  induction ts with
  | nil => rfl
  | cons t ts ih =>
    rw [Trailer.positionsAll, ih, List.flatMap_cons]
    match t with
    | .attribute name => rfl
    | .call positional keyword =>
      simp [Trailer.positions, Trailer.marks, Trailer.nodes, Node.positionsAll_eq,
        KeywordArgument.positionsAll_eq, List.flatMap_map, -List.map_map]
    | .index operand => simp [Trailer.positions, Trailer.marks, Trailer.nodes]

theorem KeywordParameter.positionsAll_eq (ps : List KeywordParameter) :
    KeywordParameter.positionsAll ps = ps.flatMap fun p => markedPositions p.marks := by
  induction ps with
  | nil => rfl
  | cons p ps ih =>
    rw [KeywordParameter.positionsAll, ih, List.flatMap_cons]
    obtain ⟨hint, name, kind⟩ := p
    cases kind <;> simp [KeywordParameter.positions, KeywordParameterKind.positions,
      KeywordParameter.marks, KeywordParameterKind.nodes, TypeHint.marks]

theorem CatchClause.positionsAll_eq (cs : List CatchClause) :
    CatchClause.positionsAll cs = cs.flatMap fun c => markedPositions c.marks := by
  induction cs with
  | nil => rfl
  | cons c cs ih =>
    obtain ⟨exceptionType, binding, handler, position⟩ := c
    rw [CatchClause.positionsAll, ih, List.flatMap_cons]
    simp [CatchClause.positions, CatchClause.marks]

/-- An outline leaves out no position. -/
theorem NodeKind.positions_eq (kind : NodeKind) : kind.positions = markedPositions kind.marks := by
  cases kind with
  | list content =>
    cases content <;> simp [NodeKind.positions, NodeKind.marks, NodeKind.children,
      ListLiteral.positions, ListLiteral.nodes, Node.positionsAll_eq, Node.positionsOptional_eq]
  | _ =>
    simp [NodeKind.positions, NodeKind.marks, NodeKind.children, Node.positionsAll_eq,
      Node.positionsOptional_eq, Pair.positionsAll_eq, Trailer.positionsAll_eq,
      KeywordParameter.positionsAll_eq, CatchClause.positionsAll_eq, Pair.marks, Trailer.marks,
      TypeHint.marks, Target.marks, EnumMember.marks, PositionalParameter.marks,
      List.flatMap_assoc, List.map_eq_flatMap]

/-- The nodes of an outline are those directly inside. -/
theorem NodeKind.markedNodes_marks (kind : NodeKind) : markedNodes kind.marks = kind.children := by
  cases kind with
  | try_ body handlers cleanup =>
    simp [NodeKind.marks, NodeKind.children, CatchClause.marks, List.map_eq_flatMap]
  | _ =>
    simp [NodeKind.marks, NodeKind.children, TypeHint.marks, Target.marks, EnumMember.marks,
      PositionalParameter.marks, KeywordParameter.marks]

/-! ### Outlines that fit -/

/-- The positions are those of some of the tokens, in the same order. One may come several
times. -/
inductive Traces : List PlacedToken → List Position → Prop
  | nil (us : List PlacedToken) : Traces us []
  | pass {t us ps} : Traces us ps → Traces (t :: us) ps
  | mark {t us ps} : Traces (t :: us) ps → Traces (t :: us) (t.position :: ps)

/-- The nodes inside one another are ordered as the tokens are: those directly inside a node have
positions of tokens one behind the other. -/
inductive Node.Ordered (us : List PlacedToken) : Node → Prop
  | node {kind : NodeKind} {position : Position}
    (apart : (kind.children.map (·.position)).Sublist (us.map (·.position)))
    (inside : ∀ c ∈ kind.children, c.Ordered us) : Ordered us ⟨kind, position⟩

/-- The outline runs along the tokens: it follows them, its nodes begin at one after the other, and
so do the nodes inside those. -/
structure Along (us : List PlacedToken) (ms : List Mark) : Prop where
  traces : Traces us (markedPositions ms)
  apart : ((markedNodes ms).map (·.position)).Sublist (us.map (·.position))
  inside : ∀ n ∈ markedNodes ms, n.Ordered us

variable {us vs : List PlacedToken} {t : PlacedToken} {ps qs : List Position}
variable {ms ms' : List Mark} {n : Node}

namespace Traces

theorem mem (h : Traces us ps) {p : Position} (hp : p ∈ ps) : ∃ t ∈ us, t.position = p := by
  induction h with
  | nil => cases hp
  | pass _ ih =>
    obtain ⟨t, ht, htp⟩ := ih hp
    exact ⟨t, List.mem_cons_of_mem _ ht, htp⟩
  | @mark t us ps _ ih =>
    rcases List.mem_cons.1 hp with rfl | hp
    · exact ⟨t, List.mem_cons_self .., rfl⟩
    · exact ih hp

theorem pass_append (us : List PlacedToken) (h : Traces vs ps) : Traces (us ++ vs) ps := by
  induction us with
  | nil => exact h
  | cons t us ih => exact ih.pass

theorem append (h : Traces us ps) (h' : Traces vs qs) : Traces (us ++ vs) (ps ++ qs) := by
  induction h with
  | nil us => exact h'.pass_append us
  | pass _ ih => exact ih.pass
  | mark _ ih => exact ih.mark

/-- A position may come twice. -/
theorem again {p : Position} (h : Traces us (ps ++ p :: qs)) : Traces us (ps ++ p :: p :: qs) := by
  generalize hall : ps ++ p :: qs = all at h
  induction h generalizing ps with
  | nil => simp at hall
  | pass _ ih => exact (ih hall).pass
  | @mark t us rest htail ih =>
    cases ps with
    | nil =>
      cases hall
      exact htail.mark.mark
    | cons q ps =>
      obtain ⟨rfl, rfl⟩ := List.cons.inj hall
      exact (ih rfl).mark

theorem sublist {qs : List Position} (h : Traces us ps) (hqs : qs.Sublist ps) : Traces us qs := by
  induction h generalizing qs with
  | nil us =>
    rw [List.sublist_nil.1 hqs]
    exact .nil us
  | pass _ ih => exact (ih hqs).pass
  | mark _ ih =>
    rcases List.sublist_cons_iff.1 hqs with hqs | ⟨rs, rfl, hrs⟩
    · exact ih hqs
    · exact (ih hrs).mark

/-- Along tokens whose offsets increase, no offset is smaller than one before. -/
theorem pairwise (h : Traces us ps)
    (hus : us.Pairwise fun t u => t.position.offset < u.position.offset) :
    ps.Pairwise fun p q => p.offset ≤ q.offset := by
  induction h with
  | nil => exact .nil
  | pass _ ih => exact ih (List.pairwise_cons.1 hus).2
  | @mark t us ps htail ih =>
    refine List.pairwise_cons.2 ⟨?_, ih hus⟩
    intro q hq
    obtain ⟨u, hu, rfl⟩ := htail.mem hq
    rcases List.mem_cons.1 hu with rfl | hu
    · exact Nat.le_refl _
    · exact Nat.le_of_lt ((List.pairwise_cons.1 hus).1 u hu)

end Traces

theorem Node.Ordered.mono (h : n.Ordered us) (hus : us.Sublist vs) : n.Ordered vs := by
  induction h with
  | node apart _ ih => exact .node (apart.trans (hus.map _)) ih

namespace Along

theorem nil : Along us [] := ⟨.nil us, List.nil_sublist _, nofun⟩

/-- A piece of tokens and its outline come behind what was read before. -/
theorem append (h : Along us ms) (h' : Along vs ms') : Along (us ++ vs) (ms ++ ms') where
  traces := by
    rw [markedPositions_append]
    exact h.traces.append h'.traces
  apart := by
    rw [markedNodes_append, List.map_append, List.map_append]
    exact h.apart.append h'.apart
  inside := by
    intro n hn
    rw [markedNodes_append, List.mem_append] at hn
    rcases hn with hn | hn
    · exact (h.inside n hn).mono (List.sublist_append_left us vs)
    · exact (h'.inside n hn).mono (List.sublist_append_right us vs)

/-- The token that was read last may begin something. -/
theorem take (h : Along us ms) (t : PlacedToken) : Along (us ++ [t]) (ms ++ [.place t.position]) :=
  h.append ⟨(Traces.nil [t]).mark, List.nil_sublist _, nofun⟩

/-- What was read first is the outline of what was read first. -/
theorem left (h : Along us (ms ++ ms')) : Along us ms where
  traces := by
    have htraces := h.traces
    rw [markedPositions_append] at htraces
    exact htraces.sublist (List.sublist_append_left _ _)
  apart := by
    have hapart := h.apart
    rw [markedNodes_append, List.map_append] at hapart
    exact (List.sublist_append_left _ _).trans hapart
  inside := by
    intro n hn
    refine h.inside n ?_
    rw [markedNodes_append]
    exact List.mem_append_left _ hn

/-- Tokens that leave no mark may be read in between. -/
theorem pass (h : Along us ms) (vs : List PlacedToken) : Along (us ++ vs) ms := by
  have hnil : Along vs [] := .nil
  have happend := h.append hnil
  rwa [List.append_nil] at happend

/-- A place that nothing need begin at. -/
theorem drop {p : Position} (h : Along us (ms ++ .place p :: ms')) : Along us (ms ++ ms') where
  traces := by
    have htraces := h.traces
    rw [markedPositions_append, markedPositions_cons] at htraces
    rw [markedPositions_append]
    refine htraces.sublist ((List.Sublist.refl _).append ?_)
    exact List.sublist_append_right _ _
  apart := by
    have hapart := h.apart
    rwa [markedNodes_append, markedNodes_place_cons, ← markedNodes_append] at hapart
  inside := by
    intro n hn
    refine h.inside n ?_
    rwa [markedNodes_append, markedNodes_place_cons, ← markedNodes_append]

/-- **A node** is the place where it begins and what is inside it. -/
theorem node {kind : NodeKind} {p : Position} (h : Along us (.place p :: kind.marks)) :
    Along us [.node ⟨kind, p⟩] where
  traces := by
    have htraces := h.traces
    rw [markedPositions_cons, ← NodeKind.positions_eq] at htraces
    rw [markedPositions_cons, Mark.positions_node, Node.positions, markedPositions_nil,
      List.append_nil]
    exact htraces
  apart := by
    obtain ⟨t, ht, rfl⟩ := h.traces.mem (p := p) (List.mem_cons_self ..)
    exact List.singleton_sublist.2 (List.mem_map_of_mem ht)
  inside := by
    intro n hn
    obtain rfl := List.mem_singleton.1 hn
    refine .node ?_ ?_
    · rw [← NodeKind.markedNodes_marks]
      exact h.apart
    · intro c hc
      rw [← NodeKind.markedNodes_marks] at hc
      exact h.inside c hc

/-- What is inside a node runs along them too. -/
theorem contents {kind : NodeKind} {p : Position} (h : Along us (Node.mark ⟨kind, p⟩)) :
    Along us kind.marks := by
  obtain ⟨apart, inside⟩ := h.inside _ (List.mem_cons_self ..)
  refine ⟨?_, ?_, ?_⟩
  · have htraces := h.traces
    rw [Node.mark_eq, markedPositions_cons, Mark.positions_node, Node.positions,
      NodeKind.positions_eq, markedPositions_nil, List.append_nil] at htraces
    exact htraces.sublist (List.sublist_cons_self _ _)
  · rw [NodeKind.markedNodes_marks]
    exact apart
  · intro n hn
    rw [NodeKind.markedNodes_marks] at hn
    exact inside n hn

/-- Two things may begin at one place. -/
theorem again {p : Position} (h : Along us (ms ++ .place p :: ms')) :
    Along us (ms ++ .place p :: .place p :: ms') where
  traces := by
    have htraces := h.traces
    simp only [markedPositions_append, markedPositions_cons, Mark.positions_place,
      List.singleton_append] at htraces ⊢
    exact htraces.again
  apart := by
    have hapart := h.apart
    rw [markedNodes_append, markedNodes_place_cons] at hapart
    rwa [markedNodes_append, markedNodes_place_cons, markedNodes_place_cons]
  inside := by
    intro n hn
    refine h.inside n ?_
    rw [markedNodes_append, markedNodes_place_cons, markedNodes_place_cons] at hn
    rwa [markedNodes_append, markedNodes_place_cons]

/-- A node may begin where its first part does. -/
theorem beginning (h : Along us (.node n :: ms)) :
    Along us (.place n.position :: .node n :: ms) where
  traces := by
    obtain ⟨kind, position⟩ := n
    have htraces := h.traces
    rw [markedPositions_cons, Mark.positions_node, Node.positions, List.cons_append] at htraces
    have hfirst : Traces us ([] ++ position :: (kind.positions ++ markedPositions ms)) := htraces
    exact hfirst.again
  apart := h.apart
  inside := h.inside

end Along

end DrakeSyntax
