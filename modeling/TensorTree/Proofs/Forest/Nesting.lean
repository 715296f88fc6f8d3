import Mathlib.Data.List.Chain
import Mathlib.Tactic.Choose
import TensorTree.Proofs.Forest.Reading
import TensorTree.Proofs.Location.Order

/-!
# Spans nest

The child at which the span of a node begins is the first one, and the child at which it ends is
the last one (`Node.head?_children_of_firstAnchor`, `Node.getLast?_children_of_lastAnchor`).  So if
siblings follow one another and recorded ends lie outside of the children (`Forest.InOrder`), the
span of every node encloses the spans of its children (`Session.spans_nest_of_run`).
-/

namespace TensorTree

/-! ## §1 The children at which spans begin and end -/

namespace Node

/-- The node that a first location is taken from is the first child. -/
theorem head?_children_of_firstAnchor {n : Node} {id : NodeId} (h : n.firstAnchor = .child id) :
    n.children.head? = some id := by
  cases n with
  | assignStmt targets value =>
    obtain ⟨target, htarget, rfl⟩ := Anchor.ofRef?_eq_child h
    simp [children, slots, List.head?_append, htarget]
  | eqExpr operands ops =>
    obtain ⟨operand, hoperand, rfl⟩ := Anchor.ofRef?_eq_child h
    simp [children, slots, hoperand]
  | _ => simp_all [firstAnchor, children, slots, Ref.slot]

/-- The node that a last location is taken from is the last child. -/
theorem getLast?_children_of_lastAnchor {n : Node} {recorded : Span} {id : NodeId}
    (h : n.lastAnchor recorded = .child id) : n.children.getLast? = some id := by
  cases n with
  | eqExpr operands ops =>
    obtain ⟨operand, hoperand, rfl⟩ := Anchor.ofRef?_eq_child h
    simp [children, slots, hoperand]
  | loop timing cond body =>
    -- only a loop that tests after its body ends with the condition
    cases timing <;> simp_all [lastAnchor, children, slots, Ref.slot]
  | ifStmt cond thenBody elseBody =>
    cases elseBody with
    | none => cases h
    | some stmt =>
      simp only [lastAnchor] at h
      split at h <;> simp_all [children, slots, Ref.slot]
  | mapExpr func actuals target reduction =>
    have htarget : target.node = id := by
      cases reduction with
      | sum =>
        simp only [lastAnchor] at h
        split at h <;> simp_all
      | absent => simpa [lastAnchor] using h
    simp [children, slots, List.getLast?_cons, htarget]
  | _ => simp_all [lastAnchor, children, slots, Ref.slot]

end Node

/-! ## §2 One step of the descent -/

namespace Forest

variable {f : Forest} {id : NodeId} {e : Entry} {here : Location}

/-- What is found within some number of steps is found within one step more. -/
theorem firstWithin_succ {n : Nat} (h : f.firstWithin n id = .ok here) :
    f.firstWithin (n + 1) id = .ok here := by
  induction n generalizing id with
  | zero => cases h
  | succ n ih =>
    rw [firstWithin] at h ⊢
    cases hentry : f.entry id with
    | error fault => simp [hentry] at h
    | ok e =>
      simp only [hentry] at h ⊢
      cases hanchor : e.node.firstAnchor with
      | recorded => simpa [hanchor] using h
      | child next =>
        simp only [hanchor] at h ⊢
        exact ih h
      | missing => simp [hanchor] at h

theorem lastWithin_succ {n : Nat} (h : f.lastWithin n id = .ok here) :
    f.lastWithin (n + 1) id = .ok here := by
  induction n generalizing id with
  | zero => cases h
  | succ n ih =>
    rw [lastWithin] at h ⊢
    cases hentry : f.entry id with
    | error fault => simp [hentry] at h
    | ok e =>
      simp only [hentry] at h ⊢
      cases hanchor : e.node.lastAnchor e.span with
      | recorded => simpa [hanchor] using h
      | child next =>
        simp only [hanchor] at h ⊢
        exact ih h
      | missing => simp [hanchor] at h

/-- The first location of a node is the recorded one or that of its first child. -/
theorem first_cases (he : f.entry? id = some e) (h : f.first id = .ok here) :
    (e.node.firstAnchor = .recorded ∧ here = e.span.first) ∨
      ∃ child, e.node.children.head? = some child ∧ f.first child = .ok here := by
  have hentry : f.entry id = .ok e := by simp [Forest.entry, he]
  simp only [first, depthBound, firstWithin, hentry] at h
  cases hanchor : e.node.firstAnchor with
  | recorded => exact .inl ⟨rfl, by simpa [hanchor, eq_comm] using h⟩
  | child next =>
    simp only [hanchor] at h
    exact .inr ⟨next, Node.head?_children_of_firstAnchor hanchor, firstWithin_succ h⟩
  | missing => simp [hanchor] at h

/-- The last location of a node is the recorded one or that of its last child. -/
theorem last_cases (he : f.entry? id = some e) (h : f.last id = .ok here) :
    (e.node.lastAnchor e.span = .recorded ∧ here = e.span.last) ∨
      ∃ child, e.node.children.getLast? = some child ∧ f.last child = .ok here := by
  have hentry : f.entry id = .ok e := by simp [Forest.entry, he]
  simp only [last, depthBound, lastWithin, hentry] at h
  cases hanchor : e.node.lastAnchor e.span with
  | recorded => exact .inl ⟨rfl, by simpa [hanchor, eq_comm] using h⟩
  | child next =>
    simp only [hanchor] at h
    exact .inr ⟨next, Node.getLast?_children_of_lastAnchor hanchor, lastWithin_succ h⟩
  | missing => simp [hanchor] at h

theorem span_eq_ok_iff {span : Span} :
    f.span id = .ok span ↔ f.first id = .ok span.first ∧ f.last id = .ok span.last := by
  obtain ⟨start, stop⟩ := span
  cases hfirst : f.first id with
  | error fault => simp [Forest.span, hfirst]
  | ok first =>
    cases hlast : f.last id with
    | error fault => simp [Forest.span, hfirst, hlast, Except.map]
    | ok last => simp [Forest.span, hfirst, hlast, Except.map]

/-! ## §3 Locations in source order -/

/-- The right one of two siblings does not begin before the left one ends. -/
def Follows (f : Forest) (left right : NodeId) : Prop :=
  ∀ here ∈ (f.last left).toOption, ∀ there ∈ (f.first right).toOption, here ≤ there

/-- Siblings follow one another, an end that is recorded and not derived lies outside of the
children, and a node without children does not end before it begins. -/
structure InOrderAt (f : Forest) (e : Entry) : Prop where
  siblings : e.node.children.IsChain f.Follows
  opening : e.node.firstAnchor = .recorded →
    ∀ child ∈ e.node.children.head?, ∀ here ∈ (f.first child).toOption, e.span.first ≤ here
  closing : e.node.lastAnchor e.span = .recorded →
    ∀ child ∈ e.node.children.getLast?, ∀ here ∈ (f.last child).toOption, here ≤ e.span.last
  leaf : e.node.children = [] → e.span.first ≤ e.span.last

/-- The locations of all nodes are in source order. -/
def InOrder (f : Forest) : Prop := ∀ id e, f.entry? id = some e → f.InOrderAt e

instance (f : Forest) (left right : NodeId) : Decidable (f.Follows left right) :=
  inferInstanceAs (Decidable (∀ here ∈ (f.last left).toOption,
    ∀ there ∈ (f.first right).toOption, here ≤ there))

theorem inOrder_iff_forall_mem (f : Forest) : f.InOrder ↔ ∀ e ∈ f.nodes.toList, f.InOrderAt e := by
  have hmem : ∀ e, e ∈ f.nodes.toList ↔ ∃ id, f.entry? id = some e := by
    intro e
    simp only [NodeTable.toList, Array.mem_toList_iff, Array.mem_iff_getElem?]
    exact ⟨fun ⟨n, hn⟩ => ⟨⟨n⟩, hn⟩, fun ⟨id, hid⟩ => ⟨id.index, hid⟩⟩
  constructor
  · intro h e he
    obtain ⟨id, hid⟩ := (hmem e).1 he
    exact h id e hid
  · exact fun h id e hid => h e ((hmem e).2 ⟨id, hid⟩)

instance (f : Forest) (e : Entry) : Decidable (f.InOrderAt e) :=
  decidable_of_iff
    (e.node.children.IsChain f.Follows ∧
      (e.node.firstAnchor = .recorded →
        ∀ child ∈ e.node.children.head?, ∀ here ∈ (f.first child).toOption, e.span.first ≤ here) ∧
      (e.node.lastAnchor e.span = .recorded →
        ∀ child ∈ e.node.children.getLast?, ∀ here ∈ (f.last child).toOption, here ≤ e.span.last) ∧
      (e.node.children = [] → e.span.first ≤ e.span.last))
    ⟨fun ⟨siblings, opening, closing, leaf⟩ => ⟨siblings, opening, closing, leaf⟩,
      fun h => ⟨h.siblings, h.opening, h.closing, h.leaf⟩⟩

instance (f : Forest) : Decidable f.InOrder := decidable_of_iff _ f.inOrder_iff_forall_mem.symm

end Forest

/-! ## §4 Spans that enclose spans -/

/-- In a row of stretches that do not end before they begin, each one lies between the beginning of
the first and the end of the last. -/
theorem between_of_isChain {α : Type} {first last : α → Location} {l : List α}
    (hchain : l.IsChain fun a b => last a ≤ first b) (hself : ∀ a ∈ l, first a ≤ last a) :
    ∀ a ∈ l, (∀ x ∈ l.head?, first x ≤ first a) ∧ ∀ y ∈ l.getLast?, last a ≤ last y := by
  induction l with
  | nil => simp
  | cons b l ih =>
    rw [List.forall_mem_cons] at hself
    cases l with
    | nil => simp
    | cons c l =>
      rw [List.isChain_cons_cons] at hchain
      have hrest := ih hchain.2 hself.2
      have hc := hrest c List.mem_cons_self
      simp only [List.head?_cons, Option.mem_def, Option.some.injEq, forall_eq',
        List.getLast?_cons_cons] at hrest hc ⊢
      rw [List.forall_mem_cons]
      refine ⟨⟨le_refl _, fun y hy => ?_⟩, fun a ha => ⟨?_, (hrest a ha).2⟩⟩
      -- the first stretch ends before the second one begins, and the second one is in the rest
      · calc last b ≤ first c := hchain.1
          _ ≤ last c := hself.2 c List.mem_cons_self
          _ ≤ last y := hc.2 y hy
      · calc first b ≤ last b := hself.1
          _ ≤ first c := hchain.1
          _ ≤ first a := (hrest a ha).1

/-- One span lies within another one. -/
def Span.Encloses (outer inner : Span) : Prop := outer.first ≤ inner.first ∧ inner.last ≤ outer.last

namespace Forest

variable {f : Forest} {id : NodeId} {e : Entry} {span : Span}

/-- The span of a node does not begin behind the beginning of its first child. -/
theorem InOrderAt.first_le (h : f.InOrderAt e) (he : f.entry? id = some e) {here there : Location}
    (hhere : f.first id = .ok here) {child : NodeId} (hchild : e.node.children.head? = some child)
    (hthere : f.first child = .ok there) : here ≤ there := by
  rcases first_cases he hhere with ⟨hrecorded, rfl⟩ | ⟨child', hchild', hsame⟩
  · exact h.opening hrecorded child hchild there (by simp [hthere, Except.toOption])
  · obtain rfl := Option.some.inj (hchild'.symm.trans hchild)
    rw [Except.ok.inj (hsame.symm.trans hthere)]

/-- The span of a node does not end in front of the end of its last child. -/
theorem InOrderAt.le_last (h : f.InOrderAt e) (he : f.entry? id = some e) {here there : Location}
    (hhere : f.last id = .ok here) {child : NodeId} (hchild : e.node.children.getLast? = some child)
    (hthere : f.last child = .ok there) : there ≤ here := by
  rcases last_cases he hhere with ⟨hrecorded, rfl⟩ | ⟨child', hchild', hsame⟩
  · exact h.closing hrecorded child hchild there (by simp [hthere, Except.toOption])
  · obtain rfl := Option.some.inj (hchild'.symm.trans hchild)
    rw [Except.ok.inj (hsame.symm.trans hthere)]

/-- If locations are in order at a node, and the spans of its children do not end before they begin,
then neither does its own span, and it encloses theirs. -/
theorem InOrderAt.encloses (h : f.InOrderAt e) (he : f.entry? id = some e)
    (hspan : f.span id = .ok span) {spanOf : NodeId → Span}
    (hspanOf : ∀ child ∈ e.node.children, f.span child = .ok (spanOf child))
    (hself : ∀ child ∈ e.node.children, (spanOf child).first ≤ (spanOf child).last) :
    span.first ≤ span.last ∧ ∀ child ∈ e.node.children, span.Encloses (spanOf child) := by
  obtain ⟨hfirst, hlast⟩ := span_eq_ok_iff.1 hspan
  have hends : ∀ child ∈ e.node.children,
      f.first child = .ok (spanOf child).first ∧ f.last child = .ok (spanOf child).last :=
    fun child hchild => span_eq_ok_iff.1 (hspanOf child hchild)
  have hrow : e.node.children.IsChain fun a b => (spanOf a).last ≤ (spanOf b).first := by
    refine h.siblings.imp_of_mem_imp fun a b ha hb hfollows => ?_
    exact hfollows _ (by simp [(hends a ha).2, Except.toOption])
      _ (by simp [(hends b hb).1, Except.toOption])
  have hbetween := between_of_isChain hrow hself
  have hencloses : ∀ child ∈ e.node.children, span.Encloses (spanOf child) := by
    intro child hchild
    have hne : e.node.children ≠ [] := List.ne_nil_of_mem hchild
    obtain ⟨first, hhead⟩ := Option.ne_none_iff_exists'.1 (List.head?_eq_none_iff.not.2 hne)
    obtain ⟨last, htail⟩ := Option.ne_none_iff_exists'.1 (List.getLast?_eq_none_iff.not.2 hne)
    constructor
    · calc span.first ≤ (spanOf first).first :=
            h.first_le he hfirst hhead (hends first (List.mem_of_mem_head? hhead)).1
        _ ≤ (spanOf child).first := (hbetween child hchild).1 first hhead
    · calc (spanOf child).last ≤ (spanOf last).last := (hbetween child hchild).2 last htail
        _ ≤ span.last := h.le_last he hlast htail (hends last (List.mem_of_mem_getLast? htail)).2
  refine ⟨?_, hencloses⟩
  cases hchildren : e.node.children with
  | nil =>
    -- both ends are recorded, since there is no child to take them from
    rcases first_cases he hfirst with ⟨-, hbegin⟩ | ⟨child, hchild, -⟩
    · rcases last_cases he hlast with ⟨-, hend⟩ | ⟨child, hchild, -⟩
      · rw [hbegin, hend]
        exact h.leaf hchildren
      · simp [hchildren] at hchild
    · simp [hchildren] at hchild
  | cons child children =>
    have hmem : child ∈ e.node.children := hchildren ▸ List.mem_cons_self
    calc span.first ≤ (spanOf child).first := (hencloses child hmem).1
      _ ≤ (spanOf child).last := hself child hmem
      _ ≤ span.last := (hencloses child hmem).2

/-- The spans of the children of a node are found. -/
theorem WellFormed.exists_spanOf (h : f.WellFormed) (he : f.entry? id = some e) :
    ∃ spanOf : NodeId → Span, ∀ child ∈ e.node.children, f.span child = .ok (spanOf child) := by
  have hspans : ∀ child, ∃ span, child ∈ e.node.children → f.span child = .ok span := by
    intro child
    by_cases hchild : child ∈ e.node.children
    · have hc : f.IsChild id child := ⟨e.node, by simp [node?, he], hchild⟩
      obtain ⟨span, hspan⟩ := h.span_ok (h.exists_child hc)
      exact ⟨span, fun _ => hspan⟩
    · exact ⟨.unset, fun hmem => absurd hmem hchild⟩
  choose spanOf hspanOf using hspans
  exact ⟨spanOf, hspanOf⟩

/-- If all locations are in order, no span ends before it begins. -/
theorem InOrder.first_le_last (h : f.InOrder) (hf : f.WellFormed) (hspan : f.span id = .ok span) :
    span.first ≤ span.last := by
  have hid : ∃ node, f.node? id = some node := by
    cases hnode : f.node? id with
    | some node => exact ⟨node, rfl⟩
    | none =>
      have hentry : f.entry? id = none := by simpa [node?] using hnode
      simp [Forest.span, first, depthBound, firstWithin, Forest.entry, hentry] at hspan
  -- induction on the descent: the spans of the children do not end before they begin
  refine hf.descend_depthBound
    (P := fun _ id => ∀ span, f.span id = .ok span → span.first ≤ span.last) ?_ hid span hspan
  intro _ id node hnode ih span hspan
  obtain ⟨e, he, rfl⟩ := Option.map_eq_some_iff.1 hnode
  obtain ⟨spanOf, hspanOf⟩ := hf.exists_spanOf he
  have hself : ∀ child ∈ e.node.children, (spanOf child).first ≤ (spanOf child).last :=
    fun child hchild => ih child hchild _ (hspanOf child hchild)
  exact ((h id e he).encloses he hspan hspanOf hself).1

end Forest

/-! ## §5 Sessions -/

namespace Session

/-- After any attempts at changes that leave all locations in order, every node has a span that does
not end before it begins and that encloses the spans of all children. -/
theorem spans_nest_of_run (cs : List Change) (h : (start.run cs).forest.InOrder) :
    ∀ id node, (start.run cs).forest.node? id = some node →
      ∃ span, (start.run cs).forest.span id = .ok span ∧ span.first ≤ span.last ∧
        ∀ child ∈ node.children, ∃ inner,
          (start.run cs).forest.span child = .ok inner ∧ span.Encloses inner := by
  have hwell := (sound_run cs).admitted.wellFormed
  intro id node hnode
  obtain ⟨e, he, rfl⟩ := Option.map_eq_some_iff.1 hnode
  obtain ⟨span, hspan⟩ := hwell.span_ok ⟨_, hnode⟩
  obtain ⟨spanOf, hspanOf⟩ := hwell.exists_spanOf he
  have hself : ∀ child ∈ e.node.children, (spanOf child).first ≤ (spanOf child).last :=
    fun child hchild => h.first_le_last hwell (hspanOf child hchild)
  have hencloses := (h id e he).encloses he hspan hspanOf hself
  exact ⟨span, hspan, hencloses.1,
    fun child hchild => ⟨spanOf child, hspanOf child hchild, hencloses.2 child hchild⟩⟩

/-- A conditional statement whose end is not recorded: it chooses between an assignment of a sum and
an empty block. -/
def assignOrNothing : List Change :=
  [.insert ⟨⟨1, 4⟩, ⟨1, 4⟩⟩ (.varExpr "c"),
    .insert ⟨⟨2, 5⟩, ⟨2, 5⟩⟩ (.varExpr "x"),
    .insert ⟨⟨2, 9⟩, ⟨2, 9⟩⟩ (.varExpr "a"),
    .insert ⟨⟨2, 13⟩, ⟨2, 14⟩⟩ (.intLiteral 10),
    .insert .unset (.binary .add ⟨⟨2⟩⟩ ⟨⟨3⟩⟩),
    .insert ⟨⟨9, 9⟩, ⟨9, 9⟩⟩ (.assignStmt [⟨⟨1⟩⟩] ⟨⟨4⟩⟩),
    .insert ⟨⟨4, 1⟩, ⟨4, 3⟩⟩ (.stmtBlock []),
    .insert ⟨⟨1, 1⟩, ⟨0, 0⟩⟩ (.ifStmt ⟨⟨0⟩⟩ ⟨⟨5⟩⟩ (some ⟨⟨6⟩⟩)),
    .setSpan ⟨5⟩ ⟨⟨9, 9⟩, ⟨2, 15⟩⟩]

/-- The span of the conditional statement ends with its alternative and encloses what is chosen. -/
theorem spans_nest_assignOrNothing :
    (start.run assignOrNothing).forest.InOrder ∧
      (start.run assignOrNothing).forest.span ⟨7⟩ = .ok ⟨⟨1, 1⟩, ⟨4, 3⟩⟩ ∧
      ∀ id node, (start.run assignOrNothing).forest.node? id = some node →
        ∃ span, (start.run assignOrNothing).forest.span id = .ok span ∧ span.first ≤ span.last ∧
          ∀ child ∈ node.children, ∃ inner,
            (start.run assignOrNothing).forest.span child = .ok inner ∧ span.Encloses inner := by
  have hordered : (start.run assignOrNothing).forest.InOrder := by decide
  have hspan : (start.run assignOrNothing).forest.span ⟨7⟩ = .ok ⟨⟨1, 1⟩, ⟨4, 3⟩⟩ := by rfl
  exact ⟨hordered, hspan, spans_nest_of_run assignOrNothing hordered⟩

end Session

end TensorTree
