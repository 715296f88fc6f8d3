import TensorTree.Forest.Extent
import TensorTree.Forest.Shape
import TensorTree.Node.Summary
import TensorTree.Proofs.Forest.Order
import TensorTree.Visit.Basic

/-!
# Reading a well-formed forest

Every reader of a well-formed forest has an answer at every node that exists: it neither asks for
what is not there nor goes on for ever.  Each reader goes down only to children, so
`Forest.WellFormed.descend` gives the answer once a single step is known to have one.
-/

namespace TensorTree

/-! ## §1 Spans -/

theorem Anchor.ofRef?_eq_child {role : Role} {r : Option (Ref role)} {id : NodeId}
    (h : Anchor.ofRef? r = .child id) : ∃ ref, r = some ref ∧ ref.node = id := by
  cases r with
  | none => cases h
  | some ref => exact ⟨ref, rfl, by simpa [Anchor.ofRef?] using h⟩

theorem Anchor.ofRef?_eq_missing {role : Role} {r : Option (Ref role)}
    (h : Anchor.ofRef? r = .missing) : r = none := by
  cases r with
  | none => rfl
  | some ref => cases h

@[simp] theorem Ref.node_slot {role : Role} (r : Ref role) : r.slot.node = r.node := rfl

namespace Node

theorem exists_mem_of_head? {role : Role} {refs : List (Ref role)} {id : NodeId}
    (h : Anchor.ofRef? refs.head? = .child id) : ∃ ref ∈ refs, ref.node = id := by
  obtain ⟨ref, hhead, rfl⟩ := Anchor.ofRef?_eq_child h
  exact ⟨ref, List.mem_of_mem_head? hhead, rfl⟩

theorem exists_mem_of_getLast? {role : Role} {refs : List (Ref role)} {id : NodeId}
    (h : Anchor.ofRef? refs.getLast? = .child id) : ∃ ref ∈ refs, ref.node = id := by
  obtain ⟨ref, hlast, rfl⟩ := Anchor.ofRef?_eq_child h
  exact ⟨ref, List.mem_of_mem_getLast? hlast, rfl⟩

/-- The node that a first location is taken from is a child. -/
theorem mem_children_of_firstAnchor {n : Node} {id : NodeId} (h : n.firstAnchor = .child id) :
    id ∈ n.children := by
  cases n with
  -- only these two begin with an element of a list
  | assignStmt targets value =>
    have hmem := exists_mem_of_head? h
    simp [children, slots, hmem]
  | eqExpr operands ops =>
    have hmem := exists_mem_of_head? h
    simp [children, slots, hmem]
  | _ => simp_all [firstAnchor, children, slots, Ref.slot]

/-- The node that a last location is taken from is a child. -/
theorem mem_children_of_lastAnchor {n : Node} {recorded : Span} {id : NodeId}
    (h : n.lastAnchor recorded = .child id) : id ∈ n.children := by
  cases n with
  | eqExpr operands ops =>
    have hmem := exists_mem_of_getLast? h
    simp [children, slots, hmem]
  | loop timing cond body =>
    cases timing <;> simp_all [lastAnchor, children, slots, Ref.slot]
  | ifStmt cond thenBody elseBody =>
    cases elseBody with
    | none => cases h
    | some stmt =>
      simp only [lastAnchor] at h
      split at h <;> simp_all [children, slots, Ref.slot]
  | mapExpr func actuals target reduction =>
    cases reduction with
    | sum =>
      simp only [lastAnchor] at h
      split at h <;> simp_all [children, slots, Ref.slot]
    | absent => simp_all [lastAnchor, children, slots, Ref.slot]
  | _ => simp_all [lastAnchor, children, slots, Ref.slot]

theorem firstAnchor_ne_missing {n : Node} (htargets : ∀ value, n ≠ .assignStmt [] value)
    (hoperands : ∀ ops, n ≠ .eqExpr [] ops) : n.firstAnchor ≠ .missing := by
  intro h
  cases n with
  | assignStmt targets value =>
    obtain rfl := List.head?_eq_none_iff.1 (Anchor.ofRef?_eq_missing h)
    exact htargets value rfl
  | eqExpr operands ops =>
    obtain rfl := List.head?_eq_none_iff.1 (Anchor.ofRef?_eq_missing h)
    exact hoperands ops rfl
  | _ => cases h

theorem lastAnchor_ne_missing {n : Node} (recorded : Span)
    (hoperands : ∀ ops, n ≠ .eqExpr [] ops) : n.lastAnchor recorded ≠ .missing := by
  intro h
  cases n with
  | eqExpr operands ops =>
    obtain rfl := List.getLast?_eq_none_iff.1 (Anchor.ofRef?_eq_missing h)
    exact hoperands ops rfl
  | loop timing cond body => cases timing <;> cases h
  | ifStmt cond thenBody elseBody =>
    cases elseBody with
    | none => cases h
    | some stmt =>
      simp only [lastAnchor] at h
      split at h <;> cases h
  | mapExpr func actuals target reduction =>
    cases reduction with
    | sum =>
      simp only [lastAnchor] at h
      split at h <;> cases h
    | absent => cases h
  | _ => cases h

end Node

namespace Forest

variable {f : Forest}

theorem exists_entry {id : NodeId} {node : Node} (h : f.node? id = some node) :
    ∃ e, f.entry id = .ok e ∧ e.node = node := by
  obtain ⟨e, he, rfl⟩ := Option.map_eq_some_iff.1 h
  exact ⟨e, by simp [entry, he], rfl⟩

theorem node_eq_ok {id : NodeId} {node : Node} (h : f.node? id = some node) :
    f.node id = .ok node := by
  obtain ⟨e, he, rfl⟩ := exists_entry h
  simp [Forest.node, he, Except.map]

namespace WellFormed

theorem operands_ne_nil (h : f.WellFormed) {id : NodeId} {operands : List (Ref .expr)}
    {ops : List ComparisonOp} (hid : f.node? id = some (.eqExpr operands ops)) :
    operands ≠ [] := by
  rintro rfl
  exact absurd (h.operands_length hid) (by simp)

/-- The first location of a node is found. -/
theorem first_ok (h : f.WellFormed) {id : NodeId} (hid : ∃ node, f.node? id = some node) :
    ∃ here, f.first id = .ok here := by
  refine h.descend_depthBound (P := fun n id => ∃ here, f.firstWithin n id = .ok here) ?_ hid
  intro n id node hnode ih
  obtain ⟨e, he, rfl⟩ := exists_entry hnode
  simp only [firstWithin, he]
  cases hanchor : e.node.firstAnchor with
  | recorded => exact ⟨_, rfl⟩
  | child next => exact ih next (Node.mem_children_of_firstAnchor hanchor)
  | missing =>
    -- an assignment without targets or a chain without operands would not have been accepted
    refine absurd hanchor (Node.firstAnchor_ne_missing ?_ ?_)
    · intro value heq
      exact h.targets_ne_nil (heq ▸ hnode) rfl
    · intro ops heq
      exact h.operands_ne_nil (heq ▸ hnode) rfl

theorem last_ok (h : f.WellFormed) {id : NodeId} (hid : ∃ node, f.node? id = some node) :
    ∃ here, f.last id = .ok here := by
  refine h.descend_depthBound (P := fun n id => ∃ here, f.lastWithin n id = .ok here) ?_ hid
  intro n id node hnode ih
  obtain ⟨e, he, rfl⟩ := exists_entry hnode
  simp only [lastWithin, he]
  cases hanchor : e.node.lastAnchor e.span with
  | recorded => exact ⟨_, rfl⟩
  | child next => exact ih next (Node.mem_children_of_lastAnchor hanchor)
  | missing =>
    refine absurd hanchor (Node.lastAnchor_ne_missing _ ?_)
    intro ops heq
    exact h.operands_ne_nil (heq ▸ hnode) rfl

theorem span_ok (h : f.WellFormed) {id : NodeId} (hid : ∃ node, f.node? id = some node) :
    ∃ span, f.span id = .ok span := by
  obtain ⟨first, hfirst⟩ := h.first_ok hid
  obtain ⟨last, hlast⟩ := h.last_ok hid
  exact ⟨⟨first, last⟩, by simp [Forest.span, hfirst, hlast, Except.map]⟩

/-! ## §2 Extents, links and children -/

theorem extents_ok (h : f.WellFormed) {tensor : Ref .dense}
    (hid : ∃ node, f.node? tensor.node = some node) :
    ∃ extents, f.extents tensor = .ok extents := by
  refine h.descend_depthBound (P := fun n id => ∃ es, f.extentsWithin n id = .ok es) ?_ hid
  intro n id node hnode ih
  simp only [extentsWithin, node_eq_ok hnode]
  cases node with
  | denseNdTensor elems =>
    -- the extents are those of the first element, one level down
    cases elems with
    | nil => exact ⟨_, rfl⟩
    | cons elem elems =>
      obtain ⟨es, hes⟩ := ih elem.node (by simp [Node.children, Node.slots])
      exact ⟨_, by simp [hes, Except.map]; rfl⟩
  | _ => exact ⟨_, rfl⟩

end WellFormed

theorem children_ok {id : NodeId} (hid : ∃ node, f.node? id = some node) :
    ∃ children, f.children id = .ok children := by
  obtain ⟨node, hnode⟩ := hid
  exact ⟨node.children, by simp [Forest.children, node_eq_ok hnode, Except.map]⟩

end Forest

/-- A chain with one operand more than operators has all its links. -/
theorem comparisonLinks_ok {operands : List (Ref .expr)} {ops : List ComparisonOp}
    (h : operands.length = ops.length + 1) :
    ∃ links, comparisonLinks operands ops = .ok links := by
  induction ops generalizing operands with
  | nil => exact ⟨[], by simp [comparisonLinks]⟩
  | cons op ops ih =>
    match operands, h with
    | lhs :: rhs :: operands, h =>
      have hrest : (rhs :: operands).length = ops.length + 1 := by simpa using h
      obtain ⟨links, hlinks⟩ := ih hrest
      exact ⟨⟨lhs, op, rhs⟩ :: links, by simp [comparisonLinks, hlinks, Except.map]⟩

theorem Forest.WellFormed.summary_ok {f : Forest} (h : f.WellFormed) {id : NodeId} {node : Node}
    (hid : f.node? id = some node) : ∃ summary, node.summary? = .ok summary := by
  cases node with
  | eqExpr operands ops =>
    obtain ⟨links, hlinks⟩ := comparisonLinks_ok (h.operands_length hid)
    exact ⟨some (.links links), by simp [Node.summary?, hlinks, Except.map]⟩
  | _ => exact ⟨_, rfl⟩

/-! ## §3 Visits -/

/-- A visitor goes on only to the children of the node at which it is. -/
def Visitor.GoesDown {ε : Type} (v : Visitor ε) : Prop :=
  ∀ id node child, Action.visit child ∈ v.actions id node → child ∈ node.children

namespace Forest

theorem runActions_ok {ε : Type} {visit : NodeId → Except ReadFault (List ε)}
    {actions : List (Action ε)}
    (h : ∀ id, Action.visit id ∈ actions → ∃ events, visit id = .ok events) :
    ∃ events, runActions visit actions = .ok events := by
  induction actions with
  | nil => exact ⟨[], rfl⟩
  | cons action actions ih =>
    obtain ⟨rest, hrest⟩ := ih fun id hid => h id (List.mem_cons_of_mem _ hid)
    cases action with
    | report event => exact ⟨event :: rest, by simp [runActions, hrest, Except.map]⟩
    | visit id =>
      obtain ⟨events, hevents⟩ := h id List.mem_cons_self
      exact ⟨events ++ rest, by simp [runActions, hevents, hrest, Except.map]⟩

/-- Every visitor that only goes down comes to an end. -/
theorem WellFormed.visit_ok {f : Forest} (h : f.WellFormed) {ε : Type} {v : Visitor ε}
    (hv : v.GoesDown) {id : NodeId} (hid : ∃ node, f.node? id = some node) :
    ∃ events, f.visit v id = .ok events := by
  refine h.descend_depthBound (P := fun n id => ∃ es, f.visitWithin v n id = .ok es) ?_ hid
  intro n id node hnode ih
  simp only [visitWithin, node_eq_ok hnode]
  exact runActions_ok fun child hchild => ih child (hv id node child hchild)

end Forest

end TensorTree
