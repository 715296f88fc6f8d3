import Mathlib.Data.List.Forall2
import Mathlib.Tactic.Choose
import TensorTree.Proofs.Forest.Preorder
import TensorTree.Visit.Recorder

/-!
# Walks at different levels

A visitor can hook in at single variants, at binary expressions, at families or at all nodes.  A
visitor that reports each node and goes on with its children meets the nodes in the order of the
recursive walk (`Forest.WellFormed.visit_of_reportsEach`), at whatever level it hooks in.  What it
is told at each node agrees between the levels (`Session.walksAlike_of_run`).
-/

namespace TensorTree

/-! ## §1 What hooks get -/

/-- The reference that a hook gets has the role in which the node was handed out. -/
theorem Variant.received_eq_role (v : Variant) : v.received = v.role := by
  cases v with
  | callable kind => cases kind <;> rfl
  | _ => rfl

/-! ## §2 Walks -/

/-- At every node the visitor reports an event and goes on with the children. -/
def Visitor.ReportsEach {ε : Type} (v : Visitor ε) (eventOf : NodeId → Node → ε) : Prop :=
  ∀ id node, v.actions id node = .report (eventOf id node) :: node.visitChildren

namespace Forest

theorem forall₂_flatMap {α β γ : Type} {R : α → β → Prop} {as : γ → List α} {bs : γ → List β}
    {l : List γ} (h : ∀ c ∈ l, List.Forall₂ R (as c) (bs c)) :
    List.Forall₂ R (l.flatMap as) (l.flatMap bs) := by
  induction l with
  | nil => exact .nil
  | cons c l ih =>
    rw [List.forall_mem_cons] at h
    rw [List.flatMap_cons, List.flatMap_cons]
    exact List.rel_append h.1 (ih h.2)

/-- A visitor that reports each node and goes on with the children reports the nodes in the order of
the recursive walk. -/
theorem WellFormed.visit_of_reportsEach {f : Forest} (h : f.WellFormed) {ε : Type} {v : Visitor ε}
    {eventOf : NodeId → Node → ε} (hv : v.ReportsEach eventOf) {Tells : NodeId → ε → Prop}
    (htells : ∀ id node, f.node? id = some node → Tells id (eventOf id node)) {id : NodeId}
    (hid : ∃ node, f.node? id = some node) :
    ∃ events, f.visit v id = .ok events ∧ List.Forall₂ Tells (f.preorder id) events := by
  refine h.descend_depthBound
    (P := fun n id => ∃ events, f.visitWithin v n id = .ok events ∧
      List.Forall₂ Tells (f.preorderWithin n id) events) ?_ hid
  intro n id node hnode ih
  choose! eventsOf hvisit hevents using ih
  refine ⟨eventOf id node :: node.children.flatMap eventsOf, ?_, ?_⟩
  · have hchildren := runActions_visitChildren node hvisit
    simp only [visitWithin, node_eq_ok hnode, hv id node, runActions, hchildren, Except.map]
  · rw [preorderWithin, childrenAt_eq hnode]
    exact .cons (htells id node hnode) (forall₂_flatMap hevents)

end Forest

/-! ## §3 What visitors are told -/

namespace Forest

/-- The hook for all nodes is told the variant of the node. -/
inductive TellsNode (f : Forest) (id : NodeId) : Event → Prop where
  | node {variant : Variant} (hvariant : f.variant id = .ok variant) :
      TellsNode f id (.node id variant)

/-- The hooks for families are told the nodes of their families; only programs are left to the hook
for all nodes. -/
inductive TellsFamily (f : Forest) (id : NodeId) : Event → Prop where
  | family {variant : Variant} (hvariant : f.variant id = .ok variant)
      (hother : variant ≠ .program) : TellsFamily f id (.family variant.family id)
  | program (hvariant : f.variant id = .ok .program) : TellsFamily f id (.node id .program)

/-- The hook for sums is told sums with their operands, that for binary expressions is told all
others with operator and operands, and the hook for all nodes is told the rest.  The operands are
the children, from left to right. -/
inductive TellsOperator (f : Forest) (id : NodeId) : Event → Prop where
  | sum {lhs rhs : NodeId} (hvariant : f.variant id = .ok (.binary .add))
      (hchildren : f.children id = .ok [lhs, rhs]) : TellsOperator f id (.sum id lhs rhs)
  | binary {op : BinaryOp} {lhs rhs : NodeId} (hop : f.binaryOp? ⟨id⟩ = .ok (some op))
      (hother : op ≠ .add) (hchildren : f.children id = .ok [lhs, rhs]) :
      TellsOperator f id (.binary op id lhs rhs)
  | node {variant : Variant} (hop : f.binaryOp? ⟨id⟩ = .ok none)
      (hvariant : f.variant id = .ok variant) : TellsOperator f id (.node id variant)

end Forest

/-- The hooks for variants are told the variant of the node and the handle that was handed out for
it. -/
inductive Session.TellsVariant (s : Session) (id : NodeId) : Event → Prop where
  | variant {variant : Variant} {handle : Handle} (hvariant : s.forest.variant id = .ok variant)
      (hmem : handle ∈ s.handles) (hnode : handle.node = id) :
      TellsVariant s id (.variant variant handle)

namespace Event

/-- What the hooks for families and for all nodes report. -/
def ofFamily (id : NodeId) (node : Node) : Event :=
  if node.variant = .program then .node id .program else .family node.variant.family id

/-- What the hooks for sums, for binary expressions and for all nodes report. -/
def ofOperator (id : NodeId) : Node → Event
  | .binary .add lhs rhs => .sum id lhs.node rhs.node
  | .binary op lhs rhs => .binary op id lhs.node rhs.node
  | other => .node id other.variant

end Event

namespace Visitor

theorem reportsEach_nodes : nodes.ReportsEach fun id node => .node id node.variant := by
  intro id node
  cases node <;> rfl

theorem reportsEach_families : (families true).ReportsEach Event.ofFamily := by
  intro id node
  cases node <;> rfl

theorem reportsEach_variants : variants.ReportsEach fun id node =>
    .variant node.variant ⟨node.variant.received, id⟩ := by
  intro id node
  cases node <;> rfl

theorem reportsEach_operators : operators.ReportsEach Event.ofOperator := by
  intro id node
  cases node with
  | binary op lhs rhs => cases op <;> rfl
  | _ => rfl

end Visitor

/-! ## §4 Sessions -/

namespace Session

/-- All visitors that descend meet the nodes of the recursive walk in its order, and at each node
they are told what belongs to their level. -/
structure WalksAlike (s : Session) (id : NodeId) : Prop where
  order : ∀ below node, s.forest.node? below = some node →
    s.forest.preorder below = below :: node.children.flatMap s.forest.preorder
  nodes : ∃ events, s.forest.visit .nodes id = .ok events ∧
    List.Forall₂ s.forest.TellsNode (s.forest.preorder id) events
  families : ∃ events, s.forest.visit (.families true) id = .ok events ∧
    List.Forall₂ s.forest.TellsFamily (s.forest.preorder id) events
  variants : ∃ events, s.forest.visit .variants id = .ok events ∧
    List.Forall₂ s.TellsVariant (s.forest.preorder id) events
  operators : ∃ events, s.forest.visit .operators id = .ok events ∧
    List.Forall₂ s.forest.TellsOperator (s.forest.preorder id) events

variable {s : Session} {id : NodeId} {node : Node}

theorem variant_eq_ok (hnode : s.forest.node? id = some node) :
    s.forest.variant id = .ok node.variant := by
  rw [Forest.variant, Forest.node_eq_ok hnode]
  rfl

theorem tellsFamily_of_node? (hnode : s.forest.node? id = some node) :
    s.forest.TellsFamily id (.ofFamily id node) := by
  have hvariant := variant_eq_ok hnode
  unfold Event.ofFamily
  by_cases hprogram : node.variant = .program
  · rw [if_pos hprogram]
    exact .program (hvariant.trans (congrArg _ hprogram))
  · rw [if_neg hprogram]
    exact .family hvariant hprogram

theorem Sound.tellsVariant (hs : s.Sound) (hnode : s.forest.node? id = some node) :
    s.TellsVariant id (.variant node.variant ⟨node.variant.received, id⟩) := by
  apply TellsVariant.variant (variant_eq_ok hnode) _ rfl
  -- what was handed out for the node has the role that its variant fixes
  rw [Variant.received_eq_role]
  exact (hs.mem_handles_iff _).2 ⟨node, hnode, rfl⟩

theorem tellsOperator_of_node? (hnode : s.forest.node? id = some node) :
    s.forest.TellsOperator id (.ofOperator id node) := by
  have hvariant := variant_eq_ok hnode
  have hop : s.forest.binaryOp? ⟨id⟩ = .ok node.binaryOp? := by
    rw [Forest.binaryOp?, Forest.node_eq_ok hnode]
    rfl
  have hchildren : s.forest.children id = .ok node.children := by
    rw [Forest.children, Forest.node_eq_ok hnode]
    rfl
  cases node with
  | binary op lhs rhs =>
    cases op with
    | add => exact .sum hvariant hchildren
    | _ => exact .binary hop (by simp) hchildren
  | _ => exact .node hop hvariant

/-- After any attempts at changes, visitors that report a node and go on with its children meet the
same nodes in the same order from every node that exists, whether they hook in at all nodes, at
families, at variants or at sums and binary expressions; and what they are told at a node agrees
with what the forest says about it. -/
theorem walksAlike_of_run (cs : List Change) (id : NodeId) (node : Node)
    (hid : (start.run cs).forest.node? id = some node) : (start.run cs).WalksAlike id := by
  have hsound := sound_run cs
  have hwell := hsound.admitted.wellFormed
  constructor
  case order => exact fun below node hbelow => hwell.preorder_eq hbelow
  case nodes =>
    exact hwell.visit_of_reportsEach Visitor.reportsEach_nodes
      (fun _ _ hnode => .node (variant_eq_ok hnode)) ⟨node, hid⟩
  case families =>
    exact hwell.visit_of_reportsEach Visitor.reportsEach_families
      (fun _ _ hnode => tellsFamily_of_node? hnode) ⟨node, hid⟩
  case variants =>
    exact hwell.visit_of_reportsEach Visitor.reportsEach_variants
      (fun _ _ hnode => hsound.tellsVariant hnode) ⟨node, hid⟩
  case operators =>
    exact hwell.visit_of_reportsEach Visitor.reportsEach_operators
      (fun _ _ hnode => tellsOperator_of_node? hnode) ⟨node, hid⟩

/-- A program that evaluates the product of a sum of two variables with the second one of them. -/
def scaledSum : List Change :=
  [.insert ⟨⟨1, 2⟩, ⟨1, 2⟩⟩ (.varExpr "x"),
    .insert ⟨⟨1, 6⟩, ⟨1, 6⟩⟩ (.varExpr "y"),
    .insert .unset (.binary .add ⟨⟨0⟩⟩ ⟨⟨1⟩⟩),
    .insert .unset (.binary .mul ⟨⟨2⟩⟩ ⟨⟨1⟩⟩),
    .insert ⟨⟨1, 1⟩, ⟨1, 12⟩⟩ (.exprStmt ⟨⟨3⟩⟩),
    .insert ⟨⟨1, 1⟩, ⟨1, 12⟩⟩ (.program [⟨4⟩])]

/-- The walks from the program meet the operands of the sum from left to right, and the second one
again as a factor. -/
theorem walksAlike_scaledSum :
    (start.run scaledSum).forest.node? ⟨5⟩ = some (.program [⟨4⟩]) ∧
      (start.run scaledSum).forest.visit .operators ⟨5⟩ =
        .ok [.node ⟨5⟩ .program, .node ⟨4⟩ .exprStmt, .binary .mul ⟨3⟩ ⟨2⟩ ⟨1⟩, .sum ⟨2⟩ ⟨0⟩ ⟨1⟩,
          .node ⟨0⟩ .varExpr, .node ⟨1⟩ .varExpr, .node ⟨1⟩ .varExpr] ∧
      (start.run scaledSum).WalksAlike ⟨5⟩ := by
  have hnode : (start.run scaledSum).forest.node? ⟨5⟩ = some (.program [⟨4⟩]) := by decide
  exact ⟨hnode, by rfl, walksAlike_of_run scaledSum ⟨5⟩ _ hnode⟩

end Session

end TensorTree
