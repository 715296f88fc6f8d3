import Mathlib.Logic.Relation
import TensorTree.Proofs.Forest.Session

/-!
# The order of nodes

Whatever is done in a session, every node was accepted by a forest that held exactly the nodes
before it (`Forest.Admitted`).  All that the builder checks is read off this one invariant
(`Forest.Admitted.wellFormed`): children come before their parents, so nothing lies below itself,
and every node has the form that its readers rely on.  Handles are numbered in the order in which
they were handed out.
-/

namespace TensorTree

namespace Forest

/-! ## §1 Well-formed forests -/

/-- A node refers to another one. -/
def IsChild (f : Forest) (parent child : NodeId) : Prop :=
  ∃ node, f.node? parent = some node ∧ child ∈ node.children

/-- Children come before their parents, and every node has the form that readers rely on. -/
structure WellFormed (f : Forest) : Prop where
  child_lt {parent child : NodeId} : f.IsChild parent child → child.index < parent.index
  targets_ne_nil {id : NodeId} {targets : List (Ref .expr)} {value : Ref .expr} :
    f.node? id = some (.assignStmt targets value) → targets ≠ []
  operands_length {id : NodeId} {operands : List (Ref .expr)} {ops : List ComparisonOp} :
    f.node? id = some (.eqExpr operands ops) → operands.length = ops.length + 1
  indexSets_ne_nil {id : NodeId} {indexSets : List (Ref .indexSet)} {block : Ref .type}
      {transposed : Bool} :
    f.node? id = some (.nonScalarTensorType indexSets block transposed) → indexSets ≠ []
  block_isTensorType {id : NodeId} {indexSets : List (Ref .indexSet)} {block : Ref .type}
      {transposed : Bool} :
    f.node? id = some (.nonScalarTensorType indexSets block transposed) →
      ∃ node, f.node? block.node = some node ∧ node.variant.isTensorType = true

namespace WellFormed

variable {f : Forest}

theorem exists_child (h : f.WellFormed) {parent child : NodeId} (hc : f.IsChild parent child) :
    ∃ node, f.node? child = some node := by
  obtain ⟨node, hp, -⟩ := id hc
  have hlt : child.index < parent.index := h.child_lt hc
  exact (f.node?_isSome_iff child).2 (Nat.lt_trans hlt (lt_size_of_node? hp))

theorem lt_of_transGen (h : f.WellFormed) {a b : NodeId}
    (hab : Relation.TransGen f.IsChild a b) : b.index < a.index := by
  -- induction on the length of the descent; the last step falls, and so do all before it
  induction hab with
  | single hc => exact h.child_lt hc
  | tail _ hc ih => exact Nat.lt_trans (h.child_lt hc) ih

/-- What a descent of one more step has at a node as soon as a descent has it at all children, any
descent has that is allowed more steps than the number of its first node.  This is the one induction
behind every bounded reader. -/
theorem descend (h : f.WellFormed) {P : Nat → NodeId → Prop}
    (step : ∀ n id node, f.node? id = some node → (∀ child ∈ node.children, P n child) →
      P (n + 1) id)
    {n : Nat} {id : NodeId} (hid : ∃ node, f.node? id = some node) (hn : id.index < n) :
    P n id := by
  induction n generalizing id with
  | zero => exact absurd hn (Nat.not_lt_zero _)
  | succ n ih =>
    obtain ⟨node, hnode⟩ := hid
    refine step n id node hnode fun child hchild => ?_
    have hc : f.IsChild id child := ⟨node, hnode, hchild⟩
    exact ih (h.exists_child hc) (Nat.lt_of_lt_of_le (h.child_lt hc) (Nat.le_of_lt_succ hn))

/-- The bound on descents is large enough for every node. -/
theorem descend_depthBound (h : f.WellFormed) {P : Nat → NodeId → Prop}
    (step : ∀ n id node, f.node? id = some node → (∀ child ∈ node.children, P n child) →
      P (n + 1) id)
    {id : NodeId} (hid : ∃ node, f.node? id = some node) : P f.depthBound id :=
  h.descend step hid (Nat.lt_succ_of_lt ((f.node?_isSome_iff id).1 hid))

theorem acyclic (h : f.WellFormed) (a : NodeId) : ¬ Relation.TransGen f.IsChild a a :=
  fun hab => Nat.lt_irrefl _ (h.lt_of_transGen hab)

end WellFormed

/-! ## §2 Accepted nodes -/

/-- Every node of a forest is in another one under the same number. -/
def Within (g f : Forest) : Prop := ∀ id node, g.node? id = some node → f.node? id = some node

/-- Every node was accepted by a forest of the nodes before it. -/
def Admitted (f : Forest) : Prop :=
  ∀ id node, f.node? id = some node →
    ∃ (g : Forest) (span : Span),
      g.size = id.index ∧ g.Within f ∧ g.buildError? span node = none

theorem within_snoc (f : Forest) (e : Entry) : f.Within (f.snoc e) := by
  intro id node h
  have hne : id ≠ f.nodes.nextId := by
    rintro rfl
    exact Nat.lt_irrefl _ (lt_size_of_node? h)
  rw [node?_snoc, if_neg hne, h]

theorem Within.trans {f g h : Forest} (hfg : f.Within g) (hgh : g.Within h) : f.Within h :=
  fun id node hid => hgh id node (hfg id node hid)

theorem admitted_empty : empty.Admitted := fun id node h => by simp at h

theorem Admitted.congr {f g : Forest} (hf : f.Admitted) (same : ∀ id, g.node? id = f.node? id) :
    g.Admitted := by
  intro id node h
  obtain ⟨k, span, hsize, hwithin, haccepted⟩ := hf id node (same id ▸ h)
  exact ⟨k, span, hsize, fun id' node' h' => (same id').trans (hwithin id' node' h'), haccepted⟩

theorem Admitted.snoc {f : Forest} (hf : f.Admitted) {span : Span} {node : Node}
    (accepted : f.buildError? span node = none) : (f.snoc ⟨span, node⟩).Admitted := by
  intro id other h
  rw [node?_snoc] at h
  split at h
  -- the new node was accepted by `f` itself, any other node by what accepted it in `f`
  next hid =>
    obtain rfl := Option.some.inj h
    exact ⟨f, span, by rw [hid]; rfl, within_snoc f _, accepted⟩
  next =>
    obtain ⟨g, span', hsize, hwithin, haccepted⟩ := hf id other h
    exact ⟨g, span', hsize, hwithin.trans (within_snoc f _), haccepted⟩

/-! ### What acceptance says about the form of a node -/

theorem formError?_assignStmt {span : Span} {targets : List (Ref .expr)} {value : Ref .expr}
    (h : (Node.assignStmt targets value).formError? span = none) : targets ≠ [] := by
  rintro rfl
  simp [Node.formError?] at h

theorem formError?_eqExpr {span : Span} {operands : List (Ref .expr)} {ops : List ComparisonOp}
    (h : (Node.eqExpr operands ops).formError? span = none) :
    operands.length = ops.length + 1 := by
  simp only [Node.formError?, ite_eq_right_iff, reduceCtorEq, imp_false, Bool.or_eq_true,
    bne_iff_ne, ne_eq, not_or, Decidable.not_not] at h
  exact h.2.symm

theorem formError?_nonScalarTensorType {span : Span} {indexSets : List (Ref .indexSet)}
    {block : Ref .type} {transposed : Bool}
    (h : (Node.nonScalarTensorType indexSets block transposed).formError? span = none) :
    indexSets ≠ [] := by
  rintro rfl
  simp [Node.formError?] at h

/-- Where all children of a tensor type exist, its block does. -/
theorem exists_node?_block {f : Forest} {indexSets : List (Ref .indexSet)} {block : Ref .type}
    {transposed : Bool}
    (hchildren : ∀ child ∈ (Node.nonScalarTensorType indexSets block transposed).children,
      child.index < f.size) : ∃ node, f.node? block.node = some node :=
  (f.node?_isSome_iff block.node).2
    (hchildren block.node (by simp [Node.children, Node.slots, Ref.slot]))

/-- The block of an accepted tensor type exists and is a tensor type. -/
theorem exists_block {f : Forest} {span : Span} {indexSets : List (Ref .indexSet)}
    {block : Ref .type} {transposed : Bool}
    (h : f.buildError? span (.nonScalarTensorType indexSets block transposed) = none) :
    ∃ node, f.node? block.node = some node ∧ node.variant.isTensorType = true := by
  obtain ⟨hchildren, -, hblock⟩ := (buildError?_eq_none_iff ..).1 h
  obtain ⟨node, hnode⟩ := exists_node?_block hchildren
  refine ⟨node, hnode, ?_⟩
  simpa [blockError?, hnode] using hblock

/-- All that readers rely on follows from acceptance. -/
theorem Admitted.wellFormed {f : Forest} (hf : f.Admitted) : f.WellFormed where
  child_lt := by
    rintro parent child ⟨node, hp, hc⟩
    obtain ⟨g, span, hsize, -, haccepted⟩ := hf parent node hp
    have hchildren := ((buildError?_eq_none_iff ..).1 haccepted).1
    exact hsize ▸ hchildren child hc
  targets_ne_nil h := by
    obtain ⟨g, span, -, -, haccepted⟩ := hf _ _ h
    exact formError?_assignStmt ((buildError?_eq_none_iff ..).1 haccepted).2.1
  operands_length h := by
    obtain ⟨g, span, -, -, haccepted⟩ := hf _ _ h
    exact formError?_eqExpr ((buildError?_eq_none_iff ..).1 haccepted).2.1
  indexSets_ne_nil h := by
    obtain ⟨g, span, -, -, haccepted⟩ := hf _ _ h
    exact formError?_nonScalarTensorType ((buildError?_eq_none_iff ..).1 haccepted).2.1
  block_isTensorType h := by
    obtain ⟨g, span, -, hwithin, haccepted⟩ := hf _ _ h
    obtain ⟨node, hnode, htensor⟩ := exists_block haccepted
    exact ⟨node, hwithin _ _ hnode, htensor⟩

end Forest

/-! ## §3 Runs -/

namespace Session

/-- What every session keeps: each node was accepted, the handles are numbered in order, and they
are exactly the handles of the nodes. -/
structure Sound (s : Session) : Prop where
  admitted : s.forest.Admitted
  indices : s.handles.map (fun h => h.node.index) = List.range s.forest.size
  mem_handles_iff (h : Handle) :
    h ∈ s.handles ↔ ∃ node, s.forest.node? h.node = some node ∧ node.variant.role = h.role

theorem sound_start : start.Sound where
  admitted := Forest.admitted_empty
  indices := rfl
  mem_handles_iff h := by simp [start]

theorem Sound.apply {s : Session} (hs : s.Sound) (c : Change) : (s.apply c).Sound := by
  have heffect := effect_apply s c
  generalize s.apply c = t at heffect
  cases heffect with
  | refused => exact hs
  | @inserted span node accepted =>
    refine ⟨hs.admitted.snoc accepted, ?_, fun h => ?_⟩
    · rw [List.map_append, hs.indices, Forest.size_snoc, List.range_succ]
      rfl
    · rw [List.mem_append, hs.mem_handles_iff, List.mem_singleton, Forest.node?_snoc]
      by_cases hid : h.node = s.forest.nodes.nextId
      · -- the number of the new handle is that of no node so far
        have hnone : s.forest.node? h.node = none := by
          rw [Option.eq_none_iff_forall_ne_some]
          intro other hother
          rw [hid] at hother
          exact Nat.lt_irrefl _ (Forest.lt_size_of_node? hother)
        rw [hnone, if_pos hid]
        obtain ⟨role, id⟩ := h
        obtain rfl : id = s.forest.nodes.nextId := hid
        simp [eq_comm]
      · have hne : h ≠ ⟨node.variant.role, s.forest.nodes.nextId⟩ := by
          rintro rfl
          exact hid rfl
        simp [hid, hne]
  | respanned found span =>
    have same := Forest.node?_respan found span
    refine ⟨hs.admitted.congr same, ?_, fun h => ?_⟩
    · rw [Forest.size_respan]
      exact hs.indices
    · rw [same]
      exact hs.mem_handles_iff h
  | rooted program => exact ⟨hs.admitted.congr fun _ => rfl, hs.indices, hs.mem_handles_iff⟩

theorem sound_run (cs : List Change) : (start.run cs).Sound :=
  run_induction (fun _ c hs => hs.apply c) sound_start cs

/-- After any attempts at changes, children come before their parents, nothing lies below itself,
every node has the form that readers rely on, and handles are numbered in the order in which they
are handed out, each with the number of nodes that there were before. -/
theorem forest_wellFormed_of_run (cs : List Change) :
    (start.run cs).forest.WellFormed ∧
      (∀ id, ¬ Relation.TransGen (start.run cs).forest.IsChild id id) ∧
      (start.run cs).handles.map (fun h => h.node.index) =
        List.range (start.run cs).forest.size ∧
      ∀ span node handle forest,
        (start.run cs).forest.insert span node = .ok (handle, forest) →
          handle.node.index = (start.run cs).forest.size ∧
            forest.size = (start.run cs).forest.size + 1 := by
  have hsound := sound_run cs
  have hwell := hsound.admitted.wellFormed
  refine ⟨hwell, hwell.acyclic, hsound.indices, ?_⟩
  intro span node handle forest hinsert
  obtain ⟨-, rfl, rfl⟩ := (Forest.insert_eq_ok_iff ..).1 hinsert
  exact ⟨rfl, Forest.size_snoc _ _⟩

end Session

end TensorTree
