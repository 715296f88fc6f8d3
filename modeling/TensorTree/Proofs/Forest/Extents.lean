import Mathlib.Order.Bounds.Basic
import TensorTree.Forest.Shape
import TensorTree.Proofs.Forest.Frame
import TensorTree.Proofs.Forest.Kinds
import TensorTree.Proofs.Forest.Preorder

/-!
# What extents measure

Extents are read off along the first elements only.  If elements that stand side by side have the
same extents at all levels (`Forest.Even`), they measure the tensor as a whole (`Forest.Measures`):
how deep it is nested, how many numbers it holds, and every element as well as the first one.
-/

namespace TensorTree

/-- The number of numbers in a row; other nodes hold none themselves. -/
def Node.rowLength : Node → Nat
  | .denseIntVector values => values.length
  | .denseFloatVector values => values.length
  | _ => 0

namespace Forest

open Relation (ReflTransGen)

variable {f : Forest} {n k : Nat} {id : NodeId} {node : Node} {tensor : Ref .dense}

/-! ## §1 Elements and their extents -/

theorem children_denseNdTensor (elems : List (Ref .dense)) :
    (Node.denseNdTensor elems).children = elems.map Ref.node := by
  simp only [Node.children, Node.slots, List.map_map]
  rfl

theorem elem_mem_children {elems : List (Ref .dense)} {r : Ref .dense} (hr : r ∈ elems) :
    r.node ∈ (Node.denseNdTensor elems).children := by
  rw [children_denseNdTensor]
  exact List.mem_map_of_mem hr

theorem exists_elem_of_mem_children {elems : List (Ref .dense)} {child : NodeId}
    (h : child ∈ (Node.denseNdTensor elems).children) : ∃ r ∈ elems, r.node = child := by
  rw [children_denseNdTensor] at h
  exact List.mem_map.1 h

theorem isChild_elem {id : NodeId} {elems : List (Ref .dense)}
    (hnode : f.node? id = some (.denseNdTensor elems)) {r : Ref .dense} (hr : r ∈ elems) :
    f.IsChild id r.node :=
  ⟨_, hnode, elem_mem_children hr⟩

theorem extents_row {values : List Int}
    (hnode : f.node? tensor.node = some (.denseIntVector values)) :
    f.extents tensor = .ok [values.length] := by
  simp [extents, depthBound, extentsWithin, node_eq_ok hnode]

theorem extents_floatRow {values : List Binary64}
    (hnode : f.node? tensor.node = some (.denseFloatVector values)) :
    f.extents tensor = .ok [values.length] := by
  simp [extents, depthBound, extentsWithin, node_eq_ok hnode]

theorem extents_nil (hnode : f.node? tensor.node = some (.denseNdTensor [])) :
    f.extents tensor = .ok [0] := by
  simp [extents, depthBound, extentsWithin, node_eq_ok hnode]

/-- Deeper levels are measured along the first element. -/
theorem WellFormed.extents_cons (h : f.WellFormed) {elem : Ref .dense} {elems : List (Ref .dense)}
    (hnode : f.node? tensor.node = some (.denseNdTensor (elem :: elems))) :
    f.extents tensor = (f.extents elem).map ((elem :: elems).length :: ·) := by
  have hchild : f.IsChild tensor.node elem.node := isChild_elem hnode List.mem_cons_self
  have hends : f.EndsWithin f.size elem.node := h.endsWithin (h.exists_child hchild)
    (Nat.lt_trans (h.child_lt hchild) (lt_size_of_node? hnode))
  have hsame : f.extentsWithin f.size elem.node = f.extents elem :=
    hends.extentsWithin_eq (.refl f elem.node) (Nat.le_refl _) (Nat.le_succ _)
  rw [extents, depthBound, extentsWithin, node_eq_ok hnode, ← hsame]

/-! ## §2 Nesting -/

/-- How deep a node is nested: the number of nodes on the longest way down from it, which is the
least number within which all ways down end. -/
def NestingDepth (f : Forest) (id : NodeId) (depth : Nat) : Prop :=
  IsLeast {n | f.EndsWithin n id} depth

theorem endsWithin_succ_iff (hnode : f.node? id = some node) :
    f.EndsWithin (n + 1) id ↔ ∀ child ∈ node.children, f.EndsWithin n child := by
  constructor
  · intro h
    cases h with
    | step found below =>
      obtain rfl := Option.some.inj ((node?_of_found found).symm.trans hnode)
      exact below
  · intro h
    obtain ⟨e, found, rfl⟩ := Option.map_eq_some_iff.1 hnode
    exact .step found h

theorem EndsWithin.exists_succ (h : f.EndsWithin n id) : ∃ m, n = m + 1 := by
  cases h with
  | step => exact ⟨_, rfl⟩

/-- A node without children has depth one. -/
theorem nestingDepth_leaf (hnode : f.node? id = some node) (hnil : node.children = []) :
    f.NestingDepth id 1 := by
  constructor
  · apply (endsWithin_succ_iff hnode).2
    simp [hnil]
  · intro n hn
    obtain ⟨m, rfl⟩ := EndsWithin.exists_succ hn
    exact Nat.le_add_left 1 m

/-- A node is nested one deeper than its children, if these are nested alike. -/
theorem nestingDepth_parent (hnode : f.node? id = some node) {child : NodeId}
    (hchild : child ∈ node.children) (hdepth : ∀ c ∈ node.children, f.NestingDepth c k) :
    f.NestingDepth id (k + 1) := by
  constructor
  · apply (endsWithin_succ_iff hnode).2
    exact fun c hc => (hdepth c hc).1
  · -- a way down through any one of the children is long enough
    intro n hn
    obtain ⟨m, rfl⟩ := EndsWithin.exists_succ hn
    have hbelow : f.EndsWithin m child := (endsWithin_succ_iff hnode).1 hn child hchild
    exact Nat.succ_le_succ ((hdepth child hchild).2 hbelow)

/-! ## §3 Numbers -/

/-- How many numbers a walk meets in the rows at and below a node.  A row that several elements
share is met once for each of them. -/
def numberCount (f : Forest) (id : NodeId) : Nat :=
  ((f.preorder id).map fun below => ((f.node? below).map Node.rowLength).getD 0).sum

/-- A node holds its own numbers and those of its children. -/
theorem WellFormed.numberCount_eq (h : f.WellFormed) (hnode : f.node? id = some node) :
    f.numberCount id = node.rowLength + (node.children.map f.numberCount).sum := by
  rw [numberCount, h.preorder_eq hnode, List.map_cons, List.sum_cons, hnode, List.map_flatMap,
    List.flatMap_def, List.sum_flatten, List.map_map]
  rfl

/-! ## §4 Even tensors -/

/-- Elements that stand side by side have the same extents, at the tensor itself and at all levels
below. -/
def Even (f : Forest) (tensor : Ref .dense) : Prop :=
  ∀ below elems, ReflTransGen f.IsChild tensor.node below →
    f.node? below = some (.denseNdTensor elems) →
      ∀ a ∈ elems, ∀ b ∈ elems, f.extents a = f.extents b

/-- The elements of an even tensor are even. -/
theorem Even.elem (heven : f.Even tensor) {elems : List (Ref .dense)}
    (hnode : f.node? tensor.node = some (.denseNdTensor elems)) {r : Ref .dense} (hr : r ∈ elems) :
    f.Even r :=
  fun below elems hbelow => heven below elems (hbelow.head (isChild_elem hnode hr))

/-- What the extents of a tensor tell about it. -/
structure Measures (f : Forest) (tensor : Ref .dense) (s : List Nat) : Prop where
  extents : f.extents tensor = .ok s
  /-- There are as many extents as levels. -/
  depth : f.NestingDepth tensor.node s.length
  /-- Their product is the number of numbers. -/
  prod : s.prod = f.numberCount tensor.node
  /-- All but the first are the extents of every element. -/
  tail : ∀ elems, f.node? tensor.node = some (.denseNdTensor elems) →
    ∀ r ∈ elems, f.extents r = .ok s.tail

/-- Rows and tensors without elements have a single level. -/
theorem WellFormed.measures_leaf (h : f.WellFormed) (hnode : f.node? tensor.node = some node)
    (hnil : node.children = []) (hextents : f.extents tensor = .ok [node.rowLength]) :
    f.Measures tensor [node.rowLength] where
  extents := hextents
  depth := nestingDepth_leaf hnode hnil
  prod := by
    rw [h.numberCount_eq hnode, hnil]
    simp
  tail := by
    intro elems helems r hr
    obtain rfl := Option.some.inj (hnode.symm.trans helems)
    have hmem := elem_mem_children hr
    rw [hnil] at hmem
    cases hmem

/-- A tensor is measured by the number of its elements and the extents that all of them have. -/
theorem WellFormed.measures_level (h : f.WellFormed) {elem : Ref .dense} {elems : List (Ref .dense)}
    (hnode : f.node? tensor.node = some (.denseNdTensor (elem :: elems))) {s : List Nat}
    (helems : ∀ r ∈ elem :: elems, f.Measures r s) :
    f.Measures tensor ((elem :: elems).length :: s) where
  extents := by
    rw [h.extents_cons hnode, (helems elem List.mem_cons_self).extents]
    rfl
  depth := by
    apply nestingDepth_parent hnode (elem_mem_children List.mem_cons_self)
    intro child hchild
    obtain ⟨r, hr, rfl⟩ := exists_elem_of_mem_children hchild
    exact (helems r hr).depth
  prod := by
    -- every element holds as many numbers as its extents say
    have hcounts : (Node.denseNdTensor (elem :: elems)).children.map f.numberCount =
        (elem :: elems).map fun _ => s.prod := by
      rw [children_denseNdTensor, List.map_map]
      exact List.map_congr_left fun r hr => (helems r hr).prod.symm
    rw [h.numberCount_eq hnode, hcounts, List.map_const', List.sum_replicate_nat, List.prod_cons]
    exact (Nat.zero_add _).symm
  tail := by
    intro elems' helems' r hr
    obtain ⟨rfl⟩ := Node.denseNdTensor.inj (Option.some.inj (hnode.symm.trans helems'))
    exact (helems r hr).extents

/-- An even tensor with elements is measured if its elements are: all of them have the extents of
the first one. -/
theorem WellFormed.exists_measures_level (h : f.WellFormed) (heven : f.Even tensor)
    {elem : Ref .dense} {elems : List (Ref .dense)}
    (hnode : f.node? tensor.node = some (.denseNdTensor (elem :: elems)))
    (helems : ∀ r ∈ elem :: elems, ∃ s, f.Measures r s) : ∃ s, f.Measures tensor s := by
  obtain ⟨s, hfirst⟩ := helems elem List.mem_cons_self
  refine ⟨_, h.measures_level hnode (s := s) fun r hr => ?_⟩
  obtain ⟨other, hother⟩ := helems r hr
  have hsame : f.extents r = f.extents elem :=
    heven _ _ .refl hnode r hr elem List.mem_cons_self
  rw [hother.extents, hfirst.extents] at hsame
  obtain rfl := Except.ok.inj hsame
  exact hother

/-- Nothing but a tensor stands in the place of one. -/
theorem wider?_ne_dense (role : Role) : role.wider? ≠ some .dense := by
  cases role <;> nofun

/-- Every even tensor is measured by its extents. -/
theorem WellFormed.exists_measures (h : f.WellFormed) (hf : f.Fitted)
    (hnode : f.node? tensor.node = some node) (hrole : node.variant.role = .dense)
    (heven : f.Even tensor) : ∃ s, f.Measures tensor s := by
  refine h.descend_depthBound (P := fun _ id => ∀ node, f.node? id = some node →
    node.variant.role = .dense → f.Even ⟨id⟩ → ∃ s, f.Measures ⟨id⟩ s) ?_ ⟨node, hnode⟩
    node hnode hrole heven
  intro _ id node hnode ih other hother hrole heven
  obtain rfl := Option.some.inj (hnode.symm.trans hother)
  cases node with
  | denseIntVector values => exact ⟨_, h.measures_leaf hnode rfl (extents_row hnode)⟩
  | denseFloatVector values => exact ⟨_, h.measures_leaf hnode rfl (extents_floatRow hnode)⟩
  | denseNdTensor elems =>
    cases elems with
    | nil => exact ⟨_, h.measures_leaf hnode rfl (extents_nil hnode)⟩
    | cons elem elems =>
      apply h.exists_measures_level heven hnode
      intro r hr
      -- what stands in the place of an element is a tensor again
      obtain ⟨filler, hfiller, hdense⟩ :=
        hf.exists_filler hnode (List.mem_map_of_mem hr) wider?_ne_dense
      exact ih r.node (elem_mem_children hr) filler hfiller hdense (heven.elem hnode hr)
  | callable kind => cases kind <;> cases hrole
  | _ => cases hrole

end Forest

/-! ## §5 Sessions -/

namespace Session

/-- After attempts at changes that refer only to what was handed out before: the extents of every
tensor that was handed out measure it, if elements that stand side by side have the same extents at
all of its levels. -/
theorem exists_measures_of_run {cs : List Change} (hown : start.OwnHandles cs) {tensor : Ref .dense}
    (hhandle : tensor.handle ∈ (start.run cs).handles)
    (heven : (start.run cs).forest.Even tensor) :
    ∃ s, (start.run cs).forest.Measures tensor s := by
  have hsound := sound_run cs
  obtain ⟨node, hnode, hrole⟩ := (hsound.mem_handles_iff tensor.handle).1 hhandle
  exact hsound.admitted.wellFormed.exists_measures (fitted_run hown) hnode hrole heven

/-- Two matrices of one row of integers and one of floating-point numbers, in front of a third one
that has the same rows the other way round. -/
def stackOfMatrices : List Change :=
  [.insert ⟨⟨1, 2⟩, ⟨1, 8⟩⟩ (.denseIntVector [1, 2, 3]),
    .insert ⟨⟨1, 11⟩, ⟨1, 23⟩⟩ (.denseFloatVector [.ofBits 0, .ofBits 1, .ofBits 2]),
    .insert ⟨⟨1, 2⟩, ⟨1, 23⟩⟩ (.denseNdTensor [⟨⟨0⟩⟩, ⟨⟨1⟩⟩]),
    .insert ⟨⟨1, 50⟩, ⟨1, 70⟩⟩ (.denseNdTensor [⟨⟨1⟩⟩, ⟨⟨0⟩⟩]),
    .insert ⟨⟨1, 2⟩, ⟨1, 70⟩⟩ (.denseNdTensor [⟨⟨2⟩⟩, ⟨⟨2⟩⟩, ⟨⟨3⟩⟩])]

theorem even_stackOfMatrices : (start.run stackOfMatrices).forest.Even ⟨⟨4⟩⟩ := by
  have hlevels : ∀ below ∈ [⟨0⟩, ⟨1⟩, ⟨2⟩, ⟨3⟩, (⟨4⟩ : NodeId)],
      ∀ a ∈ (start.run stackOfMatrices).forest.childrenAt below,
        ∀ b ∈ (start.run stackOfMatrices).forest.childrenAt below,
          (start.run stackOfMatrices).forest.extents ⟨a⟩ =
            (start.run stackOfMatrices).forest.extents ⟨b⟩ := by decide +kernel
  intro below elems hbelow hnode a ha b hb
  have hmem : below ∈ [⟨0⟩, ⟨1⟩, ⟨2⟩, ⟨3⟩, (⟨4⟩ : NodeId)] :=
    Forest.mem_of_reflTransGen (by decide) (by decide) hbelow
  have hchildren := Forest.childrenAt_eq hnode
  apply hlevels below hmem a.node _ b.node
  all_goals rw [hchildren]
  · exact Forest.elem_mem_children hb
  · exact Forest.elem_mem_children ha

/-- The six numbers of the two rows are met three times each. -/
theorem measures_stackOfMatrices :
    (start.OwnHandles stackOfMatrices ∧
      (⟨⟨4⟩⟩ : Ref .dense).handle ∈ (start.run stackOfMatrices).handles ∧
      (start.run stackOfMatrices).forest.Even ⟨⟨4⟩⟩) ∧
      (start.run stackOfMatrices).forest.Measures ⟨⟨4⟩⟩ [3, 2, 3] := by
  have hown : start.OwnHandles stackOfMatrices := by decide
  have hhandle : (⟨⟨4⟩⟩ : Ref .dense).handle ∈ (start.run stackOfMatrices).handles := by decide
  have heven := even_stackOfMatrices
  obtain ⟨s, hs⟩ := exists_measures_of_run hown hhandle heven
  have hextents : (start.run stackOfMatrices).forest.extents ⟨⟨4⟩⟩ = .ok [3, 2, 3] := by
    decide +kernel
  obtain rfl := Except.ok.inj (hs.extents.symm.trans hextents)
  exact ⟨⟨hown, hhandle, heven⟩, hs⟩

end Session

end TensorTree
