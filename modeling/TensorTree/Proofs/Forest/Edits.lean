import TensorTree.Proofs.Forest.Session

/-!
# Edits

An edit is a change or replaces the contents of a node.  The replacement only has to be of the same
variant, so an edited forest need not be well-formed: what was put in may refer to nodes that were
added later, to nodes that do not exist, or to the node itself.

An edit writes at one number at most (`Edit.target?`); entries under other numbers stay as they are
(`Session.entry?_amendAll`).
-/

namespace TensorTree

/-- An attempt to change a forest, possibly in place. -/
inductive Edit where
  | change (c : Change)
  /-- Replace the contents of a node. -/
  | replace (id : NodeId) (node : Node)
deriving DecidableEq

/-- The node that is there already and gets another entry. -/
def Edit.target? : Edit → Option NodeId
  | .change (.insert _ _) | .change (.setRoot _) => none
  | .change (.setSpan id _) | .replace id _ => some id

namespace Forest

/-- The forest with other contents of a node. -/
def revise (f : Forest) (id : NodeId) (e : Entry) (node : Node) : Forest :=
  { f with nodes := f.nodes.set id { e with node } }

theorem entry?_respan_of_ne (f : Forest) {id other : NodeId} (e : Entry) (span : Span)
    (h : id ≠ other) : Forest.entry? (f.respan id e span) other = f.entry? other := by
  unfold respan entry?
  rw [NodeTable.get?_set, if_neg fun both => h both.1]

theorem entry?_revise_of_ne (f : Forest) {id other : NodeId} (e : Entry) (node : Node)
    (h : id ≠ other) : Forest.entry? (f.revise id e node) other = f.entry? other := by
  unfold revise entry?
  rw [NodeTable.get?_set, if_neg fun both => h both.1]

end Forest

namespace Session

/-- The session after one attempt at an edit.  Handles are only handed out for nodes that are
added. -/
def amend (s : Session) : Edit → Session
  | .change c => s.apply c
  | .replace id node =>
    match s.forest.replace id node with
    | .ok forest => { s with forest }
    | .error _ => s

/-- The session after attempts at all edits of a list, one after the other. -/
def amendAll (s : Session) (edits : List Edit) : Session := edits.foldl amend s

/-- All that an attempt at an edit can do to a session. -/
inductive Revision (s : Session) : Edit → Session → Prop where
  /-- What a change does. -/
  | changed {c : Change} {t : Session} (effect : Effect s c t) : Revision s (.change c) t
  /-- The replacement is refused. -/
  | refused (id : NodeId) (node : Node) : Revision s (.replace id node) s
  /-- The contents of a node are replaced. -/
  | revised {id : NodeId} {e : Entry} {node : Node} (found : s.forest.entry? id = some e)
      (same : e.node.variant = node.variant) :
      Revision s (.replace id node) ⟨s.forest.revise id e node, s.handles⟩

theorem revision_amend (s : Session) (edit : Edit) : Revision s edit (s.amend edit) := by
  cases edit with
  | change c => exact .changed (s.effect_apply c)
  | replace id node =>
    cases found : s.forest.entry? id with
    | none =>
      simp only [amend, Forest.replace, found]
      exact .refused id node
    | some e =>
      by_cases same : e.node.variant = node.variant
      · simp only [amend, Forest.replace, found, if_pos same]
        exact .revised found same
      · simp only [amend, Forest.replace, found, if_neg same]
        exact .refused id node

/-- What is stored under a number stays there, if an edit does not write at this number. -/
theorem entry?_amend {s : Session} {id : NodeId} {e : Entry} (found : s.forest.entry? id = some e)
    {edit : Edit} (h : edit.target? ≠ some id) :
    Forest.entry? (s.amend edit).forest id = some e := by
  have hrevision := s.revision_amend edit
  generalize s.amend edit = t at hrevision ⊢
  cases hrevision with
  | changed effect =>
    cases effect with
    | refused | rooted => exact found
    | inserted =>
      -- the new number is not in use yet
      have hnew : id ≠ s.forest.nodes.nextId := by
        intro hid
        have hlt : id.index < s.forest.size :=
          Forest.lt_size_of_node? (Option.map_eq_some_iff.2 ⟨e, found, rfl⟩)
        rw [hid] at hlt
        exact Nat.lt_irrefl _ hlt
      rw [Forest.entry?_snoc, if_neg hnew]
      exact found
    | respanned _ span =>
      rw [Forest.entry?_respan_of_ne _ _ _ fun hid => h (congrArg some hid)]
      exact found
  | refused => exact found
  | revised =>
    rw [Forest.entry?_revise_of_ne _ _ _ fun hid => h (congrArg some hid)]
    exact found

/-- What is stored under a number stays there through all edits that do not write at this number. -/
theorem entry?_amendAll {s : Session} {id : NodeId} {e : Entry}
    (found : s.forest.entry? id = some e) {edits : List Edit}
    (h : ∀ edit ∈ edits, edit.target? ≠ some id) :
    Forest.entry? (s.amendAll edits).forest id = some e := by
  induction edits generalizing s with
  | nil => exact found
  | cons edit edits ih =>
    rw [List.forall_mem_cons] at h
    exact ih (entry?_amend found h.1) h.2

end Session

end TensorTree
