import TensorTree.Proofs.Forest.Typing
import TensorTree.Proofs.Forest.Waiting

/-!
# Forests with cycles

Contents that are put in by edits can refer to nodes above themselves, so that a node lies below
itself.  As long as the edits refer only to what was handed out, no reference leads outside of the
forest (`Session.closed_amendAll`), and then all that lies below the root is still listed, each node
once (`Forest.reachable_of_closed`).
-/

namespace TensorTree

namespace Forest

variable {f : Forest}

/-- No reference leads outside of a forest in which every place is filled. -/
theorem Fitted.closed (h : f.Fitted) : f.Closed := by
  rintro parent child ⟨node, hnode, hchild⟩
  obtain ⟨slot, hslot, rfl⟩ := List.mem_map.1 hchild
  obtain ⟨filler, hfiller, -⟩ := h parent node hnode slot hslot
  exact ⟨filler, hfiller⟩

/-- If neither a reference nor the mark of the root leads outside of the forest, then the nodes
below the root are listed, whatever cycles there are: the root first, none twice, and exactly those
to which references lead from the root.  Without a root the list is empty. -/
theorem reachable_of_closed (f : Forest) (hclosed : f.Closed)
    (hroot : ∀ root ∈ f.root, root.node.index < f.size) :
    ∃ ids, f.reachable = .ok ids ∧ ids.Nodup ∧ ids.head? = f.root.map Ref.node ∧
      ∀ id, id ∈ ids ↔ ∃ root ∈ f.root, Relation.ReflTransGen f.IsChild root.node id := by
  cases hf : f.root with
  | none => exact ⟨[], by rw [reachable, hf], List.nodup_nil, rfl, by simp⟩
  | some root =>
    have hexists : ∃ node, f.node? root.node = some node :=
      (f.node?_isSome_iff root.node).2 (hroot root hf)
    obtain ⟨ids, hids, hnodup, hhead, hmem⟩ := reachable_ok hclosed hf hexists
    exact ⟨ids, hids, hnodup, hhead, by simpa using hmem⟩

end Forest

namespace Session

/-- Edits that refer only to what was handed out let no reference lead outside of the forest. -/
theorem closed_amendAll {edits : List Edit} (h : start.SuppliesAll edits) :
    (start.amendAll edits).forest.Closed :=
  (typed_start.amendAll h).fitted.closed

/-- A program that becomes one of its own elements, beside a statement whose expression is a sum of
itself and of parentheses around this sum. -/
def roundabout : List Edit :=
  [.change (.insert ⟨⟨1, 2⟩, ⟨1, 2⟩⟩ (.varExpr "x")),
    .change (.insert ⟨⟨1, 1⟩, ⟨1, 3⟩⟩ (.parenExpr ⟨⟨0⟩⟩)),
    .change (.insert .unset (.binary .add ⟨⟨1⟩⟩ ⟨⟨0⟩⟩)),
    .change (.insert ⟨⟨1, 1⟩, ⟨1, 8⟩⟩ (.exprStmt ⟨⟨2⟩⟩)),
    .change (.insert ⟨⟨1, 1⟩, ⟨1, 8⟩⟩ (.program [⟨3⟩])),
    .change (.setRoot ⟨⟨4⟩⟩),
    .replace ⟨1⟩ (.parenExpr ⟨⟨2⟩⟩),
    .replace ⟨2⟩ (.binary .add ⟨⟨2⟩⟩ ⟨⟨1⟩⟩),
    .replace ⟨4⟩ (.program [⟨4⟩, ⟨3⟩, ⟨3⟩])]

/-- Its nodes are listed once each, and the variable, to which nothing leads any more, is not. -/
theorem reachable_roundabout :
    ((start.amendAll roundabout).forest.Closed ∧
      (start.amendAll roundabout).forest.root = some ⟨⟨4⟩⟩) ∧
      (start.amendAll roundabout).forest.IsChild ⟨4⟩ ⟨4⟩ ∧
      (start.amendAll roundabout).forest.reachable = .ok [⟨4⟩, ⟨3⟩, ⟨2⟩, ⟨1⟩] ∧
      ∀ id, id ∈ [⟨4⟩, ⟨3⟩, ⟨2⟩, (⟨1⟩ : NodeId)] ↔
        Relation.ReflTransGen (start.amendAll roundabout).forest.IsChild ⟨4⟩ id := by
  have hclosed : (start.amendAll roundabout).forest.Closed := closed_amendAll (by decide)
  have hroot : (start.amendAll roundabout).forest.root = some ⟨⟨4⟩⟩ := by decide
  have hself : (start.amendAll roundabout).forest.IsChild ⟨4⟩ ⟨4⟩ :=
    ⟨.program [⟨4⟩, ⟨3⟩, ⟨3⟩], by decide, by decide⟩
  have hlist : (start.amendAll roundabout).forest.reachable = .ok [⟨4⟩, ⟨3⟩, ⟨2⟩, ⟨1⟩] := by decide
  obtain ⟨ids, hids, -, -, hmem⟩ := Forest.reachable_of_closed _ hclosed (by decide)
  obtain rfl : ids = [⟨4⟩, ⟨3⟩, ⟨2⟩, ⟨1⟩] := Except.ok.inj (hids.symm.trans hlist)
  exact ⟨⟨hclosed, hroot⟩, hself, hlist, fun id => by rw [hmem id, hroot]; simp⟩

end Session

end TensorTree
