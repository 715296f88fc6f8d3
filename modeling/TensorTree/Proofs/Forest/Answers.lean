import TensorTree.Proofs.Forest.Reading
import TensorTree.Proofs.Forest.Waiting
import TensorTree.Proofs.Print.Writing

/-!
# Every question is answered

Whatever was done in a session, all readers have an answer at every node that exists
(`Forest.Readable`): none of them asks for a node or an operand that is not there, and none goes on
for ever.  The readers of a whole program ask in addition that the root, if it is marked at all, was
handed out by the session itself.
-/

namespace TensorTree

/-- All readers have an answer at a node. -/
structure Forest.Readable (f : Forest) (id : NodeId) : Prop where
  first : ∃ here, f.first id = .ok here
  last : ∃ here, f.last id = .ok here
  span : ∃ span, f.span id = .ok span
  children : ∃ children, f.children id = .ok children
  extents : ∃ extents, f.extents ⟨id⟩ = .ok extents
  summary : ∃ node summary, f.node id = .ok node ∧ node.summary? = .ok summary
  visit : ∀ {ε : Type} (v : Visitor ε), v.GoesDown → ∃ events, f.visit v id = .ok events
  print : ∀ o : LayoutOptions, ∃ text, f.print o id = .ok text

/-- All readers of a well-formed forest have an answer at every node that exists. -/
theorem Forest.WellFormed.readable {f : Forest} (h : f.WellFormed) {id : NodeId} {node : Node}
    (hid : f.node? id = some node) : f.Readable id where
  first := h.first_ok ⟨node, hid⟩
  last := h.last_ok ⟨node, hid⟩
  span := h.span_ok ⟨node, hid⟩
  children := Forest.children_ok ⟨node, hid⟩
  extents := h.extents_ok ⟨node, hid⟩
  summary := by
    obtain ⟨summary, hsummary⟩ := h.summary_ok hid
    exact ⟨node, summary, Forest.node_eq_ok hid, hsummary⟩
  visit _ hv := h.visit_ok hv ⟨node, hid⟩
  print o := h.print_ok o ⟨node, hid⟩

namespace Session

theorem Sound.exists_root {s : Session} (hs : s.Sound) {root : Ref .program}
    (hroot : root.handle ∈ s.handles) : ∃ node, s.forest.node? root.node = some node := by
  obtain ⟨node, hnode, -⟩ := (hs.mem_handles_iff root.handle).1 hroot
  exact ⟨node, hnode⟩

/-- After any attempts at changes, all readers have an answer at every node that exists; and if the
root is not marked or is a program that the session handed out, the nodes below the root are found
and the program is printed. -/
theorem readable_of_run (cs : List Change)
    (hroot : ∀ root, (start.run cs).forest.root = some root →
      root.handle ∈ (start.run cs).handles) :
    (∀ id node, (start.run cs).forest.node? id = some node →
      (start.run cs).forest.Readable id) ∧
      (∃ ids, (start.run cs).forest.reachable = .ok ids) ∧
      ∀ o, ∃ text, (start.run cs).forest.printProgram o = .ok text := by
  have hsound := sound_run cs
  have hwell := hsound.admitted.wellFormed
  have hexists : ∀ root, (start.run cs).forest.root = some root →
      ∃ node, (start.run cs).forest.node? root.node = some node :=
    fun root h => hsound.exists_root (hroot root h)
  refine ⟨fun id node hid => hwell.readable hid, ?_, fun o => hwell.printProgram_ok o hexists⟩
  cases h : (start.run cs).forest.root with
  | none => exact ⟨[], by simp [Forest.reachable, h]⟩
  | some root =>
    obtain ⟨ids, hids, -⟩ := Forest.reachable_ok hwell.closed h (hexists root h)
    exact ⟨ids, hids⟩

/-- A program whose only statement compares a variable with itself, after an attempt at a sign in
front of an expression that does not exist. -/
def selfComparison : List Change :=
  [.insert ⟨⟨1, 1⟩, ⟨1, 1⟩⟩ (.varExpr "a"),
    .insert ⟨⟨1, 1⟩, ⟨1, 5⟩⟩ (.negExpr ⟨⟨7⟩⟩ true),
    .insert ⟨⟨1, 1⟩, ⟨1, 5⟩⟩ (.eqExpr [⟨⟨0⟩⟩, ⟨⟨0⟩⟩] [.lt]),
    .insert ⟨⟨1, 1⟩, ⟨1, 6⟩⟩ (.exprStmt ⟨⟨1⟩⟩),
    .insert ⟨⟨1, 1⟩, ⟨1, 6⟩⟩ (.program [⟨2⟩]),
    .setSpan ⟨0⟩ ⟨⟨2, 1⟩, ⟨2, 1⟩⟩,
    .setRoot ⟨⟨3⟩⟩]

/-- Everything can be asked about a comparison of a variable with itself. -/
theorem readable_selfComparison :
    (start.run selfComparison).forest.root = some ⟨⟨3⟩⟩ ∧
      (⟨.program, ⟨3⟩⟩ : Handle) ∈ (start.run selfComparison).handles ∧
      (∀ id node, (start.run selfComparison).forest.node? id = some node →
        (start.run selfComparison).forest.Readable id) ∧
      (∃ ids, (start.run selfComparison).forest.reachable = .ok ids) ∧
      ∀ o, ∃ text, (start.run selfComparison).forest.printProgram o = .ok text := by
  have hroot : (start.run selfComparison).forest.root = some ⟨⟨3⟩⟩ := by decide
  have hhandle : (⟨.program, ⟨3⟩⟩ : Handle) ∈ (start.run selfComparison).handles := by decide
  refine ⟨hroot, hhandle, readable_of_run selfComparison ?_⟩
  intro root h
  obtain rfl := Option.some.inj (hroot.symm.trans h)
  exact hhandle

end Session

end TensorTree
