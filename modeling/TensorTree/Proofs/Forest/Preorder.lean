import TensorTree.Proofs.Forest.Answers

/-!
# The order in which nodes are met

The recursive walk takes a node before its children and goes into shared nodes again and again
(`Forest.preorder`).  The nodes that wait are met in the same order, each at its first place:
whatever the walk would meet at a node that was met already is met as well, or stands in front of
the place at which the walk comes back to it (`Forest.Settled`).
-/

namespace TensorTree

/-! ## §1 The recursive walk -/

/-- Report the number of every node and go on with its children. -/
def Visitor.numbers : Visitor NodeId :=
  { onNode := some fun id node => .report id :: node.visitChildren }

namespace Forest

/-- The numbers of a node and of all that a walk meets below it, for at most the given number of
levels. -/
def preorderWithin (f : Forest) : Nat → NodeId → List NodeId
  | 0, _ => []
  | n + 1, id => id :: (f.childrenAt id).flatMap (preorderWithin f n)

def preorder (f : Forest) (id : NodeId) : List NodeId := f.preorderWithin f.depthBound id

theorem runActions_visitChildren {ε : Type} {visit : NodeId → Except ReadFault (List ε)}
    {eventsOf : NodeId → List ε} (node : Node)
    (h : ∀ child ∈ node.children, visit child = .ok (eventsOf child)) :
    runActions visit node.visitChildren = .ok (node.children.flatMap eventsOf) := by
  unfold Node.visitChildren
  generalize node.children = children at h ⊢
  induction children with
  | nil => rfl
  | cons child children ih =>
    have hrest := ih fun other hother => h other (List.mem_cons_of_mem _ hother)
    simp [runActions, h child List.mem_cons_self, hrest, Except.map]

theorem visit_numbers_actions (id : NodeId) (node : Node) :
    Visitor.numbers.actions id node = .report id :: node.visitChildren := by
  cases node <;> rfl

namespace WellFormed

variable {f : Forest}

/-- A walk that reports numbers is the recursive walk. -/
theorem visit_numbers (h : f.WellFormed) {id : NodeId} (hid : ∃ node, f.node? id = some node) :
    f.visit .numbers id = .ok (f.preorder id) := by
  refine h.descend_depthBound
    (P := fun n id => f.visitWithin .numbers n id = .ok (f.preorderWithin n id)) ?_ hid
  intro n id node hnode ih
  have hchildren := runActions_visitChildren node ih
  simp only [visitWithin, node_eq_ok hnode, visit_numbers_actions, runActions, hchildren,
    Except.map, preorderWithin, childrenAt_eq hnode]

/-- More levels than a node has nodes below it make no difference. -/
theorem preorderWithin_succ (h : f.WellFormed) {n : Nat} {id : NodeId}
    (hid : ∃ node, f.node? id = some node) (hn : id.index < n) :
    f.preorderWithin (n + 1) id = f.preorderWithin n id := by
  refine h.descend (P := fun n id => f.preorderWithin (n + 1) id = f.preorderWithin n id) ?_ hid hn
  intro n id node hnode ih
  rw [preorderWithin, preorderWithin, childrenAt_eq hnode]
  exact congrArg (id :: ·) (List.flatMap_congr ih)

/-- The walk takes a node before its children and the children from left to right. -/
theorem preorder_eq (h : f.WellFormed) {id : NodeId} {node : Node}
    (hid : f.node? id = some node) :
    f.preorder id = id :: node.children.flatMap f.preorder := by
  have hchild : ∀ child ∈ node.children, f.preorderWithin f.size child = f.preorder child := by
    intro child hchild
    have hc : f.IsChild id child := ⟨node, hid, hchild⟩
    have hlt : child.index < f.size := Nat.lt_trans (h.child_lt hc) (lt_size_of_node? hid)
    exact (h.preorderWithin_succ (h.exists_child hc) hlt).symm
  rw [preorder, depthBound, preorderWithin, childrenAt_eq hid]
  exact congrArg (id :: ·) (List.flatMap_congr hchild)

end WellFormed

/-! ## §2 The order of the nodes that wait -/

/-- Whatever the walk meets at a node that was met is met as well, or the walk meets it at nodes
that wait in front of all others and come before that node. -/
def Settled (f : Forest) (waiting met : List NodeId) : Prop :=
  ∀ id ∈ met, ∃ front back, waiting = front ++ back ∧
    (∀ other ∈ front, other.index < id.index) ∧
    ∀ below ∈ f.preorder id, below ∈ met ∨ below ∈ front.flatMap f.preorder

namespace Settled

variable {f : Forest} {id : NodeId} {waiting met : List NodeId}

/-- What the walk meets at a node that waits first and was met before is met. -/
theorem preorder_subset (h : f.Settled (id :: waiting) met) (hmet : id ∈ met) :
    ∀ below ∈ f.preorder id, below ∈ met := by
  obtain ⟨front, back, hwaiting, hlt, hbelow⟩ := h id hmet
  -- the node itself would be the first in front of itself
  have hfront : front = [] := by
    cases front with
    | nil => rfl
    | cons first front =>
      obtain rfl : id = first := by simpa using congrArg List.head? hwaiting
      exact absurd (hlt id List.mem_cons_self) (Nat.lt_irrefl _)
  intro below hin
  rcases hbelow below hin with hin | hin
  · exact hin
  · simp [hfront] at hin

theorem pass (h : f.Settled (id :: waiting) met) (hmet : id ∈ met) : f.Settled waiting met := by
  have hsubset := h.preorder_subset hmet
  intro other hother
  obtain ⟨front, back, hwaiting, hlt, hbelow⟩ := h other hother
  cases front with
  | nil => exact ⟨[], waiting, rfl, by simp, hbelow⟩
  | cons first front =>
    obtain ⟨rfl, rfl⟩ : id = first ∧ waiting = front ++ back := by simpa using hwaiting
    refine ⟨front, back, rfl, fun x hx => hlt x (List.mem_cons_of_mem _ hx), ?_⟩
    intro below hin
    rcases hbelow below hin with hin | hin
    · exact .inl hin
    · rw [List.flatMap_cons, List.mem_append] at hin
      rcases hin with hin | hin
      · exact .inl (hsubset below hin)
      · exact .inr hin

theorem expand (hwell : f.WellFormed) (h : f.Settled (id :: waiting) met) {node : Node}
    (hid : f.node? id = some node) : f.Settled (node.children ++ waiting) (id :: met) := by
  have hlt_id : ∀ child ∈ node.children, child.index < id.index :=
    fun child hchild => hwell.child_lt ⟨node, hid, hchild⟩
  have hwalk := hwell.preorder_eq hid
  intro other hother
  rcases List.mem_cons.1 hother with rfl | hother
  · -- the walk goes from the node into its children, which now wait in front
    refine ⟨node.children, waiting, rfl, hlt_id, ?_⟩
    intro below hin
    rw [hwalk] at hin
    rcases List.mem_cons.1 hin with rfl | hin
    · exact .inl List.mem_cons_self
    · exact .inr hin
  · -- if the node stood in front of a place to come back to, its children take its place there
    obtain ⟨front, back, hwaiting, hlt, hbelow⟩ := h other hother
    cases front with
    | nil =>
      refine ⟨[], _, rfl, by simp, fun below hin => ?_⟩
      rcases hbelow below hin with hin | hin
      · exact .inl (List.mem_cons_of_mem _ hin)
      · simp at hin
    | cons first front =>
      obtain ⟨rfl, rfl⟩ : id = first ∧ waiting = front ++ back := by simpa using hwaiting
      refine ⟨node.children ++ front, back, by simp, ?_, ?_⟩
      · intro x hx
        rcases List.mem_append.1 hx with hx | hx
        · exact Nat.lt_trans (hlt_id x hx) (hlt id List.mem_cons_self)
        · exact hlt x (List.mem_cons_of_mem _ hx)
      · intro below hin
        rcases hbelow below hin with hin | hin
        · exact .inl (List.mem_cons_of_mem _ hin)
        · rw [List.flatMap_cons, hwalk] at hin
          simp only [List.cons_append, List.mem_cons, List.mem_append] at hin
          rcases hin with rfl | hin | hin
          · exact .inl List.mem_cons_self
          · exact .inr (by rw [List.flatMap_append]; exact List.mem_append_left _ hin)
          · exact .inr (by rw [List.flatMap_append]; exact List.mem_append_right _ hin)

end Settled

/-! ## §3 First places -/

theorem eraseDups_of_nodup {α : Type} [BEq α] [LawfulBEq α] {xs : List α} (h : xs.Nodup) :
    xs.eraseDups = xs := by
  induction xs with
  | nil => rfl
  | cons x xs ih =>
    obtain ⟨hx, hxs⟩ := List.nodup_cons.1 h
    have hfilter : xs.filter (fun y => !y == x) = xs := by
      rw [List.filter_eq_self]
      intro y hy
      simp only [Bool.not_eq_true', beq_eq_false_iff_ne]
      rintro rfl
      exact hx hy
    rw [List.eraseDups_cons, hfilter, ih hxs]

/-- What was listed before can be left out in the middle. -/
theorem eraseDups_append_of_subset {α : Type} [BEq α] [LawfulBEq α] {xs ys : List α}
    (h : ∀ y ∈ ys, y ∈ xs) (zs : List α) : (xs ++ (ys ++ zs)).eraseDups = (xs ++ zs).eraseDups := by
  have hys : ys.removeAll xs = [] := by
    rw [List.removeAll, List.filter_eq_nil_iff]
    intro y hy
    simp [h y hy]
  rw [List.eraseDups_append, List.eraseDups_append]
  simp only [List.removeAll, List.filter_append] at hys ⊢
  rw [hys, List.nil_append]

/-- The nodes are met in the order of the walk, each at its first place. -/
theorem meet_eq_eraseDups {f : Forest} (hwell : f.WellFormed) {n : Nat}
    {waiting met ids : List NodeId} (h : f.Settled waiting met) (hnodup : met.Nodup)
    (hrun : f.meet n waiting met = .ok ids) :
    ids = (met.reverse ++ waiting.flatMap f.preorder).eraseDups := by
  induction n generalizing waiting met with
  | zero =>
    cases waiting with
    | nil =>
      obtain rfl : met.reverse = ids := by simpa [meet] using hrun
      simp [eraseDups_of_nodup (List.nodup_reverse.2 hnodup)]
    | cons id waiting => simp [meet] at hrun
  | succ n ih =>
    cases waiting with
    | nil =>
      obtain rfl : met.reverse = ids := by simpa [meet] using hrun
      simp [eraseDups_of_nodup (List.nodup_reverse.2 hnodup)]
    | cons id waiting =>
      cases hid : f.node? id with
      | none => simp [meet, hid] at hrun
      | some node =>
        by_cases hmet : id ∈ met
        -- passed over: all of its walk was listed before; met: it moves to what was listed
        · have hsubset : ∀ below ∈ f.preorder id, below ∈ met.reverse :=
            fun below hin => List.mem_reverse.2 (h.preorder_subset hmet below hin)
          rw [ih (h.pass hmet) hnodup (by simpa [meet, hid, hmet] using hrun), List.flatMap_cons,
            eraseDups_append_of_subset hsubset]
        · rw [ih (h.expand hwell hid) (List.nodup_cons.2 ⟨hmet, hnodup⟩)
            (by simpa [meet, hid, hmet] using hrun), List.flatMap_cons, hwell.preorder_eq hid]
          simp

end Forest

/-! ## §4 Sessions -/

namespace Session

/-- After any attempts at changes, if the root is a program that the session handed out, the nodes
below the root are listed as the recursive walk meets them, each at its first place: the root first,
none twice, and exactly those that are connected with the root. -/
theorem reachable_eq_eraseDups_visit (cs : List Change) (root : Ref .program)
    (hroot : (start.run cs).forest.root = some root)
    (hhandle : root.handle ∈ (start.run cs).handles) :
    ∃ walk, (start.run cs).forest.visit .numbers root.node = .ok walk ∧
      (start.run cs).forest.reachable = .ok walk.eraseDups ∧
      walk.eraseDups.Nodup ∧ walk.eraseDups.head? = some root.node ∧
      ∀ id, id ∈ walk.eraseDups ↔
        Relation.ReflTransGen (start.run cs).forest.IsChild root.node id := by
  have hsound := sound_run cs
  have hwell := hsound.admitted.wellFormed
  have hexists := hsound.exists_root hhandle
  obtain ⟨ids, hids, hnodup, hhead, hmem⟩ := Forest.reachable_ok hwell.closed hroot hexists
  have hsettled : (start.run cs).forest.Settled [root.node] [] := fun id h => by simp at h
  have hrun := hids
  rw [Forest.reachable, hroot] at hrun
  have heq := Forest.meet_eq_eraseDups hwell hsettled List.nodup_nil hrun
  simp only [List.reverse_nil, List.nil_append, List.flatMap_cons, List.flatMap_nil,
    List.append_nil] at heq
  subst heq
  exact ⟨_, hwell.visit_numbers hexists, hids, hnodup, hhead, hmem⟩

/-- The variable that is compared with itself is met once by waiting and twice by walking. -/
theorem reachable_selfComparison :
    ((start.run selfComparison).forest.root = some ⟨⟨3⟩⟩ ∧
      (⟨⟨3⟩⟩ : Ref .program).handle ∈ (start.run selfComparison).handles) ∧
      ∃ walk, (start.run selfComparison).forest.visit .numbers ⟨3⟩ = .ok walk ∧
        (start.run selfComparison).forest.reachable = .ok walk.eraseDups ∧
        walk.eraseDups.Nodup ∧ walk.eraseDups.head? = some ⟨3⟩ ∧
        ∀ id, id ∈ walk.eraseDups ↔
          Relation.ReflTransGen (start.run selfComparison).forest.IsChild ⟨3⟩ id := by
  have hroot : (start.run selfComparison).forest.root = some ⟨⟨3⟩⟩ := by decide
  have hhandle : (⟨⟨3⟩⟩ : Ref .program).handle ∈ (start.run selfComparison).handles := by decide
  exact ⟨⟨hroot, hhandle⟩, reachable_eq_eraseDups_visit selfComparison ⟨⟨3⟩⟩ hroot hhandle⟩

end Session

end TensorTree
