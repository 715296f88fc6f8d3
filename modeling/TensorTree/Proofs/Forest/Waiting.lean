import Mathlib.Algebra.BigOperators.Intervals
import TensorTree.Forest.Reachable
import TensorTree.Proofs.Forest.Order

/-!
# Nodes that wait

`Forest.meet` goes on with the nodes that wait until none is left.  This happens in every forest in
which no reference leads outside, even in one whose nodes lie below themselves: each step takes one
reference away that was not followed before (`Forest.unfollowed`).  What the steps keep
(`Forest.Meeting`) says at the end which nodes were met: those to which references lead from the
first one, each once (`Forest.meet_ok`).
-/

namespace TensorTree

namespace Forest

/-! ## §1 References not followed yet -/

/-- No reference leads outside of the forest. -/
def Closed (f : Forest) : Prop :=
  ∀ parent child, f.IsChild parent child → ∃ node, f.node? child = some node

theorem WellFormed.closed {f : Forest} (h : f.WellFormed) : f.Closed :=
  fun _ _ hc => h.exists_child hc

/-- The children of a node; a node that does not exist has none. -/
def childrenAt (f : Forest) (id : NodeId) : List NodeId :=
  (f.node? id).elim [] Node.children

theorem childrenAt_eq {f : Forest} {id : NodeId} {node : Node} (h : f.node? id = some node) :
    f.childrenAt id = node.children := by
  simp [childrenAt, h]

/-- The number of references that nodes hold which were not met. -/
def unfollowed (f : Forest) (met : List NodeId) : Nat :=
  ∑ n ∈ (Finset.range f.size).filter fun n => (⟨n⟩ : NodeId) ∉ met, (f.childrenAt ⟨n⟩).length

theorem unfollowed_nil (f : Forest) : f.unfollowed [] = f.childCount := by
  have hmap : f.nodes.toList.map (fun e => e.node.children.length) =
      (List.range f.size).map fun n => (f.childrenAt ⟨n⟩).length := by
    apply List.ext_getElem
    · simp [size, NodeTable.size, NodeTable.toList]
    · intro n hn _
      have hn' : n < f.nodes.entries.size := by simpa [NodeTable.toList] using hn
      simp [childrenAt, node?, entry?, NodeTable.get?, NodeTable.toList, hn']
  have hall : (Finset.range f.size).filter (fun n => (⟨n⟩ : NodeId) ∉ []) =
      Finset.range f.size := by
    simp
  unfold unfollowed childCount
  rw [hall, List.length_flatMap, hmap]
  rfl

/-- When a node is met, its references no longer count. -/
theorem unfollowed_cons {f : Forest} {id : NodeId} {node : Node} {met : List NodeId}
    (hid : f.node? id = some node) (hmet : id ∉ met) :
    f.unfollowed met = node.children.length + f.unfollowed (id :: met) := by
  have hmem : id.index ∈ (Finset.range f.size).filter fun n => (⟨n⟩ : NodeId) ∉ met :=
    Finset.mem_filter.2 ⟨Finset.mem_range.2 (lt_size_of_node? hid), hmet⟩
  have herase : ((Finset.range f.size).filter fun n => (⟨n⟩ : NodeId) ∉ id :: met) =
      ((Finset.range f.size).filter fun n => (⟨n⟩ : NodeId) ∉ met).erase id.index := by
    ext n
    have hn : (⟨n⟩ : NodeId) = id ↔ n = id.index := by
      obtain ⟨index⟩ := id
      simp
    simp [hn]
    tauto
  unfold unfollowed
  rw [herase, ← Finset.add_sum_erase _ _ hmem, childrenAt_eq hid]

/-! ## §2 What the steps keep -/

/-- What holds between two steps: the nodes that were met and those that wait are connected with
the first one, which comes before all others, and nobody is forgotten. -/
structure Meeting (f : Forest) (start : NodeId) (waiting met : List NodeId) : Prop where
  nodup : met.Nodup
  head : (met.reverse ++ waiting).head? = some start
  connected : ∀ id, id ∈ met ∨ id ∈ waiting → Relation.ReflTransGen f.IsChild start id
  awaited : ∀ id ∈ met, ∀ child, f.IsChild id child → child ∈ met ∨ child ∈ waiting

theorem meeting_start (f : Forest) (start : NodeId) : f.Meeting start [start] [] where
  nodup := List.nodup_nil
  head := rfl
  connected id h := by
    obtain rfl : id = start := by simpa using h
    exact .refl
  awaited id h := by simp at h

namespace Meeting

variable {f : Forest} {start id : NodeId} {waiting met : List NodeId}

/-- A node that was met before is passed over. -/
theorem pass (h : f.Meeting start (id :: waiting) met) (hmet : id ∈ met) :
    f.Meeting start waiting met where
  nodup := h.nodup
  head := by
    -- something was met before, so what is taken from those that wait is not the first of all
    have hne : met.reverse ≠ [] := by
      intro hnil
      rw [List.reverse_eq_nil_iff.1 hnil] at hmet
      simp at hmet
    have hhead := h.head
    rw [List.head?_append_of_ne_nil _ hne] at hhead ⊢
    exact hhead
  connected other hother := h.connected other (hother.imp_right (List.mem_cons_of_mem id))
  awaited other hother child hchild := by
    rcases h.awaited other hother child hchild with hin | hin
    · exact .inl hin
    · rcases List.mem_cons.1 hin with rfl | hin
      · exact .inl hmet
      · exact .inr hin

/-- Any other node is met, and its children wait. -/
theorem expand (h : f.Meeting start (id :: waiting) met) {node : Node}
    (hid : f.node? id = some node) (hmet : id ∉ met) :
    f.Meeting start (node.children ++ waiting) (id :: met) where
  nodup := List.nodup_cons.2 ⟨hmet, h.nodup⟩
  head := by simpa using h.head
  connected other hother := by
    have hstart : Relation.ReflTransGen f.IsChild start id :=
      h.connected id (.inr List.mem_cons_self)
    rcases hother with hother | hother
    · rcases List.mem_cons.1 hother with rfl | hother
      · exact hstart
      · exact h.connected other (.inl hother)
    · rcases List.mem_append.1 hother with hchild | hother
      · exact hstart.tail ⟨node, hid, hchild⟩
      · exact h.connected other (.inr (List.mem_cons_of_mem id hother))
  awaited other hother child hchild := by
    rcases List.mem_cons.1 hother with rfl | hother
    · obtain ⟨other', hother', hmem⟩ := hchild
      obtain rfl : other' = node := Option.some.inj (hother'.symm.trans hid)
      exact .inr (List.mem_append_left _ hmem)
    · rcases h.awaited other hother child hchild with hin | hin
      · exact .inl (List.mem_cons_of_mem id hin)
      · rcases List.mem_cons.1 hin with rfl | hin
        · exact .inl List.mem_cons_self
        · exact .inr (List.mem_append_right _ hin)

/-- When nobody waits any more, the nodes that were met are those that are connected with the first
one. -/
theorem mem_iff (h : f.Meeting start [] met) (id : NodeId) :
    id ∈ met ↔ Relation.ReflTransGen f.IsChild start id := by
  constructor
  · intro hid
    exact h.connected id (.inl hid)
  · intro hconnected
    -- nobody is forgotten, so every step from a node that was met leads to one that was met
    induction hconnected with
    | refl =>
      have hhead := h.head
      rw [List.append_nil] at hhead
      exact List.mem_reverse.1 (List.mem_of_mem_head? hhead)
    | tail _ hchild ih =>
      rcases h.awaited _ ih _ hchild with hin | hin
      · exact hin
      · simp at hin

end Meeting

/-! ## §3 Runs -/

/-- If no reference leads outside and there are as many steps as references that can still be
followed, the nodes that wait are dealt with. -/
theorem meet_ok {f : Forest} (hclosed : f.Closed) {start : NodeId} {n : Nat}
    {waiting met : List NodeId} (h : f.Meeting start waiting met)
    (hwaiting : ∀ id ∈ waiting, ∃ node, f.node? id = some node)
    (hn : waiting.length + f.unfollowed met ≤ n) :
    ∃ met', f.meet n waiting met = .ok met'.reverse ∧ f.Meeting start [] met' := by
  induction n generalizing waiting met with
  | zero =>
    obtain rfl : waiting = [] := List.eq_nil_of_length_eq_zero (by omega)
    exact ⟨met, rfl, h⟩
  | succ n ih =>
    cases waiting with
    | nil => exact ⟨met, rfl, h⟩
    | cons id waiting =>
      obtain ⟨node, hid⟩ := hwaiting id List.mem_cons_self
      have hrest : ∀ other ∈ waiting, ∃ node, f.node? other = some node :=
        fun other hother => hwaiting other (List.mem_cons_of_mem id hother)
      simp only [List.length_cons] at hn
      by_cases hmet : id ∈ met
      -- passing over a node leaves one less to wait; meeting it makes its references followed
      · obtain ⟨met', hrun, hend⟩ := ih (h.pass hmet) hrest (by omega)
        exact ⟨met', by simpa [meet, hid, hmet] using hrun, hend⟩
      · have hcount := unfollowed_cons hid hmet
        have hall : ∀ other ∈ node.children ++ waiting, ∃ node, f.node? other = some node := by
          intro other hother
          rcases List.mem_append.1 hother with hchild | hother
          · exact hclosed id other ⟨node, hid, hchild⟩
          · exact hrest other hother
        obtain ⟨met', hrun, hend⟩ := ih (h.expand hid hmet) hall (by simp; omega)
        exact ⟨met', by simpa [meet, hid, hmet] using hrun, hend⟩

/-- If the root exists and no reference leads outside, the nodes below the root are listed, the
root first and each once. -/
theorem reachable_ok {f : Forest} (hclosed : f.Closed) {root : Ref .program}
    (hroot : f.root = some root) (hexists : ∃ node, f.node? root.node = some node) :
    ∃ ids, f.reachable = .ok ids ∧ ids.Nodup ∧ ids.head? = some root.node ∧
      ∀ id, id ∈ ids ↔ Relation.ReflTransGen f.IsChild root.node id := by
  have hsteps : [root.node].length + f.unfollowed [] ≤ f.childCount + 1 := by
    rw [unfollowed_nil]
    simp [Nat.add_comm]
  obtain ⟨met, hrun, hend⟩ := meet_ok hclosed (f.meeting_start root.node)
    (by simpa using hexists) hsteps
  refine ⟨met.reverse, by simpa [reachable, hroot] using hrun, ?_, ?_, ?_⟩
  · exact List.nodup_reverse.2 hend.nodup
  · simpa using hend.head
  · intro id
    rw [List.mem_reverse]
    exact hend.mem_iff id

end Forest

end TensorTree
