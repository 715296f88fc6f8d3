import TensorTree.Node.Role

/-!
# Tables numbered by node

A table hands out numbers in order: what is added last gets the number of entries that were
there before.  Entries can be changed in place but are never removed.
-/

namespace TensorTree

/-- Entries numbered from zero. -/
structure NodeTable (α : Type) where
  entries : Array α

namespace NodeTable

variable {α : Type}

def empty : NodeTable α := ⟨#[]⟩

def size (t : NodeTable α) : Nat := t.entries.size

/-- The number of the next entry. -/
def nextId (t : NodeTable α) : NodeId := ⟨t.size⟩

/-- Add an entry under the next number. -/
def push (t : NodeTable α) (a : α) : NodeTable α := ⟨t.entries.push a⟩

/-- The entry of a number. -/
def get? (t : NodeTable α) (id : NodeId) : Option α := t.entries[id.index]?

/-- The number has an entry. -/
def contains (t : NodeTable α) (id : NodeId) : Bool := id.index < t.size

/-- Replace the entry of a number, if there is one. -/
def set (t : NodeTable α) (id : NodeId) (a : α) : NodeTable α :=
  ⟨t.entries.setIfInBounds id.index a⟩

def toList (t : NodeTable α) : List α := t.entries.toList

/-- The entries in order, each with its number. -/
def numbered (t : NodeTable α) : List (NodeId × α) :=
  t.toList.zipIdx.map fun (a, n) => (⟨n⟩, a)

/-! ## Reading after writing -/

@[simp] theorem get?_empty (id : NodeId) : (empty : NodeTable α).get? id = none := by
  simp [empty, get?]

@[simp] theorem size_empty : (empty : NodeTable α).size = 0 := rfl

@[simp] theorem size_push (t : NodeTable α) (a : α) : (t.push a).size = t.size + 1 := by
  simp [push, size]

@[simp] theorem size_set (t : NodeTable α) (id : NodeId) (a : α) : (t.set id a).size = t.size := by
  simp [set, size]

theorem get?_push (t : NodeTable α) (a : α) (id : NodeId) :
    (t.push a).get? id = if id = t.nextId then some a else t.get? id := by
  obtain ⟨n⟩ := id
  simp [push, get?, nextId, size, Array.getElem?_push]

theorem get?_set (t : NodeTable α) (id other : NodeId) (a : α) :
    (t.set id a).get? other =
      if id = other ∧ t.contains id then some a else t.get? other := by
  obtain ⟨n⟩ := id
  obtain ⟨m⟩ := other
  simp only [set, get?, contains, size, Array.getElem?_setIfInBounds, NodeId.mk.injEq]
  by_cases h : n = m
  · subst h
    by_cases hn : n < t.entries.size
    · simp [hn]
    · simp [hn]
  · simp [h]

theorem contains_iff (t : NodeTable α) (id : NodeId) :
    t.contains id = true ↔ ∃ a, t.get? id = some a := by
  obtain ⟨n⟩ := id
  simp only [contains, get?, size, Array.getElem?_eq_some_iff]
  exact ⟨fun h => ⟨_, of_decide_eq_true h, rfl⟩, fun ⟨_, h, _⟩ => decide_eq_true h⟩

end NodeTable

end TensorTree
