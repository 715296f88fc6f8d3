import TensorTree.Forest.Basic

/-!
# Sessions

A session grows a forest by changes, in any order and with references of any origin: nodes are
added, spans are recorded again, and a program is marked as the root.  It keeps the handles that
were handed out.  A change that is refused leaves everything as it was.

All that a single change can do is listed once (`Session.Effect`, `Session.effect_apply`); what
holds along every run is derived from that list (`Session.run_induction`).
-/

namespace TensorTree

/-! ## §1 Changes -/

/-- An attempt to change a forest. -/
inductive Change where
  /-- Add a node. -/
  | insert (span : Span) (node : Node)
  /-- Record another span for a node. -/
  | setSpan (id : NodeId) (span : Span)
  /-- Mark a program as the root. -/
  | setRoot (program : Ref .program)
deriving DecidableEq

namespace Forest

/-- The forest with one more node behind all others. -/
def snoc (f : Forest) (e : Entry) : Forest := { f with nodes := f.nodes.push e }

/-- The forest with another span recorded for a node. -/
def respan (f : Forest) (id : NodeId) (e : Entry) (span : Span) : Forest :=
  { f with nodes := f.nodes.set id { e with span } }

/-! ### Reading what was changed -/

theorem entry?_snoc (f : Forest) (e : Entry) (id : NodeId) :
    Forest.entry? (f.snoc e) id = if id = f.nodes.nextId then some e else f.entry? id :=
  NodeTable.get?_push f.nodes e id

theorem node?_snoc (f : Forest) (e : Entry) (id : NodeId) :
    (f.snoc e).node? id = if id = f.nodes.nextId then some e.node else f.node? id := by
  have hentry := entry?_snoc f e id
  unfold node?
  rw [hentry]
  split <;> rfl

@[simp] theorem size_snoc (f : Forest) (e : Entry) : (f.snoc e).size = f.size + 1 :=
  NodeTable.size_push f.nodes e

theorem node?_respan {f : Forest} {id : NodeId} {e : Entry} (found : f.entry? id = some e)
    (span : Span) (other : NodeId) : (f.respan id e span).node? other = f.node? other := by
  unfold node? entry? respan
  rw [NodeTable.get?_set]
  split
  next h =>
    rw [← h.1, show f.nodes.get? id = some e from found]
    rfl
  next => rfl

@[simp] theorem size_respan (f : Forest) (id : NodeId) (e : Entry) (span : Span) :
    (f.respan id e span).size = f.size :=
  NodeTable.size_set f.nodes id _

@[simp] theorem node?_setRoot (f : Forest) (program : Ref .program) (id : NodeId) :
    (f.setRoot program).node? id = f.node? id := rfl

@[simp] theorem size_setRoot (f : Forest) (program : Ref .program) :
    (f.setRoot program).size = f.size := rfl

@[simp] theorem node?_empty (id : NodeId) : empty.node? id = none := by
  simp [node?, entry?, empty]

@[simp] theorem size_empty : empty.size = 0 := rfl

/-- A node exists exactly if its number is below the size. -/
theorem node?_isSome_iff (f : Forest) (id : NodeId) :
    (∃ node, f.node? id = some node) ↔ id.index < f.size := by
  have hContains : id.index < f.size ↔ f.nodes.contains id = true := by
    simp [NodeTable.contains, size]
  rw [hContains, NodeTable.contains_iff]
  constructor
  · rintro ⟨node, h⟩
    obtain ⟨e, he, -⟩ := Option.map_eq_some_iff.1 h
    exact ⟨e, he⟩
  · rintro ⟨e, he⟩
    exact ⟨e.node, Option.map_eq_some_iff.2 ⟨e, he, rfl⟩⟩

theorem lt_size_of_node? {f : Forest} {id : NodeId} {node : Node} (h : f.node? id = some node) :
    id.index < f.size :=
  (f.node?_isSome_iff id).1 ⟨node, h⟩

/-! ### When a node is accepted -/

theorem danglingChild?_eq_none_iff (f : Forest) (node : Node) :
    f.danglingChild? node = none ↔ ∀ child ∈ node.children, child.index < f.size := by
  simp [danglingChild?, NodeTable.contains, size]

theorem buildError?_eq_none_iff (f : Forest) (span : Span) (node : Node) :
    f.buildError? span node = none ↔
      (∀ child ∈ node.children, child.index < f.size) ∧
        node.formError? span = none ∧ f.blockError? node = none := by
  unfold buildError?
  rw [← f.danglingChild?_eq_none_iff]
  cases f.danglingChild? node with
  | some child => simp
  | none => simp

theorem insert_eq_ok_iff (f : Forest) (span : Span) (node : Node) (handle : Handle) (g : Forest) :
    f.insert span node = .ok (handle, g) ↔
      f.buildError? span node = none ∧
        handle = ⟨node.variant.role, f.nodes.nextId⟩ ∧ g = f.snoc ⟨span, node⟩ := by
  unfold insert snoc
  cases f.buildError? span node with
  | some e => simp
  | none => simp [eq_comm]

end Forest

/-! ## §2 Sessions -/

/-- A change adds no node but one that has a property. -/
def Change.AddsOnly (P : Node → Prop) : Change → Prop
  | .insert _ node => P node
  | .setSpan _ _ | .setRoot _ => True

/-- A forest with the handles that were handed out for its nodes, in order. -/
structure Session where
  forest : Forest
  handles : List Handle

namespace Session

/-- The session of the forest without nodes. -/
def start : Session := ⟨.empty, []⟩

/-- The session after one attempt at a change. -/
def apply (s : Session) : Change → Session
  | .insert span node =>
    match s.forest.insert span node with
    | .ok (handle, forest) => ⟨forest, s.handles ++ [handle]⟩
    | .error _ => s
  | .setSpan id span =>
    match s.forest.setSpan id span with
    | .ok forest => { s with forest }
    | .error _ => s
  | .setRoot program => { s with forest := s.forest.setRoot program }

/-- The session after attempts at all changes of a list, one after the other. -/
def run (s : Session) (changes : List Change) : Session := changes.foldl apply s

@[simp] theorem run_nil (s : Session) : s.run [] = s := rfl

@[simp] theorem run_cons (s : Session) (c : Change) (cs : List Change) :
    s.run (c :: cs) = (s.apply c).run cs := rfl

/-! ### What a change does -/

/-- All that an attempt at a change can do to a session. -/
inductive Effect (s : Session) : Change → Session → Prop where
  /-- The change is refused. -/
  | refused (c : Change) : Effect s c s
  /-- A node is added. -/
  | inserted {span : Span} {node : Node} (accepted : s.forest.buildError? span node = none) :
      Effect s (.insert span node)
        ⟨s.forest.snoc ⟨span, node⟩,
          s.handles ++ [⟨node.variant.role, s.forest.nodes.nextId⟩]⟩
  /-- The span of a node is recorded again. -/
  | respanned {id : NodeId} {e : Entry} (found : s.forest.entry? id = some e) (span : Span) :
      Effect s (.setSpan id span) ⟨s.forest.respan id e span, s.handles⟩
  /-- A program is marked as the root. -/
  | rooted (program : Ref .program) :
      Effect s (.setRoot program) ⟨s.forest.setRoot program, s.handles⟩

theorem effect_apply (s : Session) (c : Change) : Effect s c (s.apply c) := by
  cases c with
  | insert span node =>
    cases h : s.forest.insert span node with
    | error e =>
      simp only [apply, h]
      exact .refused _
    | ok result =>
      obtain ⟨handle, forest⟩ := result
      obtain ⟨accepted, rfl, rfl⟩ := (Forest.insert_eq_ok_iff ..).1 h
      simp only [apply, h]
      exact .inserted accepted
  | setSpan id span =>
    cases found : s.forest.entry? id with
    | none =>
      simp only [apply, Forest.setSpan, Forest.entry, found, Except.map]
      exact .refused _
    | some e =>
      simp only [apply, Forest.setSpan, Forest.entry, found, Except.map]
      exact .respanned found span
  | setRoot program => exact .rooted program

/-- What every change keeps holds after every run. -/
theorem run_induction {P : Session → Prop} (keep : ∀ s c, P s → P (s.apply c)) {s : Session}
    (h : P s) (cs : List Change) : P (s.run cs) := by
  induction cs generalizing s with
  | nil => exact h
  | cons c cs ih => exact ih (keep s c h)

/-- A change keeps what holds for every node, if the node that it adds has it too. -/
theorem forall_node_apply {P : Node → Prop} {s : Session}
    (hs : ∀ id node, s.forest.node? id = some node → P node) {c : Change} (hc : c.AddsOnly P) :
    ∀ id node, (s.apply c).forest.node? id = some node → P node := by
  intro id node hnode
  have heffect := effect_apply s c
  generalize s.apply c = t at heffect hnode
  cases heffect with
  | refused => exact hs id node hnode
  | inserted =>
    rw [Forest.node?_snoc] at hnode
    split at hnode
    next =>
      obtain rfl := Option.some.inj hnode
      exact hc
    next => exact hs id node hnode
  | respanned found span =>
    rw [Forest.node?_respan found span] at hnode
    exact hs id node hnode
  | rooted => exact hs id node hnode

/-- What holds for every node that is added holds for every node of the session. -/
theorem forall_node_run {P : Node → Prop} {cs : List Change} (h : ∀ c ∈ cs, c.AddsOnly P) :
    ∀ id node, (start.run cs).forest.node? id = some node → P node := by
  have hrun : ∀ (cs : List Change) (s : Session),
      (∀ id node, s.forest.node? id = some node → P node) → (∀ c ∈ cs, c.AddsOnly P) →
      ∀ id node, (s.run cs).forest.node? id = some node → P node := by
    intro cs
    induction cs with
    | nil => exact fun s hs _ => hs
    | cons c cs ih =>
      intro s hs hcs
      rw [List.forall_mem_cons] at hcs
      exact ih (s.apply c) (forall_node_apply hs hcs.1) hcs.2
  exact hrun cs start (fun id node hnode => by simp [start] at hnode) h

end Session

end TensorTree
