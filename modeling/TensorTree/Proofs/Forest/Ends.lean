import Mathlib.Data.List.Induction
import TensorTree.Proofs.Forest.Edits
import TensorTree.Proofs.Forest.Reading

/-!
# The ends of conditional statements

A conditional statement without an alternative has no child at which its span could end, so its end
has to be recorded.  That is looked at when the statement is added, but not when another span is
recorded for it.  So the end is lacking exactly if the span that was recorded last has none
(`Session.endErased_iff_of_run`).
-/

namespace TensorTree

/-! ## §1 Where recorded spans come from -/

namespace Forest

variable {f : Forest} {id : NodeId} {e : Entry}

theorem entry?_respan (found : f.entry? id = some e) (span : Span) (other : NodeId) :
    Forest.entry? (f.respan id e span) other =
      if id = other then some { e with span } else f.entry? other := by
  have hcontains : f.nodes.contains id = true := (f.nodes.contains_iff id).2 ⟨e, found⟩
  unfold respan entry?
  rw [NodeTable.get?_set]
  simp [hcontains]

/-- Where the rule asks for no child, the span ends as it was recorded. -/
theorem last_eq_of_recorded (found : f.entry? id = some e)
    (h : e.node.lastAnchor e.span = .recorded) : f.last id = .ok e.span.last := by
  have hentry : f.entry id = .ok e := by simp [Forest.entry, found]
  simp only [last, depthBound, lastWithin, hentry, h]

end Forest

namespace Session

/-- A span is recorded for every node that exists. -/
theorem apply_setSpan {s : Session} {id : NodeId} {e : Entry} (found : s.forest.entry? id = some e)
    (span : Span) : s.apply (.setSpan id span) = ⟨s.forest.respan id e span, s.handles⟩ := by
  simp only [apply, Forest.setSpan, Forest.entry, found, Except.map]
  rfl

theorem run_append (s : Session) (cs ds : List Change) : s.run (cs ++ ds) = (s.run cs).run ds :=
  List.foldl_append

/-- What is stored under a number after a change was put there by this change, or it was there
before and the change does not record a span for it. -/
theorem entry?_apply_cases {s : Session} {c : Change} {id : NodeId} {e : Entry}
    (h : Forest.entry? (s.apply c).forest id = some e) :
    (c = .insert e.span e.node ∧ s.forest.buildError? e.span e.node = none) ∨
      (c = .setSpan id e.span ∧ id.index < s.forest.size) ∨
      (s.forest.entry? id = some e ∧ ∀ span, c ≠ .setSpan id span) := by
  cases c with
  | insert span node =>
    cases hinsert : s.forest.insert span node with
    | error fault =>
      simp only [apply, hinsert] at h
      exact .inr (.inr ⟨h, by simp⟩)
    | ok result =>
      obtain ⟨handle, forest⟩ := result
      obtain ⟨accepted, -, rfl⟩ := (Forest.insert_eq_ok_iff ..).1 hinsert
      simp only [apply, hinsert, Forest.entry?_snoc] at h
      split at h
      next =>
        obtain rfl := Option.some.inj h
        exact .inl ⟨rfl, accepted⟩
      next => exact .inr (.inr ⟨h, by simp⟩)
  | setSpan other span =>
    cases found : s.forest.entry? other with
    | none =>
      simp only [apply, Forest.setSpan, Forest.entry, found, Except.map] at h
      refine .inr (.inr ⟨h, ?_⟩)
      -- the change was refused, so it does not name this number
      rintro span' ⟨rfl, -⟩
      simp [found] at h
    | some before =>
      rw [apply_setSpan found, Forest.entry?_respan found] at h
      split at h
      next hid =>
        obtain rfl := Option.some.inj h
        subst hid
        have hnode : s.forest.node? other = some before.node :=
          Option.map_eq_some_iff.2 ⟨before, found, rfl⟩
        exact .inr (.inl ⟨rfl, Forest.lt_size_of_node? hnode⟩)
      next hid =>
        refine .inr (.inr ⟨h, ?_⟩)
        rintro span' ⟨rfl, -⟩
        exact hid rfl
  | setRoot program => exact .inr (.inr ⟨h, by simp⟩)

/-- The changes from the one that records the span of an entry, with no other one behind it that
records a span for the same number. -/
inductive Recorded (id : NodeId) (e : Entry) : List Change → Prop where
  | inserted {before after : List Change}
      (accepted : (start.run before).forest.buildError? e.span e.node = none)
      (last : ∀ span, Change.setSpan id span ∉ after) :
      Recorded id e (before ++ .insert e.span e.node :: after)
  | respanned {before after : List Change} (found : id.index < (start.run before).forest.size)
      (last : ∀ span, Change.setSpan id span ∉ after) :
      Recorded id e (before ++ .setSpan id e.span :: after)

/-- A further change that records no span for the number makes no difference. -/
theorem Recorded.concat {id : NodeId} {e : Entry} {cs : List Change} (h : Recorded id e cs)
    {c : Change} (hc : ∀ span, c ≠ .setSpan id span) : Recorded id e (cs ++ [c]) := by
  have hlast {after : List Change} (last : ∀ span, Change.setSpan id span ∉ after) :
      ∀ span, Change.setSpan id span ∉ after ++ [c] := by
    intro span hmem
    rcases List.mem_append.1 hmem with hmem | hmem
    · exact last span hmem
    · exact hc span (List.mem_singleton.1 hmem).symm
  cases h with
  | inserted accepted last =>
    rw [List.append_assoc]
    exact .inserted accepted (hlast last)
  | respanned found last =>
    rw [List.append_assoc]
    exact .respanned found (hlast last)

/-- The span of every entry was recorded by some change, and by none after it. -/
theorem recorded_of_run {cs : List Change} {id : NodeId} {e : Entry}
    (found : (start.run cs).forest.entry? id = some e) : Recorded id e cs := by
  -- induction from the right end, as each change is judged by what stands before it
  induction cs using List.reverseRecOn with
  | nil => simp [start, Forest.entry?, Forest.empty] at found
  | append_singleton cs c ih =>
    rw [run_append] at found
    rcases entry?_apply_cases found with ⟨rfl, accepted⟩ | ⟨rfl, hid⟩ | ⟨hbefore, hc⟩
    · exact .inserted accepted (by simp)
    · exact .respanned hid (by simp)
    · exact (ih hbefore).concat hc

/-- Changes that record no span for a number leave what is stored under it as it is. -/
theorem entry?_run_of_not_mem {s : Session} {id : NodeId} {e : Entry}
    (found : s.forest.entry? id = some e) {cs : List Change}
    (h : ∀ span, Change.setSpan id span ∉ cs) : Forest.entry? (s.run cs).forest id = some e := by
  have hedits : s.amendAll (cs.map .change) = s.run cs := List.foldl_map
  rw [← hedits]
  apply entry?_amendAll found
  simp only [List.forall_mem_map]
  intro c hc htarget
  cases c with
  | insert | setRoot => simp [Edit.target?] at htarget
  | setSpan other span =>
    obtain rfl := Option.some.inj htarget
    exact h span hc

/-- The span that is recorded last for a node that exists is found there. -/
theorem span_eq_of_setSpan {before after : List Change} {id : NodeId} {span : Span} {e : Entry}
    (hid : id.index < (start.run before).forest.size)
    (last : ∀ other, Change.setSpan id other ∉ after)
    (found : (start.run (before ++ .setSpan id span :: after)).forest.entry? id = some e) :
    e.span = span := by
  obtain ⟨node, hnode⟩ := ((start.run before).forest.node?_isSome_iff id).2 hid
  obtain ⟨old, hold, -⟩ := Option.map_eq_some_iff.1 hnode
  have hset : Forest.entry? ((start.run before).apply (.setSpan id span)).forest id =
      some { old with span } := by
    rw [apply_setSpan hold, Forest.entry?_respan hold, if_pos rfl]
  have hlast := entry?_run_of_not_mem hset last
  rw [run_append, run_cons] at found
  obtain rfl := Option.some.inj (found.symm.trans hlast)
  rfl

/-! ## §2 Conditional statements without an alternative -/

/-- The span that is recorded last for a node that exists has no end. -/
def EndErased (cs : List Change) (id : NodeId) : Prop :=
  ∃ before span after, cs = before ++ .setSpan id span :: after ∧
    id.index < (start.run before).forest.size ∧ span.hasLast = false ∧
      ∀ other, Change.setSpan id other ∉ after

/-- After any attempts at changes, the span of a conditional statement without an alternative ends
where an end was recorded for it; and it has no end exactly if the span that was recorded last,
after the statement was added, has none. -/
theorem endErased_iff_of_run (cs : List Change) (id : NodeId) (e : Entry)
    (found : (start.run cs).forest.entry? id = some e) (cond : Ref .expr) (thenBody : Ref .stmt)
    (hif : e.node = .ifStmt cond thenBody none) :
    (start.run cs).forest.last id = .ok e.span.last ∧
      (e.span.hasLast = false ↔ EndErased cs id) := by
  refine ⟨?_, ?_, ?_⟩
  · apply Forest.last_eq_of_recorded found
    rw [hif]
    rfl
  · intro hlast
    cases recorded_of_run found with
    | inserted accepted last =>
      -- without an end the statement would not have been added
      have hform := ((Forest.buildError?_eq_none_iff ..).1 accepted).2.1
      simp [hif, Node.formError?, hlast] at hform
    | respanned hid last => exact ⟨_, e.span, _, rfl, hid, hlast, last⟩
  · rintro ⟨before, span, after, rfl, hid, hlast, last⟩
    rw [span_eq_of_setSpan hid last found]
    exact hlast

/-- Two conditional statements without an alternative.  The end of the first one is erased, and so
is that of the second one until it is recorded again. -/
def erasedEnd : List Change :=
  [.insert ⟨⟨1, 4⟩, ⟨1, 4⟩⟩ (.varExpr "c"),
    .insert ⟨⟨2, 1⟩, ⟨2, 1⟩⟩ (.stmtBlock []),
    .insert ⟨⟨1, 1⟩, ⟨3, 3⟩⟩ (.ifStmt ⟨⟨0⟩⟩ ⟨⟨1⟩⟩ none),
    .insert ⟨⟨4, 1⟩, ⟨6, 3⟩⟩ (.ifStmt ⟨⟨0⟩⟩ ⟨⟨1⟩⟩ none),
    .setSpan ⟨3⟩ .unset,
    .setSpan ⟨2⟩ ⟨⟨1, 1⟩, ⟨0, 0⟩⟩,
    .setSpan ⟨3⟩ ⟨⟨4, 1⟩, ⟨6, 3⟩⟩]

/-- The first statement is left without an end, the second one has one again. -/
theorem endErased_erasedEnd :
    ((start.run erasedEnd).forest.entry? ⟨2⟩ =
        some ⟨⟨⟨1, 1⟩, ⟨0, 0⟩⟩, .ifStmt ⟨⟨0⟩⟩ ⟨⟨1⟩⟩ none⟩ ∧
      (start.run erasedEnd).forest.entry? ⟨3⟩ =
        some ⟨⟨⟨4, 1⟩, ⟨6, 3⟩⟩, .ifStmt ⟨⟨0⟩⟩ ⟨⟨1⟩⟩ none⟩) ∧
      ((start.run erasedEnd).forest.last ⟨2⟩ = .ok ⟨0, 0⟩ ∧ EndErased erasedEnd ⟨2⟩) ∧
      (start.run erasedEnd).forest.last ⟨3⟩ = .ok ⟨6, 3⟩ ∧ ¬ EndErased erasedEnd ⟨3⟩ := by
  have hfirst : (start.run erasedEnd).forest.entry? ⟨2⟩ =
      some ⟨⟨⟨1, 1⟩, ⟨0, 0⟩⟩, .ifStmt ⟨⟨0⟩⟩ ⟨⟨1⟩⟩ none⟩ := by decide
  have hsecond : (start.run erasedEnd).forest.entry? ⟨3⟩ =
      some ⟨⟨⟨4, 1⟩, ⟨6, 3⟩⟩, .ifStmt ⟨⟨0⟩⟩ ⟨⟨1⟩⟩ none⟩ := by decide
  obtain ⟨hend, herased⟩ := endErased_iff_of_run erasedEnd ⟨2⟩ _ hfirst _ _ rfl
  obtain ⟨hend', hkept⟩ := endErased_iff_of_run erasedEnd ⟨3⟩ _ hsecond _ _ rfl
  exact ⟨⟨hfirst, hsecond⟩, ⟨hend, herased.1 rfl⟩, hend', fun h => Bool.noConfusion (hkept.2 h)⟩

/-- Not every conditional statement without an alternative has a recorded end. -/
theorem not_forall_hasLast :
    ¬ ∀ (cs : List Change) (id : NodeId) (e : Entry) (cond : Ref .expr) (thenBody : Ref .stmt),
      (start.run cs).forest.entry? id = some e → e.node = .ifStmt cond thenBody none →
        e.span.hasLast = true := by
  intro h
  have hlast := h erasedEnd ⟨2⟩ ⟨⟨⟨1, 1⟩, ⟨0, 0⟩⟩, .ifStmt ⟨⟨0⟩⟩ ⟨⟨1⟩⟩ none⟩ _ _ (by decide) rfl
  exact Bool.noConfusion hlast

end Session

end TensorTree
