import Mathlib.Data.List.Nodup
import Std.Data.String.ToInt
import TensorTree.Dump
import TensorTree.Proofs.Json.Outline

/-!
# What a dump tells about a forest

The dump of a forest tells its nodes, their spans and the root (`Forest.alike_of_dump_eq`).  Only
floating-point numbers may differ, and only if they have the same text: every number that is not
finite is written as null.
-/

namespace TensorTree

/-! ## §1 Nodes that look alike -/

/-- The same nodes, up to floating-point numbers with one text. -/
inductive Node.Alike : Node → Node → Prop where
  | refl (n : Node) : Alike n n
  | floatLiteral {x y : Binary64} (htext : Json.floatText x = Json.floatText y) :
      Alike (.floatLiteral x) (.floatLiteral y)
  | denseFloatVector {xs ys : List Binary64}
      (htexts : xs.map Json.floatText = ys.map Json.floatText) :
      Alike (.denseFloatVector xs) (.denseFloatVector ys)

theorem Node.Alike.of_eq {m n : Node} (h : m = n) : m.Alike n := h ▸ .refl m

theorem Node.Alike.variant_eq {m n : Node} (h : m.Alike n) : m.variant = n.variant := by
  cases h <;> rfl

/-! ## §2 Names -/

/-- Two variants have different names. -/
theorem Variant.name_injective : Function.Injective name := by
  -- the names are compared in the list of all variants, not pair by pair
  have hmem (v : Variant) : v ∈ all := by
    cases v with
    | callable kind => cases kind <;> decide
    | binding kind => cases kind <;> decide
    | loop test => cases test <;> decide
    | binary op => cases op <;> decide
    | _ => decide
  have hnodup : (all.map name).Nodup := by decide
  intro v w h
  exact List.inj_on_of_nodup_map hnodup (hmem v) (hmem w) h

theorem ComparisonOp.name_injective : Function.Injective name := by
  intro a b h
  cases a <;> cases b <;> first | rfl | simp [name] at h

theorem Reduction.name_injective : Function.Injective name := by
  intro a b h
  cases a <;> cases b <;> first | rfl | simp [name] at h

theorem ScalarKind.name_injective : Function.Injective name := by
  intro a b h
  cases a <;> cases b <;> first | rfl | simp [name] at h

namespace Json

/-! ## §3 Values that are told by their outlines -/

/-- Values of a type are written in such a way that the outline tells them. -/
def Faithful {α : Type} (f : α → Json) : Prop := ∀ a b, (f a).outline = (f b).outline ↔ a = b

theorem faithful_int : Faithful int := by
  intro m n
  simp only [outline, Outline.atom.injEq, Int.toString_eq_repr]
  exact ⟨fun h => Int.repr_injective h, congrArg _⟩

theorem faithful_nat : Faithful nat := fun _ _ => (faithful_int _ _).trans Int.ofNat_inj

theorem faithful_bool : Faithful bool := by
  intro b c
  cases b <;> cases c <;> simp [outline, boolText]

theorem faithful_str : Faithful str := fun _ _ => by simp [outline]

theorem faithful_name {α : Type} {name : α → String} (h : Function.Injective name) :
    Faithful fun a => str (name a) := fun _ _ => (faithful_str _ _).trans h.eq_iff

theorem faithful_nodeId : Faithful NodeId.toJson := by
  rintro ⟨m⟩ ⟨n⟩
  simp [NodeId.toJson, faithful_nat m n]

theorem faithful_ref {role : Role} : Faithful (@Ref.toJson role) := by
  rintro ⟨a⟩ ⟨b⟩
  simp [Ref.toJson, faithful_nodeId a b]

theorem outline_list_eq_iff {α : Type} (f : α → Json) (xs ys : List α) :
    (list f xs).outline = (list f ys).outline ↔
      xs.map (fun x => (f x).outline) = ys.map fun y => (f y).outline := by
  simp [list, outline, outlineItems_eq_map, Function.comp_def]

theorem Faithful.list {α : Type} {f : α → Json} (hf : Faithful f) : Faithful (list f) :=
  fun xs ys => (outline_list_eq_iff f xs ys).trans
    (List.map_inj_right fun a b => (hf a b).1)

/-- An absent value is told from a number. -/
theorem faithful_option_ref {role : Role} : Faithful (option (@Ref.toJson role)) := by
  have hnull (r : Ref role) : r.toJson.outline ≠ null.outline := by
    intro h
    simp only [Ref.toJson, NodeId.toJson, nat, outline, Outline.atom.injEq] at h
    have hpart : isNumberPart 'n' = true :=
      isNumberPart_of_mem_toString_int 'n' (by rw [h]; decide)
    simp [isNumberPart, isDigit] at hpart
  intro a b
  cases a with
  | none =>
    cases b with
    | none => simp
    | some s => simpa [option] using (hnull s).symm
  | some r =>
    cases b with
    | none => simpa [option] using hnull r
    | some s => simpa [option] using faithful_ref r s

@[simp] theorem outline_obj (fields : List (String × Json)) :
    (obj fields).outline = .obj (fields.map fun field => (field.1, field.2.outline)) := by
  rw [outline, outlineFields_eq_map]

end Json

/-! ## §4 Nodes -/

open Json

theorem faithful_span : Faithful Span.toJson := by
  rintro ⟨⟨_, _⟩, ⟨_, _⟩⟩ ⟨⟨_, _⟩, ⟨_, _⟩⟩
  simp [Span.toJson, faithful_nat _ _, UInt32.toNat_inj, and_assoc]

/-- The contents of a node of a known variant tell the node. -/
theorem Node.alike_of_contents {m n : Node} (hvariant : m.variant = n.variant)
    (h : m.contentsJson.outline = n.contentsJson.outline) : m.Alike n := by
  cases m <;> cases n <;> try cases hvariant
  case floatLiteral.floatLiteral x y =>
    exact .floatLiteral (by simpa [contentsJson, outline] using h)
  case denseFloatVector.denseFloatVector xs ys =>
    have hatom : Function.Injective Outline.atom := fun _ _ => Outline.atom.inj
    refine .denseFloatVector (hatom.list_map ?_)
    simpa [contentsJson, outline_list_eq_iff, outline, Function.comp_def] using h
  case dynamicIndexSet.dynamicIndexSet | slice.slice => exact .refl _
  -- all other contents hold values that are told by their outlines
  all_goals
    refine .of_eq ?_
    simpa [contentsJson, faithful_int _ _, faithful_nat _ _, faithful_bool _ _, faithful_str _ _,
      faithful_nodeId _ _, faithful_ref _ _, faithful_nodeId.list _ _, faithful_ref.list _ _,
      faithful_int.list _ _, faithful_option_ref _ _, and_assoc,
      Reduction.name_injective.eq_iff, ScalarKind.name_injective.eq_iff,
      (faithful_name ComparisonOp.name_injective).list _ _] using h

/-- The name in front of the contents tells the variant. -/
theorem Node.alike_of_outline_eq {m n : Node} (h : m.toJson.outline = n.toJson.outline) :
    m.Alike n := by
  simp only [toJson, outline_obj, List.map_cons, List.map_nil, Outline.obj.injEq, List.cons.injEq,
    Prod.mk.injEq, and_true] at h
  exact alike_of_contents (Variant.name_injective h.1) h.2

/-! ## §5 Forests -/

/-- The same span, and nodes that look alike. -/
def Entry.Alike (e d : Entry) : Prop := e.span = d.span ∧ e.node.Alike d.node

theorem Entry.alike_of_outline_eq {e d : Entry} (h : e.toJson.outline = d.toJson.outline) :
    e.Alike d := by
  simp only [toJson, outline_obj, List.map_cons, List.map_nil, Outline.obj.injEq, List.cons.injEq,
    Prod.mk.injEq, true_and, and_true, faithful_span _ _] at h
  exact ⟨h.1, Node.alike_of_outline_eq h.2⟩

theorem Forest.toList_getElem? (f : Forest) (id : NodeId) :
    f.nodes.toList[id.index]? = f.entry? id := by
  simp [NodeTable.toList, entry?, NodeTable.get?]

/-- Forests with one dump have the same number of nodes and the same root, and under each number
there are the same span and the same node, up to floating-point numbers with one text. -/
theorem Forest.alike_of_dump_eq {f g : Forest} (h : f.dump = g.dump) :
    f.size = g.size ∧ f.root = g.root ∧
      ∀ id e, f.entry? id = some e → ∃ d, g.entry? id = some d ∧ e.span = d.span ∧
        e.node.variant = d.node.variant ∧ e.node.Alike d.node := by
  have houtline := outline_eq_of_pretty_eq h
  simp only [toJson, outline_obj, List.map_cons, List.map_nil, Outline.obj.injEq, List.cons.injEq,
    Prod.mk.injEq, true_and, and_true, outline_list_eq_iff, faithful_option_ref _ _] at houtline
  obtain ⟨hentries, hroot⟩ := houtline
  have hsize : f.size = g.size := by
    simpa [NodeTable.toList, size, NodeTable.size] using congrArg List.length hentries
  refine ⟨hsize, hroot, ?_⟩
  intro id e he
  have hentry := congrArg (fun entries => entries[id.index]?) hentries
  simp only [List.getElem?_map, toList_getElem?, he, Option.map_some] at hentry
  obtain ⟨d, hd, hsame⟩ := Option.map_eq_some_iff.1 hentry.symm
  obtain ⟨hspan, hnode⟩ := Entry.alike_of_outline_eq hsame.symm
  exact ⟨d, hd, hspan, hnode.variant_eq, hnode⟩

/-- A program around one number. -/
def Forest.ofNumber (x : Binary64) : Forest :=
  ⟨⟨#[⟨⟨⟨1, 1⟩, ⟨1, 3⟩⟩, .floatLiteral x⟩, ⟨.unset, .program [⟨0⟩]⟩]⟩, some ⟨⟨1⟩⟩⟩

/-- The forests of an infinite number and of a NaN have one dump and differ in the number only. -/
theorem Forest.alike_notFinite :
    let infinite := ofNumber (.ofBits 0x7ff0000000000000)
    let nan := ofNumber (.ofBits 0x7ff8000000000000)
    infinite.dump = nan.dump ∧ infinite.size = nan.size ∧ infinite.root = nan.root ∧
      ∀ id e, infinite.entry? id = some e → ∃ d, nan.entry? id = some d ∧ e.span = d.span ∧
        e.node.variant = d.node.variant ∧ e.node.Alike d.node := by
  have hdump : (ofNumber (.ofBits 0x7ff0000000000000)).dump =
      (ofNumber (.ofBits 0x7ff8000000000000)).dump := by decide +kernel
  exact ⟨hdump, alike_of_dump_eq hdump⟩

end TensorTree
