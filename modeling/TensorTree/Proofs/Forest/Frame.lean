import TensorTree.Proofs.Forest.Below
import TensorTree.Proofs.Forest.Edits
import TensorTree.Proofs.Forest.Waiting

/-!
# What is seen at a node

Spans, children, extents, texts and visits of a node depend on the entries at the node and below it
and on nothing else in the forest (`Forest.SameBelow.seenAlike`).  So nothing that is added later is
seen there, and no span or contents that are written elsewhere (`Session.seenAlike_of_grounded`).
-/

namespace TensorTree

namespace Forest

open Relation (ReflTransGen)

variable {f g : Forest} {id : NodeId}

/-! ## §1 Readers -/

/-- No reader can tell at a node which of two forests it reads. -/
structure SeenAlike (f g : Forest) (id : NodeId) : Prop where
  span : f.span id = g.span id
  children : f.children id = g.children id
  extents : f.extents ⟨id⟩ = g.extents ⟨id⟩
  print : ∀ o : LayoutOptions, f.print o id = g.print o id
  visit : ∀ {ε : Type} (v : Visitor ε), v.GoesDown → f.visit v id = g.visit v id

theorem lt_size_of_found {e : Entry} (found : f.entry? id = some e) : id.index < f.size :=
  lt_size_of_node? (node?_of_found found)

/-- Descents end before they have used up the numbers of either forest. -/
theorem Grounded.endsWithin_min (h : f.Grounded id) (hsame : f.SameBelow g id) :
    f.EndsWithin (min f.size g.size) id := by
  apply h.endsWithin
  intro below hbelow
  obtain ⟨e, found⟩ := h.exists_entry below hbelow
  rw [Nat.lt_min]
  exact ⟨lt_size_of_found found, lt_size_of_found ((hsame below hbelow).symm.trans found)⟩

/-- Where all that lies below exists and nothing lies below itself, equal entries are seen alike. -/
theorem SameBelow.seenAlike (hsame : f.SameBelow g id) (h : f.Grounded id) : f.SeenAlike g id := by
  have hends := h.endsWithin_min hsame
  have hf : min f.size g.size ≤ f.depthBound := by
    unfold depthBound
    omega
  have hg : min f.size g.size ≤ g.depthBound := by
    unfold depthBound
    omega
  constructor
  case span => exact hends.span_eq hsame hf hg
  case children =>
    unfold Forest.children node entry
    rw [hsame id .refl]
  case extents => exact hends.extentsWithin_eq hsame hf hg
  case print =>
    intro o
    unfold Forest.print
    rw [hends.writeWithin_eq hsame hf hg hf hg]
  case visit =>
    intro ε v hv
    exact hends.visitWithin_eq hsame hf hg hv

/-- Nodes that keep their children among themselves have all that lies below them among them. -/
theorem mem_of_reflTransGen {ids : List NodeId} (hclosed : ∀ a ∈ ids, f.childrenAt a ⊆ ids)
    (hid : id ∈ ids) {below : NodeId} (hbelow : ReflTransGen f.IsChild id below) :
    below ∈ ids := by
  induction hbelow with
  | refl => exact hid
  | tail _ hlast ih =>
    obtain ⟨node, hnode, hmem⟩ := hlast
    apply hclosed _ ih
    rw [childrenAt_eq hnode]
    exact hmem

end Forest

/-! ## §2 Sessions -/

/-- The edit does not write at a node or at one that lies below it. -/
def Edit.Spares (f : Forest) (id : NodeId) (edit : Edit) : Prop :=
  ∀ target, edit.target? = some target → ¬ Relation.ReflTransGen f.IsChild id target

namespace Session

/-- Edits that spare what lies below a node leave the entries there as they are. -/
theorem sameBelow_amendAll {s : Session} {id : NodeId} (hid : s.forest.Grounded id)
    {edits : List Edit} (h : ∀ edit ∈ edits, edit.Spares s.forest id) :
    s.forest.SameBelow (s.amendAll edits).forest id := by
  intro below hbelow
  obtain ⟨e, found⟩ := hid.exists_entry below hbelow
  have hkept : Forest.entry? (s.amendAll edits).forest below = some e := by
    apply entry?_amendAll found
    intro edit hedit htarget
    exact h edit hedit below htarget hbelow
  rw [found, hkept]

/-- Where all that lies below a node exists and nothing lies below itself, the node is seen alike in
all forests with the same entries there, and so it is after any edits that write elsewhere. -/
theorem seenAlike_of_grounded (s : Session) (id : NodeId) (hid : s.forest.Grounded id) :
    (∀ g : Forest, s.forest.SameBelow g id → s.forest.SeenAlike g id) ∧
      ∀ edits : List Edit, (∀ edit ∈ edits, edit.Spares s.forest id) →
        s.forest.SeenAlike (s.amendAll edits).forest id :=
  ⟨fun _ hsame => hsame.seenAlike hid,
    fun _ h => (sameBelow_amendAll hid h).seenAlike hid⟩

/-- A variable in parentheses, which are then put around the sign that was added behind them. -/
def signedLater : Session :=
  start.amendAll
    [.change (.insert ⟨⟨1, 2⟩, ⟨1, 2⟩⟩ (.varExpr "a")),
      .change (.insert ⟨⟨1, 1⟩, ⟨1, 4⟩⟩ (.parenExpr ⟨⟨0⟩⟩)),
      .change (.insert ⟨⟨1, 2⟩, ⟨1, 2⟩⟩ (.varExpr "b")),
      .change (.insert ⟨⟨1, 2⟩, ⟨1, 3⟩⟩ (.negExpr ⟨⟨2⟩⟩ true)),
      .replace ⟨1⟩ (.parenExpr ⟨⟨3⟩⟩)]

/-- The same parentheses and sign in a forest that has another first node and no further one. -/
def signedAlone : Forest :=
  (start.amendAll
    [.change (.insert ⟨⟨7, 7⟩, ⟨7, 7⟩⟩ (.intLiteral 5)),
      .change (.insert ⟨⟨1, 1⟩, ⟨1, 4⟩⟩ (.parenExpr ⟨⟨0⟩⟩)),
      .change (.insert ⟨⟨1, 2⟩, ⟨1, 2⟩⟩ (.varExpr "b")),
      .change (.insert ⟨⟨1, 2⟩, ⟨1, 3⟩⟩ (.negExpr ⟨⟨2⟩⟩ true)),
      .replace ⟨1⟩ (.parenExpr ⟨⟨3⟩⟩)]).forest

/-- Edits beside the parentheses, the first of which is refused; the second one makes the first
variable a part of itself. -/
def editsBeside : List Edit :=
  [.change (.insert .unset (.negExpr ⟨⟨9⟩⟩ true)),
    .change (.insert .unset (.parenExpr ⟨⟨0⟩⟩)),
    .replace ⟨4⟩ (.parenExpr ⟨⟨4⟩⟩),
    .change (.setSpan ⟨0⟩ ⟨⟨8, 8⟩, ⟨9, 9⟩⟩)]

/-- The parentheses are seen alike in the other forest and after the edits beside them. -/
theorem seenAlike_signedLater :
    signedLater.forest.Grounded ⟨1⟩ ∧ signedLater.forest.SameBelow signedAlone ⟨1⟩ ∧
      (∀ edit ∈ editsBeside, edit.Spares signedLater.forest ⟨1⟩) ∧
      signedLater.forest.SeenAlike signedAlone ⟨1⟩ ∧
      signedLater.forest.SeenAlike (signedLater.amendAll editsBeside).forest ⟨1⟩ := by
  have hvar : signedLater.forest.EndsWithin 1 ⟨2⟩ := .step rfl (List.forall_mem_nil _)
  have hneg : signedLater.forest.EndsWithin 2 ⟨3⟩ := .step rfl (List.forall_mem_singleton.2 hvar)
  have hparen : signedLater.forest.EndsWithin 3 ⟨1⟩ :=
    .step rfl (List.forall_mem_singleton.2 hneg)
  have hbelow : ∀ below, Relation.ReflTransGen signedLater.forest.IsChild ⟨1⟩ below →
      below ∈ [⟨1⟩, ⟨2⟩, (⟨3⟩ : NodeId)] :=
    fun below => Forest.mem_of_reflTransGen (by decide) (by decide)
  have hsame : signedLater.forest.SameBelow signedAlone ⟨1⟩ := by
    intro below h
    have hall : ∀ below ∈ [⟨1⟩, ⟨2⟩, (⟨3⟩ : NodeId)],
        signedLater.forest.entry? below = signedAlone.entry? below := by decide
    exact hall below (hbelow below h)
  have hspares : ∀ edit ∈ editsBeside, edit.Spares signedLater.forest ⟨1⟩ := by
    intro edit hedit target htarget h
    have hall : ∀ edit ∈ editsBeside, ∀ target ∈ [⟨1⟩, ⟨2⟩, (⟨3⟩ : NodeId)],
        edit.target? ≠ some target := by decide
    exact hall edit hedit target (hbelow target h) htarget
  have hseen := signedLater.seenAlike_of_grounded ⟨1⟩ hparen.grounded
  exact ⟨hparen.grounded, hsame, hspares, hseen.1 signedAlone hsame, hseen.2 editsBeside hspares⟩

end Session

end TensorTree
