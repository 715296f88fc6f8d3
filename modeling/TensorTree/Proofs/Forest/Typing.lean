import TensorTree.Proofs.Forest.Edits
import TensorTree.Proofs.Forest.Kinds

/-!
# Handles keep their promises

A handle promises that the node it names is of a certain role.  Edits may replace the contents of a
node, but never change its variant (`Session.keepsVariants_amend`), so the promise is kept for ever.
If all contents that are put in refer to nodes by handles that were handed out, then every place
stays filled by a node of a fitting role, also where contents were replaced by such that were added
later or that refer to themselves (`Session.typed_amendAll`).
-/

namespace TensorTree

/-! ## §1 What edits do to variants -/

namespace Forest

/-- Every node of a forest is a node of the same variant in another one. -/
def KeepsVariants (f g : Forest) : Prop :=
  ∀ id node, f.node? id = some node → ∃ now, g.node? id = some now ∧ now.variant = node.variant

variable {f g h : Forest}

theorem KeepsVariants.refl (f : Forest) : f.KeepsVariants f :=
  fun _ node hnode => ⟨node, hnode, rfl⟩

theorem KeepsVariants.trans (hfg : f.KeepsVariants g) (hgh : g.KeepsVariants h) :
    f.KeepsVariants h := by
  intro id node hnode
  obtain ⟨between, hbetween, hleft⟩ := hfg id node hnode
  obtain ⟨now, hnow, hright⟩ := hgh id between hbetween
  exact ⟨now, hnow, hright.trans hleft⟩

theorem KeepsVariants.of_within (h : f.Within g) : f.KeepsVariants g :=
  fun id node hnode => ⟨node, h id node hnode, rfl⟩

theorem node?_revise {id : NodeId} {e : Entry} (found : f.entry? id = some e) (node : Node)
    (other : NodeId) :
    (f.revise id e node).node? other = if id = other then some node else f.node? other := by
  have hcontains : f.nodes.contains id = true := (f.nodes.contains_iff id).2 ⟨e, found⟩
  unfold node? entry? revise
  rw [NodeTable.get?_set]
  by_cases hid : id = other
  · rw [if_pos ⟨hid, hcontains⟩, if_pos hid]
    rfl
  · rw [if_neg fun both => hid both.1, if_neg hid]

end Forest

/-- The contents that an edit puts into a forest. -/
def Edit.contents? : Edit → Option Node
  | .change (.insert _ node) | .replace _ node => some node
  | .change (.setSpan _ _) | .change (.setRoot _) => none

namespace Session

variable {s : Session}

/-- What an edit can do to the nodes of a session: each of them keeps its variant, and it keeps its
contents or gets those that the edit puts in; a handle is handed out for a node of its role. -/
structure Amends (s : Session) (edit : Edit) (t : Session) : Prop where
  variants : s.forest.KeepsVariants t.forest
  contents {id : NodeId} {node : Node} :
    t.forest.node? id = some node → s.forest.node? id = some node ∨ edit.contents? = some node
  handles {h : Handle} : h ∈ t.handles → h ∈ s.handles ∨
    ∃ node, t.forest.node? h.node = some node ∧ node.variant.role = h.role
  handed {h : Handle} : h ∈ s.handles → h ∈ t.handles

theorem Amends.refused (s : Session) (edit : Edit) : s.Amends edit s where
  variants := .refl s.forest
  contents hnode := .inl hnode
  handles hh := .inl hh
  handed hh := hh

theorem Effect.amends {c : Change} {t : Session} (h : s.Effect c t) :
    s.Amends (.change c) t := by
  cases h with
  | refused => exact .refused s _
  | @inserted span node accepted =>
    constructor
    case variants => exact .of_within (Forest.within_snoc s.forest _)
    case contents =>
      intro id other hother
      rw [Forest.node?_snoc] at hother
      split at hother
      next => exact .inr hother
      next => exact .inl hother
    case handles =>
      intro h hh
      rw [List.mem_append, List.mem_singleton] at hh
      apply hh.imp id
      -- the new handle names the new node
      intro heq
      exact ⟨node, by rw [heq, Forest.node?_snoc, if_pos rfl], by rw [heq]⟩
    case handed =>
      intro h hh
      exact List.mem_append_left _ hh
  | @respanned id e found span =>
    have same := Forest.node?_respan found span
    constructor
    case variants => exact fun other node hnode => ⟨node, (same other).trans hnode, rfl⟩
    case contents => exact fun {other} _ hother => .inl ((same other).symm.trans hother)
    case handles => exact fun hh => .inl hh
    case handed => exact fun hh => hh
  | rooted =>
    constructor
    case variants => exact fun _ node hnode => ⟨node, hnode, rfl⟩
    case contents => exact fun hnode => .inl hnode
    case handles => exact fun hh => .inl hh
    case handed => exact fun hh => hh

theorem amends_amend (s : Session) (edit : Edit) : s.Amends edit (s.amend edit) := by
  have hrevision := s.revision_amend edit
  generalize s.amend edit = t at hrevision
  cases hrevision with
  | changed effect => exact effect.amends
  | refused => exact .refused s _
  | @revised id e node found same =>
    have hread := Forest.node?_revise found node
    constructor
    case variants =>
      intro other before hbefore
      by_cases hid : id = other
      · -- only the contents that have the same variant are accepted
        obtain rfl : e.node = before :=
          Option.some.inj ((Option.map_eq_some_iff.2 ⟨e, hid ▸ found, rfl⟩).symm.trans hbefore)
        exact ⟨node, by rw [hread, if_pos hid], same.symm⟩
      · exact ⟨before, by rw [hread, if_neg hid, hbefore], rfl⟩
    case contents =>
      intro other now hnow
      rw [hread] at hnow
      split at hnow
      next => exact .inr hnow
      next => exact .inl hnow
    case handles => exact fun hh => .inl hh
    case handed => exact fun hh => hh

theorem keepsVariants_amendAll (s : Session) (edits : List Edit) :
    s.forest.KeepsVariants (s.amendAll edits).forest := by
  induction edits generalizing s with
  | nil => exact .refl s.forest
  | cons edit edits ih => exact (s.amends_amend edit).variants.trans (ih (s.amend edit))

/-! ## §2 Edits that refer to what was handed out -/

/-- All children of a node were handed out, and each handle fits its place. -/
def Supplies (s : Session) (node : Node) : Prop :=
  ∀ slot ∈ node.slots,
    ∃ h ∈ s.handles, h.node = slot.node ∧ ∀ place ∈ slot.role?, h.role.fits place = true

/-- Whatever edits put in refers only to nodes that were handed out before. -/
def SuppliesAll (s : Session) : List Edit → Prop
  | [] => True
  | edit :: edits => (∀ node ∈ edit.contents?, s.Supplies node) ∧ SuppliesAll (s.amend edit) edits

instance (s : Session) (node : Node) : Decidable (s.Supplies node) :=
  inferInstanceAs (Decidable (∀ slot ∈ node.slots,
    ∃ h ∈ s.handles, h.node = slot.node ∧ ∀ place ∈ slot.role?, h.role.fits place = true))

instance decidableSuppliesAll : (s : Session) → (edits : List Edit) →
    Decidable (s.SuppliesAll edits)
  | _, [] => inferInstanceAs (Decidable True)
  | s, edit :: edits =>
    have := decidableSuppliesAll (s.amend edit) edits
    inferInstanceAs (Decidable
      ((∀ node ∈ edit.contents?, s.Supplies node) ∧ (s.amend edit).SuppliesAll edits))

/-- Every place is filled by a node of a fitting role, and every handle names a node of its role. -/
structure Typed (s : Session) : Prop where
  fitted : s.forest.Fitted
  handles : ∀ h ∈ s.handles,
    ∃ node, s.forest.node? h.node = some node ∧ node.variant.role = h.role

theorem typed_start : start.Typed where
  fitted := Forest.fitted_empty
  handles := by simp [start]

/-- One edit that refers only to what was handed out keeps places and handles as they should be. -/
theorem Typed.amend (hs : s.Typed) {edit : Edit} (h : ∀ node ∈ edit.contents?, s.Supplies node) :
    (s.amend edit).Typed := by
  have hamends := s.amends_amend edit
  generalize s.amend edit = t at hamends
  constructor
  case fitted =>
    -- what filled a place before the edit still does, as its variant is the same
    have hkept : ∀ slot : Slot,
        (∃ filler, s.forest.node? slot.node = some filler ∧
          ∀ place ∈ slot.role?, filler.variant.role.fits place = true) →
        ∃ filler, t.forest.node? slot.node = some filler ∧
          ∀ place ∈ slot.role?, filler.variant.role.fits place = true := by
      rintro slot ⟨filler, hfiller, hfits⟩
      obtain ⟨now, hnow, hvariant⟩ := hamends.variants slot.node filler hfiller
      exact ⟨now, hnow, hvariant ▸ hfits⟩
    intro id node hnode slot hslot
    apply hkept slot
    rcases hamends.contents hnode with hbefore | hcontents
    · exact hs.fitted id node hbefore slot hslot
    · -- the places of contents that are put in are filled by what the handles name
      obtain ⟨handle, hhandle, hnamed, hfits⟩ := h node hcontents slot hslot
      obtain ⟨filler, hfiller, hrole⟩ := hs.handles handle hhandle
      rw [hnamed] at hfiller
      exact ⟨filler, hfiller, fun place hplace => hrole ▸ hfits place hplace⟩
  case handles =>
    intro handle hhandle
    rcases hamends.handles hhandle with hbefore | hnew
    · obtain ⟨node, hnode, hrole⟩ := hs.handles handle hbefore
      obtain ⟨now, hnow, hvariant⟩ := hamends.variants handle.node node hnode
      exact ⟨now, hnow, by rw [hvariant, hrole]⟩
    · exact hnew

theorem Typed.amendAll (hs : s.Typed) {edits : List Edit} (h : s.SuppliesAll edits) :
    (s.amendAll edits).Typed := by
  induction edits generalizing s with
  | nil => exact hs
  | cons edit edits ih => exact ih (hs.amend h.1) h.2

/-- A block in the place of a statement and a named set in that of a dimension, then parentheses
that are put around themselves; the replacement of a variable by parentheses is refused, and so is
an assignment without targets. -/
def selfEnclosed : List Edit :=
  [.change (.insert ⟨⟨1, 1⟩, ⟨1, 1⟩⟩ (.varExpr "x")),
    .change (.insert ⟨⟨1, 1⟩, ⟨1, 3⟩⟩ (.parenExpr ⟨⟨0⟩⟩)),
    .change (.insert ⟨⟨2, 1⟩, ⟨2, 9⟩⟩ (.stmtBlock [])),
    .change (.insert ⟨⟨2, 1⟩, ⟨2, 9⟩⟩ (.stmtBlock [⟨⟨2⟩⟩])),
    .change (.insert ⟨⟨3, 1⟩, ⟨3, 1⟩⟩ (.setIndexSet "s")),
    .change (.insert ⟨⟨3, 3⟩, ⟨3, 7⟩⟩ (.scalarTensorType .int)),
    .change (.insert ⟨⟨3, 1⟩, ⟨3, 7⟩⟩ (.nonScalarTensorType [⟨⟨4⟩⟩] ⟨⟨5⟩⟩ false)),
    .change (.insert .unset (.assignStmt [] ⟨⟨0⟩⟩)),
    .replace ⟨1⟩ (.parenExpr ⟨⟨1⟩⟩),
    .replace ⟨0⟩ (.parenExpr ⟨⟨1⟩⟩)]

end Session

end TensorTree
