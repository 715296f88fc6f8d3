import TensorTree.Proofs.Forest.Order

/-!
# Places and the nodes that fill them

A session that is built with its own handles refers to nothing that it did not hand out itself, and
only in places for which the handle fits (`Session.OwnHandles`).  Then every place of every node is
filled by a node of a fitting role (`Session.fitted_run`).
-/

namespace TensorTree

/-! ## §1 Forests in which the places are filled -/

/-- Every place is filled by a node of a role that fits it. -/
def Forest.Fitted (f : Forest) : Prop :=
  ∀ id node, f.node? id = some node → ∀ slot ∈ node.slots,
    ∃ filler, f.node? slot.node = some filler ∧
      ∀ place ∈ slot.role?, filler.variant.role.fits place = true

namespace Forest

variable {f : Forest}

theorem fitted_empty : empty.Fitted := fun id node h => by simp at h

theorem Fitted.congr {g : Forest} (hf : f.Fitted) (same : ∀ id, g.node? id = f.node? id) :
    g.Fitted := by
  intro id node h slot hslot
  obtain ⟨filler, hfiller, hfits⟩ := hf id node (same id ▸ h) slot hslot
  exact ⟨filler, (same slot.node).trans hfiller, hfits⟩

/-- The places stay filled when a node is added whose own places are filled. -/
theorem Fitted.snoc (hf : f.Fitted) {e : Entry}
    (he : ∀ slot ∈ e.node.slots, ∃ filler, f.node? slot.node = some filler ∧
      ∀ place ∈ slot.role?, filler.variant.role.fits place = true) :
    (f.snoc e).Fitted := by
  have hkept : ∀ slot : Slot,
      (∃ filler, f.node? slot.node = some filler ∧
        ∀ place ∈ slot.role?, filler.variant.role.fits place = true) →
      ∃ filler, (f.snoc e).node? slot.node = some filler ∧
        ∀ place ∈ slot.role?, filler.variant.role.fits place = true := by
    rintro slot ⟨filler, hfiller, hfits⟩
    exact ⟨filler, within_snoc f e _ _ hfiller, hfits⟩
  intro id node h slot hslot
  rw [node?_snoc] at h
  split at h
  -- the places of the new node are filled by assumption, those of the others stay filled
  next =>
    obtain rfl := Option.some.inj h
    exact hkept slot (he slot hslot)
  next => exact hkept slot (hf id node h slot hslot)

/-- Wherever a reference to a role with no narrower one stands, a node of that role is found. -/
theorem Fitted.exists_filler (hf : f.Fitted) {id : NodeId} {node : Node} {role : Role}
    (hid : f.node? id = some node) {r : Ref role} (hr : r.slot ∈ node.slots)
    (hrole : ∀ other : Role, other.wider? ≠ some role) :
    ∃ filler, f.node? r.node = some filler ∧ filler.variant.role = role := by
  obtain ⟨filler, hfiller, hfits⟩ := hf id node hid r.slot hr
  have hfit := hfits role rfl
  simp only [Role.fits, Bool.or_eq_true, beq_iff_eq, hrole, or_false] at hfit
  exact ⟨filler, hfiller, hfit⟩

end Forest

/-! ## §2 Sessions that are built with their own handles -/

namespace Session

/-- All that a change refers to was handed out, and each handle fits its place. -/
def Knows (s : Session) : Change → Prop
  | .insert _ node => ∀ slot ∈ node.slots,
    ∃ h ∈ s.handles, h.node = slot.node ∧ ∀ place ∈ slot.role?, h.role.fits place = true
  | .setSpan _ _ => True
  | .setRoot program => program.handle ∈ s.handles

/-- Every change of a list refers only to what was handed out before. -/
def OwnHandles (s : Session) : List Change → Prop
  | [] => True
  | c :: cs => s.Knows c ∧ OwnHandles (s.apply c) cs

instance (s : Session) : (c : Change) → Decidable (s.Knows c)
  | .insert _ node => inferInstanceAs (Decidable (∀ slot ∈ node.slots,
    ∃ h ∈ s.handles, h.node = slot.node ∧ ∀ place ∈ slot.role?, h.role.fits place = true))
  | .setSpan _ _ => inferInstanceAs (Decidable True)
  | .setRoot program => inferInstanceAs (Decidable (program.handle ∈ s.handles))

instance decidableOwnHandles : (s : Session) → (cs : List Change) → Decidable (s.OwnHandles cs)
  | _, [] => inferInstanceAs (Decidable True)
  | s, c :: cs =>
    have := decidableOwnHandles (s.apply c) cs
    inferInstanceAs (Decidable (s.Knows c ∧ (s.apply c).OwnHandles cs))

/-- A change that refers only to what was handed out keeps the places filled. -/
theorem fitted_apply {s : Session} (hs : s.Sound) (hf : s.forest.Fitted) {c : Change}
    (hc : s.Knows c) : (s.apply c).forest.Fitted := by
  have heffect := effect_apply s c
  generalize s.apply c = t at heffect
  cases heffect with
  | refused => exact hf
  | inserted =>
    refine hf.snoc fun slot hslot => ?_
    -- a handle that was handed out names a node of its role
    obtain ⟨h, hh, hnode, hfits⟩ := hc slot hslot
    obtain ⟨filler, hfiller, hrole⟩ := (hs.mem_handles_iff h).1 hh
    refine ⟨filler, hnode ▸ hfiller, fun place hplace => ?_⟩
    rw [hrole]
    exact hfits place hplace
  | respanned found span => exact hf.congr (Forest.node?_respan found span)
  | rooted => exact hf.congr fun _ => rfl

/-- In a session that is built with its own handles every place is filled. -/
theorem fitted_run {cs : List Change} (h : start.OwnHandles cs) :
    (start.run cs).forest.Fitted := by
  have hrun : ∀ (cs : List Change) (s : Session), s.Sound → s.forest.Fitted → s.OwnHandles cs →
      (s.run cs).forest.Fitted := by
    intro cs
    induction cs with
    | nil => exact fun s _ hf _ => hf
    | cons c cs ih =>
      intro s hs hf hown
      exact ih (s.apply c) (hs.apply c) (fitted_apply hs hf hown.1) hown.2
  exact hrun cs start sound_start Forest.fitted_empty h

end Session

end TensorTree
