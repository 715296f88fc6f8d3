import Mathlib.Order.Defs.PartialOrder
import TensorTree.Location

/-!
# The order of locations

Locations are ordered as `Location.compare` says: by line, and on one line by column.  The location
behind a character comes after the location of the character, as long as line and column have room
for one more (`Location.lt_next`): behind the greatest word both would go on with zero.
-/

namespace TensorTree

/-! ## §1 Words that count -/

theorem toNat_add_ofNat {a : UInt32} {n : Nat} (h : a.toNat + n < UInt32.size) :
    (a + .ofNat n).toNat = a.toNat + n := by
  rw [UInt32.toNat_add, UInt32.toNat_ofNat_of_lt' (by omega)]
  exact Nat.mod_eq_of_lt h

/-- One less than a word that counts one more is the count, also if the word is zero. -/
theorem toNat_ofNat_sub_one {n : Nat} (h : n < UInt32.size) :
    (UInt32.ofNat (n + 1) - 1).toNat = n := by
  rw [UInt32.ofNat_add]
  exact (congrArg UInt32.toNat (UInt32.add_sub_cancel (.ofNat n) 1)).trans
    (UInt32.toNat_ofNat_of_lt' h)

namespace Location

/-! ## §2 Comparison by line and column -/

theorem compare_eq_lt_iff (a b : Location) :
    a.compare b = .lt ↔ a.line < b.line ∨ a.line = b.line ∧ a.column < b.column := by
  simp [Location.compare, Ordering.then_eq_lt, Std.compare_eq_lt]

theorem compare_ne_gt_iff (a b : Location) :
    a.compare b ≠ .gt ↔ a.line < b.line ∨ a.line = b.line ∧ a.column ≤ b.column := by
  simp only [Location.compare, ne_eq, Ordering.then_eq_gt, Std.compare_eq_gt, Std.compare_eq_iff_eq,
    UInt32.lt_iff_toNat_lt, UInt32.le_iff_toNat_le, ← UInt32.toNat_inj]
  omega

/-- A location comes before another one or is the same. -/
instance : LE Location := ⟨fun a b => a.compare b ≠ .gt⟩

/-- A location comes before another one. -/
instance : LT Location := ⟨fun a b => a.compare b = .lt⟩

/-- Words are compared as the numbers that they stand for. -/
theorem le_iff {a b : Location} :
    a ≤ b ↔ a.line.toNat < b.line.toNat ∨
      a.line.toNat = b.line.toNat ∧ a.column.toNat ≤ b.column.toNat := by
  rw [← UInt32.lt_iff_toNat_lt, ← UInt32.le_iff_toNat_le, UInt32.toNat_inj]
  exact compare_ne_gt_iff a b

theorem lt_iff {a b : Location} :
    a < b ↔ a.line.toNat < b.line.toNat ∨
      a.line.toNat = b.line.toNat ∧ a.column.toNat < b.column.toNat := by
  rw [← UInt32.lt_iff_toNat_lt, ← UInt32.lt_iff_toNat_lt, UInt32.toNat_inj]
  exact compare_eq_lt_iff a b

instance (a b : Location) : Decidable (a ≤ b) := inferInstanceAs (Decidable (a.compare b ≠ .gt))

instance (a b : Location) : Decidable (a < b) := inferInstanceAs (Decidable (a.compare b = .lt))

instance : PartialOrder Location where
  le_refl a := le_iff.2 (by omega)
  le_trans a b c hab hbc := by
    rw [le_iff] at hab hbc ⊢
    omega
  lt_iff_le_not_ge a b := by
    rw [lt_iff, le_iff, le_iff]
    omega
  le_antisymm a b hab hba := by
    rw [le_iff] at hab hba
    have hline : a.line = b.line := UInt32.toNat_inj.1 (by omega)
    have hcolumn : a.column = b.column := UInt32.toNat_inj.1 (by omega)
    cases a
    cases b
    simp_all

/-! ## §3 Going on from a location -/

/-- As many characters as given can follow without line or column going on with zero. -/
structure HasRoom (here : Location) (n : Nat) : Prop where
  line : here.line.toNat + n < UInt32.size
  column : here.column.toNat + n < UInt32.size

variable {here : Location} {n : Nat}

theorem HasRoom.mono (h : here.HasRoom n) {m : Nat} (hm : m ≤ n) : here.HasRoom m :=
  ⟨Nat.lt_of_le_of_lt (Nat.add_le_add_left hm _) h.line,
    Nat.lt_of_le_of_lt (Nat.add_le_add_left hm _) h.column⟩

theorem hasRoom_start (h : n + 1 < UInt32.size) : start.HasRoom n := by
  constructor <;> exact Nat.add_comm n 1 ▸ h

theorem HasRoom.next (h : here.HasRoom (n + 1)) (c : Char) : (here.next c).HasRoom n := by
  obtain ⟨hline, hcolumn⟩ := h
  -- a new line takes one of the lines and gives all columns back, another character takes a column
  unfold Location.next
  split
  · have hone : (1 : UInt32).toNat = 1 := rfl
    have hnext : (here.line + 1).toNat = here.line.toNat + 1 :=
      toNat_add_ofNat (n := 1) (by omega)
    exact ⟨by dsimp only; omega, by dsimp only; omega⟩
  · have hnext : (here.column + 1).toNat = here.column.toNat + 1 :=
      toNat_add_ofNat (n := 1) (by omega)
    exact ⟨by dsimp only; omega, by dsimp only; omega⟩

theorem HasRoom.after {cs : List Char} (h : here.HasRoom (cs.length + n)) :
    (here.after cs).HasRoom n := by
  induction cs generalizing here with
  | nil => simpa using h
  | cons c cs ih =>
    apply ih
    apply HasRoom.next
    rwa [List.length_cons, Nat.add_right_comm] at h

theorem lt_next (h : here.HasRoom 1) (c : Char) : here < here.next c := by
  have hline : (here.line + 1).toNat = here.line.toNat + 1 := toNat_add_ofNat h.line
  have hcolumn : (here.column + 1).toNat = here.column.toNat + 1 := toNat_add_ofNat h.column
  rw [lt_iff, next]
  split
  next => exact .inl (hline ▸ Nat.lt_succ_self _)
  next => exact .inr ⟨rfl, hcolumn ▸ Nat.lt_succ_self _⟩

/-- Characters do not lead back. -/
theorem le_after {cs : List Char} (h : here.HasRoom cs.length) : here ≤ here.after cs := by
  induction cs generalizing here with
  | nil => exact le_refl here
  | cons c cs ih =>
    calc here ≤ here.next c := le_of_lt (lt_next (h.mono (by simp)) c)
      _ ≤ (here.next c).after cs := ih (h.next c)

end Location

end TensorTree
