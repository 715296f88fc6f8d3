/-!
# Separators

Texts that are put one behind the other can be told apart if a mark that stands in none of them
parts them (`eq_of_intercalate_eq`).
-/

namespace TensorTree

/-! ## §1 One mark -/

variable {α : Type} {c : α}

/-- What stands in front of the first mark is the same, and so is what stands behind it. -/
theorem eq_of_append_cons_eq {x x' y y' : List α} (hx : c ∉ x) (hx' : c ∉ x')
    (h : x ++ c :: y = x' ++ c :: y') : x = x' ∧ y = y' := by
  induction x generalizing x' with
  | nil =>
    cases x' with
    | nil => exact ⟨rfl, (List.cons.inj h).2⟩
    | cons d x' => exact (hx' ((List.cons.inj h).1 ▸ List.mem_cons_self)).elim
  | cons d x ih =>
    cases x' with
    | nil => exact (hx ((List.cons.inj h).1 ▸ List.mem_cons_self)).elim
    | cons d' x' =>
      obtain ⟨rfl, hrest⟩ := List.cons.inj h
      rw [List.mem_cons, not_or] at hx hx'
      obtain ⟨rfl, rfl⟩ := ih hx.2 hx'.2 hrest
      exact ⟨rfl, rfl⟩

/-! ## §2 Separators between the items of a list -/

/-- What holds for all elements of a list and for what is put between them holds for all. -/
theorem forall_mem_intersperse {P : α → Prop} {l : List α} {separator : α}
    (h : ∀ a ∈ l, P a) (hsep : P separator) : ∀ a ∈ l.intersperse separator, P a := by
  induction l with
  | nil => simp
  | cons first l ih =>
    cases l with
    | nil => exact h
    | cons second l =>
      rw [List.forall_mem_cons] at h
      rw [List.intersperse_cons_cons]
      exact List.forall_mem_cons.2 ⟨h.1, List.forall_mem_cons.2 ⟨hsep, ih h.2⟩⟩

variable {separator : List α}

theorem notMem_intercalate {xs : List (List α)} (hsep : c ∉ separator) (h : ∀ x ∈ xs, c ∉ x) :
    c ∉ separator.intercalate xs := by
  rw [List.intercalate, List.mem_flatten]
  rintro ⟨x, hx, hc⟩
  exact forall_mem_intersperse (P := fun x => c ∉ x) h hsep x hx hc

/-- Items can be told from their texts with separators between them, if they can be told from their
texts one by one, and if a mark of the separator stands in none of these. -/
theorem eq_of_intercalate_eq {β : Type} {text : β → List α} (front back : List α)
    (hfront : c ∉ front) {xs ys : List β} (hxs : ∀ x ∈ xs, c ∉ text x)
    (hys : ∀ y ∈ ys, c ∉ text y) (hne : xs ≠ []) (hne' : ys ≠ [])
    (hinj : ∀ x ∈ xs, ∀ y ∈ ys, text x = text y → x = y)
    (h : (front ++ c :: back).intercalate (xs.map text) =
      (front ++ c :: back).intercalate (ys.map text)) : xs = ys := by
  have hsplit (x more : List α) :
      x ++ (front ++ c :: back) ++ more = (x ++ front) ++ c :: (back ++ more) := by simp
  induction xs generalizing ys with
  | nil => exact (hne rfl).elim
  | cons x xs ih =>
    obtain ⟨y, ys, rfl⟩ := List.exists_cons_of_ne_nil hne'
    rw [List.forall_mem_cons] at hxs hys
    cases xs with
    | nil =>
      cases ys with
      | nil => exact congrArg (· :: []) (hinj x (by simp) y (by simp) (by simpa using h))
      | cons y' ys =>
        rw [List.map_singleton, List.intercalate_singleton, List.map_cons, List.map_cons,
          List.intercalate_cons_cons] at h
        exact (hxs.1 (by simp [h])).elim
    | cons x' xs =>
      cases ys with
      | nil =>
        rw [List.map_singleton, List.intercalate_singleton, List.map_cons, List.map_cons,
          List.intercalate_cons_cons] at h
        exact (hys.1 (by simp [← h])).elim
      | cons y' ys =>
        -- on both sides the mark stands for the first time in the first separator
        simp only [List.map_cons, List.intercalate_cons_cons, hsplit] at h
        obtain ⟨hfirst, hrest⟩ := eq_of_append_cons_eq
          (by simp [hxs.1, hfront]) (by simp [hys.1, hfront]) h
        obtain rfl := hinj x List.mem_cons_self y List.mem_cons_self
          (List.append_cancel_right hfirst)
        refine congrArg _ (ih hxs.2 hys.2 (List.cons_ne_nil _ _) (List.cons_ne_nil _ _) ?_
          (List.append_cancel_left hrest))
        exact fun a ha b hb => hinj a (List.mem_cons_of_mem _ ha) b (List.mem_cons_of_mem _ hb)

theorem intercalate_append {xs ys : List (List α)} (hxs : xs ≠ []) (hys : ys ≠ []) :
    separator.intercalate (xs ++ ys) =
      separator.intercalate xs ++ separator ++ separator.intercalate ys := by
  induction xs with
  | nil => exact (hxs rfl).elim
  | cons x xs ih =>
    cases xs with
    | nil => simp [List.intercalate_cons_of_ne_nil hys]
    | cons x' xs =>
      have hrest := ih (List.cons_ne_nil x' xs)
      simp only [List.cons_append, List.intercalate_cons_cons] at hrest ⊢
      rw [hrest]
      simp

/-- Lists with separators in them, with the same separator between them. -/
theorem intercalate_flatten {xss : List (List (List α))} (h : ∀ xs ∈ xss, xs ≠ []) :
    separator.intercalate (xss.map separator.intercalate) = separator.intercalate xss.flatten := by
  induction xss with
  | nil => rfl
  | cons xs xss ih =>
    rw [List.forall_mem_cons] at h
    cases xss with
    | nil => simp
    | cons xs' xss =>
      have hne : (xs' :: xss).flatten ≠ [] := by
        simp [h.2 xs' List.mem_cons_self]
      rw [List.flatten_cons, intercalate_append h.1 hne, ← ih h.2]
      simp [List.intercalate_cons_cons]

end TensorTree
