import Mathlib.Algebra.Group.Nat.Defs
import Mathlib.Tactic.SplitIfs
import Std.Data.String.ToInt
import TensorTree.Proofs.Print.Vocabulary
import TensorTree.Proofs.Text.Separators

/-!
# Slices of tensors

A tensor of integers is printed in slices, a slice in rows, and a row in numbers, with a separator
of its own at each of the three levels.  The text of slices tells the slices (`slicesText_inj`).
Slices that fit a shape tell its last two extents and the product of all others (`Fits.eq_iff`).
-/

namespace TensorTree

/-! ## §1 Texts -/

/-- The text of a row of numbers. -/
def rowText (row : List Int) : List Char :=
  ", ".toList.intercalate (row.map fun n => (toString n).toList)

/-- The text of a slice, row by row. -/
def sliceText (slice : List (List Int)) : List Char := "; ".toList.intercalate (slice.map rowText)

/-- The text of all slices. -/
def slicesText (slices : List (List (List Int))) : List Char :=
  " | ".toList.intercalate (slices.map sliceText)

theorem slicesText_slice (slice : List (List Int)) : slicesText [slice] = sliceText slice := by
  simp [slicesText]

theorem slicesText_row (row : List Int) : slicesText [[row]] = rowText row := by
  simp [slicesText, sliceText]

theorem notMem_toString_int {c : Char} (hc : isNumberPart c = false) (n : Int) :
    c ∉ (toString n).toList := fun hmem => by
  simp [isNumberPart_of_mem_toString_int c hmem] at hc

theorem notMem_rowText {c : Char} (hc : isNumberPart c = false) (hsep : c ∉ ", ".toList)
    (row : List Int) : c ∉ rowText row := by
  refine notMem_intercalate hsep ?_
  simp only [List.forall_mem_map]
  exact fun n _ => notMem_toString_int hc n

theorem notMem_sliceText (slice : List (List Int)) : '|' ∉ sliceText slice := by
  refine notMem_intercalate (by decide) ?_
  simp only [List.forall_mem_map]
  exact fun row _ => notMem_rowText (by decide) (by decide) row

theorem rowText_inj {row row' : List Int} (hne : row ≠ []) (hne' : row' ≠ [])
    (h : rowText row = rowText row') : row = row' := by
  have hcomma (n : Int) : ',' ∉ (toString n).toList := notMem_toString_int (by decide) n
  refine eq_of_intercalate_eq [] [' '] List.not_mem_nil (fun n _ => hcomma n)
    (fun n _ => hcomma n) hne hne' (fun m _ n _ heq => ?_) h
  exact Int.repr_injective (String.toList_injective heq)

theorem sliceText_inj {slice slice' : List (List Int)} (hne : slice ≠ []) (hne' : slice' ≠ [])
    (hrows : ∀ row ∈ slice, row ≠ []) (hrows' : ∀ row ∈ slice', row ≠ [])
    (h : sliceText slice = sliceText slice') : slice = slice' := by
  have hmark (row : List Int) : ';' ∉ rowText row := notMem_rowText (by decide) (by decide) row
  exact eq_of_intercalate_eq [] [' '] List.not_mem_nil
    (fun row _ => hmark row) (fun row _ => hmark row) hne hne'
    (fun row hrow row' hrow' => rowText_inj (hrows row hrow) (hrows' row' hrow')) h

/-- There are slices, each of them has rows, and each of these has numbers. -/
structure Filled (slices : List (List (List Int))) : Prop where
  ne_nil : slices ≠ []
  slice_ne_nil : ∀ slice ∈ slices, slice ≠ []
  row_ne_nil : ∀ slice ∈ slices, ∀ row ∈ slice, row ≠ []

/-- The text of slices tells the slices. -/
theorem slicesText_inj {slices slices' : List (List (List Int))} (hs : Filled slices)
    (hs' : Filled slices') (h : slicesText slices = slicesText slices') : slices = slices' := by
  refine eq_of_intercalate_eq [' '] [' '] (by decide) (fun slice _ => notMem_sliceText slice)
    (fun slice _ => notMem_sliceText slice) hs.ne_nil hs'.ne_nil
    (fun slice hmem slice' hmem' => ?_) h
  exact sliceText_inj (hs.slice_ne_nil slice hmem) (hs'.slice_ne_nil slice' hmem')
    (hs.row_ne_nil slice hmem) (hs'.row_ne_nil slice' hmem')

/-- The text of slices in brackets, with the mark of a transposition behind it if there is one. -/
def literalText (slices : List (List (List Int))) (transposed : Bool) : List Char :=
  '[' :: (slicesText slices ++ ']' :: if transposed then ['\''] else [])

theorem literalText_inj {slices slices' : List (List (List Int))} {p q : Bool} (hs : Filled slices)
    (hs' : Filled slices') :
    literalText slices p = literalText slices' q ↔ p = q ∧ slices = slices' := by
  constructor
  · intro h
    have hbody := (List.cons.inj h).2
    -- the last character shows whether there is a transposition
    have hlast := congrArg List.getLast? hbody
    obtain rfl : p = q := by cases p <;> cases q <;> simp at hlast <;> rfl
    exact ⟨rfl, slicesText_inj hs hs' (List.append_cancel_right hbody)⟩
  · rintro ⟨rfl, rfl⟩
    rfl

/-! ## §2 Shapes -/

/-- What the text of a tensor tells about its extents: all that stand in front of the last two are
replaced by their product. -/
def stack (s : List Nat) : List Nat :=
  if s.length ≤ 2 then s else s.dropLast.dropLast.prod :: s.drop (s.length - 2)

/-- Shapes of at most three extents stay as they are. -/
theorem stack_of_length_le {s : List Nat} (h : s.length ≤ 3) : stack s = s := by
  match s, h with
  | [], _ | [_], _ | [_, _], _ => rfl
  | [a, b, c], _ => simp [stack]

/-- The number of slices of a shape. -/
def sliceCount (s : List Nat) : Nat := s.dropLast.dropLast.prod

/-- The number of rows in each slice; a single row is a slice of its own. -/
def rowCount (s : List Nat) : Nat := s.dropLast.getLastD 1

/-- The number of numbers in each row. -/
def rowLength (s : List Nat) : Nat := s.getLastD 0

@[simp] theorem sliceCount_singleton (k : Nat) : sliceCount [k] = 1 := rfl

@[simp] theorem rowCount_singleton (k : Nat) : rowCount [k] = 1 := rfl

@[simp] theorem rowLength_singleton (k : Nat) : rowLength [k] = k := rfl

section Append

variable (outer : List Nat) (m k : Nat)

@[simp] theorem sliceCount_append : sliceCount (outer ++ [m, k]) = outer.prod := by
  simp [sliceCount]

@[simp] theorem rowCount_append : rowCount (outer ++ [m, k]) = m := by
  simp [rowCount]

@[simp] theorem rowLength_append : rowLength (outer ++ [m, k]) = k := by
  simp [rowLength]

theorem stack_append {outer : List Nat} (h : outer ≠ []) :
    stack (outer ++ [m, k]) = [outer.prod, m, k] := by
  simp [stack, h]

end Append

/-- Two extents of two and more make more than one. -/
theorem two_le_prod {outer : List Nat} (hne : outer ≠ []) (h : ∀ n ∈ outer, 2 ≤ n) :
    2 ≤ outer.prod := by
  obtain ⟨a, outer, rfl⟩ := List.exists_cons_of_ne_nil hne
  rw [List.forall_mem_cons] at h
  have hrest : 0 < outer.prod :=
    List.prod_pos_iff_forall_pos_nat.2 fun n hn => Nat.lt_of_lt_of_le (by decide) (h.2 n hn)
  rw [List.prod_cons]
  exact Nat.le_trans h.1 (Nat.le_mul_of_pos_right a hrest)

/-- A shape with at least two in each direction. -/
structure Wide (s : List Nat) : Prop where
  ne_nil : s ≠ []
  two_le : ∀ n ∈ s, 2 ≤ n

namespace Wide

variable {s s' : List Nat}

/-- A shape is that of a row, or it ends with the extents of a matrix. -/
theorem cases (h : Wide s) : (∃ k, s = [k] ∧ 2 ≤ k) ∨
    ∃ outer m k, s = outer ++ [m, k] ∧ (∀ n ∈ outer, 2 ≤ n) ∧ 2 ≤ m ∧ 2 ≤ k := by
  obtain ⟨init, k, rfl⟩ := (List.eq_nil_or_concat s).resolve_left h.ne_nil
  obtain rfl | ⟨outer, m, rfl⟩ := List.eq_nil_or_concat init
  · exact .inl ⟨k, rfl, h.two_le k (by simp)⟩
  · refine .inr ⟨outer, m, k, by simp, fun n hn => h.two_le n (by simp [hn]), ?_, ?_⟩
    · exact h.two_le m (by simp)
    · exact h.two_le k (by simp)

theorem sliceCount_pos (h : Wide s) : 0 < sliceCount s := by
  obtain ⟨k, rfl, -⟩ | ⟨outer, m, k, rfl, houter, -, -⟩ := h.cases
  · simp
  · rw [sliceCount_append]
    exact List.prod_pos_iff_forall_pos_nat.2 fun n hn =>
      Nat.lt_of_lt_of_le (by decide) (houter n hn)

theorem rowCount_pos (h : Wide s) : 0 < rowCount s := by
  obtain ⟨k, rfl, -⟩ | ⟨outer, m, k, rfl, -, hm, -⟩ := h.cases
  · simp
  · rw [rowCount_append]
    omega

theorem rowLength_pos (h : Wide s) : 0 < rowLength s := by
  obtain ⟨k, rfl, hk⟩ | ⟨outer, m, k, rfl, -, -, hk⟩ := h.cases
  · rw [rowLength_singleton]
    omega
  · rw [rowLength_append]
    omega

/-- How many extents remain shows whether there are several slices, and several rows. -/
theorem stack_eq (h : Wide s) :
    stack s =
      if sliceCount s = 1 then
        if rowCount s = 1 then [rowLength s] else [rowCount s, rowLength s]
      else [sliceCount s, rowCount s, rowLength s] := by
  obtain ⟨k, rfl, -⟩ | ⟨outer, m, k, rfl, houter, hm, -⟩ := h.cases
  · rfl
  · by_cases hnil : outer = []
    · subst hnil
      have hrow : m ≠ 1 := by omega
      simp [sliceCount, rowCount, rowLength, stack, hrow]
    · have hcount : outer.prod ≠ 1 := by
        have := two_le_prod hnil houter
        omega
      simp [stack_append m k hnil, hcount]

theorem stack_eq_iff (h : Wide s) (h' : Wide s') :
    stack s = stack s' ↔
      sliceCount s = sliceCount s' ∧ rowCount s = rowCount s' ∧ rowLength s = rowLength s' := by
  rw [h.stack_eq, h'.stack_eq]
  split_ifs <;> simp <;> omega

end Wide

/-- The slices of a tensor of a shape. -/
structure Fits (s : List Nat) (slices : List (List (List Int))) : Prop where
  count : slices.length = sliceCount s
  rows : ∀ slice ∈ slices, slice.length = rowCount s
  numbers : ∀ slice ∈ slices, ∀ row ∈ slice, row.length = rowLength s

namespace Fits

variable {s s' : List Nat} {slices slices' : List (List (List Int))}

theorem filled (h : Fits s slices) (hs : Wide s) : Filled slices where
  ne_nil := List.ne_nil_of_length_pos (h.count ▸ hs.sliceCount_pos)
  slice_ne_nil slice hslice := List.ne_nil_of_length_pos (h.rows slice hslice ▸ hs.rowCount_pos)
  row_ne_nil slice hslice row hrow :=
    List.ne_nil_of_length_pos (h.numbers slice hslice row hrow ▸ hs.rowLength_pos)

theorem map_length (h : Fits s slices) :
    slices.map List.length = List.replicate (sliceCount s) (rowCount s) := by
  rw [List.eq_replicate_iff, List.length_map, List.forall_mem_map]
  exact ⟨h.count, h.rows⟩

theorem map_length_flatten (h : Fits s slices) :
    slices.flatten.map List.length =
      List.replicate (sliceCount s * rowCount s) (rowLength s) := by
  rw [List.eq_replicate_iff, List.length_map, List.length_flatten, h.map_length,
    List.forall_mem_map]
  refine ⟨by simp, fun row hrow => ?_⟩
  obtain ⟨slice, hslice, hmem⟩ := List.mem_flatten.1 hrow
  exact h.numbers slice hslice row hmem

/-- The same slices fit only shapes that are stacked alike, and numbers in one order make only one
list of slices of such shapes. -/
theorem eq_iff (h : Fits s slices) (h' : Fits s' slices') (hs : Wide s) (hs' : Wide s') :
    slices = slices' ↔
      slices.flatten.flatten = slices'.flatten.flatten ∧ stack s = stack s' := by
  rw [hs.stack_eq_iff hs']
  constructor
  · rintro rfl
    obtain ⟨slice, hslice⟩ := List.exists_mem_of_ne_nil _ (h.filled hs).ne_nil
    obtain ⟨row, hrow⟩ := List.exists_mem_of_ne_nil _ ((h.filled hs).slice_ne_nil slice hslice)
    exact ⟨rfl, h.count.symm.trans h'.count,
      (h.rows slice hslice).symm.trans (h'.rows slice hslice),
      (h.numbers slice hslice row hrow).symm.trans (h'.numbers slice hslice row hrow)⟩
  · rintro ⟨hnumbers, hcount, hrows, hlength⟩
    have hflat : slices.flatten = slices'.flatten := by
      rw [List.eq_iff_flatten_eq, h.map_length_flatten, h'.map_length_flatten, hcount, hrows,
        hlength]
      exact ⟨hnumbers, rfl⟩
    rw [List.eq_iff_flatten_eq, h.map_length, h'.map_length, hcount, hrows]
    exact ⟨hflat, rfl⟩

theorem exists_row {k : Nat} (h : Fits [k] slices) :
    ∃ row : List Int, slices = [[row]] ∧ row.length = k := by
  obtain ⟨slice, rfl⟩ := List.length_eq_one_iff.1 h.count
  obtain ⟨row, rfl⟩ := List.length_eq_one_iff.1 (h.rows slice List.mem_cons_self)
  exact ⟨row, rfl, h.numbers [row] List.mem_cons_self row List.mem_cons_self⟩

/-- A row is the only one of its slice. -/
theorem row (values : List Int) : Fits [values.length] [[values]] where
  count := rfl
  rows := by simp
  numbers := by simp

/-- Rows of one length are the only slice of a matrix. -/
theorem matrix {rows : List (List Int)} {k : Nat} (h : ∀ row ∈ rows, row.length = k) :
    Fits [rows.length, k] [rows] where
  count := rfl
  rows := by simp [rowCount]
  numbers := by simpa [rowLength] using h

/-- The slices of a tensor are those of its elements, one after the other. -/
theorem flatten {a b : Nat} {shape : List Nat} {levels : List (List (List (List Int)))}
    (h : ∀ slices ∈ levels, Fits (a :: b :: shape) slices) :
    Fits (levels.length :: a :: b :: shape) levels.flatten where
  count := by
    have hcounts : levels.map List.length =
        List.replicate levels.length (sliceCount (a :: b :: shape)) := by
      rw [List.eq_replicate_iff, List.length_map, List.forall_mem_map]
      exact ⟨rfl, fun slices hslices => (h slices hslices).count⟩
    rw [List.length_flatten, hcounts]
    simp [sliceCount]
  rows := by
    simp only [List.mem_flatten]
    rintro slice ⟨slices, hslices, hslice⟩
    exact (h slices hslices).rows slice hslice
  numbers := by
    simp only [List.mem_flatten]
    rintro slice ⟨slices, hslices, hslice⟩
    exact (h slices hslices).numbers slice hslice

end Fits

end TensorTree
