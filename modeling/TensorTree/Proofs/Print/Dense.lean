import TensorTree.Proofs.Expr.Affixes
import TensorTree.Proofs.Expr.Script
import TensorTree.Proofs.Forest.Extents
import TensorTree.Proofs.Print.Slices

/-!
# Tensors written out

A tensor is full if elements that stand side by side have the same extents and if there are at
least two of them everywhere.  The rows of a matrix are parted by semicolons, and the elements of
all levels above by bars.  So the text of a full tensor of integers tells the numbers and the last
two extents, but of those in front of them only the product (`Session.print_dense_eq_iff`).
-/

namespace TensorTree

namespace Forest

open Fragment
open Relation (ReflTransGen)

/-! ## §1 Full tensors -/

/-- A tensor of rows of integers in which elements that stand side by side have the same extents,
and every extent is at least two. -/
structure Full (f : Forest) (tensor : Ref .dense) : Prop where
  integers : ∀ below node, ReflTransGen f.IsChild tensor.node below → f.node? below = some node →
    (∃ values, node = .denseIntVector values) ∨ ∃ elems, node = .denseNdTensor elems
  even : ∀ below elems, ReflTransGen f.IsChild tensor.node below →
    f.node? below = some (.denseNdTensor elems) →
      ∀ a ∈ elems, ∀ b ∈ elems, f.extents a = f.extents b
  wide : ∀ s, f.extents tensor = .ok s → ∀ n ∈ s, 2 ≤ n

variable {f : Forest} {o : LayoutOptions} {n : Nat} {tensor : Ref .dense}

/-- The elements of a full tensor are full. -/
theorem Full.elem (h : f.WellFormed) (hfull : f.Full tensor) {elems : List (Ref .dense)}
    (hnode : f.node? tensor.node = some (.denseNdTensor elems)) {r : Ref .dense} (hr : r ∈ elems) :
    f.Full r := by
  have hchild : f.IsChild tensor.node r.node := isChild_elem hnode hr
  refine ⟨fun below node hbelow => hfull.integers below node (hbelow.head hchild),
    fun below elems hbelow => hfull.even below elems (hbelow.head hchild), ?_⟩
  intro s hs n hn
  cases elems with
  | nil => cases hr
  | cons first rest =>
    -- all elements have the extents of the first one
    rw [hfull.even _ _ .refl hnode r hr first List.mem_cons_self] at hs
    have hextents := h.extents_cons hnode
    rw [hs] at hextents
    exact hfull.wide _ hextents n (List.mem_cons_of_mem _ hn)

/-- The node can be a level of a full tensor: its elements are among the given nodes and have the
same extents. -/
def isLevel (f : Forest) (ids : List NodeId) : Node → Bool
  | .denseIntVector _ => true
  | .denseNdTensor elems =>
    elems.all (fun r => r.node ∈ ids) &&
      elems.all fun a => elems.all fun b => f.extents a = f.extents b
  | _ => false

/-- Instead of all ways down a list of nodes is looked through that holds all that lies below. -/
theorem Full.of_levels (ids : List NodeId) (hmem : tensor.node ∈ ids)
    (hlevels : ∀ id ∈ ids, (f.node? id).all (f.isLevel ids) = true)
    (hwide : ∀ s, f.extents tensor = .ok s → ∀ n ∈ s, 2 ≤ n) : f.Full tensor := by
  have hlevel : ∀ id ∈ ids, ∀ node, f.node? id = some node → f.isLevel ids node = true := by
    intro id hid node hnode
    simpa [hnode] using hlevels id hid
  have hbelow : ∀ below, ReflTransGen f.IsChild tensor.node below → below ∈ ids := by
    intro below hreach
    induction hreach with
    | refl => exact hmem
    | @tail parent child _ hchild ih =>
      obtain ⟨node, hnode, hmem⟩ := hchild
      have hparent := hlevel parent ih node hnode
      cases node with
      | denseIntVector => cases hmem
      | denseNdTensor elems =>
        simp only [isLevel, Bool.and_eq_true, List.all_eq_true, decide_eq_true_eq] at hparent
        simp only [Node.children, Node.slots, List.map_map, List.mem_map] at hmem
        obtain ⟨r, hr, rfl⟩ := hmem
        exact hparent.1 r hr
      | _ => cases hparent
  refine ⟨fun below node hreach hnode => ?_, fun below elems hreach hnode => ?_, hwide⟩
  · have hlevel' := hlevel below (hbelow below hreach) node hnode
    cases node with
    | denseIntVector values => exact .inl ⟨values, rfl⟩
    | denseNdTensor elems => exact .inr ⟨elems, rfl⟩
    | _ => cases hlevel'
  · have hlevel' := hlevel below (hbelow below hreach) _ hnode
    simp only [isLevel, Bool.and_eq_true, List.all_eq_true, decide_eq_true_eq] at hlevel'
    exact hlevel'.2

/-! ## §2 Numbers -/

/-- The numbers of a tensor in the order in which they are written, for at most the given number of
levels. -/
def numbersWithin (f : Forest) : Nat → NodeId → List Int
  | 0, _ => []
  | n + 1, id =>
    match f.node? id with
    | some (.denseIntVector values) => values
    | some (.denseNdTensor elems) => elems.flatMap fun r => numbersWithin f n r.node
    | _ => []

/-- The numbers of a tensor of integers in the order in which they are written. -/
def numbers (f : Forest) (tensor : Ref .dense) : List Int :=
  f.numbersWithin f.depthBound tensor.node

/-! ## §3 Texts -/

/-- A list of texts is written with separators between them. -/
theorem writes_intersperse {α : Type} {fragment : α → Fragment} {chars : α → List Char}
    {separator : String} {as : List α} (h : ∀ a ∈ as, f.Writes o n [fragment a] (chars a)) :
    f.Writes o n ((as.map fragment).intersperse (text separator))
      (separator.toList.intercalate (as.map chars)) := by
  induction as with
  | nil => exact writes_nil
  | cons a as ih =>
    rw [List.forall_mem_cons] at h
    cases as with
    | nil => simpa using h.1
    | cons b as =>
      simp only [List.map_cons, List.intersperse_cons_cons, List.intercalate_cons_cons,
        List.append_assoc]
      exact h.1.cons ((writes_text separator).cons (ih h.2))

/-- The numbers of a node are those of the slices, and it is written as their text. -/
structure Shows (f : Forest) (id : NodeId) (slices : List (List (List Int))) : Prop where
  numbers : ∀ n, id.index < n → f.numbersWithin n id = slices.flatten.flatten
  text : ∀ o n, id.index < n → ∀ page : Page,
    f.writeWithin o n .opening id page = .ok (page.write o (String.ofList (slicesText slices)))

theorem shows_row {id : NodeId} {values : List Int}
    (hnode : f.node? id = some (.denseIntVector values)) : f.Shows id [[values]] where
  numbers n hn := by
    obtain ⟨n, rfl⟩ := Nat.exists_eq_add_one.2 (Nat.zero_lt_of_lt hn)
    simp [numbersWithin, hnode]
  text o n hn page := by
    obtain ⟨n, rfl⟩ := Nat.exists_eq_add_one.2 (Nat.zero_lt_of_lt hn)
    have hwrites : f.Writes o n (f.fragments .opening id (.denseIntVector values))
        (rowText values) := writes_intersperse fun value _ => writes_text (toString value)
    rw [writeWithin_succ hnode, slicesText_row]
    exact hwrites page

/-- The elements show their slices, and so does the tensor, if the text of its slices is that of the
elements with separators between them. -/
theorem shows_level {id : NodeId} {elems : List (Ref .dense)} (h : f.WellFormed)
    (hnode : f.node? id = some (.denseNdTensor elems))
    {slices : Ref .dense → List (List (List Int))} (helems : ∀ r ∈ elems, f.Shows r.node (slices r))
    {all : List (List (List Int))}
    (hnumbers : all.flatten.flatten = elems.flatMap fun r => (slices r).flatten.flatten)
    (htext : slicesText all = (f.elementSeparator elems).toList.intercalate
      (elems.map fun r => slicesText (slices r))) : f.Shows id all := by
  have hlt : ∀ r ∈ elems, r.node.index < id.index := fun r hr =>
    h.child_lt (isChild_elem hnode hr)
  constructor
  · intro n hn
    obtain ⟨n, rfl⟩ := Nat.exists_eq_add_one.2 (Nat.zero_lt_of_lt hn)
    rw [numbersWithin, hnode, hnumbers]
    refine List.flatMap_congr fun r hr => (helems r hr).numbers n ?_
    exact Nat.lt_of_lt_of_le (hlt r hr) (Nat.le_of_lt_succ hn)
  · intro o n hn page
    obtain ⟨n, rfl⟩ := Nat.exists_eq_add_one.2 (Nat.zero_lt_of_lt hn)
    rw [writeWithin_succ hnode, htext]
    refine writes_intersperse (fun r hr => writes_ofRef ((helems r hr).text o n ?_)) page
    exact Nat.lt_of_lt_of_le (hlt r hr) (Nat.le_of_lt_succ hn)

/-- Elements that are rows are parted by semicolons. -/
theorem elementSeparator_row {elem : Ref .dense} {values : List Int}
    (helem : f.node? elem.node = some (.denseIntVector values)) (elems : List (Ref .dense)) :
    f.elementSeparator (elem :: elems) = "; " := by
  simp [elementSeparator, helem]

/-- Elements of more levels are parted by bars. -/
theorem elementSeparator_level {elem : Ref .dense} {inner : List (Ref .dense)}
    (helem : f.node? elem.node = some (.denseNdTensor inner)) (elems : List (Ref .dense)) :
    f.elementSeparator (elem :: elems) = " | " := by
  simp [elementSeparator, helem]

/-- A tensor shows slices that fit its shape. -/
structure Sliced (f : Forest) (tensor : Ref .dense) (s : List Nat)
    (slices : List (List (List Int))) : Prop where
  extents : f.extents tensor = .ok s
  wide : Wide s
  fits : Fits s slices
  shows : f.Shows tensor.node slices
  /-- Only rows have a single extent. -/
  rank : ∀ elems, f.node? tensor.node = some (.denseNdTensor elems) → 2 ≤ s.length

section Level

variable {elem : Ref .dense} {elems : List (Ref .dense)}
  {slices : Ref .dense → List (List (List Int))}

/-- Elements that are rows make a single slice. -/
theorem exists_sliced_matrix (h : f.WellFormed)
    (hnode : f.node? tensor.node = some (.denseNdTensor (elem :: elems))) {values : List Int}
    (hrow : f.node? elem.node = some (.denseIntVector values)) {k : Nat}
    (hextents : f.extents tensor = .ok [(elem :: elems).length, k])
    (hwide : Wide [(elem :: elems).length, k])
    (hslices : ∀ r ∈ elem :: elems, f.Sliced r [k] (slices r)) :
    ∃ s slices, f.Sliced tensor s slices := by
  have hrows : ∀ r ∈ elem :: elems, ∃ row : List Int, slices r = [[row]] ∧ row.length = k :=
    fun r hr => (hslices r hr).fits.exists_row
  choose! row hrows hlength using hrows
  have hcount : ((elem :: elems).map row).length = (elem :: elems).length := List.length_map row
  have hfits : Fits [(elem :: elems).length, k] [(elem :: elems).map row] := by
    rw [← hcount]
    exact .matrix (by simpa using hlength)
  refine ⟨_, _, hextents, hwide, hfits, ?_, fun _ _ => Nat.le_refl 2⟩
  refine shows_level h hnode (fun r hr => (hslices r hr).shows) ?_ ?_
  · simp only [List.flatten_cons, List.flatten_nil, List.append_nil, List.flatMap_def]
    apply congrArg List.flatten
    apply List.map_congr_left
    intro r hr
    simp [hrows r hr]
  · rw [elementSeparator_row hrow, slicesText_slice, sliceText, List.map_map]
    apply congrArg
    apply List.map_congr_left
    intro r hr
    rw [hrows r hr, slicesText_row]
    rfl

/-- The slices of elements of more levels follow each other. -/
theorem exists_sliced_stacked (h : f.WellFormed)
    (hnode : f.node? tensor.node = some (.denseNdTensor (elem :: elems)))
    {inner : List (Ref .dense)} (hlevel : f.node? elem.node = some (.denseNdTensor inner))
    {a b : Nat} {shape : List Nat}
    (hextents : f.extents tensor = .ok ((elem :: elems).length :: a :: b :: shape))
    (hwide : Wide ((elem :: elems).length :: a :: b :: shape))
    (hslices : ∀ r ∈ elem :: elems, f.Sliced r (a :: b :: shape) (slices r)) :
    ∃ s slices, f.Sliced tensor s slices := by
  have hcount : ((elem :: elems).map slices).length = (elem :: elems).length :=
    List.length_map slices
  have hfits : Fits ((elem :: elems).length :: a :: b :: shape)
      ((elem :: elems).map slices).flatten := by
    rw [← hcount]
    exact .flatten (by simpa using fun r hr => (hslices r hr).fits)
  refine ⟨_, _, hextents, hwide, hfits, ?_, fun _ _ => by simp⟩
  refine shows_level h hnode (fun r hr => (hslices r hr).shows) ?_ ?_
  · simp [List.flatMap_def, List.flatten_flatten, Function.comp_def]
  · rw [elementSeparator_level hlevel, slicesText, List.map_flatten, ← intercalate_flatten]
    · simp [Function.comp_def, slicesText]
    · simp only [List.forall_mem_map]
      intro r hr
      simpa using ((hslices r hr).fits.filled (hslices r hr).wide).ne_nil

/-- A full tensor is sliced if its elements are. -/
theorem exists_sliced_level (h : f.WellFormed) (hfull : f.Full tensor)
    (hnode : f.node? tensor.node = some (.denseNdTensor (elem :: elems)))
    (helems : ∀ r ∈ elem :: elems, ∃ s slices, f.Sliced r s slices) :
    ∃ s slices, f.Sliced tensor s slices := by
  -- all elements have the extents of the first one
  obtain ⟨shape, _, hfirst⟩ := helems elem List.mem_cons_self
  have hsliced : ∀ r ∈ elem :: elems, ∃ slices, f.Sliced r shape slices := by
    intro r hr
    obtain ⟨s, slices, hslices⟩ := helems r hr
    have hextents := hslices.extents
    rw [hfull.even _ _ .refl hnode r hr elem List.mem_cons_self, hfirst.extents] at hextents
    obtain rfl := Except.ok.inj hextents
    exact ⟨slices, hslices⟩
  choose! slices hslices using hsliced
  have hextents := h.extents_cons hnode
  rw [hfirst.extents] at hextents
  have hwide : Wide ((elem :: elems).length :: shape) := ⟨by simp, hfull.wide _ hextents⟩
  have hchild : f.IsChild tensor.node elem.node := isChild_elem hnode List.mem_cons_self
  obtain ⟨node, helem⟩ := h.exists_child hchild
  obtain ⟨values, rfl⟩ | ⟨inner, rfl⟩ := hfull.integers _ _ (.single hchild) helem
  · obtain rfl : [values.length] = shape :=
      Except.ok.inj ((extents_row helem).symm.trans hfirst.extents)
    exact exists_sliced_matrix h hnode helem hextents hwide hslices
  · match shape, hfirst.rank inner helem with
    | a :: b :: rest, _ => exact exists_sliced_stacked h hnode helem hextents hwide hslices

end Level

/-- Every full tensor is sliced. -/
theorem WellFormed.exists_sliced (h : f.WellFormed) (hfull : f.Full tensor)
    (hid : ∃ node, f.node? tensor.node = some node) :
    ∃ s slices, f.Sliced tensor s slices := by
  refine h.descend_depthBound (P := fun _ id => f.Full ⟨id⟩ → ∃ s slices, f.Sliced ⟨id⟩ s slices)
    ?_ hid hfull
  intro _ id node hnode ih hfull
  obtain ⟨values, rfl⟩ | ⟨elems, rfl⟩ := hfull.integers _ _ .refl hnode
  · have hextents : f.extents ⟨id⟩ = .ok [values.length] := extents_row hnode
    refine ⟨_, [[values]], hextents, ⟨by simp, hfull.wide _ hextents⟩, .row values,
      shows_row hnode, fun elems heq => ?_⟩
    rw [show f.node? id = _ from hnode] at heq
    cases heq
  · cases elems with
    | nil =>
      have hwide := hfull.wide _ (extents_nil hnode) 0 List.mem_cons_self
      omega
    | cons elem elems =>
      exact exists_sliced_level h hfull hnode fun r hr =>
        ih r.node (elem_mem_children hr) (hfull.elem h hnode hr)

/-! ## §4 Literals -/

section Literal

variable {id : NodeId} {transposed : Bool} {s : List Nat} {slices : List (List (List Int))}

theorem isChild_literal (hid : f.node? id = some (.denseTensorLiteral tensor transposed)) :
    f.IsChild id tensor.node :=
  ⟨_, hid, by simp [Node.children, Node.slots]⟩

theorem WellFormed.index_lt_of_literal (h : f.WellFormed)
    (hid : f.node? id = some (.denseTensorLiteral tensor transposed)) :
    tensor.node.index < f.size :=
  Nat.lt_trans (h.child_lt (isChild_literal hid)) (lt_size_of_node? hid)

theorem Sliced.numbers_eq (hsliced : f.Sliced tensor s slices) (h : f.WellFormed)
    (hid : f.node? id = some (.denseTensorLiteral tensor transposed)) :
    f.numbers tensor = slices.flatten.flatten :=
  hsliced.shows.numbers f.depthBound (Nat.lt_succ_of_lt (h.index_lt_of_literal hid))

theorem Sliced.print_literal (hsliced : f.Sliced tensor s slices) (h : f.WellFormed)
    (hid : f.node? id = some (.denseTensorLiteral tensor transposed)) (o : LayoutOptions) :
    f.print o id = .ok (String.ofList (literalText slices transposed)) := by
  have htensor : f.Writes o f.size [ofRef tensor] (slicesText slices) :=
    writes_ofRef (hsliced.shows.text o f.size (h.index_lt_of_literal hid))
  have hmark : f.Writes o f.size (if transposed then [text "'"] else [])
      (if transposed then ['\''] else []) := by
    cases transposed with
    | true => exact writes_text "'"
    | false => exact writes_nil
  have hall : f.Writes o f.size
      (f.fragments .opening id (.denseTensorLiteral tensor transposed))
      (literalText slices transposed) :=
    (writes_text "[").cons (htensor.append ((writes_text "]").cons hmark))
  rw [print, depthBound, writeWithin_succ hid, hall {}]
  exact congrArg Except.ok (Page.text_write_new o (String.ofList (literalText slices transposed)))

end Literal

end Forest

/-! ## §5 Sessions -/

namespace Session

/-- After any attempts at changes: literals of full tensors are printed, and their texts are the
same if and only if both are transposed or none is, and the tensors have the same numbers in the
same order and the same extents, as far as those in front of the last two are told by their product.
So the texts tell all extents of tensors with at most three of them. -/
theorem print_dense_eq_iff (cs ds : List Change) {a b : NodeId} {t u : Ref .dense} {p q : Bool}
    (ha : (start.run cs).forest.node? a = some (.denseTensorLiteral t p))
    (hb : (start.run ds).forest.node? b = some (.denseTensorLiteral u q))
    (ht : (start.run cs).forest.Full t) (hu : (start.run ds).forest.Full u)
    (o o' : LayoutOptions) :
    ∃ s s' text text',
      (start.run cs).forest.extents t = .ok s ∧ (start.run ds).forest.extents u = .ok s' ∧
      (start.run cs).forest.print o a = .ok text ∧
      (start.run ds).forest.print o' b = .ok text' ∧
      (text = text' ↔ p = q ∧
        (start.run cs).forest.numbers t = (start.run ds).forest.numbers u ∧
        stack s = stack s') ∧
      (text = text' → s.length ≤ 3 → s'.length ≤ 3 → s = s') := by
  have hcs := (sound_run cs).admitted.wellFormed
  have hds := (sound_run ds).admitted.wellFormed
  obtain ⟨s, slices, hs⟩ := hcs.exists_sliced ht (hcs.exists_child (Forest.isChild_literal ha))
  obtain ⟨s', slices', hs'⟩ := hds.exists_sliced hu (hds.exists_child (Forest.isChild_literal hb))
  have htext : literalText slices p = literalText slices' q ↔ p = q ∧
      (start.run cs).forest.numbers t = (start.run ds).forest.numbers u ∧
      stack s = stack s' := by
    rw [literalText_inj (hs.fits.filled hs.wide) (hs'.fits.filled hs'.wide),
      hs.fits.eq_iff hs'.fits hs.wide hs'.wide, hs.numbers_eq hcs ha, hs'.numbers_eq hds hb]
  refine ⟨s, s', _, _, hs.extents, hs'.extents, hs.print_literal hcs ha o,
    hs'.print_literal hds hb o', ?_, fun heq hrank hrank' => ?_⟩
  · rw [String.ofList_inj, htext]
  · rw [String.ofList_inj, htext] at heq
    rw [← stack_of_length_le hrank, heq.2.2, stack_of_length_le hrank']

/-- Four matrices in a row, and two rows of two matrices. -/
def stacksOfMatrices : List Change :=
  [.insert ⟨⟨1, 2⟩, ⟨1, 5⟩⟩ (.denseIntVector [1, 2]),
    .insert ⟨⟨1, 2⟩, ⟨1, 11⟩⟩ (.denseNdTensor [⟨⟨0⟩⟩, ⟨⟨0⟩⟩]),
    .insert ⟨⟨1, 2⟩, ⟨1, 50⟩⟩ (.denseNdTensor [⟨⟨1⟩⟩, ⟨⟨1⟩⟩, ⟨⟨1⟩⟩, ⟨⟨1⟩⟩]),
    .insert ⟨⟨1, 2⟩, ⟨1, 24⟩⟩ (.denseNdTensor [⟨⟨1⟩⟩, ⟨⟨1⟩⟩]),
    .insert ⟨⟨1, 2⟩, ⟨1, 50⟩⟩ (.denseNdTensor [⟨⟨3⟩⟩, ⟨⟨3⟩⟩]),
    .insert ⟨⟨1, 1⟩, ⟨1, 51⟩⟩ (.denseTensorLiteral ⟨⟨2⟩⟩ false),
    .insert ⟨⟨1, 1⟩, ⟨1, 51⟩⟩ (.denseTensorLiteral ⟨⟨4⟩⟩ false)]

theorem extents_stacksOfMatrices :
    (start.run stacksOfMatrices).forest.extents ⟨⟨2⟩⟩ = .ok [4, 2, 2] ∧
      (start.run stacksOfMatrices).forest.extents ⟨⟨4⟩⟩ = .ok [2, 2, 2, 2] := by
  decide +kernel

theorem full_stacksOfMatrices :
    (start.run stacksOfMatrices).forest.Full ⟨⟨2⟩⟩ ∧
      (start.run stacksOfMatrices).forest.Full ⟨⟨4⟩⟩ := by
  obtain ⟨hfour, htwo⟩ := extents_stacksOfMatrices
  refine ⟨.of_levels [⟨0⟩, ⟨1⟩, ⟨2⟩] (by decide) (by decide +kernel) fun s hs => ?_,
    .of_levels [⟨0⟩, ⟨1⟩, ⟨3⟩, ⟨4⟩] (by decide) (by decide +kernel) fun s hs => ?_⟩
  · obtain rfl := Except.ok.inj (hfour.symm.trans hs)
    decide
  · obtain rfl := Except.ok.inj (htwo.symm.trans hs)
    decide

/-- Both are printed alike, whatever the options are. -/
theorem print_stacksOfMatrices :
    ((start.run stacksOfMatrices).forest.node? ⟨5⟩ = some (.denseTensorLiteral ⟨⟨2⟩⟩ false) ∧
      (start.run stacksOfMatrices).forest.node? ⟨6⟩ = some (.denseTensorLiteral ⟨⟨4⟩⟩ false)) ∧
      ((start.run stacksOfMatrices).forest.Full ⟨⟨2⟩⟩ ∧
        (start.run stacksOfMatrices).forest.Full ⟨⟨4⟩⟩) ∧
      ∀ o o', (start.run stacksOfMatrices).forest.print o ⟨5⟩ =
        (start.run stacksOfMatrices).forest.print o' ⟨6⟩ := by
  refine ⟨⟨rfl, rfl⟩, full_stacksOfMatrices, fun o o' => ?_⟩
  obtain ⟨s, s', text, text', hs, hs', htext, htext', heq, -⟩ :=
    print_dense_eq_iff stacksOfMatrices stacksOfMatrices (a := ⟨5⟩) (b := ⟨6⟩) rfl rfl
      full_stacksOfMatrices.1 full_stacksOfMatrices.2 o o'
  obtain rfl := Except.ok.inj (extents_stacksOfMatrices.1.symm.trans hs)
  obtain rfl := Except.ok.inj (extents_stacksOfMatrices.2.symm.trans hs')
  rw [htext, htext', heq.2 ⟨rfl, by decide +kernel, by decide⟩]

/-- The text of both. -/
example : (start.run stacksOfMatrices).forest.print {} ⟨6⟩ =
    .ok "[1, 2; 1, 2 | 1, 2; 1, 2 | 1, 2; 1, 2 | 1, 2; 1, 2]" := by
  decide +kernel

/-- Literals of full tensors with the same text need not have the same extents. -/
theorem not_forall_extents_eq :
    ¬ ∀ (cs ds : List Change) (a b : NodeId) (t u : Ref .dense) (p q : Bool),
      (start.run cs).forest.node? a = some (.denseTensorLiteral t p) →
      (start.run ds).forest.node? b = some (.denseTensorLiteral u q) →
      (start.run cs).forest.Full t → (start.run ds).forest.Full u →
      ∀ o, (start.run cs).forest.print o a = (start.run ds).forest.print o b →
        (start.run cs).forest.extents t = (start.run ds).forest.extents u ∧
          (start.run cs).forest.numbers t = (start.run ds).forest.numbers u := by
  intro h
  have htext : (start.run stacksOfMatrices).forest.print {} ⟨5⟩ =
      (start.run stacksOfMatrices).forest.print {} ⟨6⟩ := by decide +kernel
  have heq := (h stacksOfMatrices stacksOfMatrices ⟨5⟩ ⟨6⟩ ⟨⟨2⟩⟩ ⟨⟨4⟩⟩ false false rfl rfl
    full_stacksOfMatrices.1 full_stacksOfMatrices.2 {} htext).1
  rw [extents_stacksOfMatrices.1, extents_stacksOfMatrices.2] at heq
  cases heq

end Session

end TensorTree
