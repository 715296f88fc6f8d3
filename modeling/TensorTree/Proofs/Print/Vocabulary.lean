import TensorTree.Print.Expansion
import TensorTree.Proofs.Print.Writing
import TensorTree.Proofs.Token.Munch

/-!
# The vocabulary of nodes

A node writes its own names, numbers, and words and marks of a fixed vocabulary, whatever forest it
stands in.  So what is to hold of all texts that are written has to be shown only for the vocabulary
and for numbers (`Forest.expandWithin_say`).
-/

namespace TensorTree

/-! ## §1 Numbers -/

/-- What a number is written with: digits, a point and a minus sign. -/
def isNumberPart (c : Char) : Bool := isDigit c || c == '.' || c == '-'

theorem isNumberPart_of_isDigit {c : Char} (h : isDigit c = true) : isNumberPart c = true := by
  simp [isNumberPart, h]

theorem isNumberPart_of_mem_toString_nat {n : Nat} :
    ∀ c ∈ (toString n).toList, isNumberPart c = true := by
  intro c hc
  apply isNumberPart_of_isDigit
  exact isDigit_of_mem_toDigits (by simpa [Nat.toList_repr] using hc)

theorem toList_toString_int_ne_nil (n : Int) : (toString n).toList ≠ [] := by
  rw [Int.toString_eq_repr, Int.repr_eq_if]
  split
  · rw [Nat.toList_repr]
    exact Nat.toDigits_ne_nil
  · rw [String.toList_append]
    exact List.append_ne_nil_of_left_ne_nil (by decide) _

theorem isNumberPart_of_mem_toString_int {n : Int} :
    ∀ c ∈ (toString n).toList, isNumberPart c = true := by
  rw [Int.toString_eq_repr, Int.repr_eq_if]
  split
  · exact isNumberPart_of_mem_toString_nat
  · rw [String.toList_append, List.forall_mem_append]
    exact ⟨List.all_eq_true.1 (by decide), isNumberPart_of_mem_toString_nat⟩

theorem Decimal.matches_digits (d : Decimal) : Rule.digits.Matches d.digits :=
  (Rule.matches_digits_iff _).2 ⟨Nat.toDigits_ne_nil, fun _ => isDigit_of_mem_toDigits⟩

/-- A decimal without a power of ten is written with digits on either side of a point. -/
theorem Decimal.exists_plain_eq (d : Decimal) :
    ∃ u v, d.plain = u ++ '.' :: v ∧ Rule.digits.Matches u ∧ Rule.digits.Matches v := by
  have hzero : Rule.digits.Matches ['0'] :=
    (Rule.matches_digits_iff _).2 ⟨List.cons_ne_nil _ _, List.all_eq_true.1 (by decide)⟩
  have hzeros (n : Nat) : ∀ c ∈ List.replicate n '0', isDigit c = true := by
    intro c hc
    rw [List.eq_of_mem_replicate hc]
    rfl
  obtain ⟨hne, hdigits⟩ := (Rule.matches_digits_iff _).1 d.matches_digits
  unfold plain
  dsimp only
  split
  next n _ =>
    -- zeros stand for a power of ten that is not negative
    refine ⟨d.digits ++ List.replicate n '0', ['0'], by simp, ?_, hzero⟩
    apply (Rule.matches_digits_iff _).2
    exact ⟨List.append_ne_nil_of_left_ne_nil hne _, List.forall_mem_append.2 ⟨hdigits, hzeros n⟩⟩
  next n _ =>
    split
    next hlong =>
      -- the point stands between two digits
      refine ⟨_, _, rfl, (Rule.matches_digits_iff _).2 ⟨?_, ?_⟩,
        (Rule.matches_digits_iff _).2 ⟨?_, ?_⟩⟩
      · rw [← List.length_pos_iff, List.length_take]
        omega
      · exact fun c hc => hdigits c (List.mem_of_mem_take hc)
      · rw [← List.length_pos_iff, List.length_drop]
        omega
      · exact fun c hc => hdigits c (List.mem_of_mem_drop hc)
    next =>
      -- a zero stands in front of the point, and as many behind it as digits are missing
      refine ⟨['0'], _, rfl, hzero, (Rule.matches_digits_iff _).2 ⟨?_, ?_⟩⟩
      · exact List.append_ne_nil_of_right_ne_nil _ hne
      · exact List.forall_mem_append.2 ⟨hzeros _, hdigits⟩

theorem isNumberPart_of_matches_digits {w : List Char} (h : Rule.digits.Matches w) :
    ∀ c ∈ w, isNumberPart c = true :=
  fun c hc => isNumberPart_of_isDigit (((Rule.matches_digits_iff w).1 h).2 c hc)

theorem Decimal.isNumberPart_of_mem_plain (d : Decimal) : ∀ c ∈ d.plain, isNumberPart c = true := by
  obtain ⟨u, v, hplain, hu, hv⟩ := d.exists_plain_eq
  rw [hplain, List.forall_mem_append, List.forall_mem_cons]
  exact ⟨isNumberPart_of_matches_digits hu, by decide, isNumberPart_of_matches_digits hv⟩

theorem Decimal.plain_ne_nil (d : Decimal) : d.plain ≠ [] := by
  obtain ⟨u, v, hplain, -⟩ := d.exists_plain_eq
  simp [hplain]

/-- A floating-point number is written as a number or as one of three words. -/
theorem Binary64.programText_cases (x : Binary64) :
    (x.programText.toList ≠ [] ∧ ∀ c ∈ x.programText.toList, isNumberPart c = true) ∨
      x.programText ∈ ["NaN", "-inf", "inf"] := by
  unfold programText
  split
  next =>
    have hplain : ∀ c ∈ programNumberFormat.magnitude x, isNumberPart c = true :=
      Decimal.isNumberPart_of_mem_plain _
    have hne : programNumberFormat.magnitude x ≠ [] := Decimal.plain_ne_nil _
    left
    rw [NumberFormat.render, String.toList_ofList]
    split
    next => exact ⟨by simp, List.forall_mem_cons.2 ⟨by decide, hplain⟩⟩
    next => exact ⟨hne, hplain⟩
  next =>
    right
    split
    next => simp
    next => split <;> simp

/-! ## §2 Words and marks -/

/-- All texts that nodes write besides names and numbers. -/
def vocabulary : List String :=
  ["set\x7b", "\x7d", "(", ")", ", ", " * ", "*", "tensor[", "](", "'", " : ", ";", "element ",
   "end", "inout ", "extern ", " ", " -> ", " = ", "while ", "do", "end while ", "else", "for ",
   " in ", "print ", ":", "map ", " to ", " reduce ", "not ", "-", "+", ".", "true", "false", "; ",
   " | ", "[", "]", "%! ", " == ", "NaN", "-inf", "inf"] ++
  [Branch.opening, .continuing].map Branch.word ++
  [CallableKind.func, .proc].map CallableKind.word ++
  [BindingKind.variable, .constant].map BindingKind.word ++
  BinaryOp.all.map BinaryOp.spelling ++ ComparisonOp.all.map ComparisonOp.spelling ++
  [Reduction.sum, .absent].map Reduction.spelling ++
  [ScalarKind.int, .float, .bool].map ScalarKind.spelling

/-- A property of all words and marks and of all numbers. -/
structure Spoken (P : String → Prop) : Prop where
  word : ∀ w ∈ vocabulary, P w
  number : ∀ s : String, s ≠ "" → (∀ c ∈ s.toList, isNumberPart c = true) → P s

namespace Spoken

variable {P : String → Prop} (h : Spoken P)
include h

theorem branch (branch : Branch) : P branch.word := h.word _ (by cases branch <;> decide)

theorem callable (kind : CallableKind) : P kind.word := h.word _ (by cases kind <;> decide)

theorem binding (kind : BindingKind) : P kind.word := h.word _ (by cases kind <;> decide)

theorem binary (op : BinaryOp) : P op.spelling := h.word _ (by cases op <;> decide)

theorem comparison (op : ComparisonOp) : P op.spelling := h.word _ (by cases op <;> decide)

theorem reduction (reduction : Reduction) : P reduction.spelling :=
  h.word _ (by cases reduction <;> decide)

theorem scalar (kind : ScalarKind) : P kind.spelling := h.word _ (by cases kind <;> decide)

theorem separator (f : Forest) (elems : List (Ref .dense)) : P (f.elementSeparator elems) := by
  unfold Forest.elementSeparator
  split
  · exact h.word _ (by decide)
  · split <;> exact h.word _ (by decide)

theorem nat (n : Nat) : P (toString n) := by
  refine h.number _ ?_ isNumberPart_of_mem_toString_nat
  exact Nat.repr_ne_empty

theorem int (n : Int) : P (toString n) := by
  refine h.number _ ?_ isNumberPart_of_mem_toString_int
  intro hnil
  exact toList_toString_int_ne_nil n (by rw [hnil]; rfl)

theorem float (x : Binary64) : P x.programText := by
  rcases x.programText_cases with ⟨hne, hparts⟩ | hword
  · exact h.number _ (by simpa using hne) hparts
  · refine h.word _ ?_
    have hwords : ∀ w ∈ ["NaN", "-inf", "inf"], w ∈ vocabulary := by decide
    exact hwords _ hword

end Spoken

/-! ## §3 Fragments -/

/-- The names that a node writes. -/
def Node.names : Node → List String
  | .setIndexSet name | .elementType name | .endpoint name | .identifier name | .varExpr name =>
    [name]
  | _ => []

/-- The text of a fragment, if it is one, has a property. -/
def Fragment.Says (P : String → Prop) : Fragment → Prop
  | .own (.text s) => P s
  | _ => True

/-- All texts among the fragments of a list have a property. -/
abbrev AllSay (P : String → Prop) (fragments : List Fragment) : Prop :=
  AllOf (Fragment.Says P) fragments

namespace AllSay

open Fragment

variable {P : String → Prop}

@[simp] theorem text_iff {s : String} : (text s).Says P ↔ P s := Iff.rfl

@[simp] theorem lineEnd_says (subject : Option NodeId) : (lineEnd subject).Says P := trivial

@[simp] theorem indent_says : (own .indent).Says P := trivial

@[simp] theorem dedent_says : (own .dedent).Says P := trivial

@[simp] theorem fault_says (e : ReadFault) : (fault e).Says P := trivial

@[simp] theorem child_says (branch : Branch) (id : NodeId) : (child branch id).Says P := trivial

@[simp] theorem ofRef_says {role : Role} (r : Ref role) : (ofRef r).Says P := trivial

@[simp] theorem refs {role : Role} (refs : List (Ref role)) : AllSay P (refs.map ofRef) := by
  simp [AllOf]

theorem commas (h : Spoken P) {role : Role} (refs : List (Ref role)) :
    AllSay P (Fragment.commas refs) :=
  forall_mem_intersperse (AllSay.refs refs) (h.word _ (by decide))

theorem operand (h : Spoken P) (needsParens : Bool) (expr : Ref .expr) :
    AllSay P (Fragment.operand needsParens expr) := by
  have hparens : P "(" ∧ P ")" := ⟨h.word _ (by decide), h.word _ (by decide)⟩
  cases needsParens <;> simp [Fragment.operand, inParens, hparens]

theorem texts {α : Type} {render : α → String} (h : Spoken P) (hrender : ∀ a, P (render a))
    (values : List α) :
    AllSay P ((values.map fun a => text (render a)).intersperse (text ", ")) := by
  refine forall_mem_intersperse ?_ (h.word _ (by decide))
  intro fragment hfragment
  obtain ⟨a, -, rfl⟩ := List.mem_map.1 hfragment
  exact hrender a

end AllSay

namespace Forest

open Fragment

variable {P : String → Prop}

theorem chainFragments_say (f : Forest) (h : Spoken P) (ops : List ComparisonOp)
    (exprs : List (Ref .expr)) : AllSay P (f.chainFragments ops exprs) := by
  have hspace : P " " := h.word _ (by decide)
  induction ops generalizing exprs with
  | nil => simp [chainFragments]
  | cons op ops ih =>
    cases exprs with
    | nil => simp [chainFragments]
    | cons expr exprs =>
      simp [chainFragments, hspace, h.comparison, AllSay.operand h, ih exprs]

/-- All that a node writes itself is names of its own, numbers, and words of the vocabulary. -/
theorem fragments_say (f : Forest) (h : Spoken P) (branch : Branch) (id : NodeId) {node : Node}
    (hnames : ∀ name ∈ node.names, P name) : AllSay P (f.fragments branch id node) := by
  cases node with
  | setIndexSet name | elementType name | endpoint name | identifier name | varExpr name =>
    simpa [fragments] using hnames name List.mem_cons_self
  | rangeIndexSet n | tupleLength n => exact List.forall_mem_singleton.2 (h.nat n)
  | intLiteral n => exact List.forall_mem_singleton.2 (h.int n)
  | floatLiteral x => exact List.forall_mem_singleton.2 (h.float x)
  | denseIntVector values => exact .texts h h.int values
  | denseFloatVector values => exact .texts h h.float values
  | program elems =>
    refine forall_mem_intersperse ?_ trivial
    simp [Fragment.node, Fragment.Says]
  | stmtBlock stmts => exact .refs stmts
  | denseNdTensor elems => exact forall_mem_intersperse (AllSay.refs elems) (h.separator f elems)
  | eqExpr operands ops =>
    cases operands with
    | nil => simp [fragments]
    | cons expr exprs => simp [fragments, AllSay.operand h, f.chainFragments_say h]
  | loop timing cond body =>
    cases timing <;> simp (disch := decide) [fragments, deeper, line, h.word]
  | binding kind var value =>
    cases value <;> simp (disch := decide) [fragments, statementEnd, h.word, h.binding]
  | ifStmt cond thenBody elseBody =>
    cases elseBody <;> simp (disch := decide) [fragments, deeper, line, h.word, h.branch]
  | negExpr expr flag | boolLiteral flag =>
    cases flag <;> simp (disch := decide) [fragments, h.word, AllSay.operand h]
  -- all others write fixed texts around their children
  | _ =>
    simp (disch := decide) [fragments, inParens, deeper, line, statementEnd, h.word, h.scalar,
      h.callable, h.reduction, h.binary, AllSay.operand h, AllSay.commas h]

end Forest

/-! ## §4 Expansions -/

/-- A piece has no text, or one with a property. -/
def Piece.Says (P : List Char → Prop) : Piece → Prop
  | .text t => P t.toList
  | _ => True

/-- The texts among pieces have a property if those of the fragments and of the children have it. -/
theorem AllSay.expand {P : List Char → Prop} {ofChild : Branch → NodeId → List Piece}
    (hchild : ∀ branch id, ∀ piece ∈ ofChild branch id, piece.Says P) {fragments : List Fragment}
    (h : AllSay (fun s => P s.toList) fragments) :
    ∀ piece ∈ fragments.flatMap (Fragment.expand ofChild), piece.Says P := by
  intro piece hpiece
  obtain ⟨fragment, hfragment, hmem⟩ := List.mem_flatMap.1 hpiece
  cases fragment with
  | child branch id => exact hchild branch id piece hmem
  | own written =>
    obtain rfl := List.mem_singleton.1 hmem
    have hsays := h _ hfragment
    cases piece with
    | text s => exact hsays
    | lineEnd | indent | dedent | fault => trivial

/-- All texts below a node have a property if all names, words and numbers have it. -/
theorem Forest.expandWithin_say {f : Forest} {P : List Char → Prop}
    (h : Spoken fun s => P s.toList)
    (hnames : ∀ id node, f.node? id = some node → ∀ name ∈ node.names, P name.toList) (n : Nat)
    (branch : Branch) (id : NodeId) : ∀ piece ∈ f.expandWithin n branch id, piece.Says P := by
  induction n generalizing branch id with
  | zero => exact List.forall_mem_singleton.2 trivial
  | succ n ih =>
    rw [expandWithin]
    cases hnode : f.node? id with
    | none => exact List.forall_mem_singleton.2 trivial
    | some node => exact AllSay.expand ih (f.fragments_say h branch id (hnames id node hnode))

end TensorTree
