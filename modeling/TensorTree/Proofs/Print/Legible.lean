import TensorTree.Print.Expansion
import TensorTree.Proofs.Print.Vocabulary
import TensorTree.Proofs.Token.Legible

/-!
# The texts that nodes write

Words, numbers and names are legible.  So, if all names of a forest are names, are the texts of all
pieces of an expansion, one behind the other (`Forest.legible_plainText_expandWithin`).
-/

namespace TensorTree

/-! ## §1 Names and numbers -/

/-- All names of a forest are scanned as identifiers. -/
def Forest.Named (f : Forest) : Prop :=
  ∀ id node, f.node? id = some node → ∀ name ∈ node.names, IsName name

theorem IsName.legible {name : String} (h : IsName name) : Legible name.toList := by
  refine .of_forall fun c hc => ?_
  simp [isPlain, h.isNamePart_of_mem c hc]

theorem isPlain_of_isNumberPart {c : Char} (h : isNumberPart c = true) : isPlain c = true := by
  have hmarks : isPlain '.' = true ∧ isPlain '-' = true := by decide
  simp only [isNumberPart, Bool.or_eq_true, beq_iff_eq] at h
  obtain (hdigit | rfl) | rfl := h
  · simp [isPlain, isNamePart, hdigit]
  · exact hmarks.1
  · exact hmarks.2

/-- Numbers are written with plain characters. -/
theorem legible_of_isNumberPart {cs : List Char} (h : ∀ c ∈ cs, isNumberPart c = true) :
    Legible cs :=
  .of_forall fun c hc => isPlain_of_isNumberPart (h c hc)

theorem spoken_legible : Spoken fun s => Legible s.toList where
  word := by decide
  number _ _ h := legible_of_isNumberPart h

/-! ## §2 Pieces -/

/-- What a piece says: its text and the end of its line, but neither the spaces in front of a line
nor the span behind it. -/
def Piece.plain : Piece → List Char
  | .text s => s.toList
  | .lineEnd _ => ['\n']
  | .indent | .dedent | .fault _ => []

/-- What pieces say, one after the other. -/
def plainText (pieces : List Piece) : List Char := pieces.flatMap Piece.plain

@[simp] theorem plainText_nil : plainText [] = [] := rfl

@[simp] theorem plainText_cons (piece : Piece) (pieces : List Piece) :
    plainText (piece :: pieces) = piece.plain ++ plainText pieces := rfl

@[simp] theorem plainText_append (left right : List Piece) :
    plainText (left ++ right) = plainText left ++ plainText right :=
  List.flatMap_append

/-- Pieces say what is legible if their texts are. -/
theorem legible_plainText {pieces : List Piece} (h : ∀ piece ∈ pieces, piece.Says Legible) :
    Legible (plainText pieces) := by
  induction pieces with
  | nil => exact .nil
  | cons piece pieces ih =>
    rw [List.forall_mem_cons] at h
    rw [plainText_cons]
    refine .append ?_ (ih h.2)
    cases piece with
    | text s => exact h.1
    | lineEnd subject => exact .plain (by decide) .nil
    | indent | dedent | fault => exact .nil

/-- A forest in which all names are names says what is legible. -/
theorem Forest.legible_plainText_expandWithin {f : Forest} (hnames : f.Named) (n : Nat)
    (branch : Branch) (id : NodeId) : Legible (plainText (f.expandWithin n branch id)) :=
  legible_plainText <| f.expandWithin_say spoken_legible
    (fun id node hnode name hname => (hnames id node hnode name hname).legible) n branch id

end TensorTree
