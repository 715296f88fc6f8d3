import TensorTree.Node.Operator
import TensorTree.Token.Rule

/-!
# Fields of a line

Commas, colons and semicolons divide a line into fields, and so does an equals sign between spaces,
unless they stand in brackets (`fields`).  A phrase is a text that stays in one field, whatever
stands around it (`Phrase`).  Phrases are put together from smaller ones, and from any text in
brackets that closes all brackets which it opens.
-/

namespace TensorTree

/-! ## §1 Fields -/

def opensBracket (c : Char) : Bool := c == '(' || c == '[' || c == '\x7b'

def closesBracket (c : Char) : Bool := c == ')' || c == ']' || c == '\x7d'

/-- The character divides fields if it stands in no bracket. -/
def isDivider (c : Char) : Bool := c == ',' || c == ':' || c == ';'

/-- The fields of a text: the first one, and all others with what stands in front of each. -/
structure Fields where
  first : List Char
  more : List (Char × List Char)
deriving DecidableEq

namespace Fields

/-- The fields of the text behind some characters that do not leave the first field. -/
def push (cs : List Char) (fs : Fields) : Fields := { fs with first := cs ++ fs.first }

/-- The fields of the text behind a divider. -/
def divide (c : Char) (fs : Fields) : Fields := ⟨[], (c, fs.first) :: fs.more⟩

@[simp] theorem push_push (cs ds : List Char) (fs : Fields) :
    (fs.push ds).push cs = fs.push (cs ++ ds) := by
  simp [push]

end Fields

/-- Divide a text into fields that begins inside of the given number of brackets. -/
def fields : Nat → List Char → Fields
  | _, [] => ⟨[], []⟩
  -- without the spaces the sign would be part of an operator
  | 0, ' ' :: '=' :: ' ' :: cs => (fields 0 cs).divide '='
  | d, c :: cs =>
    if opensBracket c then (fields (d + 1) cs).push [c]
    else if closesBracket c then (fields (d - 1) cs).push [c]
    else if d = 0 ∧ isDivider c then (fields d cs).divide c
    else (fields d cs).push [c]

/-- Unless an equals sign between spaces follows, a character is looked at on its own. -/
theorem fields_cons {c : Char} {cs : List Char}
    (h : ∀ rest, c = ' ' → cs ≠ '=' :: ' ' :: rest) (d : Nat) :
    fields d (c :: cs) =
      if opensBracket c then (fields (d + 1) cs).push [c]
      else if closesBracket c then (fields (d - 1) cs).push [c]
      else if d = 0 ∧ isDivider c then (fields d cs).divide c
      else (fields d cs).push [c] := by
  rw [fields]
  -- the branch for equals signs between spaces is not taken
  intro rest _ hspace hrest
  exact h rest hspace hrest

theorem fields_divider {c : Char} (hc : isDivider c = true) (cs : List Char) :
    fields 0 (c :: cs) = (fields 0 cs).divide c := by
  have hnot : opensBracket c = false ∧ closesBracket c = false ∧ c ≠ ' ' := by
    simp only [isDivider, Bool.or_eq_true, beq_iff_eq] at hc
    rcases hc with (rfl | rfl) | rfl <;> decide
  rw [fields_cons fun _ hspace => absurd hspace hnot.2.2]
  simp [hnot.1, hnot.2.1, hc]

theorem fields_equals (cs : List Char) :
    fields 0 (' ' :: '=' :: ' ' :: cs) = (fields 0 cs).divide '=' := by
  rw [fields]

/-! ## §2 Phrases -/

/-- A text without line breaks that stays in one field, whatever stands around it, if that begins
with no equals sign.  It may be meant for the inside of brackets only. -/
structure Phrase (inside : Bool) (cs : List Char) : Prop where
  head : cs.head? ≠ some '='
  newline : '\n' ∉ cs
  fields_append : ∀ (d : Nat) (rest : List Char), (inside = true → 0 < d) →
    rest.head? ≠ some '=' → fields d (cs ++ rest) = (fields d rest).push cs

/-- The character is nothing but a part of fields. -/
def isQuiet (c : Char) : Bool :=
  !opensBracket c && !closesBracket c && !isDivider c && c != '=' && c != '\n'

theorem isQuiet_of_isNamePart {c : Char} (h : isNamePart c = true) : isQuiet c = true := by
  have hall : List.all ['(', '[', '\x7b', ')', ']', '\x7d', ',', ':', ';', '=', '\n']
      (!isNamePart ·) = true := by decide
  cases hquiet : isQuiet c with
  | true => rfl
  | false =>
    have hspecial : c ∈ ['(', '[', '\x7b', ')', ']', '\x7d', ',', ':', ';', '=', '\n'] := by
      simp only [isQuiet, opensBracket, closesBracket, isDivider] at hquiet
      simp only [List.mem_cons, List.not_mem_nil, or_false]
      grind
    have hnot := List.all_eq_true.1 hall c hspecial
    simp [h] at hnot

theorem head?_append_ne {cs rest : List Char} (hcs : cs.head? ≠ some '=')
    (hrest : rest.head? ≠ some '=') : (cs ++ rest).head? ≠ some '=' := by
  cases cs with
  | nil => exact hrest
  | cons c cs => exact hcs

namespace Phrase

variable {inside : Bool} {cs ds : List Char}

theorem nil : Phrase inside [] := ⟨by simp, by simp, fun _ _ _ _ => rfl⟩

/-- What is a phrase anywhere is one in brackets. -/
theorem toInside (h : Phrase false cs) : Phrase inside cs :=
  ⟨h.head, h.newline, fun d rest _ => h.fields_append d rest (by simp)⟩

theorem append (hcs : Phrase inside cs) (hds : Phrase inside ds) : Phrase inside (cs ++ ds) where
  head := head?_append_ne hcs.head hds.head
  newline := by simp [hcs.newline, hds.newline]
  fields_append d rest hd hrest := by
    rw [List.append_assoc, hcs.fields_append d _ hd (head?_append_ne hds.head hrest),
      hds.fields_append d rest hd hrest, Fields.push_push]

/-- One character in front of a phrase. -/
theorem cons {c : Char} (hc : isQuiet c = true) (h : Phrase inside cs) :
    Phrase inside (c :: cs) := by
  simp only [isQuiet, Bool.and_eq_true, Bool.not_eq_true', bne_iff_ne, ne_eq] at hc
  obtain ⟨⟨⟨⟨hopen, hclose⟩, hdivider⟩, hequals⟩, hnewline⟩ := hc
  refine ⟨by simpa using hequals, by simp [h.newline, Ne.symm hnewline], fun d rest hd hrest => ?_⟩
  have hnext : ∀ more, c = ' ' → cs ++ rest ≠ '=' :: ' ' :: more := by
    intro more _ heq
    exact head?_append_ne h.head hrest (congrArg List.head? heq)
  rw [List.cons_append, fields_cons hnext, h.fields_append d rest hd hrest]
  simp [hopen, hclose, hdivider]

/-- A phrase at the beginning belongs to the first field. -/
theorem fields_eq {rest : List Char} (h : Phrase false cs) (hrest : rest.head? ≠ some '=') :
    fields 0 (cs ++ rest) = (fields 0 rest).push cs :=
  h.fields_append 0 rest (by simp) hrest

theorem fields_self (h : Phrase false cs) : fields 0 cs = ⟨cs, []⟩ := by
  have hall := h.fields_eq (show ([] : List Char).head? ≠ some '=' by simp)
  simpa [fields, Fields.push] using hall

theorem of_forall (h : ∀ c ∈ cs, isQuiet c = true) : Phrase inside cs := by
  induction cs with
  | nil => exact .nil
  | cons c cs ih =>
    rw [List.forall_mem_cons] at h
    exact .cons h.1 (ih h.2)

theorem of_all (h : cs.all isQuiet = true) : Phrase inside cs :=
  .of_forall (List.all_eq_true.1 h)

/-- In brackets dividers do not divide. -/
theorem divider {c : Char} (hc : isDivider c = true) (h : Phrase true cs) :
    Phrase true (c :: cs) := by
  have hnot : opensBracket c = false ∧ closesBracket c = false ∧ c ≠ ' ' ∧ c ≠ '=' ∧ c ≠ '\n' := by
    simp only [isDivider, Bool.or_eq_true, beq_iff_eq] at hc
    rcases hc with (rfl | rfl) | rfl <;> decide
  obtain ⟨hopen, hclose, hspace, hequals, hnewline⟩ := hnot
  refine ⟨by simpa using hequals, by simp [h.newline, Ne.symm hnewline], fun d rest hd hrest => ?_⟩
  have hpos : d ≠ 0 := Nat.ne_of_gt (hd rfl)
  rw [List.cons_append, fields_cons fun _ h => absurd h hspace, h.fields_append d rest hd hrest]
  simp [hopen, hclose, hpos]

/-- A text in brackets is a phrase anywhere. -/
theorem bracket {opening closing : Char} (hopen : opensBracket opening = true)
    (hclose : closesBracket closing = true) (h : Phrase true cs) :
    Phrase inside (opening :: (cs ++ [closing])) := by
  have hopen' : opening ≠ ' ' ∧ opening ≠ '=' ∧ opening ≠ '\n' := by
    simp only [opensBracket, Bool.or_eq_true, beq_iff_eq] at hopen
    rcases hopen with (rfl | rfl) | rfl <;> decide
  have hclose' : opensBracket closing = false ∧ closing ≠ ' ' ∧ closing ≠ '=' ∧ closing ≠ '\n' := by
    simp only [closesBracket, Bool.or_eq_true, beq_iff_eq] at hclose
    rcases hclose with (rfl | rfl) | rfl <;> decide
  refine ⟨by simpa using hopen'.2.1, by simp [h.newline, Ne.symm hopen'.2.2, Ne.symm hclose'.2.2.2],
    fun d rest _ _ => ?_⟩
  -- one level deeper up to the closing bracket, which leads back
  have hrest : fields (d + 1) (closing :: rest) = (fields d rest).push [closing] := by
    rw [fields_cons fun _ h => absurd h hclose'.2.1]
    simp [hclose'.1, hclose]
  have hhead : (closing :: rest).head? ≠ some '=' := by simpa using hclose'.2.2.1
  rw [List.cons_append, List.append_assoc, List.singleton_append,
    fields_cons fun _ h => absurd h hopen'.1, if_pos hopen,
    h.fields_append (d + 1) _ (fun _ => Nat.succ_pos d) hhead, hrest]
  simp

/-- The equals signs of comparison operators do not divide. -/
theorem comparison (op : ComparisonOp) : Phrase inside (' ' :: (op.spelling.toList ++ [' '])) := by
  have hstep : ∀ (c : Char) (cs : List Char) (d : Nat),
      c ∈ [' ', '<', '>', '!', '='] → (∀ rest, c = ' ' → cs ≠ '=' :: ' ' :: rest) →
      fields d (c :: cs) = (fields d cs).push [c] := by
    intro c cs d hc hnext
    have hall : List.all [' ', '<', '>', '!', '=']
        (fun c => !opensBracket c && !closesBracket c && !isDivider c) = true := by decide
    have hnot := List.all_eq_true.1 hall c hc
    simp only [Bool.and_eq_true, Bool.not_eq_true'] at hnot
    rw [fields_cons hnext]
    simp [hnot.1.1, hnot.1.2, hnot.2]
  have hspace : ∀ (rest : List Char) (d : Nat), rest.head? ≠ some '=' →
      fields d (' ' :: rest) = (fields d rest).push [' '] := by
    intro rest d hrest
    apply hstep ' ' rest d (by simp)
    intro more _ heq
    exact hrest (congrArg List.head? heq)
  cases op <;>
    refine ⟨by simp, by decide, fun d rest _ hrest => ?_⟩ <;>
    simp [ComparisonOp.spelling, hstep, hspace rest d hrest]

end Phrase

end TensorTree
