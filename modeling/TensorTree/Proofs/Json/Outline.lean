import Mathlib.Tactic.SplitIfs
import TensorTree.Json
import TensorTree.Proofs.Print.Legible

/-!
# What the text of a JSON value tells

Of a number, a truth value or null only the text is written, so two such values may look alike; all
else can be read back: strings through their escapes, arrays and objects item by item.  The outline
of a value is what its text tells (`Json.outline_eq_of_pretty_eq`).

The proof compares two texts from the left.  A value ends where a character follows that cannot
continue it (`Json.Ends`), and what follows two values with one text is then the same too.
-/

namespace TensorTree

/-! ## §1 Outlines -/

/-- A JSON value of whose scalars other than strings only the text is known. -/
inductive Outline where
  | atom (text : String)
  | str (value : String)
  | arr (items : List Outline)
  | obj (fields : List (String × Outline))

namespace Json

mutual

/-- What the text of a value tells. -/
def outline : Json → Outline
  | .null => .atom "null"
  | .bool b => .atom (boolText b)
  | .int n => .atom (toString n)
  | .float x => .atom (floatText x)
  | .str s => .str s
  | .arr items => .arr (outlineItems items)
  | .obj fields => .obj (outlineFields fields)

def outlineItems : List Json → List Outline
  | [] => []
  | item :: items => item.outline :: outlineItems items

def outlineFields : List (String × Json) → List (String × Outline)
  | [] => []
  | (name, value) :: fields => (name, value.outline) :: outlineFields fields

end

theorem outlineItems_eq_map (items : List Json) : outlineItems items = items.map outline := by
  induction items with
  | nil => rfl
  | cons item items ih => rw [outlineItems, ih, List.map_cons]

theorem outlineFields_eq_map (fields : List (String × Json)) :
    outlineFields fields = fields.map fun field => (field.1, field.2.outline) := by
  induction fields with
  | nil => rfl
  | cons field fields ih => rw [outlineFields, ih, List.map_cons]

/-! ## §2 Texts of scalars -/

/-- What numbers, truth values and null are written with. -/
def isAtomPart (c : Char) : Bool := isNamePart c || c == '.' || c == '-' || c == '+'

/-- A text that can only be that of a number, a truth value or null. -/
def AtomText (cs : List Char) : Prop := cs ≠ [] ∧ ∀ c ∈ cs, isAtomPart c = true

theorem isAtomPart_of_isNumberPart {c : Char} (h : isNumberPart c = true) :
    isAtomPart c = true := by
  simp only [isNumberPart, Bool.or_eq_true] at h
  obtain (hdigit | hpoint) | hminus := h
  · simp [isAtomPart, isNamePart, hdigit]
  · simp [isAtomPart, hpoint]
  · simp [isAtomPart, hminus]

theorem atomText_of_isNumberPart {cs : List Char} (hne : cs ≠ [])
    (h : ∀ c ∈ cs, isNumberPart c = true) : AtomText cs :=
  ⟨hne, fun c hc => isAtomPart_of_isNumberPart (h c hc)⟩

theorem atomText_of_all {cs : List Char} (h : (!cs.isEmpty && cs.all isAtomPart) = true) :
    AtomText cs := by
  rw [Bool.and_eq_true, List.all_eq_true] at h
  exact ⟨by simpa using h.1, h.2⟩

theorem AtomText.cons {c : Char} {cs : List Char} (hc : isAtomPart c = true) (h : AtomText cs) :
    AtomText (c :: cs) :=
  ⟨List.cons_ne_nil c cs, List.forall_mem_cons.2 ⟨hc, h.2⟩⟩

theorem AtomText.append {cs ds : List Char} (hc : ∀ c ∈ cs, isAtomPart c = true)
    (hd : AtomText ds) : AtomText (cs ++ ds) :=
  ⟨List.append_ne_nil_of_right_ne_nil cs hd.1, List.forall_mem_append.2 ⟨hc, hd.2⟩⟩

theorem atomText_toDigits (n : Nat) : AtomText (Nat.toDigits 10 n) :=
  atomText_of_isNumberPart Nat.toDigits_ne_nil fun _ hc =>
    isNumberPart_of_isDigit (isDigit_of_mem_toDigits hc)

/-- A decimal with a power of ten is written with digits, a point, a letter and a sign. -/
theorem atomText_scientific (d : Decimal) : AtomText d.scientific := by
  have hdigits : ∀ c ∈ d.digits, isAtomPart c = true := (atomText_toDigits d.coefficient).2
  have hmarks : isAtomPart '.' = true ∧ isAtomPart 'e' = true ∧ isAtomPart '-' = true ∧
      isAtomPart '+' = true := by decide
  unfold Decimal.scientific
  refine AtomText.append ?mantissa (AtomText.cons hmarks.2.1 ?exponent)
  case mantissa =>
    split
    next first second more hds =>
      rw [hds, List.forall_mem_cons] at hdigits
      exact List.forall_mem_cons.2
        ⟨hdigits.1, List.forall_mem_cons.2 ⟨hmarks.1, hdigits.2⟩⟩
    next => exact hdigits
  case exponent =>
    split
    next => exact .cons hmarks.2.2.1 (atomText_toDigits _)
    next => exact .cons hmarks.2.2.2 (atomText_toDigits _)

theorem atomText_plain (d : Decimal) : AtomText d.plain :=
  atomText_of_isNumberPart d.plain_ne_nil d.isNumberPart_of_mem_plain

theorem atomText_floatText (x : Binary64) : AtomText (floatText x).toList := by
  have hmagnitude : AtomText (numberFormat.magnitude x) := by
    unfold NumberFormat.magnitude
    dsimp only [numberFormat]
    split
    next => exact atomText_plain _
    next => exact atomText_scientific _
  unfold floatText
  split
  next =>
    rw [NumberFormat.render, String.toList_ofList]
    split
    next => exact hmagnitude.cons (by decide)
    next => exact hmagnitude
  next => exact atomText_of_all (by decide)

theorem atomText_toString_int (n : Int) : AtomText (toString n).toList :=
  atomText_of_isNumberPart (toList_toString_int_ne_nil n) isNumberPart_of_mem_toString_int

theorem atomText_boolText (b : Bool) : AtomText (boolText b).toList := by
  cases b <;> exact atomText_of_all (by decide)

/-! ## §3 Escapes -/

/-- The value of a digit in a `\u` escape. -/
def hexValue (c : Char) : Nat := "0123456789abcdef".toList.idxOf c

/-- The character that an escape stands for, and what follows the escape. -/
def unescape : List Char → Option (Char × List Char)
  | '\\' :: 'u' :: '0' :: '0' :: high :: low :: rest =>
    some (Char.ofNat (16 * hexValue high + hexValue low), rest)
  | '\\' :: 'n' :: rest => some ('\n', rest)
  | '\\' :: 'r' :: rest => some ('\r', rest)
  | '\\' :: 't' :: rest => some ('\t', rest)
  | '\\' :: 'b' :: rest => some ('\x08', rest)
  | '\\' :: 'f' :: rest => some ('\x0c', rest)
  | '\\' :: c :: rest => some (c, rest)
  | c :: rest => some (c, rest)
  | [] => none

theorem hexValue_hexDigit {n : Nat} (h : n < 16) : hexValue (hexDigit n) = n := by
  have hall : ∀ m : Fin 16, hexValue (hexDigit m) = m := by decide
  exact hall ⟨n, h⟩

theorem unescape_escape (c : Char) (rest : List Char) :
    unescape (escape c ++ rest) = some (c, rest) := by
  unfold escape
  split_ifs with hquote hbackslash hline hreturn htab hback hfeed hcontrol
  · subst hquote; rfl
  · subst hbackslash; rfl
  · subst hline; rfl
  · subst hreturn; rfl
  · subst htab; rfl
  · subst hback; rfl
  · subst hfeed; rfl
  · have hvalue : 16 * hexValue (hexDigit (c.toNat / 16)) + hexValue (hexDigit (c.toNat % 16)) =
        c.toNat := by
      rw [hexValue_hexDigit (by omega), hexValue_hexDigit (by omega)]
      omega
    show some (Char.ofNat (16 * hexValue (hexDigit (c.toNat / 16)) +
      hexValue (hexDigit (c.toNat % 16))), rest) = some (c, rest)
    rw [hvalue, Char.ofNat_toNat]
  · simp [unescape, hbackslash]

/-- A string can be read from the front of a text: the characters up to the first quotation mark
that is not escaped. -/
theorem escaped_append_inj {cs ds rest rest' : List Char}
    (h : cs.flatMap escape ++ '"' :: rest = ds.flatMap escape ++ '"' :: rest') :
    cs = ds ∧ rest = rest' := by
  -- no escape begins with a quotation mark, so the first one that is not escaped is the end
  have hquote (c : Char) (tail rest : List Char) : escape c ++ tail ≠ '"' :: rest := by
    unfold escape
    split_ifs <;> simp_all
  induction cs generalizing ds with
  | nil =>
    cases ds with
    | nil => exact ⟨rfl, List.tail_eq_of_cons_eq h⟩
    | cons d ds =>
      rw [List.flatMap_cons, List.append_assoc] at h
      exact absurd h.symm (hquote d _ rest)
  | cons c cs ih =>
    cases ds with
    | nil =>
      rw [List.flatMap_cons, List.append_assoc] at h
      exact absurd h (hquote c _ rest')
    | cons d ds =>
      simp only [List.flatMap_cons, List.append_assoc] at h
      have hread := congrArg unescape h
      rw [unescape_escape, unescape_escape, Option.some.injEq, Prod.mk.injEq] at hread
      obtain ⟨rfl, rfl⟩ := ih hread.2
      exact ⟨congrArg (· :: cs) hread.1, rfl⟩

theorem quote_append_inj {s t : String} {rest rest' : List Char}
    (h : (quote s).toList ++ rest = (quote t).toList ++ rest') : s = t ∧ rest = rest' := by
  simp only [quote, String.toList_ofList, List.cons_append, List.append_assoc, List.nil_append,
    List.cons.injEq, true_and] at h
  obtain ⟨hchars, hrest⟩ := escaped_append_inj h
  exact ⟨String.toList_injective hchars, hrest⟩

/-! ## §4 Rows of items -/

/-- A text that cannot continue a number, a truth value or null. -/
def Ends (rest : List Char) : Prop := ∀ c ∈ rest.head?, isAtomPart c = false

theorem ends_nil : Ends [] := by simp [Ends]

theorem ends_comma (rest : List Char) : Ends (',' :: rest) := by
  simp only [Ends, List.head?_cons, Option.mem_some_iff, forall_eq']
  decide

theorem ends_newline (rest : List Char) : Ends ('\n' :: rest) := by
  simp only [Ends, List.head?_cons, Option.mem_some_iff, forall_eq']
  decide

theorem AtomText.append_inj {cs ds rest rest' : List Char} (hcs : AtomText cs) (hds : AtomText ds)
    (hrest : Ends rest) (hrest' : Ends rest') (h : cs ++ rest = ds ++ rest') :
    cs = ds ∧ rest = rest' := by
  -- both texts are all characters of their kind in front of the rest
  have htake {ws end_ : List Char} (hws : AtomText ws) (hend : Ends end_) :
      (ws ++ end_).takeWhile isAtomPart = ws := by
    rw [List.takeWhile_append_of_pos hws.2]
    cases end_ with
    | nil => simp
    | cons c end_ => simp [hend c rfl]
  have heq : cs = ds := by rw [← htake hcs hrest, h, htake hds hrest']
  subst heq
  exact ⟨rfl, List.append_cancel_left h⟩

/-- Items on lines of their own, with commas between them. -/
def rows (depth : Nat) : List (List Char) → List Char
  | [] => []
  | [item] => (lineBreak depth).toList ++ item
  | item :: items => (lineBreak depth).toList ++ item ++ ',' :: rows depth items

/-- What stands between an opening bracket and the end of the closing one. -/
def bracketed (depth : Nat) (close : Char) (items : List (List Char)) : List Char :=
  match items with
  | [] => [close]
  | items => rows (depth + 1) items ++ (lineBreak depth).toList ++ [close]

/-- A field on a line of its own. -/
def fieldText (depth : Nat) (field : String × Json) : List Char :=
  (quote field.1).toList ++ ':' :: ' ' :: (field.2.pretty depth).toList

theorem toList_lineBreak (depth : Nat) :
    (lineBreak depth).toList = '\n' :: List.replicate (2 * depth) ' ' :=
  String.toList_ofList

theorem toList_prettyItems (depth : Nat) (items : List Json) :
    (prettyItems depth items).toList =
      rows depth (items.map fun item => (item.pretty depth).toList) := by
  induction items with
  | nil => rfl
  | cons item items ih =>
    cases items with
    | nil => simp [prettyItems, rows]
    | cons next items =>
      rw [prettyItems, String.toList_append, ih]
      · simp [rows]
      · simp

theorem toList_prettyFields (depth : Nat) (fields : List (String × Json)) :
    (prettyFields depth fields).toList = rows depth (fields.map (fieldText depth)) := by
  induction fields with
  | nil => rfl
  | cons field fields ih =>
    cases fields with
    | nil => simp [prettyFields, rows, fieldText]
    | cons next fields =>
      rw [prettyFields, String.toList_append, ih]
      · simp [rows, fieldText]
      · simp

theorem toList_pretty_arr (depth : Nat) (items : List Json) :
    ((arr items).pretty depth).toList =
      '[' :: bracketed depth ']' (items.map fun item => (item.pretty (depth + 1)).toList) := by
  cases items with
  | nil => simp [pretty, bracketed]
  | cons item items => simp [pretty, toList_prettyItems, bracketed]

theorem toList_pretty_obj (depth : Nat) (fields : List (String × Json)) :
    ((obj fields).pretty depth).toList =
      '\x7b' :: bracketed depth '\x7d' (fields.map (fieldText (depth + 1))) := by
  cases fields with
  | nil => simp [pretty, bracketed]
  | cons field fields => simp [pretty, toList_prettyFields, bracketed]

section Rows

variable {α β : Type} {code : α → List Char} {view : α → β}

/-- The text of an item tells its view and where it ends. -/
def Tells (code : α → List Char) (view : α → β) (a : α) : Prop :=
  ∀ b rest rest', Ends rest → Ends rest' → code a ++ rest = code b ++ rest' →
    view a = view b ∧ rest = rest'

theorem rows_cons_append (code : α → List Char) (depth : Nat) (a : α) (as : List α)
    (rest : List Char) :
    rows depth ((a :: as).map code) ++ '\n' :: rest =
      (lineBreak depth).toList ++
        (code a ++
          if as = [] then '\n' :: rest else ',' :: (rows depth (as.map code) ++ '\n' :: rest)) := by
  cases as <;> simp [rows]

/-- Rows of items can be read from the front of a text, one item after the other. -/
theorem rows_append_inj {depth : Nat} {a b : α} {as bs : List α} {rest rest' : List Char}
    (hitems : ∀ item ∈ a :: as, Tells code view item)
    (h : rows depth ((a :: as).map code) ++ '\n' :: rest =
      rows depth ((b :: bs).map code) ++ '\n' :: rest') :
    (a :: as).map view = (b :: bs).map view ∧ rest = rest' := by
  -- the first item is read with all that follows it as the rest, the others by induction
  have hfirst : Tells code view a := hitems a List.mem_cons_self
  have hitem := List.append_cancel_left ((rows_cons_append code depth a as rest).symm.trans
    (h.trans (rows_cons_append code depth b bs rest')))
  clear h
  induction as generalizing a b bs with
  | nil =>
    cases bs with
    | nil =>
      obtain ⟨hview, hrest⟩ := hfirst b _ _ (ends_newline rest) (ends_newline rest') hitem
      exact ⟨congrArg (fun c => [c]) hview, List.tail_eq_of_cons_eq hrest⟩
    | cons d bs =>
      -- a line break follows the one item, a comma follows the other
      obtain ⟨-, hrest⟩ := hfirst b _ _ (ends_newline rest) (ends_comma _) hitem
      simp at hrest
  | cons c as ih =>
    cases bs with
    | nil =>
      obtain ⟨-, hrest⟩ := hfirst b _ _ (ends_comma _) (ends_newline rest') hitem
      simp at hrest
    | cons d bs =>
      obtain ⟨hview, hrest⟩ := hfirst b _ _ (ends_comma _) (ends_comma _) hitem
      have hothers : ∀ item ∈ c :: as, Tells code view item := fun item hmem =>
        hitems item (List.mem_cons_of_mem a hmem)
      have htail := ih hothers (hothers c List.mem_cons_self)
        (List.append_cancel_left ((rows_cons_append code depth c as rest).symm.trans
          ((List.tail_eq_of_cons_eq hrest).trans (rows_cons_append code depth d bs rest'))))
      rw [List.map_cons, List.map_cons, hview]
      exact ⟨congrArg _ htail.1, htail.2⟩

theorem bracketed_append_inj {depth : Nat} {close : Char} {as bs : List α}
    {rest rest' : List Char} (hclose : close ≠ '\n') (hitems : ∀ item ∈ as, Tells code view item)
    (h : bracketed depth close (as.map code) ++ rest =
      bracketed depth close (bs.map code) ++ rest') :
    as.map view = bs.map view ∧ rest = rest' := by
  -- the first character tells whether there are items
  have hempty {b : α} {bs : List α} {rest rest' : List Char} :
      close :: rest ≠ bracketed depth close ((b :: bs).map code) ++ rest' := by
    intro heq
    have hhead := congrArg List.head? heq
    cases bs <;> simp [bracketed, rows, toList_lineBreak, hclose] at hhead
  cases as with
  | nil =>
    cases bs with
    | nil => exact ⟨rfl, by simpa [bracketed] using h⟩
    | cons b bs => exact absurd h hempty
  | cons a as =>
    cases bs with
    | nil => exact absurd h.symm hempty
    | cons b bs =>
      have hrows : rows (depth + 1) ((a :: as).map code) ++
            '\n' :: (List.replicate (2 * depth) ' ' ++ close :: rest) =
          rows (depth + 1) ((b :: bs).map code) ++
            '\n' :: (List.replicate (2 * depth) ' ' ++ close :: rest') := by
        simpa [bracketed, toList_lineBreak] using h
      obtain ⟨hviews, hrest⟩ := rows_append_inj hitems hrows
      exact ⟨hviews, List.tail_eq_of_cons_eq (List.append_cancel_left hrest)⟩

end Rows

/-! ## §5 Values -/

/-- The first character of the text of a value. -/
def Opens : Json → Char → Prop
  | .str _, c => c = '"'
  | .arr _, c => c = '['
  | .obj _, c => c = '\x7b'
  | _, c => isAtomPart c = true

/-- A value of which only the text is written. -/
def IsAtom (j : Json) : Prop :=
  ∀ depth, j.outline = .atom (j.pretty depth) ∧ AtomText (j.pretty depth).toList

/-- The text of a value tells its outline, whatever depth it is written at. -/
def Told (j : Json) : Prop := ∀ depth, Tells (fun k => (k.pretty depth).toList) outline j

theorem isAtom_null : IsAtom .null := by
  have hword : AtomText "null".toList := atomText_of_all (by decide)
  exact fun _ => ⟨rfl, hword⟩

theorem isAtom_bool (b : Bool) : IsAtom (.bool b) := fun _ => ⟨rfl, atomText_boolText b⟩

theorem isAtom_int (n : Int) : IsAtom (.int n) := fun _ => ⟨rfl, atomText_toString_int n⟩

theorem isAtom_float (x : Binary64) : IsAtom (.float x) := fun _ => ⟨rfl, atomText_floatText x⟩

theorem AtomText.exists_cons {cs : List Char} (h : AtomText cs) :
    ∃ c ds, cs = c :: ds ∧ isAtomPart c = true := by
  obtain ⟨hne, hparts⟩ := h
  cases cs with
  | nil => exact absurd rfl hne
  | cons c ds => exact ⟨c, ds, rfl, hparts c List.mem_cons_self⟩

theorem exists_opens (j : Json) (depth : Nat) :
    ∃ c cs, (j.pretty depth).toList = c :: cs ∧ j.Opens c := by
  cases j with
  | null => exact (isAtom_null depth).2.exists_cons
  | bool b => exact (isAtom_bool b depth).2.exists_cons
  | int n => exact (isAtom_int n depth).2.exists_cons
  | float x => exact (isAtom_float x depth).2.exists_cons
  | str s => exact ⟨'"', _, by rw [pretty, quote, String.toList_ofList, List.cons_append], rfl⟩
  | arr items => exact ⟨'[', _, toList_pretty_arr depth items, rfl⟩
  | obj fields => exact ⟨'\x7b', _, toList_pretty_obj depth fields, rfl⟩

/-- Two values whose texts begin alike open alike. -/
theorem exists_opens_both {j k : Json} {depth : Nat} {rest rest' : List Char}
    (h : (j.pretty depth).toList ++ rest = (k.pretty depth).toList ++ rest') :
    ∃ c, j.Opens c ∧ k.Opens c := by
  obtain ⟨c, cs, hj, hopens⟩ := exists_opens j depth
  obtain ⟨d, ds, hk, hopens'⟩ := exists_opens k depth
  rw [hj, hk, List.cons_append, List.cons_append] at h
  obtain rfl : c = d := List.head_eq_of_cons_eq h
  exact ⟨c, hopens, hopens'⟩

/-- The characters that open strings, arrays and objects belong to no number. -/
theorem not_isAtomPart_opening :
    isAtomPart '"' = false ∧ isAtomPart '[' = false ∧ isAtomPart '\x7b' = false := by decide

theorem isAtom_of_opens {j : Json} {c : Char} (h : j.Opens c) (hc : isAtomPart c = true) :
    IsAtom j := by
  have hopening := not_isAtomPart_opening
  cases j with
  | null => exact isAtom_null
  | bool b => exact isAtom_bool b
  | int n => exact isAtom_int n
  | float x => exact isAtom_float x
  | str s => cases h; simp [hopening] at hc
  | arr items => cases h; simp [hopening] at hc
  | obj fields => cases h; simp [hopening] at hc

theorem eq_str_of_opens {j : Json} (h : j.Opens '"') : ∃ s, j = .str s := by
  cases j with
  | str s => exact ⟨s, rfl⟩
  | _ => simp [Opens, not_isAtomPart_opening] at h

theorem eq_arr_of_opens {j : Json} (h : j.Opens '[') : ∃ items, j = .arr items := by
  cases j with
  | arr items => exact ⟨items, rfl⟩
  | _ => simp [Opens, not_isAtomPart_opening] at h

theorem eq_obj_of_opens {j : Json} (h : j.Opens '\x7b') : ∃ fields, j = .obj fields := by
  cases j with
  | obj fields => exact ⟨fields, rfl⟩
  | _ => simp [Opens, not_isAtomPart_opening] at h

theorem IsAtom.told {j : Json} (hj : IsAtom j) : Told j := by
  intro depth k rest rest' hrest hrest' h
  have hk : IsAtom k := by
    obtain ⟨c, cs, htext, hc⟩ := (hj depth).2.exists_cons
    obtain ⟨d, ds, htext', hopens⟩ := exists_opens k depth
    simp only [htext, htext', List.cons_append, List.cons.injEq] at h
    exact isAtom_of_opens hopens (h.1 ▸ hc)
  obtain ⟨htext, heq⟩ := (hj depth).2.append_inj (hk depth).2 hrest hrest' h
  rw [(hj depth).1, (hk depth).1, String.toList_injective htext]
  exact ⟨rfl, heq⟩

theorem told_str (s : String) : Told (.str s) := by
  intro depth k rest rest' _ _ h
  obtain ⟨_, rfl, hopens⟩ := exists_opens_both h
  obtain ⟨t, rfl⟩ := eq_str_of_opens hopens
  obtain ⟨rfl, heq⟩ := quote_append_inj h
  exact ⟨rfl, heq⟩

theorem told_arr {items : List Json} (hitems : ∀ item ∈ items, Told item) : Told (.arr items) := by
  intro depth k rest rest' _ _ h
  obtain ⟨_, rfl, hopens⟩ := exists_opens_both h
  obtain ⟨items', rfl⟩ := eq_arr_of_opens hopens
  dsimp only at h
  rw [toList_pretty_arr, toList_pretty_arr] at h
  obtain ⟨heq, hrest⟩ := bracketed_append_inj (by decide)
    (fun item hmem => hitems item hmem (depth + 1)) (List.tail_eq_of_cons_eq h)
  rw [outline, outline, outlineItems_eq_map, outlineItems_eq_map, heq]
  exact ⟨rfl, hrest⟩

/-- The text of a field tells its name and the outline of its value. -/
theorem Told.field {field : String × Json} (h : Told field.2) (depth : Nat) :
    Tells (fieldText depth) (fun field => (field.1, field.2.outline)) field := by
  intro other rest rest' hrest hrest' heq
  simp only [fieldText, List.append_assoc, List.cons_append] at heq
  obtain ⟨hname, hvalue⟩ := quote_append_inj heq
  simp only [List.cons.injEq, true_and] at hvalue
  obtain ⟨houtline, hends⟩ := h depth other.2 rest rest' hrest hrest' hvalue
  exact ⟨Prod.ext hname houtline, hends⟩

theorem told_obj {fields : List (String × Json)} (hfields : ∀ field ∈ fields, Told field.2) :
    Told (.obj fields) := by
  intro depth k rest rest' _ _ h
  obtain ⟨_, rfl, hopens⟩ := exists_opens_both h
  obtain ⟨fields', rfl⟩ := eq_obj_of_opens hopens
  dsimp only at h
  rw [toList_pretty_obj, toList_pretty_obj] at h
  obtain ⟨heq, hrest⟩ := bracketed_append_inj (by decide)
    (fun field hmem => (hfields field hmem).field (depth + 1)) (List.tail_eq_of_cons_eq h)
  rw [outline, outline, outlineFields_eq_map, outlineFields_eq_map, heq]
  exact ⟨rfl, hrest⟩

mutual

theorem told : ∀ j : Json, Told j
  | .null => isAtom_null.told
  | .bool b => (isAtom_bool b).told
  | .int n => (isAtom_int n).told
  | .float x => (isAtom_float x).told
  | .str s => told_str s
  | .arr items => told_arr (told_items items)
  | .obj fields => told_obj (told_fields fields)

theorem told_items : ∀ items : List Json, ∀ item ∈ items, Told item
  | [] => by simp
  | item :: items => List.forall_mem_cons.2 ⟨told item, told_items items⟩

theorem told_fields : ∀ fields : List (String × Json), ∀ field ∈ fields, Told field.2
  | [] => by simp
  | (_, value) :: fields => List.forall_mem_cons.2 ⟨told value, told_fields fields⟩

end

/-- Values with one text have one outline. -/
theorem outline_eq_of_pretty_eq {j k : Json} {depth : Nat}
    (h : j.pretty depth = k.pretty depth) : j.outline = k.outline :=
  (told j depth k [] [] ends_nil ends_nil (by dsimp only; rw [h])).1

end Json

end TensorTree
