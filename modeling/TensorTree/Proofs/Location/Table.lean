import Mathlib.Data.List.GetD
import TensorTree.LineTable
import TensorTree.Proofs.Location.Lines

/-!
# Line tables and locations

A line table of a text gives a byte offset that lies between two characters the location that is
reached by going through the characters in front of it (`LineTable.location_byteLength`).  So a
stretch of characters has the same span, whether its bytes are looked up in the table or its
characters are followed from where it begins (`LineTable.span_byteLength`).  The text has to be so
short that all of its offsets are words; the counts of a location may be too great for a word in
both cases alike.
-/

namespace TensorTree

/-! ## §1 Bytes in front of and behind a point -/

@[simp] theorem byteLength_nil : byteLength [] = 0 := rfl

@[simp] theorem byteLength_cons (c : Char) (cs : List Char) :
    byteLength (c :: cs) = c.utf8Size + byteLength cs := rfl

@[simp] theorem byteLength_append (cs ds : List Char) :
    byteLength (cs ++ ds) = byteLength cs + byteLength ds := by
  induction cs with
  | nil => simp
  | cons c cs ih => simp [ih, Nat.add_assoc]

/-- No character is shorter than a byte. -/
theorem length_le_byteLength (cs : List Char) : cs.length ≤ byteLength cs := by
  induction cs with
  | nil => simp
  | cons c cs ih =>
    have hpos := c.utf8Size_pos
    rw [List.length_cons, byteLength_cons]
    omega

/-- The bytes of a beginning are some of the bytes of the whole. -/
theorem byteLength_le_of_prefix {u v : List Char} (h : u <+: v) : byteLength u ≤ byteLength v := by
  obtain ⟨w, rfl⟩ := h
  simp

theorem dropBytes?_cons {c : Char} {n : Nat} (h : c.utf8Size ≤ n) (cs : List Char) :
    dropBytes? n (c :: cs) = dropBytes? (n - c.utf8Size) cs := by
  obtain ⟨n, rfl⟩ := Nat.exists_eq_succ_of_ne_zero
    (Nat.ne_zero_of_lt (Nat.lt_of_lt_of_le c.utf8Size_pos h))
  exact if_pos h

theorem takeBytes?_cons {c : Char} {n : Nat} (h : c.utf8Size ≤ n) (cs : List Char) :
    takeBytes? n (c :: cs) = (takeBytes? (n - c.utf8Size) cs).map (c :: ·) := by
  obtain ⟨n, rfl⟩ := Nat.exists_eq_succ_of_ne_zero
    (Nat.ne_zero_of_lt (Nat.lt_of_lt_of_le c.utf8Size_pos h))
  exact if_pos h

theorem dropBytes?_byteLength (cs ds : List Char) :
    dropBytes? (byteLength cs) (cs ++ ds) = some ds := by
  induction cs with
  | nil => cases ds <;> rfl
  | cons c cs ih =>
    rw [List.cons_append, byteLength_cons, dropBytes?_cons (Nat.le_add_right ..),
      Nat.add_sub_cancel_left, ih]

theorem takeBytes?_byteLength (cs ds : List Char) :
    takeBytes? (byteLength cs) (cs ++ ds) = some cs := by
  induction cs with
  | nil => cases ds <;> rfl
  | cons c cs ih =>
    rw [List.cons_append, byteLength_cons, takeBytes?_cons (Nat.le_add_right ..),
      Nat.add_sub_cancel_left, ih, Option.map_some]

/-- The bytes of a stretch of characters are that stretch. -/
theorem slice?_byteLength (before w rest : List Char) :
    slice? (before ++ w ++ rest) (byteLength before) (byteLength before + byteLength w) =
      some w := by
  rw [slice?, if_pos (Nat.le_add_right ..), List.append_assoc, dropBytes?_byteLength,
    Option.bind_some, Nat.add_sub_cancel_left, takeBytes?_byteLength]

/-! ## §2 Where the lines start -/

theorem lineStartsFrom_append (offset : Nat) (cs ds : List Char) :
    lineStartsFrom offset (cs ++ ds) =
      lineStartsFrom offset cs ++ lineStartsFrom (offset + byteLength cs) ds := by
  induction cs generalizing offset with
  | nil => rfl
  | cons c cs ih =>
    simp only [List.cons_append, lineStartsFrom, ih, byteLength_cons, Nat.add_assoc]
    split <;> rfl

theorem length_lineStartsFrom (offset : Nat) (cs : List Char) :
    (lineStartsFrom offset cs).length = cs.count '\n' := by
  induction cs generalizing offset with
  | nil => rfl
  | cons c cs ih =>
    rw [lineStartsFrom, List.count_cons]
    split <;> simp [*]

/-- A line starts behind each line feed. -/
theorem mem_lineStartsFrom_iff (offset lineStart : Nat) (cs : List Char) :
    lineStart ∈ lineStartsFrom offset cs ↔
      ∃ before rest, cs = before ++ '\n' :: rest ∧
        lineStart = offset + byteLength (before ++ ['\n']) := by
  induction cs generalizing offset with
  | nil => simp [lineStartsFrom]
  | cons c cs ih =>
    -- the first line feed is the first character, or it is found behind that
    have hlater : lineStart ∈ lineStartsFrom (offset + c.utf8Size) cs ↔
        ∃ before rest, cs = before ++ '\n' :: rest ∧
          lineStart = offset + byteLength (c :: before ++ ['\n']) := by
      simp only [ih, List.cons_append, byteLength_cons, Nat.add_assoc]
    have hcases : (∃ before rest, c :: cs = before ++ '\n' :: rest ∧
          lineStart = offset + byteLength (before ++ ['\n'])) ↔
        (c = '\n' ∧ lineStart = offset + c.utf8Size) ∨
          lineStart ∈ lineStartsFrom (offset + c.utf8Size) cs := by
      rw [hlater]
      constructor
      · rintro ⟨before, rest, heq, rfl⟩
        cases before with
        | nil =>
          obtain ⟨rfl, rfl⟩ := List.cons.inj heq
          exact .inl ⟨rfl, rfl⟩
        | cons d before =>
          obtain ⟨rfl, rfl⟩ := List.cons.inj heq
          exact .inr ⟨before, rest, rfl, rfl⟩
      · rintro (⟨rfl, rfl⟩ | ⟨before, rest, rfl, rfl⟩)
        · exact ⟨[], cs, rfl, rfl⟩
        · exact ⟨c :: before, rest, rfl, rfl⟩
    rw [hcases, lineStartsFrom]
    by_cases hc : c = '\n' <;> simp [hc]

theorem mem_lineStartsFrom {offset lineStart : Nat} {cs : List Char}
    (h : lineStart ∈ lineStartsFrom offset cs) :
    offset < lineStart ∧ lineStart ≤ offset + byteLength cs := by
  obtain ⟨before, rest, rfl, rfl⟩ := (mem_lineStartsFrom_iff ..).1 h
  have hpos := '\n'.utf8Size_pos
  simp only [byteLength_append, byteLength_cons, byteLength_nil]
  omega

/-- The lines that start at or before an offset are those of the characters that end at or before
it. -/
theorem takeWhile_lineStartsFrom {offset bound : Nat} {before rest : List Char}
    (hle : offset + byteLength before ≤ bound)
    (hlt : ∀ c ∈ rest.head?, bound < offset + byteLength before + c.utf8Size) :
    (lineStartsFrom offset (before ++ rest)).takeWhile (· ≤ bound) =
      lineStartsFrom offset before := by
  have hbefore : ∀ lineStart ∈ lineStartsFrom offset before, decide (lineStart ≤ bound) = true :=
    fun _ hmem => decide_eq_true (Nat.le_trans (mem_lineStartsFrom hmem).2 hle)
  -- a line of the rest starts behind the first character of the rest
  have hrest : ∀ lineStart ∈ lineStartsFrom (offset + byteLength before) rest,
      bound < lineStart := by
    intro lineStart hmem
    cases rest with
    | nil => cases hmem
    | cons c rest =>
      have hc := hlt c rfl
      rw [lineStartsFrom] at hmem
      split at hmem
      · rcases List.mem_cons.1 hmem with rfl | hlater
        · exact hc
        · exact Nat.lt_trans hc (mem_lineStartsFrom hlater).1
      · exact Nat.lt_trans hc (mem_lineStartsFrom hmem).1
  rw [lineStartsFrom_append, List.takeWhile_append_of_pos hbefore]
  cases hstarts : lineStartsFrom (offset + byteLength before) rest with
  | nil => simp
  | cons lineStart later =>
    have hfirst := hrest lineStart (hstarts ▸ List.mem_cons_self)
    rw [List.takeWhile_cons_of_neg (by simpa using hfirst), List.append_nil]

/-- The last of the lines that start at or before the end of full lines starts there. -/
theorem getD_lineStartsFrom {front : List Char} (hfront : EndsLine front) (rest : List Char) :
    (0 :: lineStartsFrom 0 (front ++ rest)).getD (front.count '\n') 0 = byteLength front := by
  rcases hfront with rfl | ⟨init, rfl⟩
  · rfl
  · -- the last start is the one behind the last line feed
    have hbreak : '\n'.utf8Size = 1 := rfl
    rw [lineStartsFrom_append, lineStartsFrom_append]
    simp [lineStartsFrom, length_lineStartsFrom, hbreak]

/-! ## §3 Locations and spans -/

namespace LineTable

variable {text : String} {before rest : List Char}

theorem lineCount_ofText (text : String) :
    (ofText text).lineCount = text.toList.count '\n' + 1 := by
  simp [lineCount, ofText, length_lineStartsFrom]

/-- The offsets of a short text are the words that stand for them. -/
theorem map_toNat_starts (hsize : byteLength text.toList < UInt32.size) :
    (ofText text).starts.map UInt32.toNat = 0 :: lineStartsFrom 0 text.toList := by
  have hword : ∀ n ∈ 0 :: lineStartsFrom 0 text.toList, (UInt32.ofNat n).toNat = n := by
    intro n hn
    apply UInt32.toNat_ofNat_of_lt'
    -- no line starts behind the end of the text
    rcases List.mem_cons.1 hn with rfl | hn
    · exact Nat.zero_lt_of_lt hsize
    · have hle := (mem_lineStartsFrom hn).2
      omega
  rw [ofText, List.map_map]
  exact (List.map_congr_left hword).trans (List.map_id' _)

theorem lineAt_eq (hsize : byteLength text.toList < UInt32.size) (h : text.toList = before ++ rest)
    {offset : UInt32} (hle : byteLength before ≤ offset.toNat)
    (hlt : ∀ c ∈ rest.head?, offset.toNat < byteLength before + c.utf8Size) :
    (ofText text).lineAt offset = before.count '\n' := by
  -- words are compared as the numbers that they stand for
  have hwords : ((ofText text).starts.takeWhile (· ≤ offset)).map UInt32.toNat =
      (0 :: lineStartsFrom 0 text.toList).takeWhile (· ≤ offset.toNat) := by
    rw [← map_toNat_starts hsize, List.takeWhile_map]
    rfl
  have hlength := congrArg List.length hwords
  rw [← Nat.zero_add (byteLength before)] at hle hlt
  rw [List.length_map, h, List.takeWhile_cons_of_pos (by simp), takeWhile_lineStartsFrom hle hlt,
    List.length_cons, length_lineStartsFrom] at hlength
  rw [lineAt, hlength, Nat.add_sub_cancel]

/-- The last line starts behind the full lines. -/
theorem getD_starts (hsize : byteLength text.toList < UInt32.size) {front : List Char}
    (hfront : EndsLine front) (h : text.toList = front ++ rest) :
    ((ofText text).starts.getD (front.count '\n') 0).toNat = byteLength front := by
  rw [← getD_lineStartsFrom hfront rest, ← h, ← map_toNat_starts hsize]
  exact (List.getD_map _ 0 UInt32.toNat).symm

/-- The location of an offset between two characters, or of one at or behind the end. -/
theorem location_eq_after (hsize : byteLength text.toList < UInt32.size)
    (h : text.toList = before ++ rest) {offset : UInt32}
    (hoffset : min offset.toNat (byteLength text.toList) = byteLength before) :
    (ofText text).location offset = Location.start.after before := by
  -- the table finds the full lines, and the characters behind them are counted
  obtain ⟨front, line, rfl, hfront, hline⟩ := exists_endsLine_append before
  have hcount : (front ++ line).count '\n' = front.count '\n' := by
    rw [List.count_append, List.count_eq_zero.2 hline, Nat.add_zero]
  have hlineAt : (ofText text).lineAt offset = front.count '\n' := by
    rw [← hcount]
    refine lineAt_eq hsize h (hoffset ▸ Nat.min_le_left ..) fun c hc => ?_
    obtain ⟨more, rfl⟩ := List.head?_eq_some_iff.1 hc
    have hpos := c.utf8Size_pos
    have hlength := congrArg byteLength h
    simp only [byteLength_append, byteLength_cons] at hlength hoffset ⊢
    omega
  have hstart : ((ofText text).starts.getD (front.count '\n') 0).toNat = byteLength front :=
    getD_starts hsize hfront (h.trans (List.append_assoc ..))
  have hmin : min offset.toNat (byteLength (ofText text).text) =
      byteLength front + byteLength line := by
    rw [← byteLength_append]
    exact hoffset
  have hslice : slice? (ofText text).text (byteLength front)
      (byteLength front + byteLength line) = some line := by
    rw [ofText, h]
    exact slice?_byteLength front line rest
  rw [Location.after_start_append hfront hline, UInt32.ofNat_add line.length]
  simp only [location, hlineAt, hstart, hmin, hslice]
  rfl

/-- The offset behind a beginning of a short text. -/
theorem toNat_byteLength (hsize : byteLength text.toList < UInt32.size)
    (h : text.toList = before ++ rest) :
    (UInt32.ofNat (byteLength before)).toNat = byteLength before := by
  apply UInt32.toNat_ofNat_of_lt'
  rw [h, byteLength_append] at hsize
  omega

theorem location_byteLength (hsize : byteLength text.toList < UInt32.size)
    (h : text.toList = before ++ rest) :
    (ofText text).location (.ofNat (byteLength before)) = Location.start.after before := by
  apply location_eq_after hsize h
  rw [toNat_byteLength hsize h, h, byteLength_append]
  exact Nat.min_eq_left (Nat.le_add_right ..)

theorem span_byteLength (hsize : byteLength text.toList < UInt32.size) {w : List Char}
    (h : text.toList = before ++ w ++ rest) :
    (ofText text).span (.ofNat (byteLength before)) (.ofNat (byteLength (before ++ w))) =
      .ofText (Location.start.after before) w := by
  have hbefore : text.toList = before ++ (w ++ rest) := h.trans (List.append_assoc ..)
  have hslice : slice? (ofText text).text (UInt32.ofNat (byteLength before)).toNat
      (UInt32.ofNat (byteLength (before ++ w))).toNat = some w := by
    rw [toNat_byteLength hsize hbefore, toNat_byteLength hsize h, byteLength_append, ofText, h]
    exact slice?_byteLength before w rest
  -- what stands in front of the last character is a beginning of the text as well
  have hlast : text.toList = (before ++ w.dropLast) ++ (w.drop (w.length - 1) ++ rest) := by
    rw [h, List.dropLast_eq_take, List.append_assoc, List.append_assoc,
      ← List.append_assoc (w.take _), List.take_append_drop]
  rw [span, hslice]
  dsimp only
  rw [← UInt32.ofNat_add, ← byteLength_append, location_byteLength hsize hbefore,
    location_byteLength hsize hlast, Location.after_append]
  rfl

end LineTable

end TensorTree
