import Mathlib.Data.List.Basic
import TensorTree.Proofs.Location.Order
import TensorTree.Proofs.Location.Table

/-!
# Offsets and their locations

The location of an offset between two characters leads back to the offset: its line starts at the
last line start in front of the offset, and its column counts the characters from there on
(`LineTable.location_leadsBack`).  The locations of later offsets do not come before it
(`LineTable.FallsBehind.location_le`).  An offset inside of a character has a column that counts
bytes instead, which may be greater than the columns of later offsets of its line.  This is the only
way in which the order of offsets and that of their locations differ (`LineTable.location_lt_iff`).
-/

namespace TensorTree

/-! ## §1 Beginnings of a text -/

/-- Of two beginnings of one text, the one with fewer bytes is a beginning of the other one. -/
theorem prefix_of_byteLength_le {u v cs : List Char} (hu : u <+: cs) (hv : v <+: cs)
    (h : byteLength u ≤ byteLength v) : u <+: v := by
  rcases List.prefix_or_prefix_of_prefix hu hv with huv | ⟨w, rfl⟩
  · exact huv
  · have hlength := length_le_byteLength w
    rw [byteLength_append] at h
    obtain rfl : w = [] := List.length_eq_zero_iff.1 (by omega)
    simp

/-- A beginning that takes all of one stretch, but not all of the character behind it, takes no more
than the stretch. -/
theorem prefix_of_byteLength_lt {w before cs rest : List Char} {c : Char} (hw : w <+: cs)
    (hcs : cs = before ++ c :: rest) (h : byteLength w < byteLength before + c.utf8Size) :
    w <+: before := by
  subst hcs
  rcases List.prefix_or_prefix_of_prefix hw (List.prefix_append before (c :: rest)) with
    hbefore | ⟨more, rfl⟩
  · exact hbefore
  · cases more with
    | nil => simp
    | cons d more =>
      obtain ⟨rfl, -⟩ := List.cons_prefix_cons.1 ((List.prefix_append_right_inj before).1 hw)
      rw [byteLength_append, byteLength_cons] at h
      omega

/-- Full lines at the beginning of a text are in front of its last line. -/
theorem EndsLine.prefix_front {lines front line : List Char} (h : EndsLine lines)
    (hline : '\n' ∉ line) (hlines : lines <+: front ++ line) : lines <+: front := by
  rcases List.prefix_or_prefix_of_prefix hlines (List.prefix_append front line) with
    hfront | ⟨more, rfl⟩
  · exact hfront
  · have hmore : more <+: line := (List.prefix_append_right_inj front).1 hlines
    rcases h.of_append with rfl | ⟨init, rfl⟩
    · simp
    · -- what reaches into the last line would end with a line feed
      exact absurd (hmore.subset (by simp)) hline

/-- The bytes that can be taken off are those of a beginning. -/
theorem takeBytes?_eq_some {n : Nat} {cs w : List Char} (h : takeBytes? n cs = some w) :
    w <+: cs ∧ byteLength w = n := by
  induction cs generalizing n w with
  | nil =>
    cases n with
    | zero => simp_all [takeBytes?]
    | succ n => cases h
  | cons c cs ih =>
    cases n with
    | zero =>
      obtain rfl := Option.some.inj h
      simp
    | succ n =>
      rw [takeBytes?] at h
      split at h
      next hle =>
        obtain ⟨v, hv, rfl⟩ := Option.map_eq_some_iff.1 h
        obtain ⟨hbegins, hlength⟩ := ih hv
        exact ⟨List.cons_prefix_cons.2 ⟨rfl, hbegins⟩, by rw [byteLength_cons]; omega⟩
      next => cases h

/-! ## §2 Boundaries and where lines start -/

/-- The offset lies between two characters of the text or at one of its ends. -/
def IsBoundary (cs : List Char) (offset : Nat) : Prop :=
  ∃ before rest, cs = before ++ rest ∧ byteLength before = offset

/-- A line of the text starts at the offset: full lines stand in front of it. -/
def IsLineStart (cs : List Char) (offset : Nat) : Prop :=
  ∃ front rest, cs = front ++ rest ∧ EndsLine front ∧ byteLength front = offset

namespace LineTable

variable {text : String} {offset : UInt32}

theorem isSome_lineStart?_iff (t : LineTable) (n : Nat) :
    (t.lineStart? n).isSome = true ↔ n < t.lineCount := by
  simp [lineStart?, lineCount]

/-- The table holds the offsets at which a line starts. -/
theorem exists_lineStart?_iff (hsize : byteLength text.toList < UInt32.size) (start : UInt32) :
    (∃ n, (ofText text).lineStart? n = some start) ↔ IsLineStart text.toList start.toNat := by
  have hmem : (∃ n, (ofText text).lineStart? n = some start) ↔
      start.toNat = 0 ∨ start.toNat ∈ lineStartsFrom 0 text.toList := by
    rw [← List.mem_cons, ← map_toNat_starts hsize,
      List.mem_map_of_injective fun _ _ => UInt32.toNat_inj.1]
    simp only [lineStart?, ← List.mem_iff_getElem?]
  rw [hmem, mem_lineStartsFrom_iff]
  constructor
  · rintro (hzero | ⟨before, rest, heq, hstart⟩)
    · exact ⟨[], text.toList, rfl, .inl rfl, hzero.symm⟩
    · exact ⟨before ++ ['\n'], rest, by simp [heq], .inr ⟨before, rfl⟩, by simp [hstart]⟩
  · rintro ⟨front, rest, heq, hfront, hstart⟩
    rcases hfront with rfl | ⟨before, rfl⟩
    · exact .inl hstart.symm
    · exact .inr ⟨before, rest, by simp [heq], by simp [← hstart]⟩

theorem lineStart?_of_endsLine (hsize : byteLength text.toList < UInt32.size)
    {front rest : List Char} (hfront : EndsLine front) (h : text.toList = front ++ rest) :
    (ofText text).lineStart? (front.count '\n') = some (.ofNat (byteLength front)) := by
  have hlt : front.count '\n' < (ofText text).starts.length := by
    have hcount := lineCount_ofText text
    rw [h, List.count_append] at hcount
    rw [show (ofText text).starts.length = _ from hcount]
    omega
  have hget := getD_starts hsize hfront h
  rw [List.getD_eq_getElem?_getD, List.getElem?_eq_getElem hlt, Option.getD_some] at hget
  rw [lineStart?, List.getElem?_eq_getElem hlt, ← hget, UInt32.ofNat_toNat]

/-! ## §3 Locations of boundaries -/

/-- The offset that is reached from another one by the given number of characters. -/
def advance? (cs : List Char) (start count : Nat) : Option Nat :=
  (dropBytes? start cs).map fun rest => start + byteLength (rest.take count)

/-- A location leads back to an offset. -/
structure LeadsBack (text : String) (offset : UInt32) (here : Location) : Prop where
  /-- Lines and columns are counted from one; only behind the greatest offset one of them can have
  gone on with zero. -/
  pos : offset.toNat + 1 < UInt32.size → 1 ≤ here.line ∧ 1 ≤ here.column
  /-- The line of the location starts at the last line start in front of the offset; the column
  counts the characters from there on, and none of them is a line feed. -/
  exists_line : ∃ start line, (ofText text).lineStart? (here.line - 1).toNat = some start ∧
    start ≤ offset ∧
    (∀ other, IsLineStart text.toList other → other ≤ offset.toNat → other ≤ start.toNat) ∧
    slice? text.toList start.toNat offset.toNat = some line ∧ '\n' ∉ line ∧
    line.length = (here.column - 1).toNat ∧
    advance? text.toList start.toNat (here.column - 1).toNat = some offset.toNat

theorem leadsBack_location (hsize : byteLength text.toList < UInt32.size)
    (h : IsBoundary text.toList offset.toNat) :
    LeadsBack text offset ((ofText text).location offset) := by
  obtain ⟨before, rest, htext, hoffset⟩ := h
  obtain ⟨front, line, rfl, hfront, hline⟩ := exists_endsLine_append before
  obtain rfl : UInt32.ofNat (byteLength (front ++ line)) = offset := by
    rw [hoffset, UInt32.ofNat_toNat]
  have hlength : (front ++ line).length ≤ byteLength (front ++ line) := length_le_byteLength _
  have hcount : front.count '\n' ≤ front.length := List.count_le_length
  have hbytes : byteLength (front ++ line) ≤ byteLength text.toList :=
    byteLength_le_of_prefix ⟨rest, htext.symm⟩
  rw [List.length_append] at hlength
  rw [location_byteLength hsize htext]
  constructor
  case pos =>
    intro hroom
    rw [← hoffset] at hroom
    obtain ⟨hlines, hcolumns⟩ := Location.toNat_after_start hfront hline
      (by rw [List.length_append]; omega)
    rw [UInt32.le_iff_toNat_le, UInt32.le_iff_toNat_le, hlines, hcolumns]
    exact ⟨Nat.le_add_left 1 _, Nat.le_add_left 1 _⟩
  case exists_line =>
    rw [Location.after_start_append hfront hline, toNat_ofNat_sub_one (by omega),
      toNat_ofNat_sub_one (by omega), ← hoffset]
    rw [List.append_assoc] at htext
    have hstart := toNat_byteLength hsize htext
    refine ⟨.ofNat (byteLength front), line, lineStart?_of_endsLine hsize hfront htext, ?_⟩
    rw [UInt32.le_iff_toNat_le, hstart, ← hoffset]
    refine ⟨by simp, ?_, ?_, hline, rfl, ?_⟩
    · rintro _ ⟨lines, more, hmore, hlines, rfl⟩ hle
      -- a line that starts in front of the offset starts in front of the last line
      have hwhole : front ++ line <+: text.toList := ⟨rest, by simp [htext]⟩
      have hbegins : lines <+: front ++ line :=
        prefix_of_byteLength_le ⟨more, hmore.symm⟩ hwhole hle
      exact byteLength_le_of_prefix (hlines.prefix_front hline hbegins)
    · -- the slice from the line start up to the offset is the last line
      rw [htext, ← List.append_assoc, byteLength_append, slice?_byteLength]
    · rw [advance?, htext, dropBytes?_byteLength]
      simp

/-- The offset falls inside of a character; `line` stands in front of the character on its line, and
`front` are the lines above. -/
structure FallsInside (text : String) (offset : Nat) (front line : List Char) : Prop where
  endsLine : EndsLine front
  newline_not_mem : '\n' ∉ line
  inside : ∃ c rest, text.toList = front ++ line ++ c :: rest ∧
    byteLength (front ++ line) < offset ∧ offset < byteLength (front ++ line) + c.utf8Size

/-- The offset falls behind the characters `line` of a line below `front`; an offset behind the end
falls on the end. -/
structure FallsBehind (text : String) (offset : Nat) (front line : List Char) : Prop where
  endsLine : EndsLine front
  newline_not_mem : '\n' ∉ line
  behind : ∃ rest, text.toList = front ++ line ++ rest ∧
    min offset (byteLength text.toList) = byteLength (front ++ line)

/-- The characters that end at or in front of an offset. -/
theorem exists_whole (cs : List Char) (offset : Nat) :
    ∃ before rest, cs = before ++ rest ∧ byteLength before ≤ offset ∧
      ∀ c ∈ rest.head?, offset < byteLength before + c.utf8Size := by
  induction cs generalizing offset with
  | nil => exact ⟨[], [], rfl, Nat.zero_le _, by simp⟩
  | cons c cs ih =>
    -- the first character ends at or in front of the offset, or nothing does
    by_cases hc : c.utf8Size ≤ offset
    · obtain ⟨before, rest, rfl, hle, hlt⟩ := ih (offset - c.utf8Size)
      refine ⟨c :: before, rest, rfl, by rw [byteLength_cons]; omega, fun d hd => ?_⟩
      have := hlt d hd
      rw [byteLength_cons]
      omega
    · exact ⟨[], c :: cs, rfl, Nat.zero_le _, by simpa using hc⟩

/-- Each offset falls inside of a character or behind one. -/
theorem falls_cases (text : String) (offset : Nat) :
    ∃ front line, FallsInside text offset front line ∨ FallsBehind text offset front line := by
  obtain ⟨before, rest, htext, hle, hlt⟩ := exists_whole text.toList offset
  obtain ⟨front, line, rfl, hfront, hline⟩ := exists_endsLine_append before
  refine ⟨front, line, ?_⟩
  have hlength := congrArg byteLength htext
  rw [byteLength_append] at hlength
  cases rest with
  | nil =>
    -- the whole text ends at or in front of the offset
    refine .inr ⟨hfront, hline, [], htext, ?_⟩
    rw [byteLength_nil] at hlength
    omega
  | cons c rest =>
    have hc := hlt c rfl
    rw [byteLength_cons] at hlength
    rcases Nat.eq_or_lt_of_le hle with heq | hinside
    · exact .inr ⟨hfront, hline, c :: rest, htext, by omega⟩
    · exact .inl ⟨hfront, hline, c, rest, htext, hinside, hc⟩

section Reaches

variable {front line front' line' : List Char} {offset offset' : Nat}

/-- `front ++ line` are the characters that end at or in front of an offset, cut behind the last
line feed. -/
structure Reaches (text : String) (offset : Nat) (front line : List Char) : Prop where
  endsLine : EndsLine front
  newline_not_mem : '\n' ∉ line
  isPrefix : front ++ line <+: text.toList
  byteLength_le : byteLength (front ++ line) ≤ offset
  longest : ∀ {w : List Char}, w <+: text.toList → byteLength w ≤ offset → w <+: front ++ line

theorem FallsInside.reaches (h : FallsInside text offset front line) :
    Reaches text offset front line := by
  obtain ⟨hfront, hline, c, rest, htext, hstart, hstop⟩ := h
  exact ⟨hfront, hline, ⟨c :: rest, htext.symm⟩, Nat.le_of_lt hstart,
    fun hw hle => prefix_of_byteLength_lt hw htext (Nat.lt_of_le_of_lt hle hstop)⟩

theorem FallsBehind.reaches (h : FallsBehind text offset front line) :
    Reaches text offset front line := by
  obtain ⟨hfront, hline, rest, htext, hmin⟩ := h
  have hbegins : front ++ line <+: text.toList := ⟨rest, htext.symm⟩
  refine ⟨hfront, hline, hbegins, hmin ▸ Nat.min_le_left .., fun hw hle => ?_⟩
  refine prefix_of_byteLength_le hw hbegins ?_
  rw [← hmin]
  exact Nat.le_min.2 ⟨hle, byteLength_le_of_prefix hw⟩

/-- A later offset is on a later line, or it reaches as far on the same one. -/
theorem Reaches.later (h : Reaches text offset front line)
    (h' : Reaches text offset' front' line') (hle : offset ≤ offset') :
    front.count '\n' < front'.count '\n' ∨ front = front' ∧ line <+: line' := by
  have hwhole : front ++ line <+: front' ++ line' :=
    h'.longest h.isPrefix (Nat.le_trans h.byteLength_le hle)
  have hfront : front <+: front' :=
    h.endsLine.prefix_front h'.newline_not_mem ((List.prefix_append front line).trans hwhole)
  obtain ⟨more, rfl⟩ := hfront
  rcases h'.endsLine.of_append with rfl | ⟨init, rfl⟩
  · rw [List.append_nil] at hwhole
    exact .inr ⟨(List.append_nil front).symm, (List.prefix_append_right_inj front).1 hwhole⟩
  · -- one more line feed stands above the later offset
    left
    simp

end Reaches

variable {front line front' line' : List Char} {offset' : UInt32}

/-- Behind a character the column counts the characters of the line. -/
theorem FallsBehind.toNat_location (hsize : byteLength text.toList + 1 < UInt32.size)
    (h : FallsBehind text offset.toNat front line) :
    ((ofText text).location offset).line.toNat = front.count '\n' + 1 ∧
      ((ofText text).location offset).column.toNat = line.length + 1 := by
  obtain ⟨hfront, hline, rest, htext, hmin⟩ := h
  have hlength := length_le_byteLength (front ++ line)
  have hbytes : byteLength (front ++ line) ≤ byteLength text.toList :=
    byteLength_le_of_prefix ⟨rest, htext.symm⟩
  rw [location_eq_after (Nat.lt_of_succ_lt hsize) htext hmin]
  exact Location.toNat_after_start hfront hline (by omega)

/-- Inside of a character the column counts the bytes of the line. -/
theorem FallsInside.toNat_location (hsize : byteLength text.toList < UInt32.size)
    (h : FallsInside text offset.toNat front line) :
    ((ofText text).location offset).line.toNat = front.count '\n' + 1 ∧
      ((ofText text).location offset).column.toNat = offset.toNat - byteLength front + 1 := by
  obtain ⟨hfront, hline, c, rest, htext, hstart, hstop⟩ := h
  have hlineAt : (ofText text).lineAt offset = front.count '\n' := by
    rw [lineAt_eq hsize htext (Nat.le_of_lt hstart) (by simpa using hstop), List.count_append,
      List.count_eq_zero.2 hline, Nat.add_zero]
  have hdrop : text.toList = front ++ (line ++ c :: rest) := by rw [htext, List.append_assoc]
  have hlineStart : ((ofText text).starts.getD (front.count '\n') 0).toNat = byteLength front :=
    getD_starts hsize hfront hdrop
  have hlength : offset.toNat < byteLength text.toList := by
    rw [htext, byteLength_append _ (c :: rest), byteLength_cons]
    omega
  have hmin : min offset.toNat (byteLength (ofText text).text) = offset.toNat :=
    Nat.min_eq_left (Nat.le_of_lt hlength)
  rw [byteLength_append] at hstart hstop
  -- a stretch up to the offset would end inside of the character
  have hslice : slice? (ofText text).text (byteLength front) offset.toNat = none := by
    rw [slice?, if_pos (by omega), ofText, hdrop, dropBytes?_byteLength, Option.bind_some,
      Option.eq_none_iff_forall_ne_some]
    intro w hw
    obtain ⟨hbegins, hlength⟩ := takeBytes?_eq_some hw
    have hline := byteLength_le_of_prefix (prefix_of_byteLength_lt hbegins rfl (by omega))
    omega
  have hcount : front.count '\n' ≤ byteLength front :=
    Nat.le_trans List.count_le_length (length_le_byteLength front)
  have hwidth : (UInt32.ofNat (offset.toNat - byteLength front)).toNat =
      offset.toNat - byteLength front := UInt32.toNat_ofNat_of_lt' (by omega)
  simp only [location, hlineAt, hlineStart, hmin, hslice]
  refine ⟨UInt32.toNat_ofNat_of_lt' (by omega), ?_⟩
  exact (toNat_add_ofNat (n := 1) (by omega)).trans (congrArg (· + 1) hwidth)

/-- Locations follow offsets, if the earlier one does not fall inside of a character. -/
theorem FallsBehind.location_le (hsize : byteLength text.toList + 1 < UInt32.size)
    (h : FallsBehind text offset.toNat front line) (hle : offset ≤ offset') :
    (ofText text).location offset ≤ (ofText text).location offset' := by
  rw [UInt32.le_iff_toNat_le] at hle
  obtain ⟨hlines, hcolumns⟩ := h.toNat_location hsize
  obtain ⟨front', line', hinside | hbehind⟩ := falls_cases text offset'.toNat
  · obtain ⟨hlines', hcolumns'⟩ := hinside.toNat_location (Nat.lt_of_succ_lt hsize)
    rw [Location.le_iff, hlines, hcolumns, hlines', hcolumns']
    rcases h.reaches.later hinside.reaches hle with hline | ⟨rfl, hbegins⟩
    · exact .inl (Nat.succ_lt_succ hline)
    · -- there are not fewer bytes up to the later offset than characters up to the earlier one
      obtain ⟨-, -, c, rest, -, hstart, -⟩ := hinside
      rw [byteLength_append] at hstart
      have hcolumn : line.length ≤ offset'.toNat - byteLength front :=
        calc line.length ≤ line'.length := hbegins.length_le
          _ ≤ byteLength line' := length_le_byteLength line'
          _ ≤ offset'.toNat - byteLength front := by omega
      exact .inr ⟨rfl, Nat.succ_le_succ hcolumn⟩
  · obtain ⟨hlines', hcolumns'⟩ := hbehind.toNat_location hsize
    rw [Location.le_iff, hlines, hcolumns, hlines', hcolumns']
    rcases h.reaches.later hbehind.reaches hle with hline | ⟨rfl, hbegins⟩
    · exact .inl (Nat.succ_lt_succ hline)
    · exact .inr ⟨rfl, Nat.succ_le_succ hbegins.length_le⟩

theorem FallsInside.location_le (hsize : byteLength text.toList < UInt32.size)
    (h : FallsInside text offset.toNat front line)
    (h' : FallsInside text offset'.toNat front' line') (hle : offset ≤ offset') :
    (ofText text).location offset ≤ (ofText text).location offset' := by
  rw [UInt32.le_iff_toNat_le] at hle
  obtain ⟨hlines, hcolumns⟩ := h.toNat_location hsize
  obtain ⟨hlines', hcolumns'⟩ := h'.toNat_location hsize
  rw [Location.le_iff, hlines, hcolumns, hlines', hcolumns']
  rcases h.reaches.later h'.reaches hle with hline | ⟨rfl, -⟩
  · exact .inl (Nat.succ_lt_succ hline)
  · exact .inr ⟨rfl, Nat.succ_le_succ (Nat.sub_le_sub_right hle _)⟩

/-- In a text whose lines and columns fit into words, the location of a later offset comes before
that of an earlier one just when the earlier one falls inside of a character, the later one falls
behind a character of the same line, and the line has more bytes up to the earlier offset than
characters up to the later one. -/
theorem location_lt_iff (text : String) (hsize : byteLength text.toList + 1 < UInt32.size)
    {offset offset' : UInt32} (hle : offset ≤ offset') :
    (ofText text).location offset' < (ofText text).location offset ↔
      ∃ front line line', FallsInside text offset.toNat front line ∧
        FallsBehind text offset'.toNat front line' ∧
        line'.length < offset.toNat - byteLength front := by
  have hshort : byteLength text.toList < UInt32.size := Nat.lt_of_succ_lt hsize
  constructor
  · intro hlt
    obtain ⟨front, line, hinside | hbehind⟩ := falls_cases text offset.toNat
    · obtain ⟨front', line', hinside' | hbehind'⟩ := falls_cases text offset'.toNat
      · exact absurd hlt (hinside.location_le hshort hinside' hle).not_gt
      · -- only here a column of bytes stands against one of characters
        obtain ⟨hlines, hcolumns⟩ := hinside.toNat_location hshort
        obtain ⟨hlines', hcolumns'⟩ := hbehind'.toNat_location hsize
        rw [Location.lt_iff, hlines, hcolumns, hlines', hcolumns'] at hlt
        rcases hinside.reaches.later hbehind'.reaches (UInt32.le_iff_toNat_le.1 hle) with
          hline | ⟨rfl, -⟩
        · omega
        · have hcolumn : line'.length < offset.toNat - byteLength front := by omega
          exact ⟨front, line, line', hinside, hbehind', hcolumn⟩
    · exact absurd hlt (hbehind.location_le hsize hle).not_gt
  · rintro ⟨front, line, line', hinside, hbehind, hcolumn⟩
    obtain ⟨hlines, hcolumns⟩ := hinside.toNat_location hshort
    obtain ⟨hlines', hcolumns'⟩ := hbehind.toNat_location hsize
    rw [Location.lt_iff, hlines, hcolumns, hlines', hcolumns']
    exact .inr ⟨rfl, Nat.succ_lt_succ hcolumn⟩

/-- The second `é` has its first byte at column 2, and its last one at column 4, while the end of
the text is at column 3. -/
theorem location_lt_twoAccents : byteLength "éé".toList + 1 < UInt32.size ∧ (3 : UInt32) ≤ 4 ∧
    ∃ front line line', FallsInside "éé" 3 front line ∧ FallsBehind "éé" 4 front line' ∧
      line'.length < 3 - byteLength front := by
  have hsize : byteLength "éé".toList + 1 < UInt32.size := by decide
  have hle : (3 : UInt32) ≤ 4 := by decide
  have hlt : (ofText "éé").location 4 < (ofText "éé").location 3 := by decide
  exact ⟨hsize, hle, (location_lt_iff "éé" hsize hle).1 hlt⟩

/-- Locations do not follow offsets. -/
theorem not_forall_location_le : ¬ ∀ text : String, byteLength text.toList < UInt32.size →
    ∀ offset offset' : UInt32, offset ≤ offset' →
      (ofText text).location offset ≤ (ofText text).location offset' := by
  intro h
  have hle : (ofText "éé").location 3 ≤ (ofText "éé").location 4 :=
    h "éé" (by decide) 3 4 (by decide)
  exact absurd hle (by decide)

end LineTable

end TensorTree
