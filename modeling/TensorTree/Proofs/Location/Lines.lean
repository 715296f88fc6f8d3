import Mathlib.Data.List.Induction
import TensorTree.Location

/-!
# Locations and lines

A text is split into lines at its line feeds.  The location behind a beginning of the text counts
the full lines of that beginning and the characters behind them (`Location.after_start_append`).  As
long as the counts fit into words, what follows on the same line is found in that line at that
column (`getElem?_splitOn`).
-/

namespace TensorTree

/-! ## §1 Full lines -/

/-- A text of full lines: a new line begins behind it. -/
def EndsLine (front : List Char) : Prop := front = [] ∨ ∃ cs, front = cs ++ ['\n']

/-- Every text is made of full lines and of the beginning of one more. -/
theorem exists_endsLine_append (cs : List Char) :
    ∃ front line, cs = front ++ line ∧ EndsLine front ∧ '\n' ∉ line := by
  induction cs using List.reverseRecOn with
  | nil => exact ⟨[], [], rfl, .inl rfl, by simp⟩
  | append_singleton cs c ih =>
    by_cases hc : c = '\n'
    · subst hc
      exact ⟨cs ++ ['\n'], [], by simp, .inr ⟨cs, rfl⟩, by simp⟩
    · obtain ⟨front, line, rfl, hfront, hline⟩ := ih
      refine ⟨front, line ++ [c], by simp, hfront, ?_⟩
      simpa [hline, eq_comm] using hc

/-- The rest of full lines ends with the end of a line as well, or nothing is left. -/
theorem EndsLine.of_append {cs ds : List Char} (h : EndsLine (cs ++ ds)) : EndsLine ds := by
  rcases List.eq_nil_or_concat ds with hnil | ⟨init, c, rfl⟩
  · exact .inl hnil
  · rcases h with hnil | ⟨front, heq⟩
    · simp at hnil
    · rw [List.concat_eq_append, ← List.append_assoc] at heq
      obtain ⟨-, hlast⟩ := List.append_inj' heq rfl
      exact .inr ⟨init, by rw [List.concat_eq_append, hlast]⟩

namespace Location

theorem line_after (here : Location) (cs : List Char) :
    (here.after cs).line = here.line + .ofNat (cs.count '\n') := by
  induction cs generalizing here with
  | nil => simp
  | cons c cs ih =>
    rw [after_cons, ih, List.count_cons, next]
    by_cases hc : c = '\n'
    · rw [if_pos hc, if_pos (by simpa using hc), Nat.add_comm, UInt32.ofNat_add, UInt32.add_assoc]
      rfl
    · rw [if_neg hc, if_neg (by simpa using hc), Nat.add_zero]

/-- Within a line only the column grows. -/
theorem after_eq_of_not_mem (here : Location) {line : List Char} (h : '\n' ∉ line) :
    here.after line = ⟨here.line, here.column + .ofNat line.length⟩ := by
  induction line generalizing here with
  | nil => simp
  | cons c line ih =>
    rw [List.mem_cons, not_or] at h
    rw [after_cons, next, if_neg (Ne.symm h.1), ih _ h.2, List.length_cons, Nat.add_comm,
      UInt32.ofNat_add, UInt32.add_assoc]
    rfl

/-- The next line begins behind the end of a line. -/
theorem next_after_line (here : Location) {line : List Char} (h : '\n' ∉ line) :
    (here.after line).next '\n' = ⟨here.line + 1, 1⟩ := by
  rw [after_eq_of_not_mem here h, next, if_pos rfl]

/-- A new line begins behind full lines. -/
theorem after_start_of_endsLine {front : List Char} (h : EndsLine front) :
    start.after front = ⟨.ofNat (front.count '\n' + 1), 1⟩ := by
  rcases h with rfl | ⟨cs, rfl⟩
  · rfl
  · have hline := line_after start cs
    rw [after_append, after_cons, after_nil, next, if_pos rfl, hline, List.count_append,
      UInt32.ofNat_add, UInt32.ofNat_add, UInt32.add_comm start.line]
    rfl

/-- The location behind full lines and the beginning of one more. -/
theorem after_start_append {front line : List Char} (hfront : EndsLine front)
    (hline : '\n' ∉ line) :
    start.after (front ++ line) =
      ⟨.ofNat (front.count '\n' + 1), .ofNat (line.length + 1)⟩ := by
  rw [after_append, after_start_of_endsLine hfront, after_eq_of_not_mem _ hline,
    Nat.add_comm line.length, UInt32.ofNat_add 1 line.length]
  rfl

/-- As many characters as fit into a word together with one more are counted exactly. -/
theorem toNat_after_start {front line : List Char} (hfront : EndsLine front)
    (hline : '\n' ∉ line) (h : (front ++ line).length + 1 < UInt32.size) :
    (start.after (front ++ line)).line.toNat = front.count '\n' + 1 ∧
      (start.after (front ++ line)).column.toNat = line.length + 1 := by
  have hcount : front.count '\n' ≤ front.length := List.count_le_length
  rw [List.length_append] at h
  rw [after_start_append hfront hline, UInt32.toNat_ofNat_of_lt' (by omega),
    UInt32.toNat_ofNat_of_lt' (by omega)]
  exact ⟨rfl, rfl⟩

end Location

/-! ## §2 The lines of a text -/

theorem length_splitOn (cs : List Char) : (cs.splitOn '\n').length = cs.count '\n' + 1 := by
  induction cs with
  | nil => rfl
  | cons c cs ih =>
    rw [List.splitOn_cons_eq_if_modifyHead, List.count_cons]
    split <;> simp [ih]

/-- What holds of each single line, and of each line above a text of which it holds, holds of every
text. -/
@[elab_as_elim]
theorem lines_induction {P : List Char → Prop} (last : ∀ line, '\n' ∉ line → P line)
    (above : ∀ line rest, '\n' ∉ line → P rest → P (line ++ '\n' :: rest)) (cs : List Char) :
    P cs := by
  induction hlength : cs.length using Nat.strongRecOn generalizing cs with
  | ind length ih =>
    by_cases hmem : '\n' ∈ cs
    · obtain ⟨line, rest, rfl, hline⟩ := List.eq_append_cons_of_mem hmem
      refine above line rest hline (ih rest.length ?_ rest rfl)
      simp only [← hlength, List.length_append, List.length_cons]
      omega
    · exact last cs hmem

/-- Behind full lines the other lines follow as they are. -/
theorem EndsLine.splitOn_append {front : List Char} (h : EndsLine front) (cs : List Char) :
    ∃ lines, lines.length = front.count '\n' ∧
      (front ++ cs).splitOn '\n' = lines ++ cs.splitOn '\n' := by
  rcases h with rfl | ⟨init, rfl⟩
  · exact ⟨[], rfl, rfl⟩
  · refine ⟨init.splitOn '\n', by simp [length_splitOn], ?_⟩
    rw [List.append_assoc, List.singleton_append, List.splitOn_append_cons_self]

/-- The first line begins with what stands in front of the first line feed. -/
theorem exists_splitOn_append {line : List Char} (h : '\n' ∉ line) (rest : List Char) :
    ∃ tail lines, (line ++ rest).splitOn '\n' = (line ++ tail) :: lines := by
  by_cases hrest : '\n' ∈ rest
  · obtain ⟨tail, others, rfl, htail⟩ := List.eq_append_cons_of_mem hrest
    refine ⟨tail, others.splitOn '\n', ?_⟩
    rw [← List.append_assoc, List.splitOn_append_cons_self_of_not_mem (by simp [h, htail])]
  · exact ⟨rest, [], List.splitOn_eq_singleton (by simp [h, hrest])⟩

/-- A stretch of one line is found in the line and at the columns that its location tells. -/
theorem getElem?_splitOn {before : List Char} (hbefore : before.length + 1 < UInt32.size)
    {w : List Char} (hw : '\n' ∉ w) (rest : List Char) :
    ∃ line, ((before ++ w ++ rest).splitOn '\n')[(Location.start.after before).line.toNat - 1]? =
        some line ∧
      (line.drop ((Location.start.after before).column.toNat - 1)).take w.length = w := by
  obtain ⟨front, lead, rfl, hfront, hlead⟩ := exists_endsLine_append before
  obtain ⟨hlines, hcolumns⟩ := Location.toNat_after_start hfront hlead hbefore
  obtain ⟨lines, hlength, hsplit⟩ := hfront.splitOn_append (lead ++ w ++ rest)
  have hbegin : '\n' ∉ lead ++ w := by simp [hlead, hw]
  obtain ⟨tail, others, hhead⟩ := exists_splitOn_append hbegin rest
  refine ⟨lead ++ w ++ tail, ?_, ?_⟩
  · rw [hlines, List.append_assoc, List.append_assoc, ← List.append_assoc lead, hsplit, hhead]
    simp [← hlength]
  · rw [hcolumns]
    simp

/-- The location behind a text is one column behind the end of its last line. -/
theorem after_start_eq_splitOn (cs : List Char) :
    ∃ line, (cs.splitOn '\n').getLast? = some line ∧ line.length ≤ cs.length ∧
      Location.start.after cs = ⟨.ofNat (cs.splitOn '\n').length, .ofNat (line.length + 1)⟩ := by
  obtain ⟨front, line, rfl, hfront, hline⟩ := exists_endsLine_append cs
  obtain ⟨lines, hlength, hsplit⟩ := hfront.splitOn_append line
  rw [List.splitOn_eq_singleton hline] at hsplit
  refine ⟨line, by simp [hsplit], by simp, ?_⟩
  rw [Location.after_start_append hfront hline, hsplit, List.length_append, hlength,
    List.length_singleton]

end TensorTree
