import Mathlib.Data.List.DropRight
import TensorTree.Proofs.Print.Rows

/-!
# Notes cut off, and line breaks at the end

What is noted behind a line can be cut off again: no line holds the mark of a note in its code
(`cutNote_append`).  Line breaks at the end of a text can be dropped line by line, before the lines
are laid out (`Sheet.splitOn_finish`), if no note stands alone on one of them.
-/

namespace TensorTree

/-! ## §1 Notes -/

/-- What stands in front of the first note of a line, and the note with all behind it. -/
def cutNote : List Char → List Char × List Char
  | [] => ([], [])
  | c :: cs =>
    if "  % ".toList.isPrefixOf (c :: cs) then ([], c :: cs)
    else (c :: (cutNote cs).1, (cutNote cs).2)

/-- A percent sign in a legible text belongs to the marker of a test. -/
theorem Legible.percent {front back : List Char} (h : Legible (front ++ '%' :: back)) :
    back.head? = some '!' := by
  generalize heq : front ++ '%' :: back = cs at h
  induction h generalizing front with
  | nil => simp at heq
  | @plain c cs hc _ ih =>
    cases front with
    | nil =>
      obtain ⟨rfl, -⟩ := List.cons.inj heq
      exact absurd rfl (ne_of_isPlain hc).1
    | cons d front => exact ih (List.cons.inj heq).2
  | @testMarker cs _ ih =>
    match front, heq with
    | [], heq => exact (List.cons.inj heq).2 ▸ rfl
    | [_], heq => simp at heq
    | _ :: _ :: front, heq => exact ih (List.cons.inj (List.cons.inj heq).2).2
  | @notEqual cs _ ih =>
    match front, heq with
    | [], heq => simp at heq
    | [_], heq => simp at heq
    | _ :: _ :: front, heq => exact ih (List.cons.inj (List.cons.inj heq).2).2

/-- The code of a line ends where the first note begins. -/
theorem cutNote_append {code note : List Char} (hcode : Legible code)
    (hnote : note = [] ∨ "  % ".toList <+: note) : cutNote (code ++ note) = (code, note) := by
  have hpercent : ∀ front back, code = front ++ '%' :: back → back.head? = some '!' :=
    fun front back heq => (heq ▸ hcode).percent
  clear hcode
  induction code with
  | nil =>
    rcases hnote with rfl | ⟨rest, rfl⟩
    · rfl
    · simp [cutNote]
  | cons c code ih =>
    have hrest := ih fun front back heq => hpercent (c :: front) back (by rw [heq]; rfl)
    have hmark : "  % ".toList.isPrefixOf (c :: (code ++ note)) = false := by
      rw [Bool.eq_false_iff]
      intro hprefix
      obtain ⟨rest, heq⟩ := List.isPrefixOf_iff_prefix.1 hprefix
      -- the percent sign is the third character: it stands in the code or too early in the note
      match code, hpercent, heq with
      | [], _, heq =>
        rcases hnote with rfl | ⟨tail, rfl⟩ <;> simp at heq
      | [d], _, heq =>
        rcases hnote with rfl | ⟨tail, rfl⟩ <;> simp at heq
      | d :: e :: back, hpercent, heq =>
        obtain rfl : '%' = e := by simp at heq; exact heq.2.2.1
        have hmarker := hpercent [c, d] back rfl
        cases back with
        | nil => cases hmarker
        | cons e back =>
          obtain rfl := Option.some.inj hmarker
          simp at heq
    rw [List.cons_append, cutNote, hmark, hrest]
    rfl

namespace Row

variable {o : LayoutOptions} {spanOf : NodeId → Except ReadFault Span} {r : Row}

theorem laid_hidden (r : Row) (ho : o.showSpans = false)
    (spanOf : NodeId → Except ReadFault Span) :
    r.laid o spanOf = if r.code = [] then [] else (o.indentation r.depth).toList ++ r.code := by
  simp [laid, body, ho]

/-- A note begins with its mark. -/
theorem prefix_note (r : Row) (spanOf : NodeId → Except ReadFault Span) :
    r.note spanOf = [] ∨ "  % ".toList <+: r.note spanOf := by
  apply (r.note_cases spanOf).imp id
  intro hspan
  obtain ⟨id, span, -, -, hnote⟩ := hspan
  exact ⟨span.text.toList, by simp [hnote, LayoutOptions.spanNote]⟩

theorem legible_indentation (o : LayoutOptions) (depth : Nat) :
    Legible (o.indentation depth).toList := by
  rw [LayoutOptions.toList_indentation]
  refine .of_forall fun c hc => ?_
  rw [List.eq_of_mem_replicate hc]
  decide

/-- Cutting a line gives its note and what is written without it; only the indentation in front of a
note that stands alone is written because of the note. -/
theorem cutNote_laid (hcode : Legible r.code) (o : LayoutOptions)
    (spanOf : NodeId → Except ReadFault Span) :
    (cutNote (r.laid { o with showSpans := true } spanOf)).2 = r.note spanOf ∧
      ((cutNote (r.laid { o with showSpans := true } spanOf)).1 =
          r.laid { o with showSpans := false } spanOf ∨
        (r.code = [] ∧ r.note spanOf ≠ [] ∧
          (cutNote (r.laid { o with showSpans := true } spanOf)).1 =
            (o.indentation r.depth).toList)) := by
  have hhidden := r.laid_hidden (o := { o with showSpans := false }) rfl spanOf
  rw [hhidden]
  by_cases hbody : r.code ++ r.note spanOf = []
  · obtain ⟨hnil, hnote⟩ := List.append_eq_nil_iff.1 hbody
    simp [laid, body, hnil, hnote, cutNote]
  · have hshown : r.laid { o with showSpans := true } spanOf =
        ((o.indentation r.depth).toList ++ r.code) ++ r.note spanOf := by
      simp only [laid, body, if_true, if_neg hbody, List.append_assoc]
      rfl
    rw [hshown, cutNote_append ((legible_indentation o r.depth).append hcode)
      (r.prefix_note spanOf)]
    refine ⟨rfl, ?_⟩
    by_cases hnil : r.code = []
    · refine .inr ⟨hnil, fun hnote => hbody (by rw [hnil, hnote]; rfl), ?_⟩
      rw [hnil, List.append_nil]
    · rw [if_neg hnil]
      exact .inl rfl

end Row

/-! ## §2 Final line breaks -/

/-- A list without the elements of a kind at its end; if all are of that kind, one is left over. -/
def trimmed {α : Type} (blank : α) (p : α → Bool) (l : List α) : List α :=
  if l.rdropWhile p = [] then [blank] else l.rdropWhile p

section Trimmed

variable {α β : Type} {blank : α} {p : α → Bool} {q : β → Bool} {l : List α} {a : α}

theorem trimmed_concat_pos (h : p a = true) : trimmed blank p (l ++ [a]) = trimmed blank p l := by
  unfold trimmed
  rw [List.rdropWhile_concat_pos p l a h]

theorem trimmed_concat_neg (h : p a = false) : trimmed blank p (l ++ [a]) = l ++ [a] := by
  unfold trimmed
  rw [List.rdropWhile_concat_neg p l a (by simp [h]), if_neg (by simp)]

/-- Trimming only looks at the elements at the end. -/
theorem map_trimmed (g : α → β) (hneg : ∀ a ∈ l, p a = false → q (g a) = false)
    (hpos : ∀ a ∈ l.rtakeWhile p, q (g a) = true) :
    (trimmed blank p l).map g = trimmed (g blank) q (l.map g) := by
  induction l using List.reverseRecOn with
  | nil => rfl
  | append_singleton l a ih =>
    rw [List.map_append, List.map_singleton]
    cases ha : p a with
    | false =>
      have hga : q (g a) = false := hneg a (by simp) ha
      rw [trimmed_concat_neg ha, trimmed_concat_neg hga, List.map_append, List.map_singleton]
    | true =>
      rw [List.rtakeWhile_concat_pos p l a ha, List.forall_mem_append] at hpos
      have hga : q (g a) = true := hpos.2 a List.mem_cons_self
      rw [trimmed_concat_pos ha, trimmed_concat_pos hga]
      exact ih (fun b hb => hneg b (List.mem_append_left _ hb)) hpos.1

end Trimmed

theorem ended_concat (front : List (List Char)) (line : List Char) :
    ended (front ++ [line]) = ended front ++ (line ++ ['\n']) := by
  rw [ended_append]
  simp [ended]

theorem dropFinalNewlines_newline (cs : List Char) :
    LayoutOptions.dropFinalNewlines (cs ++ ['\n']) = LayoutOptions.dropFinalNewlines cs :=
  List.rdropWhile_concat_pos _ cs '\n' rfl

/-- A text whose last line says something stays as it is. -/
theorem dropFinalNewlines_append {line : List Char} (hne : line ≠ []) (hline : '\n' ∉ line)
    (cs : List Char) : LayoutOptions.dropFinalNewlines (cs ++ line) = cs ++ line := by
  obtain ⟨init, c, rfl⟩ := List.eq_nil_or_concat' line |>.resolve_left hne
  rw [← List.append_assoc]
  apply List.rdropWhile_concat_neg
  intro heq
  rw [beq_iff_eq] at heq
  simp [heq] at hline

/-- Without the line breaks at its end, a text has the same lines but for empty ones at the end. -/
theorem splitOn_dropFinalNewlines {front : List (List Char)} {last : List Char}
    (hfront : ∀ line ∈ front, '\n' ∉ line) (hlast : '\n' ∉ last) :
    (LayoutOptions.dropFinalNewlines (ended front ++ last)).splitOn '\n' =
      trimmed [] List.isEmpty (front ++ [last]) := by
  -- one empty line after the other is taken from the end
  induction front using List.reverseRecOn generalizing last with
  | nil =>
    by_cases hnil : last = []
    · subst hnil
      rfl
    · rw [dropFinalNewlines_append hnil hlast, splitOn_ended hfront hlast,
        trimmed_concat_neg (by simpa using hnil)]
  | append_singleton front line ih =>
    by_cases hnil : last = []
    · rw [List.forall_mem_append, List.forall_mem_singleton] at hfront
      rw [hnil, List.append_nil, ended_concat, ← List.append_assoc, dropFinalNewlines_newline,
        ih hfront.1 (hfront.2), trimmed_concat_pos List.isEmpty_nil]
    · rw [dropFinalNewlines_append hnil hlast, splitOn_ended hfront hlast,
        trimmed_concat_neg (by simpa using hnil)]

/-- A line without anything. -/
def Row.blank : Row := ⟨0, [], none⟩

/-- The line says nothing. -/
def Row.isSilent (r : Row) : Bool := r.code.isEmpty

theorem Row.isSilent_iff {r : Row} : r.isSilent = true ↔ r.code = [] := List.isEmpty_iff

namespace Sheet

variable {s : Sheet} {o : LayoutOptions} {spanOf : NodeId → Except ReadFault Span}

/-- The rows of a text that ends as the options ask for. -/
def finished (s : Sheet) (finalNewline : Bool) : List Row :=
  if finalNewline then if (s.row none).isSilent then s.lines else s.lines ++ [.blank]
  else trimmed .blank Row.isSilent s.lines

/-- No note stands alone on one of the empty lines at the end. -/
def Settled (s : Sheet) : Prop :=
  (s.row none).isSilent = true → ∀ r ∈ s.rows.rtakeWhile Row.isSilent, r.subject = none

theorem subject_row (s : Sheet) (subject : Option NodeId) : (s.row subject).subject = subject := by
  unfold row
  split <;> rfl

theorem Settled.subject_eq_none (h : s.Settled) :
    ∀ r ∈ s.lines.rtakeWhile Row.isSilent, r.subject = none := by
  unfold lines
  cases hsilent : (s.row none).isSilent with
  | false =>
    rw [List.rtakeWhile_concat_neg _ _ _ (by simp [hsilent])]
    simp
  | true =>
    rw [List.rtakeWhile_concat_pos _ _ _ hsilent, List.forall_mem_append]
    exact ⟨h hsilent, List.forall_mem_singleton.2 (s.subject_row none)⟩

/-- A line that belongs to nobody is empty if it says nothing. -/
theorem laid_eq_nil {r : Row} (hsilent : r.isSilent = true) (hsubject : r.subject = none) :
    r.laid o spanOf = [] := by
  simp [Row.laid, Row.body, Row.note, Row.isSilent_iff.1 hsilent, hsubject]

theorem laid_ne_nil {r : Row} (hsilent : r.isSilent = false) : r.laid o spanOf ≠ [] := by
  have hcode : r.code ≠ [] := by simpa [Row.isSilent] using hsilent
  have hbody : r.body o spanOf ≠ [] := by
    unfold Row.body
    split <;> simp [hcode]
  rw [Row.laid, if_neg hbody]
  simp [hbody]

/-- A text is empty or ends with a line break exactly if nothing stands behind its last line
break. -/
theorem endsLine_iff {text : String} {front : List (List Char)} {last : List Char}
    (htext : text.toList = ended front ++ last) (hlast : '\n' ∉ last) :
    (text.isEmpty || text.toList.getLast? == some '\n') = true ↔ last = [] := by
  have hempty : text.isEmpty = text.toList.isEmpty := by
    rw [Bool.eq_iff_iff]
    simp
  rw [hempty, htext]
  constructor
  · intro h
    by_contra hne
    obtain ⟨init, c, rfl⟩ := (List.eq_nil_or_concat' last).resolve_left hne
    have hc : c = '\n' := by simpa [← List.append_assoc] using h
    simp [hc] at hlast
  · rintro rfl
    rcases List.eq_nil_or_concat' front with rfl | ⟨front, line, rfl⟩
    · rfl
    · simp [ended_concat, ← List.append_assoc]

/-- The lines of a text that is ended as the options ask for are the finished rows, laid out one by
one. -/
theorem splitOn_finish {text : String}
    (htext : text.toList = ended (s.rows.map (Row.laid o spanOf)) ++ (s.row none).laid o spanOf)
    (hflat : s.AllSay ('\n' ∉ ·)) (hs : s.Settled) :
    (o.finish text).toList.splitOn '\n' =
      (s.finished o.finalNewline).map (Row.laid o spanOf) := by
  have hrows := newline_not_mem_rows hflat o spanOf
  have hlast := newline_not_mem_row hflat o spanOf
  have hblank : Row.blank.laid o spanOf = [] := laid_eq_nil rfl rfl
  have hends := endsLine_iff htext hlast
  unfold finished LayoutOptions.finish
  cases o.finalNewline with
  | false =>
    rw [if_neg (by simp), if_neg (by simp), String.toList_ofList, htext,
      splitOn_dropFinalNewlines hrows hlast, ← map_lines, map_trimmed _ (q := List.isEmpty), hblank]
    · intro r hr hsilent
      simpa using laid_ne_nil hsilent
    · intro r hr
      have hsilent := List.mem_rtakeWhile_imp hr
      rw [laid_eq_nil hsilent (hs.subject_eq_none r hr)]
      rfl
  | true =>
    rw [if_pos rfl, if_pos rfl]
    cases hsilent : (s.row none).isSilent with
    | false =>
      rw [if_neg (fun h => laid_ne_nil hsilent (hends.1 h)), if_neg (by simp), List.map_append,
        List.map_singleton, hblank, String.toList_append, htext, map_lines]
      have hall : ∀ line ∈ s.rows.map (Row.laid o spanOf) ++ [(s.row none).laid o spanOf],
          '\n' ∉ line :=
        List.forall_mem_append.2 ⟨hrows, List.forall_mem_singleton.2 hlast⟩
      have hsplit := splitOn_ended hall (List.not_mem_nil (a := '\n'))
      rw [ended_concat] at hsplit
      simpa using hsplit
    | true =>
      rw [if_pos (hends.2 (laid_eq_nil hsilent (s.subject_row none))), if_pos rfl, htext,
        splitOn_lines hflat]

end Sheet

end TensorTree
