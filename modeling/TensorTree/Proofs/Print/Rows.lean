import TensorTree.Print.Expansion
import TensorTree.Proofs.Forest.Below
import TensorTree.Proofs.Print.Layout

/-!
# The lines of a page

Pieces can be parted into lines before anything is known about how they are laid out: each line has
a depth, says something, and may belong to a node whose span can be noted behind it (`Row`).  Laid
out one by one, these are the lines of the text (`Forest.splitOn_print`), so layouts and recorded
spans only matter to single lines.  No text of a node breaks a line if all names are names
(`Forest.sheet_flat`).
-/

namespace TensorTree

/-! ## §1 Rows -/

/-- A line before it is laid out. -/
structure Row where
  /-- The depth at which the line stands. -/
  depth : Nat
  /-- What the line says. -/
  code : List Char
  /-- The node whose span is noted behind the line where spans are shown. -/
  subject : Option NodeId
deriving DecidableEq

namespace Row

/-- What stands behind a line where spans are shown. -/
def note (spanOf : NodeId → Except ReadFault Span) (r : Row) : List Char :=
  match r.subject.map spanOf with
  | some (.ok span) => (LayoutOptions.spanNote span).toList
  | _ => []

/-- All of a line but the spaces in front of it. -/
def body (o : LayoutOptions) (spanOf : NodeId → Except ReadFault Span) (r : Row) : List Char :=
  if o.showSpans then r.code ++ r.note spanOf else r.code

/-- A line as it stands on a page; an empty one is not indented. -/
def laid (o : LayoutOptions) (spanOf : NodeId → Except ReadFault Span) (r : Row) : List Char :=
  if r.body o spanOf = [] then [] else (o.indentation r.depth).toList ++ r.body o spanOf

end Row

/-- Pieces that are parted into rows. -/
structure Sheet where
  /-- The lines that have ended. -/
  rows : List Row := []
  /-- The depth at which the next line will stand. -/
  depth : Nat := 0
  /-- The line that has begun, with its depth. -/
  begun : Option (Nat × List Char) := none
deriving DecidableEq

namespace Sheet

/-- Go on with the line that has begun, or begin one. -/
def say (s : Sheet) (cs : List Char) : Sheet :=
  if cs.isEmpty then s
  else match s.begun with
    | none => { s with begun := some (s.depth, cs) }
    | some (depth, before) => { s with begun := some (depth, before ++ cs) }

/-- The line that is being written, if it ended here. -/
def row (s : Sheet) (subject : Option NodeId) : Row :=
  match s.begun with
  | none => ⟨s.depth, [], subject⟩
  | some (depth, cs) => ⟨depth, cs, subject⟩

def add (s : Sheet) : Piece → Sheet
  | .text t => s.say t.toList
  | .lineEnd subject => { s with rows := s.rows ++ [s.row subject], begun := none }
  | .indent => { s with depth := s.depth + 1 }
  | .dedent => { s with depth := s.depth - 1 }
  | .fault _ => s

/-- Part pieces into rows, one after the other. -/
def feed (s : Sheet) (pieces : List Piece) : Sheet := pieces.foldl add s

/-- All lines: those that have ended, and one more behind them. -/
def lines (s : Sheet) : List Row := s.rows ++ [s.row none]

@[simp] theorem feed_nil (s : Sheet) : s.feed [] = s := rfl

@[simp] theorem feed_cons (s : Sheet) (piece : Piece) (pieces : List Piece) :
    s.feed (piece :: pieces) = (s.add piece).feed pieces := rfl

theorem feed_append (s : Sheet) (left right : List Piece) :
    s.feed (left ++ right) = (s.feed left).feed right := List.foldl_append

end Sheet

/-! ## §2 Pages and sheets -/

/-- Lines one below the other, the last one without a line break. -/
def ended (lines : List (List Char)) : List Char := lines.flatMap (· ++ ['\n'])

theorem ended_append (left right : List (List Char)) :
    ended (left ++ right) = ended left ++ ended right := List.flatMap_append

namespace Page

variable {o : LayoutOptions} {spanOf : NodeId → Except ReadFault Span} {page next : Page}
  {s : Sheet}

/-- A page shows the rows of a sheet. -/
structure Shows (o : LayoutOptions) (spanOf : NodeId → Except ReadFault Span) (page : Page)
    (s : Sheet) : Prop where
  text_eq : page.text.toList = ended (s.rows.map (Row.laid o spanOf)) ++ (s.row none).laid o spanOf
  depth_eq : page.depth = s.depth
  opens_eq : page.opensLine = s.begun.isNone
  /-- A line that has begun has some text. -/
  begun_ne_nil : ∀ depth cs, s.begun = some (depth, cs) → cs ≠ []

namespace Shows

theorem empty : Shows o spanOf {} {} where
  text_eq := by simp [ended, Sheet.row, Row.laid, Row.body, Row.note]
  depth_eq := rfl
  opens_eq := rfl
  begun_ne_nil := by simp

/-- What is written on a line that belongs to nobody. -/
theorem laid_row_none (o : LayoutOptions) (spanOf : NodeId → Except ReadFault Span) (depth : Nat)
    (cs : List Char) :
    Row.laid o spanOf ⟨depth, cs, none⟩ =
      if cs = [] then [] else (o.indentation depth).toList ++ cs := by
  simp [Row.laid, Row.body, Row.note]

/-- A text goes on with a line, or it begins one behind the indentation. -/
theorem toList_write (h : page.Shows o spanOf s) {t : String} (ht : t ≠ "") :
    (page.write o t).text.toList =
      ended (s.rows.map (Row.laid o spanOf)) ++
        ((o.indentation (s.row none).depth).toList ++ ((s.row none).code ++ t.toList)) := by
  rw [Page.write, if_neg (by simpa using ht)]
  cases hbegun : s.begun with
  | none =>
    have hopens : page.opensLine = true := by rw [h.opens_eq, hbegun]; rfl
    rw [if_pos hopens]
    simp [h.text_eq, h.depth_eq, Sheet.row, hbegun, laid_row_none]
  | some line =>
    obtain ⟨depth, cs⟩ := line
    have hopens : page.opensLine = false := by rw [h.opens_eq, hbegun]; rfl
    have hne := h.begun_ne_nil depth cs hbegun
    rw [hopens, if_neg (by simp)]
    simp [h.text_eq, Sheet.row, hbegun, laid_row_none, hne]

theorem opensLine_write (page : Page) {t : String} (ht : t ≠ "") :
    (page.write o t).opensLine = false := by
  rw [Page.write, if_neg (by simpa using ht)]
  cases hopens : page.opensLine <;> simp

theorem depth_write (page : Page) (t : String) : (page.write o t).depth = page.depth := by
  unfold Page.write
  split
  · rfl
  · split <;> rfl

theorem write (h : page.Shows o spanOf s) (t : String) :
    (page.write o t).Shows o spanOf (s.say t.toList) := by
  by_cases ht : t = ""
  · subst ht
    simpa [Page.write, Sheet.say] using h
  have hne : t.toList ≠ [] := by simpa using ht
  have htext := h.toList_write ht
  rw [Sheet.say, if_neg (by simpa using hne)]
  cases hbegun : s.begun with
  | none =>
    constructor
    case text_eq => simpa [Sheet.row, hbegun, laid_row_none, hne] using htext
    case depth_eq => rw [depth_write, h.depth_eq]
    case opens_eq => rw [opensLine_write page ht]; rfl
    case begun_ne_nil => simp [hne]
  | some line =>
    obtain ⟨depth, cs⟩ := line
    constructor
    case text_eq => simpa [Sheet.row, hbegun, laid_row_none, hne] using htext
    case depth_eq => rw [depth_write, h.depth_eq]
    case opens_eq => rw [opensLine_write page ht]; rfl
    case begun_ne_nil => simp [hne]

/-- A line ends as it stands on the page. -/
theorem endLine (h : page.Shows o spanOf s) {subject : Option NodeId}
    (htext : next.text.toList =
      ended (s.rows.map (Row.laid o spanOf)) ++ ((s.row subject).laid o spanOf ++ ['\n']))
    (hdepth : next.depth = page.depth) (hopens : next.opensLine = true) :
    next.Shows o spanOf (s.add (.lineEnd subject)) where
  text_eq := by
    simp [Sheet.add, htext, ended, Sheet.row, laid_row_none]
  depth_eq := by rw [hdepth, h.depth_eq]; rfl
  opens_eq := by rw [hopens]; rfl
  begun_ne_nil := by simp [Sheet.add]

theorem laid_row_hidden (s : Sheet) (subject : Option NodeId) (hhide : o.showSpans = false) :
    (s.row subject).laid o spanOf = (s.row none).laid o spanOf := by
  unfold Sheet.row
  split <;> simp [Row.laid, Row.body, hhide]

/-- A line that has begun keeps its depth. -/
theorem laid_row_depth (s : Sheet) (depth : Nat) :
    ({ s with depth := depth }.row none).laid o spanOf = (s.row none).laid o spanOf := by
  cases hbegun : s.begun <;> simp [Sheet.row, hbegun, laid_row_none]

/-- The note that ends a line with a subject. -/
theorem laid_row_shown (s : Sheet) {id : NodeId} {span : Span} (hshow : o.showSpans = true)
    (hspan : spanOf id = .ok span) :
    (s.row (some id)).laid o spanOf =
      (o.indentation (s.row none).depth).toList ++
        ((s.row none).code ++ (LayoutOptions.spanNote span).toList) := by
  have hnote : (LayoutOptions.spanNote span).toList ≠ [] := by
    simp [LayoutOptions.spanNote]
  unfold Sheet.row
  split <;> simp [Row.laid, Row.body, Row.note, hshow, hspan, hnote]

theorem breakLine (h : page.Shows o spanOf s) {subject : Option NodeId}
    (hlaid : (s.row subject).laid o spanOf = (s.row none).laid o spanOf) :
    page.breakLine.Shows o spanOf (s.add (.lineEnd subject)) :=
  h.endLine (by simp [Page.breakLine, h.text_eq, hlaid]) rfl rfl

theorem note (h : page.Shows o spanOf s) {id : NodeId} {span : Span} (hshow : o.showSpans = true)
    (hspan : spanOf id = .ok span) :
    (page.write o (LayoutOptions.spanNote span)).breakLine.Shows o spanOf
      (s.add (.lineEnd (some id))) := by
  have hnote : LayoutOptions.spanNote span ≠ "" := by
    intro hnil
    have hlist := congrArg String.toList hnil
    simp [LayoutOptions.spanNote] at hlist
  apply h.endLine
  · simp [Page.breakLine, h.toList_write hnote, laid_row_shown s hshow hspan]
  · exact depth_write page _
  · rfl

/-- A piece does on the page what it does on the sheet. -/
theorem add (h : page.Shows o spanOf s) {piece : Piece}
    (hadd : page.add o spanOf piece = .ok next) :
    next.Shows o spanOf (s.add piece) := by
  cases piece with
  | text t =>
    obtain rfl := Except.ok.inj hadd
    exact h.write t
  | indent | dedent =>
    obtain rfl := Except.ok.inj hadd
    constructor
    case text_eq =>
      simp only [Sheet.add, laid_row_depth]
      exact h.text_eq
    case depth_eq => simp [Sheet.add, h.depth_eq]
    case opens_eq => exact h.opens_eq
    case begun_ne_nil => exact h.begun_ne_nil
  | fault e => cases hadd
  | lineEnd subject =>
    cases subject with
    | none =>
      obtain rfl := Except.ok.inj hadd
      exact h.breakLine rfl
    | some id =>
      rw [Page.add] at hadd
      split at hadd
      next hshow =>
        cases hspan : spanOf id with
        | error e => simp [hspan, Except.map] at hadd
        | ok span =>
          simp only [hspan, Except.map, Except.ok.injEq] at hadd
          exact hadd ▸ h.note hshow hspan
      next hhide =>
        obtain rfl := Except.ok.inj hadd
        exact h.breakLine (laid_row_hidden s _ (by simpa using hhide))

/-- Pieces do on the page what they do on the sheet. -/
theorem foldlM_add (h : page.Shows o spanOf s) {pieces : List Piece}
    (hadd : pieces.foldlM (Page.add o spanOf) page = .ok next) :
    next.Shows o spanOf (s.feed pieces) := by
  induction pieces generalizing page s with
  | nil =>
    obtain rfl := Except.ok.inj hadd
    exact h
  | cons piece pieces ih =>
    rw [List.foldlM_cons] at hadd
    cases hnext : page.add o spanOf piece with
    | error e =>
      rw [hnext] at hadd
      cases hadd
    | ok middle =>
      rw [hnext] at hadd
      exact ih (h.add hnext) hadd

end Shows

end Page

/-! ## §3 What all lines say -/

/-- A property of texts that stays when texts are put together. -/
structure Kept (P : List Char → Prop) : Prop where
  nil : P []
  append : ∀ {cs ds : List Char}, P cs → P ds → P (cs ++ ds)

namespace Sheet

variable {P : List Char → Prop} {s : Sheet}

/-- What the lines say has a property, line by line. -/
def AllSay (P : List Char → Prop) (s : Sheet) : Prop := ∀ r ∈ s.lines, P r.code

theorem allSay_iff : s.AllSay P ↔ (∀ r ∈ s.rows, P r.code) ∧ P (s.row none).code := by
  simp [AllSay, lines, or_imp, forall_and]

theorem code_row (s : Sheet) (subject : Option NodeId) :
    (s.row subject).code = (s.row none).code := by
  unfold row
  split <;> rfl

theorem code_row_say (s : Sheet) (cs : List Char) :
    ((s.say cs).row none).code = (s.row none).code ++ cs := by
  unfold say
  split
  next hempty =>
    rw [List.isEmpty_iff.1 hempty, List.append_nil]
  next =>
    cases hbegun : s.begun <;> simp [row, hbegun]

theorem rows_say (s : Sheet) (cs : List Char) : (s.say cs).rows = s.rows := by
  unfold say
  split
  · rfl
  · split <;> rfl

theorem AllSay.add (hP : Kept P) (h : s.AllSay P) {piece : Piece} (hpiece : piece.Says P) :
    (s.add piece).AllSay P := by
  rw [allSay_iff] at h ⊢
  cases piece with
  | text t =>
    rw [Sheet.add, rows_say, code_row_say]
    exact ⟨h.1, hP.append h.2 hpiece⟩
  | lineEnd subject =>
    constructor
    · simp only [Sheet.add, List.forall_mem_append, List.forall_mem_singleton, code_row s subject]
      exact h
    · exact hP.nil
  | indent | dedent =>
    cases hbegun : s.begun <;> simpa [Sheet.add, row, hbegun] using h
  | fault e => exact h

theorem AllSay.feed (hP : Kept P) (h : s.AllSay P) {pieces : List Piece}
    (hpieces : ∀ piece ∈ pieces, piece.Says P) : (s.feed pieces).AllSay P := by
  induction pieces generalizing s with
  | nil => exact h
  | cons piece pieces ih =>
    rw [List.forall_mem_cons] at hpieces
    exact ih (h.add hP hpieces.1) hpieces.2

theorem allSay_feed (hP : Kept P) {pieces : List Piece} (h : ∀ piece ∈ pieces, piece.Says P) :
    (({} : Sheet).feed pieces).AllSay P := by
  have hempty : ({} : Sheet).AllSay P := by
    simpa [AllSay, lines, row] using hP.nil
  exact hempty.feed hP h

end Sheet

/-! ## §4 The lines of printed texts -/

/-- Lines that were put together are found again. -/
theorem splitOn_ended {front : List (List Char)} {last : List Char}
    (hfront : ∀ line ∈ front, '\n' ∉ line) (hlast : '\n' ∉ last) :
    (ended front ++ last).splitOn '\n' = front ++ [last] := by
  induction front with
  | nil => exact List.splitOn_eq_singleton hlast
  | cons line front ih =>
    rw [List.forall_mem_cons] at hfront
    have hcons : ended (line :: front) ++ last = line ++ '\n' :: (ended front ++ last) := by
      simp [ended]
    rw [hcons, List.splitOn_append_cons_self_of_not_mem hfront.1, ih hfront.2, List.cons_append]

namespace Row

variable {o : LayoutOptions} {spanOf : NodeId → Except ReadFault Span} {r : Row}

/-- The note of a row is that of a span. -/
theorem note_cases (r : Row) (spanOf : NodeId → Except ReadFault Span) :
    r.note spanOf = [] ∨ ∃ id span, r.subject = some id ∧ spanOf id = .ok span ∧
      r.note spanOf = (LayoutOptions.spanNote span).toList := by
  unfold note
  split
  next span hspan =>
    obtain ⟨id, hid, hok⟩ := Option.map_eq_some_iff.1 hspan
    exact .inr ⟨id, span, hid, hok, rfl⟩
  next => exact .inl rfl

theorem newline_not_mem_laid (h : '\n' ∉ r.code) : '\n' ∉ r.laid o spanOf := by
  have hnote : '\n' ∉ r.note spanOf := by
    rcases r.note_cases spanOf with hnil | ⟨id, span, -, -, hspan⟩
    · simp [hnil]
    · simp [hspan, LayoutOptions.toList_spanNote, Span.newline_not_mem_text]
  have hspaces : '\n' ∉ (o.indentation r.depth).toList := by
    simp [LayoutOptions.toList_indentation]
  have hbody : '\n' ∉ r.body o spanOf := by
    unfold body
    split
    · exact List.not_mem_append h hnote
    · exact h
  unfold laid
  split
  · simp
  · exact List.not_mem_append hspaces hbody

end Row

namespace Sheet

variable {s : Sheet} {o : LayoutOptions} {spanOf : NodeId → Except ReadFault Span}

theorem newline_not_mem_rows (h : s.AllSay ('\n' ∉ ·)) (o : LayoutOptions)
    (spanOf : NodeId → Except ReadFault Span) :
    ∀ line ∈ s.rows.map (Row.laid o spanOf), '\n' ∉ line := by
  rw [List.forall_mem_map]
  exact fun r hr => Row.newline_not_mem_laid ((allSay_iff.1 h).1 r hr)

theorem newline_not_mem_row (h : s.AllSay ('\n' ∉ ·)) (o : LayoutOptions)
    (spanOf : NodeId → Except ReadFault Span) : '\n' ∉ (s.row none).laid o spanOf :=
  Row.newline_not_mem_laid (allSay_iff.1 h).2

theorem map_lines (s : Sheet) (o : LayoutOptions) (spanOf : NodeId → Except ReadFault Span) :
    s.lines.map (Row.laid o spanOf) =
      s.rows.map (Row.laid o spanOf) ++ [(s.row none).laid o spanOf] := by
  simp [lines]

theorem splitOn_lines (h : s.AllSay ('\n' ∉ ·)) :
    (ended (s.rows.map (Row.laid o spanOf)) ++ (s.row none).laid o spanOf).splitOn '\n' =
      s.lines.map (Row.laid o spanOf) := by
  rw [splitOn_ended (newline_not_mem_rows h o spanOf) (newline_not_mem_row h o spanOf), map_lines]

end Sheet

namespace Forest

variable {f : Forest} {o : LayoutOptions} {id : NodeId} {text : String}

theorem flatMap_expand_congr {ofChild ofChild' : Branch → NodeId → List Piece}
    {children : List NodeId} {fragments : List Fragment}
    (hlocal : ∀ fragment ∈ fragments, fragment.Local id children)
    (hchild : ∀ child ∈ children, ∀ branch, ofChild branch child = ofChild' branch child) :
    fragments.flatMap (Fragment.expand ofChild) = fragments.flatMap (Fragment.expand ofChild') := by
  apply List.flatMap_congr
  intro fragment hfragment
  cases fragment with
  | own piece => rfl
  | child branch below => exact hchild below (hlocal _ hfragment) branch

/-- Where descents end, more levels add no pieces, and neither do other spans. -/
theorem EndsWithin.expandWithin_eq {g : Forest} {k n m : Nat} (h : f.EndsWithin k id)
    (same : ∀ id, f.node? id = g.node? id) (hn : k ≤ n) (hm : k ≤ m) (branch : Branch) :
    f.expandWithin n branch id = g.expandWithin m branch id := by
  induction h generalizing n m branch with
  | @step k id e found _ ih =>
    obtain ⟨n, rfl⟩ : ∃ i, n = i + 1 := ⟨n - 1, by omega⟩
    obtain ⟨m, rfl⟩ : ∃ i, m = i + 1 := ⟨m - 1, by omega⟩
    have hnode := node?_of_found found
    simp only [expandWithin, hnode, ← same id, fragments_congr branch id fun child _ => same child]
    apply flatMap_expand_congr (g.fragments_local branch id e.node)
    intro child hchild branch
    exact ih child hchild (by omega) (by omega) branch

/-- The lines of a node, whatever the layout. -/
def sheet (f : Forest) (id : NodeId) : Sheet := ({} : Sheet).feed (f.expansion id)

theorem toList_print (h : f.print o id = .ok text) :
    text.toList = ended ((f.sheet id).rows.map (Row.laid o f.span)) ++
      ((f.sheet id).row none).laid o f.span := by
  rw [print_eq_layout_expansion, LayoutOptions.layout] at h
  cases hpage : (f.expansion id).foldlM (Page.add o f.span) {} with
  | error e => simp [hpage, Except.map] at h
  | ok page =>
    simp only [hpage, Except.map, Except.ok.injEq] at h
    rw [← h]
    exact (Page.Shows.empty.foldlM_add hpage).text_eq

/-- The lines of a printed text are the rows of the node, laid out one by one. -/
theorem splitOn_print (h : f.print o id = .ok text)
    (hcode : (f.sheet id).AllSay ('\n' ∉ ·)) :
    text.toList.splitOn '\n' = (f.sheet id).lines.map (Row.laid o f.span) := by
  rw [toList_print h, Sheet.splitOn_lines hcode]

end Forest

/-! ## §5 Lines of forests in which all names are names -/

/-- What stands on one line: a legible text without a line break. -/
def Flat (cs : List Char) : Prop := Legible cs ∧ '\n' ∉ cs

instance (cs : List Char) : Decidable (Flat cs) := inferInstanceAs (Decidable (_ ∧ _))

theorem kept_flat : Kept Flat where
  nil := ⟨.nil, by simp⟩
  append h h' := ⟨h.1.append h'.1, List.not_mem_append h.2 h'.2⟩

theorem flat_of_isNumberPart {cs : List Char} (h : ∀ c ∈ cs, isNumberPart c = true) : Flat cs := by
  refine ⟨legible_of_isNumberPart h, fun hmem => ?_⟩
  have hnewline : isNumberPart '\n' = false := by decide
  rw [h _ hmem] at hnewline
  cases hnewline

theorem IsName.flat {name : String} (h : IsName name) : Flat name.toList := by
  refine ⟨h.legible, fun hmem => ?_⟩
  have hnewline : isNamePart '\n' = false := by decide
  rw [h.isNamePart_of_mem _ hmem] at hnewline
  cases hnewline

theorem spoken_flat : Spoken fun s => Flat s.toList where
  word := by decide
  number _ _ h := flat_of_isNumberPart h

namespace Forest

variable {f : Forest}

/-- All lines of a node of a forest in which all names are names are flat. -/
theorem sheet_flat (hnames : f.Named) (id : NodeId) : (f.sheet id).AllSay Flat :=
  Sheet.allSay_feed kept_flat (expandWithin_say spoken_flat (fun id node hnode name hname =>
    (hnames id node hnode name hname).flat) _ _ id)

/-- The lines of a printed text are the rows of the node, laid out one by one. -/
theorem Named.splitOn_print (hnames : f.Named) {o : LayoutOptions} {id : NodeId} {text : String}
    (h : f.print o id = .ok text) :
    text.toList.splitOn '\n' = (f.sheet id).lines.map (Row.laid o f.span) :=
  Forest.splitOn_print h fun r hr => (sheet_flat hnames id r hr).2

end Forest

end TensorTree
