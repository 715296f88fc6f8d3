import TensorTree.Proofs.Print.Balance
import TensorTree.Proofs.Print.Trim

/-!
# Spans only add notes

Which spans are recorded in a forest is seen in its texts only where spans are shown, and there only
in the notes behind lines: cut off, they leave what is printed without spans, and each of them is
the span of a statement, a declaration or a test that is printed on its line
(`Session.onlyNotes_of_runs`).

Two layouts of the same rows differ line by line, so what remains is to find the nodes behind the
notes (`Forest.exists_printedOn`), and to see that a note never stands alone on the last lines of a
text, where line breaks may be dropped (`Forest.settled_sheet`).
-/

namespace TensorTree

/-! ## §1 Notes at the end of a text -/

namespace Sheet

variable {s : Sheet}

theorem isSilent_row (s : Sheet) (subject : Option NodeId) :
    (s.row subject).isSilent = (s.row none).isSilent := by
  rw [Row.isSilent, Row.isSilent, code_row]

/-- A line that says something leaves no note alone at the end. -/
theorem settled_lineEnd (h : (s.row none).isSilent = false) (subject : Option NodeId) :
    (s.add (.lineEnd subject)).Settled := by
  intro _
  have hsilent := (s.isSilent_row subject).trans h
  rw [Sheet.add, List.rtakeWhile_concat_neg _ _ _ (by simp [hsilent])]
  simp

theorem isSilent_say {cs : List Char} (hcs : cs ≠ []) : ((s.say cs).row none).isSilent = false := by
  simp [Row.isSilent, code_row_say, hcs]

theorem settled_say {cs : List Char} (hcs : cs ≠ []) : (s.say cs).Settled := by
  intro hsilent
  rw [isSilent_say hcs] at hsilent
  cases hsilent

/-- Only the end of a line that belongs to a node can leave a note alone. -/
theorem Settled.add (h : s.Settled) {piece : Piece} (hpiece : ∀ id, piece ≠ .lineEnd (some id)) :
    (s.add piece).Settled := by
  cases piece with
  | text t =>
    by_cases ht : t.toList = []
    · simpa [Sheet.add, say, ht] using h
    · exact settled_say ht
  | lineEnd subject =>
    cases subject with
    | some id => exact absurd rfl (hpiece id)
    | none =>
      cases hsilent : (s.row none).isSilent with
      | false => exact settled_lineEnd hsilent none
      | true =>
        -- an empty line more, and it belongs to nobody
        intro _
        rw [Sheet.add, List.rtakeWhile_concat_pos _ _ _ hsilent, List.forall_mem_append]
        exact ⟨h hsilent, List.forall_mem_singleton.2 (s.subject_row none)⟩
  | indent | dedent =>
    cases hbegun : s.begun <;> simpa [Sheet.add, Settled, row, Row.isSilent, hbegun] using h
  | fault e => exact h

end Sheet

/-- Written behind what is settled, the pieces leave it settled. -/
def Settles (pieces : List Piece) : Prop := ∀ s : Sheet, s.Settled → (s.feed pieces).Settled

/-- Whatever the pieces are written behind is settled afterwards. -/
def Clears (pieces : List Piece) : Prop := ∀ s : Sheet, (s.feed pieces).Settled

theorem Settles.nil : Settles [] := fun _ h => h

theorem Settles.append {left right : List Piece} (h : Settles left) (h' : Settles right) :
    Settles (left ++ right) := by
  intro s hs
  rw [Sheet.feed_append]
  exact h' _ (h s hs)

theorem Settles.single {piece : Piece} (h : ∀ id, piece ≠ .lineEnd (some id)) : Settles [piece] :=
  fun _ hs => hs.add h

theorem Clears.settles {right : List Piece} (h : Clears right) (left : List Piece) :
    Settles (left ++ right) := by
  intro s _
  rw [Sheet.feed_append]
  exact h _

theorem Settles.clears {pieces : List Piece} (h : Settles pieces) {t : String}
    (ht : t.toList ≠ []) :
    Clears (.text t :: pieces) :=
  fun _ => h _ (Sheet.settled_say ht)

/-- A fragment that leaves no note alone if the children that open a chain leave none. -/
def Fragment.Calm : Fragment → Prop
  | .own (.lineEnd (some _)) | .child .continuing _ => False
  | _ => True

theorem Fragment.Level.calm {fragment : Fragment} (h : fragment.Level) : fragment.Calm := by
  cases fragment with
  | child branch id => cases branch <;> exact h
  | own piece =>
    cases piece with
    | lineEnd subject => exact h.elim
    | text | indent | dedent | fault => trivial

namespace Forest

open Fragment

variable {f : Forest} {ofChild : Branch → NodeId → List Piece}

theorem settles_of_calm (hchild : ∀ id, Settles (ofChild .opening id)) {fragments : List Fragment}
    (h : ∀ fragment ∈ fragments, fragment.Calm) :
    Settles (fragments.flatMap (Fragment.expand ofChild)) := by
  induction fragments with
  | nil => exact .nil
  | cons fragment fragments ih =>
    rw [List.forall_mem_cons] at h
    rw [List.flatMap_cons]
    refine .append ?_ (ih h.2)
    cases fragment with
    | child branch id =>
      cases branch with
      | opening => exact hchild id
      | continuing => exact h.1.elim
    | own piece =>
      apply Settles.single
      rintro id rfl
      exact h.1

/-- All that stands in front of the end of a statement is settled by it. -/
theorem settles_statement (left : List Fragment) (id : NodeId) :
    Settles ((left ++ statementEnd id).flatMap (Fragment.expand ofChild)) := by
  rw [List.flatMap_append]
  refine Clears.settles ?_ _
  intro s
  have hsilent : ((s.say ";".toList).row none).isSilent = false := Sheet.isSilent_say (by decide)
  exact Sheet.settled_lineEnd hsilent (some id)

/-- All that stands in front of the end of a block is settled by it. -/
theorem settles_block (hchild : ∀ id, Settles (ofChild .opening id)) (left : List Fragment)
    {s : String} (hs : s.toList ≠ []) {rest : List Fragment}
    (hrest : ∀ fragment ∈ rest, fragment.Calm) :
    Settles ((left ++ text s :: rest).flatMap (Fragment.expand ofChild)) := by
  rw [List.flatMap_append]
  exact ((settles_of_calm hchild hrest).clears hs).settles _

/-- The text of a node that opens a chain leaves no note alone. -/
theorem settles_fragments (hchild : ∀ id, Settles (ofChild .opening id)) (id : NodeId)
    (node : Node) : Settles ((f.fragments .opening id node).flatMap (Fragment.expand ofChild)) := by
  have hend (left : List Fragment) :
      Settles ((left ++ line "end").flatMap (Fragment.expand ofChild)) :=
    settles_block hchild left (by decide) (by simp [Fragment.Calm, lineEnd])
  by_cases hwithin : node.variant.role ∈ Role.within
  · exact settles_of_calm hchild fun fragment hmem =>
      (f.fragments_level .opening id hwithin fragment hmem).calm
  cases node with
  | program elems =>
    apply settles_of_calm hchild
    apply forall_mem_intersperse
    · simp [Fragment.node, Fragment.Calm]
    · trivial
  | stmtBlock stmts =>
    apply settles_of_calm hchild
    simp [fragments, ofRef, Fragment.node, Fragment.Calm]
  | field decl => exact settles_statement [ofRef decl] id
  | exprStmt expr => exact settles_statement [ofRef expr] id
  | externalDecl | binding | printStmt | assignStmt | test => exact settles_statement _ id
  | elementTypeDecl | callable | forStmt => exact hend _
  | loop timing cond body =>
    cases timing with
    | before => exact hend _
    | after =>
      apply settles_block hchild _ (by decide)
      simp [ofRef, Fragment.node, Fragment.Calm, lineEnd]
  -- the branches that go on with the chain may leave notes alone, but its end stands behind them
  | ifStmt cond thenBody elseBody => exact hend _
  | _ => exact absurd (by simp [Node.variant, Variant.role, Role.within, Role.inline]) hwithin

theorem settles_expandWithin (f : Forest) (n : Nat) (id : NodeId) :
    Settles (f.expandWithin n .opening id) := by
  induction n generalizing id with
  | zero => exact .single (by simp)
  | succ n ih =>
    rw [expandWithin]
    cases f.node? id with
    | none => exact .single (by simp)
    | some node => exact settles_fragments ih id node

/-- No note stands alone on one of the empty lines at the end of a text. -/
theorem settled_sheet (f : Forest) (id : NodeId) : (f.sheet id).Settled :=
  settles_expandWithin f _ id {} fun _ => by simp

end Forest

/-! ## §2 Nodes behind notes -/

def Piece.isLineEnd : Piece → Bool
  | .lineEnd _ => true
  | _ => false

/-- The number of line breaks among pieces. -/
def lineBreaks (pieces : List Piece) : Nat := pieces.countP Piece.isLineEnd

@[simp] theorem lineBreaks_nil : lineBreaks [] = 0 := rfl

@[simp] theorem lineBreaks_append (left right : List Piece) :
    lineBreaks (left ++ right) = lineBreaks left + lineBreaks right :=
  List.countP_append

@[simp] theorem lineBreaks_cons (piece : Piece) (pieces : List Piece) :
    lineBreaks (piece :: pieces) = lineBreaks pieces + if piece.isLineEnd then 1 else 0 :=
  List.countP_cons

/-- The roles of statements, declarations and tests. -/
def Role.noted : List Role := [.stmt, .field, .elementDecl, .externalDecl, .func, .proc, .test]

namespace Forest

open Fragment

variable {f : Forest} {n : Nat} {branch : Branch} {id target : NodeId}

/-- On the way down from a node, writing it comes to another one, with some pieces in front. -/
inductive Reaches (f : Forest) :
    Nat → Branch → NodeId → List Piece → Nat → Branch → NodeId → Prop where
  /-- The node itself, with nothing in front. -/
  | here (n : Nat) (branch : Branch) (id : NodeId) : Reaches f n branch id [] n branch id
  /-- On through a child: in front of it stands all that is written before the child. -/
  | down {n m : Nat} {branch outer inner : Branch} {id child target : NodeId} {node : Node}
      {left right : List Fragment} {before : List Piece} (found : f.node? id = some node)
      (split : f.fragments branch id node = left ++ .child outer child :: right)
      (rest : Reaches f n outer child before m inner target) :
      Reaches f (n + 1) branch id
        (left.flatMap (Fragment.expand (f.expandWithin n)) ++ before) m inner target

/-- In the text of a node, another one is printed on the line, up to the end of it. -/
def PrintedOn (f : Forest) (id : NodeId) (line : Nat) (target : NodeId) : Prop :=
  ∃ before m inner, f.Reaches f.depthBound .opening id before m inner target ∧
    lineBreaks before ≤ line ∧
    line < lineBreaks before + lineBreaks (f.expandWithin m inner target)

/-- Only statements, declarations and tests note their spans. -/
theorem noted_of_mem {node : Node} {subject : NodeId}
    (h : lineEnd (some subject) ∈ f.fragments branch id node) :
    node.variant.role ∈ Role.noted := by
  by_cases hwithin : node.variant.role ∈ Role.within
  · exact (f.fragments_level branch id hwithin _ h).elim
  cases node with
  | program elems =>
    refine absurd rfl (forall_mem_intersperse (P := (· ≠ lineEnd (some subject))) ?_ ?_ _ h)
    · simp [Fragment.node, lineEnd]
    · simp [lineEnd]
  | stmtBlock stmts => simp [fragments, ofRef, Fragment.node, lineEnd] at h
  | callable kind => cases kind <;> simp [Node.variant, Variant.role, Role.noted]
  | field | exprStmt | externalDecl | binding | printStmt | assignStmt | test | elementTypeDecl
  | forStmt | loop | ifStmt => simp [Node.variant, Variant.role, Role.noted]
  | _ => exact absurd (by simp [Node.variant, Variant.role, Role.within, Role.inline]) hwithin

/-- An element of lists put together is found in one of them. -/
theorem exists_split_flatMap {α β : Type} {g : α → List β} {l : List α} {b : β}
    {front back : List β} (h : l.flatMap g = front ++ b :: back) :
    ∃ left a right before after, l = left ++ a :: right ∧ g a = before ++ b :: after ∧
      front = left.flatMap g ++ before := by
  induction l generalizing front with
  | nil => simp at h
  | cons a l ih =>
    -- the element stands in one of the later lists, or in the first one
    rw [List.flatMap_cons, List.append_eq_append_iff] at h
    rcases h with ⟨before, rfl, hrest⟩ | ⟨after, hhead, hrest⟩
    · obtain ⟨left, a', right, inner, outer, rfl, hsplit, rfl⟩ := ih hrest
      exact ⟨a :: left, a', right, inner, outer, rfl, hsplit, by simp⟩
    · cases after with
      | nil =>
        have hhere : l.flatMap g = [] ++ b :: back := hrest.symm
        obtain ⟨left, a', right, inner, outer, rfl, hsplit, heq⟩ := ih hhere
        refine ⟨a :: left, a', right, inner, outer, rfl, hsplit, ?_⟩
        rw [List.flatMap_cons, List.append_assoc, ← heq, hhead]
        simp
      | cons c after =>
        obtain ⟨rfl, -⟩ := List.cons.inj hrest
        exact ⟨[], a, l, front, after, rfl, hhead, by simp⟩

/-- Where a line ends for a node, the way down comes to that node, and the line is one of its
own. -/
theorem exists_reaches {front back : List Piece}
    (h : f.expandWithin n branch id = front ++ .lineEnd (some target) :: back) :
    (∃ node, f.node? target = some node ∧ node.variant.role ∈ Role.noted) ∧
      ∃ before m inner, f.Reaches n branch id before m inner target ∧
        lineBreaks before ≤ lineBreaks front ∧
        lineBreaks front < lineBreaks before + lineBreaks (f.expandWithin m inner target) := by
  induction n generalizing branch id front back with
  | zero => cases front <;> simp [expandWithin] at h
  | succ n ih =>
    cases hnode : f.node? id with
    | none => cases front <;> simp [expandWithin, hnode] at h
    | some node =>
      have hpieces := h
      simp only [expandWithin, hnode] at hpieces
      obtain ⟨left, fragment, right, before, after, hsplit, hfragment, rfl⟩ :=
        exists_split_flatMap hpieces
      have hmem : fragment ∈ f.fragments branch id node := by simp [hsplit]
      cases fragment with
      | own piece =>
        -- the node ends the line itself
        obtain ⟨rfl, rfl⟩ : before = [] ∧ piece = .lineEnd (some target) := by
          rcases List.singleton_eq_append_iff.1 hfragment with ⟨hnil, hpiece⟩ | ⟨-, hnil⟩
          · exact ⟨hnil, (List.cons.inj hpiece).1.symm⟩
          · cases hnil
        obtain rfl : target = id := f.fragments_local branch id node _ hmem
        refine ⟨⟨node, hnode, noted_of_mem hmem⟩, [], n + 1, branch, .here _ _ _, ?_, ?_⟩
        · exact Nat.zero_le _
        · rw [h]
          simp [Piece.isLineEnd]
      | child outer child =>
        -- the line ends in the text of a child, behind what is written in front of the child
        obtain ⟨hfound, inner, m, branch', hreaches, hfirst, hlast⟩ := ih hfragment
        refine ⟨hfound, _, m, branch', .down hnode hsplit hreaches, ?_, ?_⟩
        · simpa using hfirst
        · simpa [Nat.add_assoc] using hlast

end Forest

/-! ### Rows and line ends -/

theorem getElem?_concat {α : Type} {l : List α} {a b : α} {i : Nat}
    (h : (l ++ [a])[i]? = some b) : l[i]? = some b ∨ b = a := by
  rw [List.getElem?_append] at h
  split at h
  next => exact .inl h
  next => exact .inr (List.mem_singleton.1 (List.mem_of_getElem? h))

namespace Sheet

theorem rows_prefix_feed (s : Sheet) (pieces : List Piece) : s.rows <+: (s.feed pieces).rows := by
  induction pieces generalizing s with
  | nil => exact List.prefix_refl _
  | cons piece pieces ih =>
    refine List.IsPrefix.trans ?_ (ih (s.add piece))
    cases piece with
    | text t => rw [Sheet.add, rows_say]
    | lineEnd subject => exact List.prefix_append _ _
    | indent | dedent | fault => exact List.prefix_refl _

/-- Every row comes from the end of its line. -/
theorem exists_lineEnd {s : Sheet} {pieces : List Piece} {i : Nat} {r : Row}
    (h : (s.feed pieces).rows[s.rows.length + i]? = some r) :
    ∃ front back, pieces = front ++ .lineEnd r.subject :: back ∧ lineBreaks front = i := by
  induction pieces generalizing s i with
  | nil =>
    obtain ⟨hlt, -⟩ := List.getElem?_eq_some_iff.1 h
    exact absurd hlt (Nat.not_lt.2 (Nat.le_add_right _ _))
  | cons piece pieces ih =>
    rw [feed_cons] at h
    by_cases hrows : (s.add piece).rows = s.rows
    · -- a piece that adds no row ends no line either
      rw [← hrows] at h
      obtain ⟨front, back, rfl, hbreaks⟩ := ih h
      refine ⟨piece :: front, back, rfl, ?_⟩
      cases piece with
      | lineEnd subject => simp [Sheet.add] at hrows
      | text | indent | dedent | fault => simpa [Piece.isLineEnd] using hbreaks
    · cases piece with
      | text t => exact absurd (s.rows_say _) hrows
      | indent | dedent | fault => exact absurd rfl hrows
      | lineEnd subject =>
        cases i with
        | zero =>
          obtain ⟨more, hmore⟩ := (s.add (.lineEnd subject)).rows_prefix_feed pieces
          rw [← hmore] at h
          obtain rfl : s.row subject = r := by simpa [Sheet.add] using h
          exact ⟨[], pieces, by rw [subject_row]; rfl, rfl⟩
        | succ i =>
          have hlength : (s.add (.lineEnd subject)).rows.length + i = s.rows.length + (i + 1) := by
            simp [Sheet.add]
            omega
          rw [← hlength] at h
          obtain ⟨front, back, rfl, hbreaks⟩ := ih h
          exact ⟨.lineEnd subject :: front, back, rfl, by simp [Piece.isLineEnd, hbreaks]⟩

end Sheet

namespace Forest

variable {f : Forest} {id target : NodeId}

/-- The node behind a note is a statement, a declaration or a test, and it is printed on the line
that is noted. -/
theorem exists_printedOn {i : Nat} {r : Row} (h : (f.sheet id).lines[i]? = some r)
    (hsubject : r.subject = some target) :
    (∃ node, f.node? target = some node ∧ node.variant.role ∈ Role.noted) ∧
      f.PrintedOn id i target := by
  have hrow : (f.sheet id).rows[0 + i]? = some r := by
    rcases getElem?_concat h with hrow | rfl
    · rwa [Nat.zero_add]
    · -- the last line belongs to nobody
      rw [Sheet.subject_row] at hsubject
      cases hsubject
  obtain ⟨front, back, hsplit, rfl⟩ := Sheet.exists_lineEnd (s := {}) hrow
  rw [hsubject] at hsplit
  obtain ⟨hfound, before, m, inner, hreaches, hfirst, hlast⟩ := exists_reaches hsplit
  exact ⟨hfound, before, m, inner, hreaches, hfirst, hlast⟩

end Forest

/-! ## §3 Texts with and without notes -/

namespace Forest

variable {f : Forest} {o : LayoutOptions} {top : Option NodeId} {plain noted : String}

/-- The depth at which a line of the text of a node stands. -/
def lineDepth? (f : Forest) (id : NodeId) (line : Nat) : Option Nat :=
  ((f.sheet id).lines[line]?).map Row.depth

/-- A text without spans, and the same text with notes of spans behind some of its lines. -/
structure Annotates (f : Forest) (o : LayoutOptions) (top : Option NodeId) (plain noted : String) :
    Prop where
  /-- Notes add no lines. -/
  length_eq : (plain.toList.splitOn '\n').length = (noted.toList.splitOn '\n').length
  /-- Cut at their notes, the lines are those without spans.  Only where a place is filled by a node
  that does not fit it, a note can stand alone on a line, and the indentation in front of it is left
  over. -/
  cut : ∀ i bare line, (plain.toList.splitOn '\n')[i]? = some bare →
    (noted.toList.splitOn '\n')[i]? = some line →
    (cutNote line).1 = bare ∨
      (¬ f.Fitted ∧ bare = [] ∧ (cutNote line).2 ≠ [] ∧
        ∃ id depth, top = some id ∧ f.lineDepth? id i = some depth ∧
          (cutNote line).1 = (o.indentation depth).toList)
  /-- A note is the span of a node that is printed on its line. -/
  note : ∀ i line, (noted.toList.splitOn '\n')[i]? = some line → (cutNote line).2 ≠ [] →
    ∃ id target node span, top = some id ∧ f.PrintedOn id i target ∧
      f.node? target = some node ∧ node.variant.role ∈ Role.noted ∧
      f.span target = .ok span ∧ (cutNote line).2 = (LayoutOptions.spanNote span).toList

/-- A row of a text: it is legible, and if it belongs to a node, it is a line at this depth, and
that node is printed on it. -/
structure RowOf (f : Forest) (top : Option NodeId) (line : Nat) (r : Row) : Prop where
  legible : Legible r.code
  subject : ∀ target, r.subject = some target →
    (∃ node, f.node? target = some node ∧ node.variant.role ∈ Role.noted) ∧
      ∃ id, top = some id ∧ f.PrintedOn id line target ∧ f.lineDepth? id line = some r.depth
  /-- Where all places are filled, a row that belongs to a node says something. -/
  fitted : f.Fitted → r.code = [] → r.subject = none

/-- Two layouts of the same rows differ in notes. -/
theorem annotates_of_rows {rows : List Row} (h : ∀ i r, rows[i]? = some r → f.RowOf top i r)
    (hplain : plain.toList.splitOn '\n' =
      rows.map (Row.laid { o with showSpans := false } f.span))
    (hnoted : noted.toList.splitOn '\n' =
      rows.map (Row.laid { o with showSpans := true } f.span)) :
    f.Annotates o top plain noted where
  length_eq := by rw [hplain, hnoted, List.length_map, List.length_map]
  cut i bare line hbare hline := by
    rw [hplain, List.getElem?_map, Option.map_eq_some_iff] at hbare
    obtain ⟨r, hr, rfl⟩ := hbare
    rw [hnoted, List.getElem?_map, hr, Option.map_some] at hline
    obtain rfl := Option.some.inj hline
    have hrow := h i r hr
    obtain ⟨hnote, hcut⟩ := Row.cutNote_laid hrow.legible o f.span
    apply hcut.imp id
    -- a note that stands alone belongs to a node that does not fit its place
    intro hlone
    obtain ⟨hnil, hne, hspaces⟩ := hlone
    have hhidden := r.laid_hidden (o := { o with showSpans := false }) rfl f.span
    obtain ⟨target, -, hsubject, -⟩ := (r.note_cases f.span).resolve_left hne
    obtain ⟨-, id, htop, -, hdepth⟩ := hrow.subject target hsubject
    refine ⟨fun hf => ?_, by rw [hhidden, if_pos hnil], hnote ▸ hne, id, r.depth, htop, hdepth,
      hspaces⟩
    rw [hrow.fitted hf hnil] at hsubject
    cases hsubject
  note i line hline hne := by
    rw [hnoted, List.getElem?_map, Option.map_eq_some_iff] at hline
    obtain ⟨r, hr, rfl⟩ := hline
    have hrow := h i r hr
    obtain ⟨hcut, -⟩ := Row.cutNote_laid hrow.legible o f.span
    rw [hcut] at hne ⊢
    obtain ⟨target, span, hsubject, hspan, hnote⟩ := (r.note_cases f.span).resolve_left hne
    obtain ⟨⟨node, hnode, hrole⟩, id, htop, hprinted, -⟩ := hrow.subject target hsubject
    exact ⟨id, target, node, span, htop, hprinted, hnode, hrole, hspan, hnote⟩

theorem RowOf.blank (f : Forest) (top : Option NodeId) (line : Nat) : f.RowOf top line .blank where
  legible := .nil
  subject _ hsubject := by cases hsubject
  fitted _ _ := rfl

theorem rowOf_sheet (h : f.WellFormed) (hnames : f.Named) {id : NodeId}
    (hid : ∃ node, f.node? id = some node) (i : Nat) (r : Row)
    (hr : (f.sheet id).lines[i]? = some r) : f.RowOf (some id) i r where
  legible := (sheet_flat hnames id r (List.mem_of_getElem? hr)).1
  subject target hsubject := by
    obtain ⟨hfound, hprinted⟩ := exists_printedOn hr hsubject
    exact ⟨hfound, id, rfl, hprinted, by rw [lineDepth?, hr, Option.map_some]⟩
  fitted hf := (walk_sheet h hf hnames {} hid).2 r (List.mem_of_getElem? hr)

/-- In a text that is ended as the options ask for, every row was there before, or it is blank. -/
theorem rowOf_finished {s : Sheet} (h : ∀ i r, s.lines[i]? = some r → f.RowOf top i r)
    (finalNewline : Bool) (i : Nat) (r : Row) (hr : (s.finished finalNewline)[i]? = some r) :
    f.RowOf top i r := by
  unfold Sheet.finished at hr
  split at hr
  next =>
    split at hr
    next => exact h i r hr
    next =>
      rcases getElem?_concat hr with hline | rfl
      · exact h i r hline
      · exact .blank f top i
  next =>
    unfold trimmed at hr
    split at hr
    next =>
      obtain rfl := List.mem_singleton.1 (List.mem_of_getElem? hr)
      exact .blank f top i
    next =>
      obtain ⟨more, hmore⟩ := s.lines.rdropWhile_prefix Row.isSilent
      obtain ⟨hlt, -⟩ := List.getElem?_eq_some_iff.1 hr
      exact h i r (by rw [← hmore, List.getElem?_append_left hlt, hr])

/-! ### Results of printing -/

/-- The results of printing without spans and with them. -/
inductive Annotated (f : Forest) (o : LayoutOptions) (top : Option NodeId) :
    Except ReadFault String → Except ReadFault String → Prop where
  /-- There is nothing to print. -/
  | missing {id : NodeId} (asked : top = some id) (absent : f.node? id = none) :
      Annotated f o top (.error (.unknownNode id)) (.error (.unknownNode id))
  | texts {plain noted : String} (annotates : f.Annotates o top plain noted) :
      Annotated f o top (.ok plain) (.ok noted)

/-- Showing spans under a layout only adds notes, for every node and for the program. -/
structure OnlyNotes (f : Forest) (o : LayoutOptions) : Prop where
  node : ∀ id, f.Annotated o (some id) (f.print { o with showSpans := false } id)
    (f.print { o with showSpans := true } id)
  program : f.Annotated o (f.root.map Ref.node) (f.printProgram { o with showSpans := false })
    (f.printProgram { o with showSpans := true })

theorem print_missing {id : NodeId} (h : f.node? id = none) (o : LayoutOptions) :
    f.print o id = .error (.unknownNode id) := by
  simp [print, depthBound, writeWithin, h, Except.map]

theorem WellFormed.onlyNotes (h : f.WellFormed) (hnames : f.Named) (o : LayoutOptions) :
    f.OnlyNotes o where
  node id := by
    cases hnode : f.node? id with
    | none =>
      rw [print_missing hnode, print_missing hnode]
      exact .missing rfl hnode
    | some node =>
      obtain ⟨plain, hplain⟩ := h.print_ok { o with showSpans := false } ⟨node, hnode⟩
      obtain ⟨noted, hnoted⟩ := h.print_ok { o with showSpans := true } ⟨node, hnode⟩
      rw [hplain, hnoted]
      apply Annotated.texts
      exact annotates_of_rows (rowOf_sheet h hnames ⟨node, hnode⟩) (hnames.splitOn_print hplain)
        (hnames.splitOn_print hnoted)
  program := by
    unfold printProgram
    cases hroot : f.root with
    | none =>
      have hempty (o : LayoutOptions) : (o.finish "").toList.splitOn '\n' =
          [Row.blank].map (Row.laid o f.span) := by
        have hblank : Row.blank.laid o f.span = [] := Sheet.laid_eq_nil rfl rfl
        rw [List.map_singleton, hblank]
        unfold LayoutOptions.finish
        cases o.finalNewline <;> rfl
      apply Annotated.texts
      refine annotates_of_rows ?_ (hempty { o with showSpans := false })
        (hempty { o with showSpans := true })
      intro i r hr
      obtain rfl := List.mem_singleton.1 (List.mem_of_getElem? hr)
      exact .blank f none i
    | some root =>
      cases hnode : f.node? root.node with
      | none =>
        simp only [print_missing hnode]
        exact .missing rfl hnode
      | some node =>
        obtain ⟨plain, hplain⟩ := h.print_ok { o with showSpans := false } ⟨node, hnode⟩
        obtain ⟨noted, hnoted⟩ := h.print_ok { o with showSpans := true } ⟨node, hnode⟩
        have hrows := rowOf_finished (rowOf_sheet h hnames ⟨node, hnode⟩) o.finalNewline
        have hflat : (f.sheet root.node).AllSay ('\n' ∉ ·) :=
          fun r hr => (sheet_flat hnames root.node r hr).2
        have hsettled := f.settled_sheet root.node
        simp only [hplain, hnoted, Except.map]
        apply Annotated.texts
        exact annotates_of_rows (o := o) hrows
          (Sheet.splitOn_finish (toList_print hplain) hflat hsettled)
          (Sheet.splitOn_finish (toList_print hnoted) hflat hsettled)

/-! ### Two forests with the same nodes -/

variable {g : Forest}

theorem layout_hidden (ho : o.showSpans = false) (spanOf spanOf' : NodeId → Except ReadFault Span)
    (pieces : List Piece) : o.layout spanOf pieces = o.layout spanOf' pieces := by
  have hadd : Page.add o spanOf = Page.add o spanOf' := by
    funext page piece
    cases piece with
    | lineEnd subject => cases subject <;> simp [Page.add, ho]
    | text | indent | dedent | fault => rfl
  rw [LayoutOptions.layout, LayoutOptions.layout, hadd]

/-- Without spans, forests with the same nodes are printed alike. -/
theorem WellFormed.print_eq (h : f.WellFormed) (same : ∀ id, f.node? id = g.node? id)
    (ho : o.showSpans = false) (id : NodeId) : f.print o id = g.print o id := by
  cases hnode : f.node? id with
  | none => rw [print_missing hnode, print_missing ((same id).symm.trans hnode)]
  | some node =>
    have hends : f.EndsWithin (id.index + 1) id := h.endsWithin ⟨node, hnode⟩ (Nat.lt_succ_self _)
    have hbound : id.index + 1 ≤ f.depthBound := Nat.succ_le_succ (lt_size_of_node? hnode).le
    have hbound' : id.index + 1 ≤ g.depthBound :=
      Nat.succ_le_succ (lt_size_of_node? ((same id).symm.trans hnode)).le
    rw [print_eq_layout_expansion, print_eq_layout_expansion, expansion, expansion,
      hends.expandWithin_eq same hbound hbound' .opening]
    exact layout_hidden ho f.span g.span _

theorem WellFormed.printProgram_eq (h : f.WellFormed) (same : ∀ id, f.node? id = g.node? id)
    (hroot : f.root = g.root) (ho : o.showSpans = false) : f.printProgram o = g.printProgram o := by
  unfold printProgram
  rw [← hroot]
  cases f.root with
  | none => rfl
  | some root => simp only [h.print_eq same ho]

end Forest

/-! ## §4 Sessions -/

namespace Session

/-- After any attempts at changes that lead to the same nodes and the same root, with any spans, and
leave all names names: without spans all texts are the same, and showing spans only adds notes. -/
theorem onlyNotes_of_runs (cs ds : List Change)
    (same : ∀ id, (start.run cs).forest.node? id = (start.run ds).forest.node? id)
    (hroot : (start.run cs).forest.root = (start.run ds).forest.root)
    (hnames : (start.run cs).forest.Named) (o : LayoutOptions) :
    (∀ id, (start.run cs).forest.print { o with showSpans := false } id =
        (start.run ds).forest.print { o with showSpans := false } id) ∧
      (start.run cs).forest.printProgram { o with showSpans := false } =
        (start.run ds).forest.printProgram { o with showSpans := false } ∧
      (start.run cs).forest.OnlyNotes o ∧ (start.run ds).forest.OnlyNotes o := by
  have hwell := (sound_run cs).admitted.wellFormed
  have hwell' := (sound_run ds).admitted.wellFormed
  have hnames' : (start.run ds).forest.Named := fun id node hnode =>
    hnames id node ((same id).trans hnode)
  exact ⟨fun id => hwell.print_eq same rfl id, hwell.printProgram_eq same hroot rfl,
    hwell.onlyNotes hnames o, hwell'.onlyNotes hnames' o⟩

theorem node?_setSpan (s : Session) (id : NodeId) (span : Span) (other : NodeId) :
    (s.apply (.setSpan id span)).forest.node? other = s.forest.node? other := by
  have heffect := effect_apply s (.setSpan id span)
  generalize s.apply (.setSpan id span) = t at heffect
  cases heffect with
  | refused => rfl
  | respanned found => exact Forest.node?_respan found span other

/-- The tested procedure, with the span of the test recorded again. -/
def movedTest : List Change := testedProcedure ++ [.setSpan ⟨8⟩ ⟨⟨9, 2⟩, ⟨9, 17⟩⟩]

/-- Where a test stands is seen only in the notes. -/
theorem onlyNotes_movedTest :
    (∀ id, (start.run testedProcedure).forest.node? id = (start.run movedTest).forest.node? id) ∧
      (start.run testedProcedure).forest.root = (start.run movedTest).forest.root ∧
      (start.run testedProcedure).forest.Named ∧
      (∀ id, (start.run testedProcedure).forest.print {} id =
        (start.run movedTest).forest.print {} id) ∧
      (start.run testedProcedure).forest.printProgram {} =
        (start.run movedTest).forest.printProgram {} ∧
      (start.run testedProcedure).forest.OnlyNotes {} ∧
      (start.run movedTest).forest.OnlyNotes {} := by
  have hrun : start.run movedTest =
      (start.run testedProcedure).apply (.setSpan ⟨8⟩ ⟨⟨9, 2⟩, ⟨9, 17⟩⟩) := List.foldl_append
  have same : ∀ id, (start.run testedProcedure).forest.node? id =
      (start.run movedTest).forest.node? id := by
    intro id
    rw [hrun, node?_setSpan]
  have hroot : (start.run testedProcedure).forest.root = (start.run movedTest).forest.root := by
    decide
  have hname : IsName "f" ∧ IsName "x" := by decide
  have hnames : (start.run testedProcedure).forest.Named :=
    forall_node_run (by simp [testedProcedure, Change.AddsOnly, Node.names, hname])
  exact ⟨same, hroot, hnames, onlyNotes_of_runs testedProcedure movedTest same hroot hnames {}⟩

/-- A loop in another one, with a statement in the place of its condition. -/
def statementAsCondition : List Change :=
  [.insert ⟨⟨1, 1⟩, ⟨1, 1⟩⟩ (.varExpr "x"),
    .insert ⟨⟨2, 2⟩, ⟨2, 2⟩⟩ (.exprStmt ⟨⟨0⟩⟩),
    .insert ⟨⟨3, 3⟩, ⟨3, 3⟩⟩ (.stmtBlock []),
    .insert ⟨⟨4, 4⟩, ⟨4, 4⟩⟩ (.loop .before ⟨⟨1⟩⟩ ⟨⟨2⟩⟩),
    .insert ⟨⟨5, 5⟩, ⟨5, 5⟩⟩ (.stmtBlock [⟨⟨3⟩⟩]),
    .insert ⟨⟨6, 6⟩, ⟨6, 6⟩⟩ (.loop .before ⟨⟨0⟩⟩ ⟨⟨4⟩⟩)]

/-- The statement ends the line on which the inner loop begins, so the note of that loop stands
alone, and cut off it leaves the spaces in front of it. -/
theorem cut_ne_statementAsCondition :
    (start.run statementAsCondition).forest.Named ∧
      ∃ plain noted,
        (start.run statementAsCondition).forest.print ⟨4, false, true⟩ ⟨5⟩ = .ok plain ∧
        (start.run statementAsCondition).forest.print ⟨4, true, true⟩ ⟨5⟩ = .ok noted ∧
        (noted.toList.splitOn '\n').map (fun line => (cutNote line).1) ≠
          plain.toList.splitOn '\n' := by
  have hname : IsName "x" := by decide
  have hnames : (start.run statementAsCondition).forest.Named :=
    forall_node_run (by simp [statementAsCondition, Change.AddsOnly, Node.names, hname])
  have hplain : (start.run statementAsCondition).forest.print ⟨4, false, true⟩ ⟨5⟩ =
      .ok "while x\n    while x;\n\n    end\nend\n" := by
    decide +kernel
  have hnoted : (start.run statementAsCondition).forest.print ⟨4, true, true⟩ ⟨5⟩ =
      .ok ("while x  % 6:6-6:6\n    while x;  % 1:1-2:2\n      % 4:4-4:4\n" ++
        "    end\nend\n") := by
    decide +kernel
  exact ⟨hnames, _, _, hplain, hnoted, by decide⟩

end Session

end TensorTree
