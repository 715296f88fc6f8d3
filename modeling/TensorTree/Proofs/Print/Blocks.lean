import TensorTree.Proofs.Print.Within

/-!
# Blocks

Lines are read from one depth to another (`Walk`): the words in front of them open and close blocks,
and each line stands at the depth that is left when the blocks that it closes are closed.

What a single statement does to the depth is proved for its pieces (`Moves`): written at the
beginning of a line, they leave full lines that lead from one depth to another.  Pieces that are
written one after the other lead on from where the others led.  All nodes that are printed as full
lines lead back to the depth at which they stand (`Forest.moves_expandWithin`).
-/

namespace TensorTree

/-! ## §1 Walks over lines -/

/-- How many blocks the line closes. -/
def lowers (line : List Char) : Nat := if beginsWith closingWords line then 1 else 0

/-- How many blocks the line opens. -/
def raises (line : List Char) : Nat := if beginsWith openingWords line then 1 else 0

/-- Lines that are read from one depth to another.  Each stands at the depth that is left when the
blocks that it closes are closed. -/
inductive Walk (Stands : Nat → List Char → Prop) : Nat → List (List Char) → Nat → Prop where
  | nil (depth : Nat) : Walk Stands depth [] depth
  | cons {depth here last : Nat} {line : List Char} {lines : List (List Char)}
      (closed : depth = here + lowers line) (stands : Stands here line)
      (rest : Walk Stands (here + raises line) lines last) : Walk Stands depth (line :: lines) last

theorem Walk.append {Stands : Nat → List Char → Prop} {first middle last : Nat}
    {left right : List (List Char)} (h : Walk Stands first left middle)
    (h' : Walk Stands middle right last) : Walk Stands first (left ++ right) last := by
  induction h with
  | nil => exact h'
  | cons closed stands _ ih => exact .cons closed stands (ih h')

/-- The line is empty, or it has exactly the spaces of a depth in front of it. -/
def StandsAt (o : LayoutOptions) (here : Nat) (line : List Char) : Prop :=
  line = [] ∨ (line.takeWhile (· == ' ')).length = here * o.indentWidth

/-- The line is all that is printed of a tensor whose innermost first row is empty, so that the bar
behind that row stands first. -/
def Forest.HollowTensor (f : Forest) (o : LayoutOptions) (line : List Char) : Prop :=
  " | ".toList <+: line ∧ ∃ id elems, f.node? id = some (.denseNdTensor elems) ∧
    f.print o id = .ok (String.ofList line)

/-- The line is indented, or it is a tensor at depth zero whose innermost first row is empty. -/
def Forest.Stands (f : Forest) (o : LayoutOptions) (here : Nat) (line : List Char) : Prop :=
  StandsAt o here line ∨ (here = 0 ∧ f.HollowTensor o line)

/-! ## §2 Rows -/

namespace Row

variable {r : Row}

/-- What stands behind a line is no part of its last word. -/
theorem exists_body (r : Row) (o : LayoutOptions) (spanOf : NodeId → Except ReadFault Span) :
    ∃ tail, r.body o spanOf = r.code ++ tail ∧ EndsName tail := by
  have hnil : EndsName [] := by simp [EndsName]
  unfold body
  split
  next =>
    refine ⟨r.note spanOf, rfl, ?_⟩
    rcases r.note_cases spanOf with hnote | ⟨id, span, -, -, hnote⟩
    · rwa [hnote]
    · rw [hnote, LayoutOptions.toList_spanNote]
      exact endsName_cons (by decide) _
  next => exact ⟨[], by simp, hnil⟩

theorem exists_laid (hvisible : Visible r.code) (o : LayoutOptions)
    (spanOf : NodeId → Except ReadFault Span) :
    ∃ tail, r.laid o spanOf =
        List.replicate (r.depth * o.indentWidth) ' ' ++ (r.code ++ tail) ∧ EndsName tail := by
  obtain ⟨tail, hbody, htail⟩ := r.exists_body o spanOf
  refine ⟨tail, ?_, htail⟩
  have hne : r.body o spanOf ≠ [] := by
    obtain ⟨c, rest, hcode, -⟩ := hvisible
    simp [hbody, hcode]
  rw [laid, if_neg hne, hbody, LayoutOptions.toList_indentation]

theorem takeWhile_spaces_append {cs : List Char} (h : Visible cs) (n : Nat) :
    (List.replicate n ' ' ++ cs).takeWhile (· == ' ') = List.replicate n ' ' := by
  have hsplit := List.takeWhile_append_dropWhile (p := (· == ' ')) (l := List.replicate n ' ' ++ cs)
  rw [h.dropWhile_spaces n] at hsplit
  exact List.append_cancel_right hsplit

/-- A line with a visible beginning is indented as deep as it stands. -/
theorem standsAt_laid (h : Visible r.code) (o : LayoutOptions)
    (spanOf : NodeId → Except ReadFault Span) : StandsAt o r.depth (r.laid o spanOf) := by
  obtain ⟨tail, hlaid, -⟩ := exists_laid h o spanOf
  right
  rw [hlaid, takeWhile_spaces_append (h.append tail) _, List.length_replicate]

theorem firstWord_laid (h : Visible r.code) (o : LayoutOptions)
    (spanOf : NodeId → Except ReadFault Span) :
    firstWord (r.laid o spanOf) = firstWord r.code := by
  obtain ⟨tail, hlaid, htail⟩ := exists_laid h o spanOf
  rw [hlaid, firstWord, (h.append tail).dropWhile_spaces _,
    takeWhile_append_of_endsName _ htail, firstWord_of_visible h]

/-- What stands around the code of a line neither opens nor closes blocks. -/
theorem edges_laid (h : Visible r.code) (o : LayoutOptions)
    (spanOf : NodeId → Except ReadFault Span) :
    lowers (r.laid o spanOf) = lowers r.code ∧ raises (r.laid o spanOf) = raises r.code := by
  simp [lowers, raises, beginsWith, firstWord_laid h]

end Row

theorem Begins.edges {cs : List Char} (h : Begins cs) : lowers cs = 0 ∧ raises cs = 0 := by
  have hedge := h.noEdge
  simp only [beginsWith, List.any_append, Bool.or_eq_false_iff] at hedge
  simp [lowers, raises, beginsWith, hedge]

/-! ## §3 Moves -/

/-- Written at the beginning of a line, the pieces leave full lines that lead from one depth to
another, both counted from the depth of the page; a line that belongs to a node has some text. -/
def Moves (f : Forest) (o : LayoutOptions) (first last : Nat) (pieces : List Piece) : Prop :=
  ∃ rows : Nat → List Row,
    (∀ s : Sheet, s.begun = none → s.feed pieces = { s with rows := s.rows ++ rows s.depth }) ∧
    ∀ depth, Walk (f.Stands o) (depth + first) ((rows depth).map (Row.laid o f.span))
        (depth + last) ∧
      ∀ r ∈ rows depth, r.code = [] → r.subject = none

theorem Sheet.say_say (s : Sheet) (cs ds : List Char) : (s.say cs).say ds = s.say (cs ++ ds) := by
  by_cases hcs : cs = []
  · simp [hcs, say]
  · by_cases hds : ds = []
    · simp [hds, say]
    · cases hbegun : s.begun <;> simp [say, hcs, hds, hbegun]

/-- Texts go on with a line, or begin one. -/
theorem AllTexts.feed {pieces : List Piece} (h : AllTexts pieces) (s : Sheet) :
    s.feed pieces = s.say (plainText pieces) := by
  induction pieces generalizing s with
  | nil => simp [Sheet.say]
  | cons piece pieces ih =>
    obtain ⟨⟨t, rfl⟩, hrest⟩ := List.forall_mem_cons.1 h
    rw [Sheet.feed_cons, ih hrest, plainText_cons]
    exact s.say_say t.toList (plainText pieces)

namespace Moves

variable {f : Forest} {o : LayoutOptions} {first middle last : Nat} {left right pieces : List Piece}

theorem nil (f : Forest) (o : LayoutOptions) (depth : Nat) : Moves f o depth depth [] :=
  ⟨fun _ => [], by simp, fun d => ⟨.nil _, by simp⟩⟩

theorem append (h : Moves f o first middle left) (h' : Moves f o middle last right) :
    Moves f o first last (left ++ right) := by
  obtain ⟨rows, hfeed, hwalk⟩ := h
  obtain ⟨rows', hfeed', hwalk'⟩ := h'
  refine ⟨fun depth => rows depth ++ rows' depth, ?_, fun depth => ⟨?_, ?_⟩⟩
  · intro s hs
    rw [Sheet.feed_append, hfeed s hs, hfeed' { s with rows := s.rows ++ rows s.depth } hs,
      List.append_assoc]
  · rw [List.map_append]
    exact (hwalk depth).1.append (hwalk' depth).1
  · exact List.forall_mem_append.2 ⟨(hwalk depth).2, (hwalk' depth).2⟩

theorem deeper (h : Moves f o 0 0 pieces) :
    Moves f o 1 1 (.indent :: pieces ++ [.dedent]) := by
  obtain ⟨rows, hfeed, hwalk⟩ := h
  refine ⟨fun depth => rows (depth + 1), ?_, fun depth => hwalk (depth + 1)⟩
  intro s hs
  have hsplit : s.feed (.indent :: pieces ++ [.dedent]) =
      ((s.add .indent).feed pieces).add .dedent := by
    simp [Sheet.feed_append]
  rw [hsplit, hfeed (s.add .indent) hs]
  simp [Sheet.add]

/-- A line of texts. -/
theorem line {texts : List Piece} (htexts : AllTexts texts) (hvisible : Visible (plainText texts))
    (subject : Option NodeId) :
    Moves f o (lowers (plainText texts)) (raises (plainText texts))
      (texts ++ [.lineEnd subject]) := by
  have hne : plainText texts ≠ [] := by
    obtain ⟨c, rest, heq, -⟩ := hvisible
    simp [heq]
  refine ⟨fun depth => [⟨depth, plainText texts, subject⟩], ?_, fun depth => ⟨?_, by simp [hne]⟩⟩
  · intro s hs
    rw [Sheet.feed_append, htexts.feed s]
    simp [Sheet.say, hne, hs, Sheet.add, Sheet.row]
  · have hedges := Row.edges_laid (r := ⟨depth, plainText texts, subject⟩) hvisible o f.span
    refine .cons (by rw [hedges.1]) (.inl (Row.standsAt_laid hvisible o f.span)) ?_
    rw [hedges.2]
    exact .nil _

end Moves

/-! ## §4 Statements -/

/-- The roles of nodes that are printed as full lines. -/
def Role.lines : List Role :=
  [.stmt, .block, .field, .elementDecl, .externalDecl, .func, .proc, .test]

theorem Role.lines_of_fits {role place : Role} (hfits : role.fits place = true)
    (hplace : place ∈ lines) : role ∈ lines := by
  have hall : role.fits place = true → place ∈ lines → role ∈ lines := by
    cases role <;> cases place <;> decide
  exact hall hfits hplace

/-- A text of a node, or a child that is printed within the line. -/
def Fragment.Inset (node : Node) : Fragment → Prop
  | .own (.text _) => True
  | .own _ => False
  | .child _ below => ∃ slot ∈ node.slots, slot.node = below ∧ slot.Within

/-- All fragments of a list are texts or children within the line. -/
abbrev AllInset (node : Node) (fragments : List Fragment) : Prop :=
  AllOf (Fragment.Inset node) fragments

namespace AllInset

open Fragment

variable {node : Node}

@[simp] theorem text_inset (s : String) : (text s).Inset node := trivial

theorem ofRef_inset {role : Role} {r : Ref role} (hslot : r.slot ∈ node.slots)
    (hrole : role ∈ Role.within) : (ofRef r).Inset node :=
  ⟨r.slot, hslot, rfl, r.slot_within hrole⟩

theorem commas {role : Role} {refs : List (Ref role)} (hslots : ∀ r ∈ refs, r.slot ∈ node.slots)
    (hrole : role ∈ Role.within) : AllInset node (Fragment.commas refs) := by
  refine forall_mem_intersperse ?_ trivial
  intro fragment hfragment
  obtain ⟨r, hr, rfl⟩ := List.mem_map.1 hfragment
  exact ofRef_inset (hslots r hr) hrole

end AllInset

namespace Forest

open Fragment

variable {f : Forest} {o : LayoutOptions} {n : Nat} {id : NodeId} {node : Node}

/-- All that is known of a node whose children have been looked at. -/
structure Lined (f : Forest) (o : LayoutOptions) (n : Nat) (id : NodeId) (node : Node) : Prop where
  wellFormed : f.WellFormed
  fitted : f.Fitted
  names : f.Named
  found : f.node? id = some node
  level : id.index ≤ n
  /-- Children that are printed as full lines lead back to the depth at which they stand. -/
  lines : ∀ {role : Role} (r : Ref role), r.slot ∈ node.slots → role ∈ Role.lines →
    Moves f o 0 0 (f.expandWithin n .opening r.node)
  /-- Behind a branch, conditional statements only go on with the open block. -/
  chained : ∀ r : Ref .stmt, r.slot ∈ node.slots → (f.nodeAs? r.node .ifStmt).isSome →
    Moves f o 1 1 (f.expandWithin n .continuing r.node)

namespace Lined

variable (h : f.Lined o n id node)
include h

theorem lt_of_slot {slot : Slot} (hslot : slot ∈ node.slots) : slot.node.index < n :=
  Nat.lt_of_lt_of_le (h.wellFormed.child_lt ⟨node, h.found, List.mem_map.2 ⟨slot, hslot, rfl⟩⟩)
    h.level

theorem texts {fragments : List Fragment} (hinset : AllInset node fragments) :
    AllTexts (fragments.flatMap (Fragment.expand (f.expandWithin n))) := by
  intro piece hpiece
  obtain ⟨fragment, hfragment, hmem⟩ := List.mem_flatMap.1 hpiece
  have hone := hinset fragment hfragment
  cases fragment with
  | own written =>
    obtain rfl := List.mem_singleton.1 hmem
    cases piece with
    | text s => exact ⟨s, rfl⟩
    | lineEnd | indent | dedent | fault => exact hone.elim
  | child branch below =>
    obtain ⟨slot, hslot, rfl, hwithin⟩ := hone
    obtain ⟨filler, hfiller, hrole, -⟩ := h.fitted.exists_within h.found hslot hwithin
    have hlt := h.lt_of_slot hslot
    exact expandWithin_texts h.wellFormed h.fitted hfiller hrole hlt branch piece hmem

theorem begins {fragments : List Fragment} (hleading : Leading node fragments) :
    Begins (plainText (fragments.flatMap (Fragment.expand (f.expandWithin n)))) := by
  refine hleading.begins ?_
  intro role r hslot hrole hne
  obtain ⟨filler, hfiller, hwithin, hdense⟩ :=
    h.fitted.exists_within h.found hslot (r.slot_within hrole)
  exact begins_expandWithin h.wellFormed h.fitted h.names hfiller hwithin
    (hdense fun heq => hne (Option.some.inj heq)) (h.lt_of_slot hslot) .opening

/-- A line that neither opens nor closes a block. -/
theorem plainLine (fragments : List Fragment) (hleading : Leading node fragments)
    (hinset : AllInset node fragments) (subject : Option NodeId) :
    Moves f o 0 0
      ((fragments ++ [lineEnd subject]).flatMap (Fragment.expand (f.expandWithin n))) := by
  have hbegins := h.begins hleading
  have hline := Moves.line (f := f) (o := o) (h.texts hinset) hbegins.visible subject
  rw [hbegins.edges.1, hbegins.edges.2] at hline
  simpa [lineEnd, Fragment.expand] using hline

/-- A line that begins with a word opens and closes what the word does. -/
theorem wordLine (s : String) (rest : List Fragment)
    (hblank : s.toList.head?.any (!isBlank ·) = true)
    (hends : s.toList.all isNamePart = false ∨ Trailing rest) (hinset : AllInset node rest)
    (subject : Option NodeId) :
    Moves f o (lowers s.toList) (raises s.toList)
      ((text s :: rest ++ [lineEnd subject]).flatMap (Fragment.expand (f.expandWithin n))) := by
  have hvisible : Visible s.toList := by
    cases hchars : s.toList with
    | nil => simp [hchars] at hblank
    | cons c cs => exact ⟨c, cs, rfl, by simpa [hchars] using hblank⟩
  have htexts : AllTexts ((text s :: rest).flatMap (Fragment.expand (f.expandWithin n))) :=
    h.texts (AllOf.cons_iff.2 ⟨trivial, hinset⟩)
  generalize htail : plainText (rest.flatMap (Fragment.expand (f.expandWithin n))) = tail
  have hplain : plainText ((text s :: rest).flatMap (Fragment.expand (f.expandWithin n))) =
      s.toList ++ tail := by
    rw [← htail]
    rfl
  -- the word ends within the text, or what follows does not continue it
  have hword : firstWord (s.toList ++ tail) = firstWord s.toList := by
    rw [firstWord_of_visible (hvisible.append tail), firstWord_of_visible hvisible]
    rcases hends with hall | htrailing
    · exact takeWhile_append_of_all hall tail
    · exact takeWhile_append_of_endsName _ (htail ▸ htrailing.endsName _)
  have hline := Moves.line (f := f) (o := o) htexts (hplain ▸ hvisible.append tail) subject
  rw [hplain] at hline
  simpa [lowers, raises, beginsWith, hword, lineEnd, Fragment.expand] using hline

/-! ### Blocks -/

theorem bodies {role : Role} (refs : List (Ref role)) (hslots : ∀ r ∈ refs, r.slot ∈ node.slots)
    (hrole : role ∈ Role.lines) :
    Moves f o 0 0 ((refs.map ofRef).flatMap (Fragment.expand (f.expandWithin n))) := by
  induction refs with
  | nil => exact .nil f o 0
  | cons r refs ih =>
    rw [List.forall_mem_cons] at hslots
    exact (h.lines r hslots.1 hrole).append (ih hslots.2)

theorem body {role : Role} {r : Ref role} (hslot : r.slot ∈ node.slots)
    (hrole : role ∈ Role.lines) :
    Moves f o 0 0 ([ofRef r].flatMap (Fragment.expand (f.expandWithin n))) :=
  h.bodies [r] (by simpa using hslot) hrole

omit h in
theorem inner {fragments : List Fragment}
    (hbody : Moves f o 0 0 (fragments.flatMap (Fragment.expand (f.expandWithin n)))) :
    Moves f o 1 1 ((deeper fragments).flatMap (Fragment.expand (f.expandWithin n))) := by
  simpa [deeper, Fragment.expand] using hbody.deeper

/-- A line with a single word. -/
theorem fixedLine (s : String) (hblank : s.toList.head?.any (!isBlank ·) = true) :
    Moves f o (lowers s.toList) (raises s.toList)
      ((line s).flatMap (Fragment.expand (f.expandWithin n))) :=
  h.wordLine s [] hblank (.inr trivial) .nil none

theorem endLine : Moves f o 1 0 ((line "end").flatMap (Fragment.expand (f.expandWithin n))) :=
  h.fixedLine "end" (by decide)

theorem elseLine : Moves f o 1 1 ((line "else").flatMap (Fragment.expand (f.expandWithin n))) :=
  h.fixedLine "else" (by decide)

omit h in
/-- Lines that stand one level deeper than those around them. -/
theorem enclosed {first last : Nat} {head body tail : List Fragment}
    (hhead : Moves f o first 1 (head.flatMap (Fragment.expand (f.expandWithin n))))
    (hbody : Moves f o 0 0 (body.flatMap (Fragment.expand (f.expandWithin n))))
    (htail : Moves f o 1 last (tail.flatMap (Fragment.expand (f.expandWithin n)))) :
    Moves f o first last
      ((head ++ (deeper body ++ tail)).flatMap (Fragment.expand (f.expandWithin n))) := by
  rw [List.flatMap_append, List.flatMap_append]
  exact hhead.append ((inner hbody).append htail)

end Lined

/-! ### Statements and declarations -/

/-- The node leads back to the depth at which it stands. -/
def Rests (f : Forest) (o : LayoutOptions) (n : Nat) (id : NodeId) (node : Node) : Prop :=
  Moves f o 0 0 ((f.fragments .opening id node).flatMap (Fragment.expand (f.expandWithin n)))

theorem rests_stmtBlock {stmts : List (Ref .stmt)} (h : f.Lined o n id (.stmtBlock stmts)) :
    f.Rests o n id (.stmtBlock stmts) :=
  h.bodies stmts (by simp [Node.slots]; grind) (by decide)

theorem rests_field {decl : Ref .identDecl} (h : f.Lined o n id (.field decl)) :
    f.Rests o n id (.field decl) := by
  have hslot : decl.slot ∈ (Node.field decl).slots := by simp [Node.slots]
  refine h.plainLine [ofRef decl, text ";"] ?_ ?_ (some id)
  · exact .child hslot (by decide) (by decide) (trailing_text (by decide))
  · simp [AllInset.ofRef_inset hslot (by decide)]

theorem rests_externalDecl {var : Ref .argument} (h : f.Lined o n id (.externalDecl var)) :
    f.Rests o n id (.externalDecl var) := by
  have hslot : var.slot ∈ (Node.externalDecl var).slots := by simp [Node.slots]
  refine h.plainLine [text "extern ", ofRef var, text ";"] ?_ ?_ (some id)
  · exact .mark (.of_decide (by decide) (by decide)) (by decide)
  · simp [AllInset.ofRef_inset hslot (by decide)]

theorem rests_printStmt {expr : Ref .expr} (h : f.Lined o n id (.printStmt expr)) :
    f.Rests o n id (.printStmt expr) := by
  have hslot : expr.slot ∈ (Node.printStmt expr).slots := by simp [Node.slots]
  refine h.plainLine [text "print ", ofRef expr, text ";"] ?_ ?_ (some id)
  · exact .mark (.of_decide (by decide) (by decide)) (by decide)
  · simp [AllInset.ofRef_inset hslot (by decide)]

theorem rests_exprStmt {expr : Ref .expr} (h : f.Lined o n id (.exprStmt expr)) :
    f.Rests o n id (.exprStmt expr) := by
  have hslot : expr.slot ∈ (Node.exprStmt expr).slots := by simp [Node.slots]
  refine h.plainLine [ofRef expr, text ";"] ?_ ?_ (some id)
  · exact .child hslot (by decide) (by decide) (trailing_text (by decide))
  · simp [AllInset.ofRef_inset hslot (by decide)]

theorem rests_binding {kind : BindingKind} {var : Ref .identDecl} {value : Option (Ref .expr)}
    (h : f.Lined o n id (.binding kind var value)) : f.Rests o n id (.binding kind var value) := by
  have hvar : var.slot ∈ (Node.binding kind var value).slots := by simp [Node.slots]
  have hedges : lowers kind.word.toList = 0 ∧ raises kind.word.toList = 0 := by
    cases kind <;> decide
  have hline (rest : List Fragment) (hrest : AllInset (.binding kind var value) rest) :=
    h.wordLine kind.word (text " " :: ofRef var :: rest) (by cases kind <;> decide)
      (.inr (trailing_text (by decide))) (by simp [AllInset.ofRef_inset hvar (by decide), hrest])
      (some id)
  rw [hedges.1, hedges.2] at hline
  cases value with
  | none => exact hline [text ";"] (by simp)
  | some expr =>
    have hexpr : expr.slot ∈ (Node.binding kind var (some expr)).slots := by simp [Node.slots]
    exact hline [text " = ", ofRef expr, text ";"]
      (by simp [AllInset.ofRef_inset hexpr (by decide)])

theorem rests_assignStmt {targets : List (Ref .expr)} {value : Ref .expr}
    (h : f.Lined o n id (.assignStmt targets value)) :
    f.Rests o n id (.assignStmt targets value) := by
  have hne := h.wellFormed.targets_ne_nil h.found
  have hvalue : value.slot ∈ (Node.assignStmt targets value).slots := by simp [Node.slots]
  have htargets : AllInset (.assignStmt targets value) (commas targets) :=
    .commas (by simp [Node.slots]; grind) (by decide)
  have hline := h.plainLine (commas targets ++ [text " = ", ofRef value, text ";"])
    ?_ ?_ (some id)
  · simpa [Rests, fragments, statementEnd] using hline
  · -- the first target stands in front of a comma or of the equality sign
    cases targets with
    | nil => exact absurd rfl hne
    | cons target targets =>
      have hslot : target.slot ∈ (Node.assignStmt (target :: targets) value).slots := by
        simp [Node.slots]
      cases targets with
      | nil => exact .child hslot (by decide) (by decide) (trailing_text (by decide))
      | cons next targets =>
        simp only [commas, List.map_cons, List.intersperse_cons_cons, List.cons_append]
        exact .child hslot (by decide) (by decide) (trailing_text (by decide))
  · simp [htargets, AllInset.ofRef_inset hvalue (by decide)]

theorem rests_test {func : Ref .ident} {args : List (Ref .expr)} {expected : Ref .expr}
    (h : f.Lined o n id (.test func args expected)) :
    f.Rests o n id (.test func args expected) := by
  have hfunc : func.slot ∈ (Node.test func args expected).slots := by simp [Node.slots]
  have hexpected : expected.slot ∈ (Node.test func args expected).slots := by simp [Node.slots]
  have hargs : AllInset (.test func args expected) (commas args) :=
    .commas (by simp [Node.slots]; grind) (by decide)
  have hline := h.plainLine ([text "%! ", ofRef func] ++ inParens (commas args) ++
    [text " == ", ofRef expected, text ";"]) ?_ ?_ (some id)
  · simpa [Rests, fragments, statementEnd] using hline
  · exact .mark (.of_decide (by decide) (by decide)) (by decide)
  · simp [inParens, AllInset.ofRef_inset hfunc (by decide), hargs,
      AllInset.ofRef_inset hexpected (by decide)]

theorem rests_loop {timing : LoopTest} {cond : Ref .expr} {body : Ref .block}
    (h : f.Lined o n id (.loop timing cond body)) : f.Rests o n id (.loop timing cond body) := by
  have hcond : cond.slot ∈ (Node.loop timing cond body).slots := by
    cases timing <;> simp [Node.slots]
  have hbody : body.slot ∈ (Node.loop timing cond body).slots := by
    cases timing <;> simp [Node.slots]
  have hinset : AllInset (.loop timing cond body) [ofRef cond] := by
    simp [AllInset.ofRef_inset hcond (by decide)]
  cases timing with
  | before =>
    have hhead := h.wordLine "while " [ofRef cond] (by decide) (.inl (by decide))
      hinset (some id)
    exact Lined.enclosed hhead (h.body hbody (by decide)) h.endLine
  | after =>
    have hhead := h.wordLine "do" [] (by decide) (.inr trivial) .nil (some id)
    have htail := h.wordLine "end while " [ofRef cond] (by decide)
      (.inl (by decide)) hinset none
    exact Lined.enclosed hhead (h.body hbody (by decide)) htail

theorem rests_forStmt {var : Ref .ident} {domain : Ref .domain} {body : Ref .block}
    (h : f.Lined o n id (.forStmt var domain body)) :
    f.Rests o n id (.forStmt var domain body) := by
  have hvar : var.slot ∈ (Node.forStmt var domain body).slots := by simp [Node.slots]
  have hdomain : domain.slot ∈ (Node.forStmt var domain body).slots := by simp [Node.slots]
  have hbody : body.slot ∈ (Node.forStmt var domain body).slots := by simp [Node.slots]
  have hhead := h.wordLine "for " [ofRef var, text " in ", ofRef domain] (by decide)
    (.inl (by decide)) (by simp [AllInset.ofRef_inset hvar (by decide),
      AllInset.ofRef_inset hdomain (by decide)]) (some id)
  exact Lined.enclosed hhead (h.body hbody (by decide)) h.endLine

theorem rests_elementTypeDecl {name : Ref .ident} {fields : List (Ref .field)}
    (h : f.Lined o n id (.elementTypeDecl name fields)) :
    f.Rests o n id (.elementTypeDecl name fields) := by
  have hname : name.slot ∈ (Node.elementTypeDecl name fields).slots := by simp [Node.slots]
  have hhead := h.wordLine "element " [ofRef name] (by decide) (.inl (by decide))
    (by simp [AllInset.ofRef_inset hname (by decide)]) (some id)
  have hfields := h.bodies fields (by simp [Node.slots]; grind) (by decide)
  exact Lined.enclosed hhead hfields h.endLine

theorem rests_callable {kind : CallableKind} {name : Ref .ident} {args : List (Ref .argument)}
    {results : List (Ref .identDecl)} {body : Ref .block}
    (h : f.Lined o n id (.callable kind name args results body)) :
    f.Rests o n id (.callable kind name args results body) := by
  have hname : name.slot ∈ (Node.callable kind name args results body).slots := by
    simp [Node.slots]
  have hbody : body.slot ∈ (Node.callable kind name args results body).slots := by
    simp [Node.slots]
  have hargs : AllInset (.callable kind name args results body) (commas args) :=
    .commas (by simp [Node.slots]; grind) (by decide)
  have hresults : AllInset (.callable kind name args results body) (commas results) :=
    .commas (by simp [Node.slots]; grind) (by decide)
  have hsignature : AllInset (.callable kind name args results body)
      ([text " ", ofRef name] ++ inParens (commas args) ++
        if results.isEmpty then [] else text " -> " :: inParens (commas results)) := by
    cases results <;> simp [inParens, AllInset.ofRef_inset hname (by decide), hargs, hresults]
  have hhead := h.wordLine kind.word _ (by cases kind <;> decide)
    (.inr (trailing_text (by decide))) hsignature (some id)
  have hedges : lowers kind.word.toList = 0 ∧ raises kind.word.toList = 1 := by
    cases kind <;> decide
  rw [hedges.1, hedges.2] at hhead
  have hall := Lined.enclosed hhead (h.body hbody (by decide)) h.endLine
  simpa [Rests, fragments] using hall

/-! ### Conditional statements -/

/-- What stands behind a branch leads back to the depth in it. -/
theorem exists_otherwise {cond : Ref .expr} {thenBody : Ref .stmt} {elseBody : Option (Ref .stmt)}
    (h : f.Lined o n id (.ifStmt cond thenBody elseBody)) (branch : Branch) :
    ∃ others, f.fragments branch id (.ifStmt cond thenBody elseBody) =
        [text branch.word, text " ", ofRef cond, lineEnd (some id)] ++ deeper [ofRef thenBody] ++
          others ++ (if branch = .opening then line "end" else []) ∧
      Moves f o 1 1 (others.flatMap (Fragment.expand (f.expandWithin n))) := by
  cases elseBody with
  | none => exact ⟨[], rfl, .nil f o 1⟩
  | some stmt =>
    have hslot : stmt.slot ∈ (Node.ifStmt cond thenBody (some stmt)).slots := by simp [Node.slots]
    refine ⟨if (f.nodeAs? stmt.node .ifStmt).isSome then [.child .continuing stmt.node]
      else line "else" ++ deeper [ofRef stmt], rfl, ?_⟩
    by_cases hchained : (f.nodeAs? stmt.node .ifStmt).isSome
    · rw [if_pos hchained]
      simpa [Fragment.expand] using h.chained stmt hslot hchained
    · rw [if_neg hchained, List.flatMap_append]
      exact h.elseLine.append (Lined.inner (h.body hslot (by decide)))

/-- A branch with all that belongs to it: only the first one has an end of its own. -/
theorem moves_branch {cond : Ref .expr} {thenBody : Ref .stmt} {elseBody : Option (Ref .stmt)}
    (h : f.Lined o n id (.ifStmt cond thenBody elseBody)) (branch : Branch) :
    Moves f o (lowers branch.word.toList) (lowers branch.word.toList)
      ((f.fragments branch id (.ifStmt cond thenBody elseBody)).flatMap
        (Fragment.expand (f.expandWithin n))) := by
  have hcond : cond.slot ∈ (Node.ifStmt cond thenBody elseBody).slots := by simp [Node.slots]
  have hbody : thenBody.slot ∈ (Node.ifStmt cond thenBody elseBody).slots := by simp [Node.slots]
  have hhead := h.wordLine branch.word [text " ", ofRef cond]
    (by cases branch <;> decide) (.inr (trailing_text (by decide)))
    (by simp [AllInset.ofRef_inset hcond (by decide)]) (some id)
  have hraises : raises branch.word.toList = 1 := by cases branch <;> decide
  rw [hraises] at hhead
  have htail : Moves f o 1 (lowers branch.word.toList)
      ((if branch = .opening then line "end" else []).flatMap
        (Fragment.expand (f.expandWithin n))) := by
    cases branch with
    | opening => exact h.endLine
    | continuing => exact .nil f o 1
  obtain ⟨others, heq, hothers⟩ := exists_otherwise h branch
  have hrest := hothers.append htail
  rw [← List.flatMap_append] at hrest
  have hall := Lined.enclosed hhead (h.body hbody (by decide)) hrest
  rw [heq]
  simpa using hall

/-- All nodes that are printed as full lines lead back to the depth at which they stand. -/
theorem Lined.rests (h : f.Lined o n id node) (hrole : node.variant.role ∈ Role.lines) :
    f.Rests o n id node := by
  cases node with
  | stmtBlock => exact rests_stmtBlock h
  | field => exact rests_field h
  | elementTypeDecl => exact rests_elementTypeDecl h
  | externalDecl => exact rests_externalDecl h
  | callable => exact rests_callable h
  | binding => exact rests_binding h
  | loop => exact rests_loop h
  | ifStmt => exact moves_branch h .opening
  | forStmt => exact rests_forStmt h
  | printStmt => exact rests_printStmt h
  | exprStmt => exact rests_exprStmt h
  | assignStmt => exact rests_assignStmt h
  | test => exact rests_test h
  | _ => simp [Node.variant, Variant.role, Role.lines] at hrole

theorem moves_expandWithin (h : f.WellFormed) (hf : f.Fitted) (hnames : f.Named)
    (o : LayoutOptions) (hnode : f.node? id = some node) (hrole : node.variant.role ∈ Role.lines)
    (hn : id.index < n) :
    Moves f o 0 0 (f.expandWithin n .opening id) := by
  refine (h.descend (P := fun n id => id.index < n → ∀ node, f.node? id = some node →
    node.variant.role ∈ Role.lines → Moves f o 0 0 (f.expandWithin n .opening id) ∧
      (node.variant = .ifStmt → Moves f o 1 1 (f.expandWithin n .continuing id)))
    ?_ ⟨node, hnode⟩ hn hn node hnode hrole).1
  -- a conditional statement is also looked at as a branch of another one: there it is written one
  -- level deep and leaves the end to the statement that opened the chain
  intro n id node hnode ih hn other hother hrole
  obtain rfl := Option.some.inj (hnode.symm.trans hother)
  have hchild {role : Role} (r : Ref role) (hslot : r.slot ∈ node.slots)
      (hplace : role ∈ Role.lines) : ∃ filler, f.node? r.node = some filler ∧
        Moves f o 0 0 (f.expandWithin n .opening r.node) ∧
        (filler.variant = .ifStmt → Moves f o 1 1 (f.expandWithin n .continuing r.node)) := by
    have hmem : r.node ∈ node.children := List.mem_map.2 ⟨r.slot, hslot, rfl⟩
    have hlt := h.child_lt ⟨node, hnode, hmem⟩
    obtain ⟨filler, hfiller, hfits⟩ := hf id node hnode r.slot hslot
    exact ⟨filler, hfiller, ih r.node hmem (by omega) filler hfiller
      (Role.lines_of_fits (hfits role rfl) hplace)⟩
  have hlined : f.Lined o n id node :=
    { wellFormed := h
      fitted := hf
      names := hnames
      found := hnode
      level := Nat.le_of_lt_succ hn
      lines := fun r hslot hplace => by
        obtain ⟨_, _, hmoves, _⟩ := hchild r hslot hplace
        exact hmoves
      chained := fun r hslot hif => by
        obtain ⟨filler, hfiller, -, hcontinues⟩ := hchild r hslot (by decide)
        refine hcontinues ?_
        simpa [nodeAs?, hfiller, Option.filter] using hif }
  simp only [expandWithin, hnode]
  refine ⟨hlined.rests hrole, fun hif => ?_⟩
  cases node with
  | ifStmt => exact moves_branch hlined .continuing
  | _ => cases hif

end Forest

end TensorTree
