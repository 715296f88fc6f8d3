import TensorTree.Proofs.Print.Blocks

/-!
# Blocks balance

Read from the top, the lines of a printed node open and close blocks: each line stands at the depth
that the words in front of the lines tell, the depth never falls below zero, and in the end it is
zero again (`Session.walk_of_run`).  For statements and declarations this is what their pieces do at
any depth; what stands within a line is printed at depth zero, and there it neither opens nor closes
a block (`Forest.walk_sheet`).
-/

namespace TensorTree

namespace Forest

open Fragment

variable {f : Forest} {o : LayoutOptions} {n : Nat} {id : NodeId} {node : Node}

/-! ## §1 Whole texts -/

/-- Written on an empty line at depth zero, the pieces leave full lines and some text behind them;
with what the line of that text says the depth is zero again. -/
structure Fills (f : Forest) (o : LayoutOptions) (pieces : List Piece) (rows : List Row)
    (code : List Char) : Prop where
  /-- The text behind the full lines begins a line, if there is any. -/
  feed : ∀ s : Sheet, s.begun = none → s.depth = 0 → s.feed pieces =
    { s with rows := s.rows ++ rows, begun := if code = [] then none else some (0, code) }
  walk : Walk (f.Stands o) 0 ((rows ++ [Row.mk 0 code none]).map (Row.laid o f.span)) 0
  /-- A line that belongs to a node has some text. -/
  unnoted : ∀ r ∈ rows, r.code = [] → r.subject = none

/-- A line at depth zero is not indented. -/
theorem laid_zero (f : Forest) (o : LayoutOptions) (code : List Char) :
    (Row.mk 0 code none).laid o f.span = code := by
  have hspaces : (o.indentation 0).toList = [] := by simp [LayoutOptions.toList_indentation]
  rw [Page.Shows.laid_row_none, hspaces]
  split
  next hnil => rw [hnil]
  next => rfl

theorem walk_nil (f : Forest) (o : LayoutOptions) : Walk (f.Stands o) 0 [[]] 0 :=
  .cons rfl (.inl (.inl rfl)) (.nil 0)

namespace Fills

variable {left right pieces : List Piece} {rows others : List Row} {code more : List Char}

theorem nil (f : Forest) (o : LayoutOptions) : Fills f o [] [] [] where
  feed s hs _ := by simp [← hs]
  walk := by simpa [laid_zero] using walk_nil f o
  unnoted := by simp

/-- Texts leave the line begun. -/
theorem texts (htexts : AllTexts pieces) (hwalk : Walk (f.Stands o) 0 [plainText pieces] 0) :
    Fills f o pieces [] (plainText pieces) where
  feed s hs hdepth := by
    rw [htexts.feed s, Sheet.say]
    by_cases hnil : plainText pieces = []
    · simp [hnil, ← hs]
    · simp [hnil, hs, hdepth]
  walk := by simpa [laid_zero] using hwalk
  unnoted := by simp

theorem of_moves (h : Moves f o 0 0 pieces) : ∃ rows, Fills f o pieces rows [] := by
  obtain ⟨rows, hfeed, hwalk⟩ := h
  refine ⟨rows 0, ?_, ?_, (hwalk 0).2⟩
  · intro s hs hdepth
    rw [hfeed s hs, hdepth]
    simp [← hs]
  · rw [List.map_append]
    refine (hwalk 0).1.append ?_
    simpa [laid_zero] using walk_nil f o

/-- The end of a line stands between two texts. -/
theorem follow (h : Fills f o left rows code) (h' : Fills f o right others more) :
    Fills f o (left ++ .lineEnd none :: right) (rows ++ ⟨0, code, none⟩ :: others) more where
  feed s hs hdepth := by
    have hrow : (Sheet.mk (s.rows ++ rows) s.depth
        (if code = [] then none else some (0, code))).row none = ⟨0, code, none⟩ := by
      by_cases hnil : code = [] <;> simp [Sheet.row, hnil, hdepth]
    rw [Sheet.feed_append, h.feed s hs hdepth, Sheet.feed_cons, Sheet.add, hrow]
    have hright := h'.feed ⟨s.rows ++ rows ++ [⟨0, code, none⟩], s.depth, none⟩ rfl hdepth
    rw [hright]
    simp
  walk := by
    have hall := h.walk.append h'.walk
    rw [← List.map_append] at hall
    simpa using hall
  unnoted := by
    have hrest : ∀ r ∈ (⟨0, code, none⟩ : Row) :: others, r.code = [] → r.subject = none :=
      List.forall_mem_cons.2 ⟨fun _ => rfl, h'.unnoted⟩
    exact List.forall_mem_append.2 ⟨h.unnoted, hrest⟩

end Fills

/-- A text that can stand at the beginning of a line is no edge of a block. -/
theorem walk_begins {cs : List Char} (h : Begins cs) : Walk (f.Stands o) 0 [cs] 0 := by
  have hstands := Row.standsAt_laid (r := ⟨0, cs, none⟩) h.visible o f.span
  rw [laid_zero] at hstands
  refine .cons (by rw [h.edges.1]) (.inl hstands) ?_
  rw [h.edges.2]
  exact .nil 0

/-- The first word of a line with a bar in front is empty. -/
theorem edges_bar {cs : List Char} (h : " | ".toList <+: cs) : lowers cs = 0 ∧ raises cs = 0 := by
  obtain ⟨rest, rfl⟩ := h
  have hword : firstWord (" | ".toList ++ rest) = [] := rfl
  simp only [lowers, raises, beginsWith, hword]
  decide

/-- A node within a line is printed alone as the text that it writes anywhere. -/
theorem print_within (h : f.WellFormed) (hf : f.Fitted) (hnode : f.node? id = some node)
    (hrole : node.variant.role ∈ Role.within) (hn : id.index < n) (o : LayoutOptions) :
    f.print o id = .ok (String.ofList (plainText (f.expandWithin n .opening id))) := by
  obtain ⟨text, hprint⟩ := h.print_ok o ⟨node, hnode⟩
  have hbound : id.index < f.depthBound := Nat.lt_succ_of_lt (lt_size_of_node? hnode)
  have hends : f.EndsWithin (id.index + 1) id := h.endsWithin ⟨node, hnode⟩ (Nat.lt_succ_self _)
  have hsame : f.expansion id = f.expandWithin n .opening id :=
    hends.expandWithin_eq (fun _ => rfl) hbound hn .opening
  have hsheet : f.sheet id = ({} : Sheet).say (plainText (f.expandWithin n .opening id)) := by
    rw [sheet, hsame, (expandWithin_texts h hf hnode hrole hn .opening).feed]
  have hlist := toList_print hprint
  rw [hsheet, Sheet.rows_say] at hlist
  rw [hprint, ← String.ofList_toList (s := text), hlist]
  generalize plainText (f.expandWithin n .opening id) = cs
  by_cases hnil : cs = []
  · simp [hnil, ended, Sheet.say, Sheet.row, laid_zero]
  · simp [hnil, ended, Sheet.say, Sheet.row, laid_zero]

/-- A row of a tensor at depth zero is not indented, or the bar behind an empty first row stands
first. -/
theorem walk_dense (h : f.WellFormed) (hf : f.Fitted) (hnode : f.node? id = some node)
    (hrole : node.variant.role = .dense) (hn : id.index < n) :
    Walk (f.Stands o) 0 [plainText (f.expandWithin n .opening id)] 0 := by
  rcases dense_cases h hf hnode hrole hn .opening with hnil | hbegins | ⟨hbar, elems, rfl⟩
  · rw [hnil]
    exact walk_nil f o
  · exact walk_begins hbegins
  · have hwithin : Role.dense ∈ Role.within := by decide
    have hprint := print_within h hf hnode (hrole ▸ hwithin) hn o
    have hedges := edges_bar hbar
    refine .cons (by rw [hedges.1]) (.inr ⟨rfl, hbar, id, elems, hnode, hprint⟩) ?_
    rw [hedges.2]
    exact .nil 0

/-- Elements of a program leave full lines and what the last of them leaves. -/
theorem fills_program {elems : List NodeId}
    (h : ∀ elem ∈ elems, ∃ rows code, Fills f o (f.expandWithin n .opening elem) rows code) :
    ∃ rows code, Fills f o (((elems.map Fragment.node).intersperse (lineEnd none)).flatMap
      (Fragment.expand (f.expandWithin n))) rows code := by
  induction elems with
  | nil => exact ⟨[], [], .nil f o⟩
  | cons first elems ih =>
    rw [List.forall_mem_cons] at h
    obtain ⟨rows, code, hfirst⟩ := h.1
    cases elems with
    | nil => exact ⟨rows, code, by simpa [Fragment.node, Fragment.expand] using hfirst⟩
    | cons second elems =>
      obtain ⟨others, more, hrest⟩ := ih h.2
      exact ⟨_, more, hfirst.follow hrest⟩

/-- A node is a program, or it is printed as full lines or within a line. -/
theorem role_cases (node : Node) :
    (∃ elems, node = .program elems) ∨ node.variant.role ∈ Role.lines ∨
      node.variant.role ∈ Role.within := by
  cases node with
  | program elems => exact .inl ⟨elems, rfl⟩
  | callable kind =>
    right
    cases kind <;> simp [Node.variant, Variant.role, Role.lines]
  | _ => exact .inr (by simp [Node.variant, Variant.role, Role.lines, Role.within, Role.inline])

theorem exists_fills (h : f.WellFormed) (hf : f.Fitted) (hnames : f.Named) (o : LayoutOptions)
    (hnode : f.node? id = some node) (hn : id.index < n) :
    ∃ rows code, Fills f o (f.expandWithin n .opening id) rows code := by
  refine h.descend (P := fun n id => id.index < n → ∃ rows code,
    Fills f o (f.expandWithin n .opening id) rows code) ?_ ⟨node, hnode⟩ hn hn
  intro n id node hnode ih hn
  -- only a program puts texts of both kinds together, so only there the induction is used
  rcases role_cases node with ⟨elems, rfl⟩ | hlines | hwithin
  · simp only [expandWithin, hnode]
    apply fills_program
    intro elem helem
    have hmem : elem ∈ (Node.program elems).children :=
      List.mem_map.2 ⟨elem.slot, List.mem_map.2 ⟨elem, helem, rfl⟩, rfl⟩
    have hlt := h.child_lt ⟨_, hnode, hmem⟩
    exact ih elem hmem (by omega)
  · obtain ⟨rows, hfills⟩ := Fills.of_moves (moves_expandWithin h hf hnames o hnode hlines hn)
    exact ⟨rows, [], hfills⟩
  · have htexts := expandWithin_texts h hf hnode hwithin hn .opening
    refine ⟨[], _, .texts htexts ?_⟩
    by_cases hdense : node.variant.role = .dense
    · exact walk_dense h hf hnode hdense hn
    · exact walk_begins (begins_expandWithin h hf hnames hnode hwithin hdense hn .opening)

/-- The rows of a node lead from depth zero back to it, and those that belong to a node have some
text. -/
theorem walk_sheet (h : f.WellFormed) (hf : f.Fitted) (hnames : f.Named) (o : LayoutOptions)
    (hid : ∃ node, f.node? id = some node) :
    Walk (f.Stands o) 0 ((f.sheet id).lines.map (Row.laid o f.span)) 0 ∧
      ∀ r ∈ (f.sheet id).lines, r.code = [] → r.subject = none := by
  obtain ⟨node, hnode⟩ := hid
  have hbound : id.index < f.depthBound := Nat.lt_succ_of_lt (lt_size_of_node? hnode)
  obtain ⟨rows, code, hfills⟩ := exists_fills h hf hnames o hnode hbound
  have hlines : (f.sheet id).lines = rows ++ [⟨0, code, none⟩] := by
    rw [sheet, expansion, hfills.feed {} rfl rfl, Sheet.lines]
    by_cases hnil : code = [] <;> simp [hnil, Sheet.row]
  rw [hlines]
  refine ⟨hfills.walk, List.forall_mem_append.2 ⟨hfills.unnoted, ?_⟩⟩
  simp

end Forest

/-! ## §2 Sessions -/

namespace Session

/-- After any attempts at changes that refer only to handles handed out before, and that leave all
names names, every node that exists is printed under every layout, and the lines of its text lead
from depth zero back to it. -/
theorem walk_of_run (cs : List Change) (hown : start.OwnHandles cs)
    (hnames : (start.run cs).forest.Named) {id : NodeId} {node : Node}
    (hid : (start.run cs).forest.node? id = some node) (o : LayoutOptions) :
    ∃ text, (start.run cs).forest.print o id = .ok text ∧
      Walk ((start.run cs).forest.Stands o) 0 (text.toList.splitOn '\n') 0 := by
  have hwell := (sound_run cs).admitted.wellFormed
  have hfitted := fitted_run hown
  obtain ⟨text, hprint⟩ := hwell.print_ok o ⟨node, hid⟩
  refine ⟨text, hprint, ?_⟩
  rw [hnames.splitOn_print hprint]
  exact (Forest.walk_sheet hwell hfitted hnames o ⟨node, hid⟩).1

/-- A loop around a conditional statement with two branches. -/
def branchingLoop : List Change :=
  [.insert ⟨⟨1, 7⟩, ⟨1, 7⟩⟩ (.varExpr "x"),
    .insert ⟨⟨3, 9⟩, ⟨3, 10⟩⟩ (.exprStmt ⟨⟨0⟩⟩),
    .insert ⟨⟨4, 5⟩, ⟨6, 7⟩⟩ (.ifStmt ⟨⟨0⟩⟩ ⟨⟨1⟩⟩ (some ⟨⟨1⟩⟩)),
    .insert ⟨⟨2, 5⟩, ⟨8, 7⟩⟩ (.ifStmt ⟨⟨0⟩⟩ ⟨⟨1⟩⟩ (some ⟨⟨2⟩⟩)),
    .insert ⟨⟨2, 5⟩, ⟨8, 7⟩⟩ (.stmtBlock [⟨⟨3⟩⟩]),
    .insert ⟨⟨1, 1⟩, ⟨9, 3⟩⟩ (.loop .before ⟨⟨0⟩⟩ ⟨⟨4⟩⟩)]

/-- The lines of a loop lead back to the depth at which it begins, also where spans are shown. -/
theorem walk_branchingLoop :
    start.OwnHandles branchingLoop ∧ (start.run branchingLoop).forest.Named ∧
      (start.run branchingLoop).forest.node? ⟨5⟩ = some (.loop .before ⟨⟨0⟩⟩ ⟨⟨4⟩⟩) ∧
      ∃ text, (start.run branchingLoop).forest.print ⟨2, true, true⟩ ⟨5⟩ = .ok text ∧
        Walk ((start.run branchingLoop).forest.Stands ⟨2, true, true⟩) 0
          (text.toList.splitOn '\n') 0 := by
  have hown : start.OwnHandles branchingLoop := by decide
  have hname : IsName "x" := by decide
  have hnames : (start.run branchingLoop).forest.Named :=
    forall_node_run (by simp [branchingLoop, Change.AddsOnly, Node.names, hname])
  have hloop : (start.run branchingLoop).forest.node? ⟨5⟩ =
      some (.loop .before ⟨⟨0⟩⟩ ⟨⟨4⟩⟩) := by decide
  exact ⟨hown, hnames, hloop, walk_of_run branchingLoop hown hnames hloop ⟨2, true, true⟩⟩

/-- The second branch goes on at the depth of the first one. -/
example : (start.run branchingLoop).forest.print {} ⟨5⟩ = .ok
    ("while x\n    if x\n        x;\n    elif x\n        x;\n    else\n        x;\n" ++
      "    end\nend\n") := by
  decide +kernel

/-- A tensor of two rows without elements. -/
def hollowTensor : List Change :=
  [.insert ⟨⟨1, 1⟩, ⟨1, 1⟩⟩ (.denseNdTensor []),
    .insert ⟨⟨1, 1⟩, ⟨1, 3⟩⟩ (.denseNdTensor [⟨⟨0⟩⟩, ⟨⟨0⟩⟩])]

/-- The bar between two rows without elements has a space in front of it that no depth asks for. -/
theorem not_walk_hollowTensor :
    start.OwnHandles hollowTensor ∧ (start.run hollowTensor).forest.Named ∧
      (start.run hollowTensor).forest.print {} ⟨1⟩ = .ok " | " ∧
      ¬ Walk (StandsAt {}) 0 (" | ".toList.splitOn '\n') 0 := by
  have hown : start.OwnHandles hollowTensor := by decide
  have hnames : (start.run hollowTensor).forest.Named :=
    forall_node_run (by simp [hollowTensor, Change.AddsOnly, Node.names])
  refine ⟨hown, hnames, by decide +kernel, ?_⟩
  intro hwalk
  have hsplit : " | ".toList.splitOn '\n' = [" | ".toList] := by decide
  rw [hsplit] at hwalk
  cases hwalk with
  | cons closed stands rest =>
    -- the line closes nothing, so it would have to stand at depth zero
    obtain rfl : _ = 0 := Nat.eq_zero_of_add_eq_zero_right closed.symm
    rcases stands with hnil | hspaces
    · cases hnil
    · cases hspaces

end Session

end TensorTree
