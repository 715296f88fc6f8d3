import TensorTree.Proofs.Stmt.Line

/-!
# A reader of statements

The reader goes over lines one by one and keeps the statements that are open (`Reading.step`).
Lines that stand for some statements are read as these wherever they stand (`Reads`).  What follows
the first body of a conditional statement is read only up to the line that ends all branches at once
(`ReadsElse`).
-/

namespace TensorTree

/-! ## §1 Statements -/

/-- A statement whose bodies are lists of statements, with the texts of names, types and
expressions. -/
inductive Stmt where
  | binding (kind : BindingKind) (name type : String) (value : Option String)
  | loop (test : LoopTest) (cond : String) (body : List Stmt)
  | choice (cond : String) (body : List Stmt) (other : Option (List Stmt))
  | iteration (var : String) (domain : Domain) (body : List Stmt)
  | print (value : String)
  | expr (value : String)
  | assign (targets : List String) (value : String)

/-- A conditional statement as the alternative of all branches in front of it, the last one of which
comes first in the list. -/
def Stmt.chained : List (String × List Stmt) → Stmt → Stmt
  | [], stmt => stmt
  | (cond, body) :: earlier, stmt => chained earlier (choice cond body (some [stmt]))

/-! ## §2 Reading lines -/

/-- A statement whose last line was not read yet. -/
inductive Opened where
  | whileLoop (cond : String)
  | doLoop
  | iteration (var : String) (domain : Domain)
  /-- A branch behind other branches. -/
  | branch (earlier : List (String × List Stmt)) (cond : String)
  /-- The alternative to all branches. -/
  | otherwise (earlier : List (String × List Stmt)) (cond : String) (body : List Stmt)

/-- The statement that ends behind a body, if it does not go on with a condition. -/
def Opened.close : Opened → List Stmt → Option Stmt
  | whileLoop cond, body => some (.loop .before cond body)
  | doLoop, _ => none
  | iteration var domain, body => some (.iteration var domain body)
  | branch earlier cond, body => some (.chained earlier (.choice cond body none))
  | otherwise earlier cond body, other =>
    some (.chained earlier (.choice cond body (some other)))

/-- What was read: the statements of the innermost body, and all open statements with those in front
of them. -/
structure Reading where
  done : List Stmt := []
  outer : List (List Stmt × Opened) := []

namespace Reading

def add (s : Reading) (stmt : Stmt) : Reading := { s with done := s.done ++ [stmt] }

def enter (s : Reading) (opened : Opened) : Reading := ⟨[], (s.done, opened) :: s.outer⟩

/-- Read a line, if it can stand here. -/
def step (s : Reading) : Line → Option Reading
  | .binding kind name type value => some (s.add (.binding kind name type value))
  | .print value => some (s.add (.print value))
  | .expr value => some (s.add (.expr value))
  | .assign target targets value => some (s.add (.assign (target :: targets) value))
  | .whileHead cond => some (s.enter (.whileLoop cond))
  | .doHead => some (s.enter .doLoop)
  | .forHead var domain => some (s.enter (.iteration var domain))
  -- a chain of branches stays one open statement, whatever its length
  | .branch .opening cond => some (s.enter (.branch [] cond))
  | .branch .continuing cond =>
    match s.outer with
    | (before, .branch earlier last) :: outer =>
      some ⟨[], (before, .branch ((last, s.done) :: earlier) cond) :: outer⟩
    | _ => none
  | .otherwise =>
    match s.outer with
    | (before, .branch earlier last) :: outer =>
      some ⟨[], (before, .otherwise earlier last s.done) :: outer⟩
    | _ => none
  -- this is the only body that does not end with a mere `end`
  | .doEnd cond =>
    match s.outer with
    | (before, .doLoop) :: outer => some ⟨before ++ [.loop .after cond s.done], outer⟩
    | _ => none
  | .blockEnd =>
    match s.outer with
    | (before, opened) :: outer =>
      (opened.close s.done).map fun stmt => ⟨before ++ [stmt], outer⟩
    | [] => none

def run (s : Reading) (lines : List Line) : Option Reading := lines.foldlM step s

theorem run_cons (s : Reading) (l : Line) (lines : List Line) :
    s.run (l :: lines) = (s.step l).bind fun next => next.run lines :=
  List.foldlM_cons

theorem run_append (s : Reading) (lines others : List Line) :
    s.run (lines ++ others) = (s.run lines).bind fun next => next.run others :=
  List.foldlM_append

end Reading

/-! ## §3 Lines that are read as statements -/

/-- Wherever the lines stand, they are read as the statements. -/
def Reads (lines : List Line) (stmts : List Stmt) : Prop :=
  ∀ s : Reading, s.run lines = some { s with done := s.done ++ stmts }

/-- Behind any branch the lines are read as the alternative to it, once all branches end. -/
def ReadsElse (lines : List Line) (other : Option (List Stmt)) : Prop :=
  ∀ before earlier cond body outer,
    Reading.run ⟨body, (before, .branch earlier cond) :: outer⟩ (lines ++ [.blockEnd]) =
      some ⟨before ++ [.chained earlier (.choice cond body other)], outer⟩

namespace Reads

variable {lines others : List Line} {stmts more : List Stmt}

theorem nil : Reads [] [] := by
  intro s
  simp [Reading.run]

theorem append (h : Reads lines stmts) (h' : Reads others more) :
    Reads (lines ++ others) (stmts ++ more) := by
  intro s
  rw [Reading.run_append, h s, Option.bind_some, h', List.append_assoc]

/-- A statement on a line of its own. -/
theorem single {l : Line} {stmt : Stmt} (h : ∀ s : Reading, s.step l = some (s.add stmt)) :
    Reads [l] [stmt] := by
  intro s
  rw [Reading.run_cons, h s]
  rfl

/-- A statement with one body between its first and its last line. -/
theorem enclose {first last : Line} {opened : Opened} {stmt : Stmt} (h : Reads lines stmts)
    (hfirst : ∀ s : Reading, s.step first = some (s.enter opened))
    (hlast : ∀ before outer, Reading.step ⟨stmts, (before, opened) :: outer⟩ last =
      some ⟨before ++ [stmt], outer⟩) :
    Reads (first :: (lines ++ [last])) [stmt] := by
  intro s
  have hbody : (s.enter opened).run lines = some ⟨stmts, (s.done, opened) :: s.outer⟩ :=
    h (s.enter opened)
  rw [Reading.run_cons, hfirst s, Option.bind_some, Reading.run_append, hbody, Option.bind_some,
    Reading.run_cons, hlast]
  rfl

/-- A conditional statement with all that follows its first body. -/
theorem choice {cond : String} {other : Option (List Stmt)} (h : Reads lines stmts)
    (htail : ReadsElse others other) :
    Reads (.branch .opening cond :: (lines ++ others ++ [.blockEnd]))
      [.choice cond stmts other] := by
  intro s
  have hbody := h (s.enter (.branch [] cond))
  -- behind the body there is no earlier branch, so the chain is the statement itself
  rw [Reading.run_cons, Reading.step, Option.bind_some, List.append_assoc, Reading.run_append,
    hbody, Option.bind_some]
  exact htail s.done [] cond stmts s.outer

end Reads

namespace ReadsElse

variable {lines others : List Line} {stmts : List Stmt}

theorem nil : ReadsElse [] none := fun _ _ _ _ _ => rfl

theorem otherwise (h : Reads lines stmts) : ReadsElse (.otherwise :: lines) (some stmts) := by
  intro before earlier cond body outer
  have hbody := h ⟨[], (before, .otherwise earlier cond body) :: outer⟩
  rw [List.cons_append, Reading.run_cons, Reading.step, Option.bind_some, Reading.run_append, hbody]
  rfl

/-- A conditional statement as the alternative: its branch is added to those in front of it, and all
of them end together. -/
theorem continuing {cond : String} {other : Option (List Stmt)} (h : Reads lines stmts)
    (htail : ReadsElse others other) :
    ReadsElse (.branch .continuing cond :: (lines ++ others))
      (some [.choice cond stmts other]) := by
  intro before earlier last body outer
  have hbody := h ⟨[], (before, .branch ((last, body) :: earlier) cond) :: outer⟩
  rw [List.cons_append, Reading.run_cons, Reading.step, Option.bind_some, List.append_assoc,
    Reading.run_append, hbody, Option.bind_some]
  exact htail before ((last, body) :: earlier) cond stmts outer

end ReadsElse

end TensorTree
