import TensorTree.Node.Role

/-!
# Types recorded for expressions

A ledger records, for each expression, the types that were found for it, in the order in which
they were recorded.  A sealed ledger takes no further types.
-/

namespace TensorTree

/-- A type was to be recorded for an expression in a sealed ledger. -/
structure SealedError where
  expr : NodeId
deriving DecidableEq

/-- The message of a refused type. -/
def SealedError.message (e : SealedError) : String :=
  s!"type annotations are sealed; cannot annotate {e.expr.text}"

/-- The types recorded for each expression, in order of first mention. -/
structure TypeLedger (τ : Type) where
  entries : List (NodeId × List τ)
  isSealed : Bool

namespace TypeLedger

variable {τ : Type}

def empty : TypeLedger τ := ⟨[], false⟩

/-- Add a type at the end of the entry of an expression; an expression without an entry gets one
behind all others. -/
def append (expr : NodeId) (type : τ) : List (NodeId × List τ) → List (NodeId × List τ)
  | [] => [(expr, [type])]
  | (other, types) :: entries =>
    if other = expr then (other, types ++ [type]) :: entries
    else (other, types) :: append expr type entries

/-- Record one type for an expression. -/
def record (l : TypeLedger τ) (expr : Ref .expr) (type : τ) :
    Except SealedError (TypeLedger τ) :=
  if l.isSealed then .error ⟨expr.node⟩
  else .ok { l with entries := append expr.node type l.entries }

/-- Record several types for an expression, in order. -/
def recordAll (l : TypeLedger τ) (expr : Ref .expr) :
    List τ → Except SealedError (TypeLedger τ)
  | [] => .ok l
  | type :: types =>
    match l.record expr type with
    | .error e => .error e
    | .ok l' => recordAll l' expr types

/-- The types recorded for an expression. -/
def types (l : TypeLedger τ) (expr : Ref .expr) : List τ :=
  match l.entries.find? fun entry => entry.1 == expr.node with
  | some (_, types) => types
  | none => []

/-- The expression has an entry with a type. -/
def isRecorded (l : TypeLedger τ) (expr : Ref .expr) : Bool :=
  (l.entries.find? fun entry => entry.1 == expr.node).any fun entry => !entry.2.isEmpty

/-- Take no further types. -/
def close (l : TypeLedger τ) : TypeLedger τ := { l with isSealed := true }

def size (l : TypeLedger τ) : Nat := l.entries.length

/-- The entries in the order of their expressions' numbers. -/
def sorted (l : TypeLedger τ) : List (NodeId × List τ) :=
  l.entries.mergeSort fun a b => a.1.index ≤ b.1.index

end TypeLedger

end TensorTree
