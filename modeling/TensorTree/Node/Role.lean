/-!
# Identities of nodes

A node is named by its number.  A place inside a parent expects a node of a certain role, so
references carry the role in their type; a handle carries it as a value.  Three narrow roles fit
places of a wider one: a block is a statement, a named set is a dimension, and an element type
is a type.
-/

namespace TensorTree

/-! ## §1 Numbers and roles -/

/-- The number of a node. -/
structure NodeId where
  index : Nat
deriving DecidableEq

def NodeId.text (id : NodeId) : String := s!"node#{id.index}"

/-- What a node can be to its parent. -/
inductive Role where
  | expr | stmt | type | indexSet | domain | readParam | dense
  | program | block | setIndexSet | elementType | endpoint | tupleLength
  | ident | identDecl | field | elementDecl | argument | externalDecl | func | proc | test
deriving DecidableEq

namespace Role

def name : Role → String
  | .expr => "expr"
  | .stmt => "stmt"
  | .type => "type"
  | .indexSet => "index_set"
  | .domain => "domain"
  | .readParam => "read_param"
  | .dense => "dense"
  | .program => "program"
  | .block => "block"
  | .setIndexSet => "set_index_set"
  | .elementType => "element_type"
  | .endpoint => "endpoint"
  | .tupleLength => "tuple_length"
  | .ident => "ident"
  | .identDecl => "ident_decl"
  | .field => "field"
  | .elementDecl => "element_decl"
  | .argument => "argument"
  | .externalDecl => "extern"
  | .func => "func"
  | .proc => "proc"
  | .test => "test"

/-- The wider role that a narrow one also plays. -/
def wider? : Role → Option Role
  | .block => some .stmt
  | .setIndexSet => some .indexSet
  | .elementType => some .type
  | _ => none

/-- A node of the first role may stand in a place of the second one. -/
def fits (role place : Role) : Bool := role == place || role.wider? == some place

end Role

/-! ## §2 References and handles -/

/-- A reference to a node that plays a given role. -/
structure Ref (role : Role) where
  node : NodeId
deriving DecidableEq

/-- A node together with its role. -/
structure Handle where
  role : Role
  node : NodeId
deriving DecidableEq

namespace Handle

def text (h : Handle) : String := s!"{h.role.name}#{h.node.index}"

/-- The reference that a handle gives in a place, if its role fits. -/
def ref? (h : Handle) (place : Role) : Option (Ref place) :=
  if h.role.fits place then some ⟨h.node⟩ else none

end Handle

def Ref.handle {role : Role} (r : Ref role) : Handle := ⟨role, r.node⟩

end TensorTree
