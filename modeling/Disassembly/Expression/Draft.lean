import Disassembly.Expression.Signature

/-!
# Drafts of nodes

A node id is the place of a node in its store. A draft holds the fields of a node that has no id
yet. Its type parameter `ρ` says how it names its parent: by the id of a stored node, or by the
place of an earlier draft in the same operand.
-/

namespace Disassembly.Expression

/-- The identity of a stored node. Ids are numbered from 1 in the order of first creation. -/
structure NodeId where
  /-- The place of the node in its store, from 0. -/
  index : Nat
  deriving DecidableEq, Repr

namespace NodeId

/-- The number by which a node is known outside its store. -/
def number (id : NodeId) : Nat := id.index + 1

instance : ToString NodeId where
  toString id := "#" ++ toString id.number

end NodeId

/-- The fields of a node before it has an id. -/
structure Draft (ρ : Type) where
  /-- What the node stands for. -/
  kind : Kind
  /-- Its symbol; empty if it has none. -/
  symbol : String := ""
  /-- Its immediate value, or the bits of one. -/
  immediate : Int64 := 0
  /-- Its slot among the children of its parent. -/
  position : UInt16 := 0
  /-- Whether the immediate is an address that moves with the program. -/
  relocatable : Bool := false
  /-- Its parent; a root has none. -/
  parent : Option ρ := none
  deriving DecidableEq, Repr

namespace Draft

variable {ρ : Type}

/-! ### Usual drafts -/

/-- An operator. -/
def operator (symbol : String) : Draft ρ := { kind := .operator, symbol }

/-- A register. -/
def register (symbol : String) : Draft ρ := { kind := .register, symbol }

/-- An integer, kept as its two's complement bits. -/
def immediateInt (value : UInt64) : Draft ρ := { kind := .immediateInt, immediate := value.toInt64 }

/-- The width of an access, by name. -/
def sizePrefix (symbol : String) : Draft ρ := { kind := .sizePrefix, symbol }

/-- The width of an access of `bits` bits, named after its whole bytes: `b4` for 32 bits. -/
def sizePrefixBits (bits : UInt32) : Draft ρ := sizePrefix ("b" ++ toString (bits / 8).toNat)

/-- A memory access. -/
def dereference : Draft ρ := { kind := .dereference, symbol := "[" }

/-! ### Checks and keys -/

/-- Whether the draft has no symbol though its kind needs one. -/
def lacksSymbol (draft : Draft ρ) : Bool := draft.symbol.isEmpty && !draft.kind.isImmediate

/-- The draft with its parent looked up among the `ids` of the drafts before it, or else the place
that none of them has. -/
def resolveParent (draft : Draft Nat) (ids : Array NodeId) : Except Nat (Draft NodeId) :=
  match draft.parent with
  | none => .ok { draft with parent := none }
  | some place =>
    match ids[place]? with
    | some id => .ok { draft with parent := some id }
    | none => .error place

/-- The number by which a signature names a parent: 0 stands for no parent. -/
def parentNumber : Option NodeId → UInt32
  | none => 0
  | some id => UInt32.ofNat id.number

/-- The key under which a node with these fields is stored. Whether it is relocatable is no part
of it. -/
def signature (draft : Draft NodeId) : Signature :=
  .ofFields draft.kind draft.position draft.immediate draft.symbol (parentNumber draft.parent)

end Draft

end Disassembly.Expression
