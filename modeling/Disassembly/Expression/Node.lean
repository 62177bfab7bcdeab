import Disassembly.Expression.Draft
import Disassembly.Text.Pool

/-!
# Expression nodes

A stored node of an operand's expression tree. Its parent is named by id, and its symbol is a handle
on the store's copy. `Node.text` writes the single token that the node stands for.
-/

namespace Disassembly.Expression

open Disassembly.Text

/-- A stored node. -/
structure Node where
  /-- Its identity. -/
  id : NodeId
  /-- What it stands for. -/
  kind : Kind
  /-- Its symbol; empty if it has none. -/
  symbol : Handle
  /-- Its immediate value, or the bits of one. -/
  immediate : Int64
  /-- Its slot among the children of its parent. -/
  position : UInt16
  /-- Whether the immediate is an address that moves with the program. -/
  relocatable : Bool
  /-- Its parent; a root has none. -/
  parent : Option NodeId
  deriving DecidableEq, Repr

namespace Node

/-- The node with the fields of a draft, under the given id and symbol handle. -/
def ofDraft (id : NodeId) (symbol : Handle) (draft : Draft NodeId) : Node where
  id
  kind := draft.kind
  symbol
  immediate := draft.immediate
  position := draft.position
  relocatable := draft.relocatable
  parent := draft.parent

/-- The fields of a node, without its id. -/
def toDraft (node : Node) : Draft NodeId where
  kind := node.kind
  symbol := node.symbol.text
  immediate := node.immediate
  position := node.position
  relocatable := node.relocatable
  parent := node.parent

/-- The key under which a node is stored. -/
def signature (node : Node) : Signature := node.toDraft.signature

/-- Whether the node is a symbol. -/
def isSymbol (node : Node) : Bool := node.kind == .symbol

/-- Whether the node carries an immediate. -/
def isImmediate (node : Node) : Bool := node.kind.isImmediate

/-- Whether the node is an operator. -/
def isOperator (node : Node) : Bool := node.kind == .operator

/-- Whether the node is a memory access. -/
def isDereference (node : Node) : Bool := node.kind == .dereference

/-- An integer in hexadecimal, with a sign if it is negative. -/
def immediateText (value : Int64) : String :=
  if value < 0 then "-" ++ hex value.toInt.natAbs else hex value.toInt.natAbs

/-- The token of a node: `[` for a memory access, else its symbol if it has one, else its immediate.
Children are not written. -/
def text (node : Node) : String :=
  if node.isDereference then "["
  else if node.symbol.text.isEmpty then immediateText node.immediate
  else node.symbol.text

theorem toDraft_ofDraft (id : NodeId) (symbol : Handle) (draft : Draft NodeId)
    (h : symbol.text = draft.symbol) : (ofDraft id symbol draft).toDraft = draft := by
  simp [ofDraft, toDraft, h]

end Node

end Disassembly.Expression
