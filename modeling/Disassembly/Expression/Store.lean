import Disassembly.Expression.Node

/-!
# The expression store

A store keeps every structurally distinct node once. A request for a node is answered with the id of
the stored node of the same signature, and only if there is none is a new node appended; ids
therefore count nodes in the order of first creation. A store can be marked and later taken back to
the mark, which forgets the nodes appended since.

Two symbols with the same hash are not told apart when all else agrees: the node that came first
stands for both.
-/

namespace Disassembly.Expression

open Disassembly.Text

/-- Why a node cannot be stored. -/
inductive Error where
  /-- The kind needs a symbol and the draft has none. -/
  | emptySymbol (kind : Kind)
  /-- The parent is not a node of the store. -/
  | unknownParent (parent : NodeId)
  /-- The draft at place `index` of its operand names a parent that does not come before it. -/
  | parentOutOfOrder (index parent : Nat)
  /-- All ids are in use. -/
  | idSpaceExhausted
  deriving DecidableEq, Repr

/-- The text of an error. -/
def Error.message : Error → String
  | emptySymbol kind => kind.name ++ " expression requires a non-empty symbol"
  | unknownParent parent =>
    "parent expression " ++ toString parent ++ " does not belong to this cache"
  | parentOutOfOrder index parent =>
    "expression " ++ toString index ++ " names parent " ++ toString parent ++
      ", which does not precede it"
  | idSpaceExhausted => "expression id space exhausted"

/-- How the requests to a store were answered. -/
structure StoreStats where
  /-- Requests answered with a new node. -/
  created : Nat := 0
  /-- Requests answered with a node that was there. -/
  deduplicated : Nat := 0
  deriving DecidableEq, Repr

/-- The nodes of a set of operands, each distinct one once. -/
structure Store where
  /-- The nodes in the order of their ids. -/
  nodes : Array Node := #[]
  /-- The id of the node of each signature. -/
  bySignature : Std.ExtTreeMap Signature NodeId := ∅
  /-- The symbols of the nodes. -/
  symbols : Pool := {}
  /-- How the requests so far were answered. -/
  stats : StoreStats := {}

/-- A state of a store to come back to. -/
structure Checkpoint where
  /-- How many nodes there were. -/
  size : Nat
  /-- What the statistics were. -/
  stats : StoreStats
  deriving DecidableEq, Repr

namespace Store

/-! ### Looking up -/

/-- How many nodes are stored. -/
def size (store : Store) : Nat := store.nodes.size

/-- The node with the given id. -/
def get? (store : Store) (id : NodeId) : Option Node := store.nodes[id.index]?

/-- The parent of a node, if it has one and it is stored. -/
def parent? (store : Store) (node : Node) : Option Node := node.parent.bind store.get?

/-- The signature of the node with the given id. -/
def signature? (store : Store) (id : NodeId) : Option Signature := (store.get? id).map Node.signature

/-- Every signature with its id, in the order of signatures. -/
def signatures (store : Store) : List (Signature × NodeId) := store.bySignature.toList

/-! ### Adding -/

/-- How many nodes a store can hold: the numbers of ids fit in 32 bits, and 0 is none of them. -/
def capacity : Nat := UInt32.size - 1

/-- The first thing that forbids a draft to be stored here, if any. -/
def objection? (store : Store) (draft : Draft NodeId) : Option Error :=
  if draft.lacksSymbol then some (.emptySymbol draft.kind)
  else draft.parent.bind fun parent =>
    if parent.index < store.size then none else some (.unknownParent parent)

/-- Appends the node of a draft. -/
def append (store : Store) (draft : Draft NodeId) : NodeId × Store :=
  let id : NodeId := ⟨store.size⟩
  let (symbol, symbols) := store.symbols.intern draft.symbol
  (id,
    { nodes := store.nodes.push (.ofDraft id symbol draft)
      bySignature := store.bySignature.insert draft.signature id
      symbols
      stats := { store.stats with created := store.stats.created + 1 } })

/-- The id of the node with the fields of a draft, which is appended if there is none yet. An error
leaves the store as it is. -/
def create (store : Store) (draft : Draft NodeId) : Except Error (NodeId × Store) :=
  match store.objection? draft with
  | some error => .error error
  | none =>
    match store.bySignature[draft.signature]? with
    | some id =>
      .ok (id, { store with
        stats := { store.stats with deduplicated := store.stats.deduplicated + 1 } })
    | none =>
      if store.size < capacity then .ok (store.append draft) else .error .idSpaceExhausted

/-- Stores the drafts of an operand one after the other; `ids` are those of the drafts before them.
The nodes stored before an error stay. -/
def internAfter (store : Store) (ids : Array NodeId) :
    List (Draft Nat) → Except Error (List NodeId) × Store
  | [] => (.ok ids.toList, store)
  | draft :: drafts =>
    match draft.resolveParent ids with
    | .error place => (.error (.parentOutOfOrder ids.size place), store)
    | .ok draft =>
      match store.create draft with
      | .error error => (.error error, store)
      | .ok (id, store) => store.internAfter (ids.push id) drafts

/-- Stores the drafts of an operand, parents before children, and gives one id for each. The nodes
stored before an error stay. -/
def internOperand (store : Store) (drafts : List (Draft Nat)) :
    Except Error (List NodeId) × Store :=
  store.internAfter #[] drafts

@[simp] theorem size_append (store : Store) (draft : Draft NodeId) :
    (store.append draft).2.size = store.size + 1 := by
  simp [append, size]

theorem get?_append (store : Store) (draft : Draft NodeId) (id : NodeId) :
    (store.append draft).2.get? id =
      if id.index = store.size then
        some (.ofDraft id (store.symbols.intern draft.symbol).1 draft)
      else store.get? id := by
  obtain ⟨index⟩ := id
  simp only [append, get?, size, Array.getElem?_push]
  split <;> simp_all

/-! ### Forgetting -/

/-- The store without any node; ids start again. -/
def clear (_ : Store) : Store := {}

/-- Marks the current end of the store. -/
def checkpoint (store : Store) : Checkpoint := ⟨store.size, store.stats⟩

/-- Forgets every node appended after the mark, and the symbols that only they used. If no node
lies after the mark nothing happens at all, to the statistics neither. -/
def rollback (store : Store) (mark : Checkpoint) : Store :=
  if store.size ≤ mark.size then store
  else
    let kept := store.nodes.take mark.size
    let dropped := store.nodes.toList.drop mark.size
    { nodes := kept
      bySignature := dropped.foldl (fun known node => known.erase node.signature) store.bySignature
      symbols := store.symbols.release (kept.toList.map Node.symbol)
      stats := mark.stats }

end Store

end Disassembly.Expression
