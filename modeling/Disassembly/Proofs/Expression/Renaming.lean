import Disassembly.Attribution
import Disassembly.Proofs.Expression.Signature
import Disassembly.Proofs.Flow.Renaming

/-!
# Renaming nodes in stores

Two stores hold the same nodes under different ids if a renaming carries each node of the one to a node of the
other that says the same of itself and whose parent is the renamed parent (`Store.Renames`). Attribution sees
no difference between them (`Instruction.locate?_rename`): of a node it only looks at whether it is an
immediate, at which, and at whether it stands under a memory access.
-/

namespace Disassembly

open Disassembly.Expression

/-! ### What attribution looks at -/

/-- What the rules of attribution look at in a node. -/
structure Sight where
  /-- Whether it carries an immediate. -/
  isImmediate : Bool
  /-- Its immediate value, or the bits of one. -/
  immediate : Int64
  /-- Whether its parent is a memory access. -/
  underDereference : Bool
  deriving DecidableEq, Repr

namespace Expression.Store

variable {σ : NodeId → NodeId} {s t : Store} {node : Node}

/-- What the rules of attribution look at in a node of a store. -/
def sight (s : Store) (node : Node) : Sight where
  isImmediate := node.isImmediate
  immediate := node.immediate
  underDereference := (s.parent? node).any Node.isDereference

/-- The nodes of the second store are those of the first under other ids. -/
structure Renames (σ : NodeId → NodeId) (s t : Store) : Prop where
  /-- A node says the same of itself as the renamed one, whose parent is the renamed parent. -/
  node_eq (id : NodeId) : (t.get? (σ id)).map (fun node => (node.link, node.parent)) =
    (s.get? id).map fun node => (node.link, node.parent.map σ)

namespace Renames

theorem of_get?_eq (h : ∀ id, s.get? id = t.get? id) : Renames id s t where
  node_eq _ := by simp [h]

variable (h : Renames σ s t)

include h

theorem exists_get? {id : NodeId} (hnode : s.get? id = some node) :
    ∃ node', t.get? (σ id) = some node' ∧ node'.link = node.link ∧ node'.parent = node.parent.map σ := by
  have heq := h.node_eq id
  rw [hnode, Option.map_some, Option.map_eq_some_iff] at heq
  obtain ⟨node', hnode', heq⟩ := heq
  exact ⟨node', hnode', congrArg Prod.fst heq, congrArg Prod.snd heq⟩

theorem get?_eq_none_iff {id : NodeId} : t.get? (σ id) = none ↔ s.get? id = none := by
  have heq := congrArg Option.isNone (h.node_eq id)
  rw [Option.isNone_map, Option.isNone_map] at heq
  rw [← Option.isNone_iff_eq_none, ← Option.isNone_iff_eq_none, heq]

theorem sight_eq (id : NodeId) : (t.get? (σ id)).map t.sight = (s.get? id).map s.sight := by
  cases hnode : s.get? id with
  | none => rw [h.get?_eq_none_iff.mpr hnode, Option.map_none, Option.map_none]
  | some node =>
    obtain ⟨node', hnode', hlink, hparent⟩ := h.exists_get? hnode
    have hdereference : (t.parent? node').any Node.isDereference = (s.parent? node).any Node.isDereference := by
      rw [parent?, parent?, hparent]
      cases node.parent with
      | none => rfl
      | some parent =>
        show (t.get? (σ parent)).any _ = (s.get? parent).any _
        cases hp : s.get? parent with
        | none => rw [h.get?_eq_none_iff.mpr hp]
        | some above =>
          obtain ⟨above', habove', hsame, -⟩ := h.exists_get? hp
          rw [habove']
          exact congrArg (fun link : Link => link.kind == .dereference) hsame
    have hkind : node'.kind = node.kind := congrArg Link.kind hlink
    have himmediate : node'.immediate = node.immediate := congrArg Link.immediate hlink
    simp only [hnode', Option.map_some, sight, hdereference, Node.isImmediate, hkind, himmediate]

end Renames

end Expression.Store

namespace Instruction

variable {σ : NodeId → NodeId} {s t : Store} {i j : Instruction} {target : Address}

/-- What the rules of attribution see of an instruction, in reading order. -/
def sights (i : Instruction) (store : Store) : List (Position × Sight) :=
  (i.placedNodes store).map fun (position, node) => (position, store.sight node)

theorem exactImmediate?_eq_find? : i.exactImmediate? s target = ((i.sights s).find? fun (_, sight) =>
    sight.isImmediate && sight.immediate.toUInt64 == target).map (·.1) := by
  rw [sights, List.find?_map, Option.map_map]
  rfl

theorem underDereference?_eq_find? : i.underDereference? s = ((i.sights s).find? fun (_, sight) =>
    sight.underDereference).map fun (position, sight) =>
      if sight.isImmediate then position else position.before := by
  rw [sights, List.find?_map, Option.map_map]
  rfl

theorem firstImmediate?_eq_find? :
    i.firstImmediate? s = ((i.sights s).find? fun (_, sight) => sight.isImmediate).map (·.1) := by
  rw [sights, List.find?_map, Option.map_map]
  rfl

/-- Where attribution sees the same it finds the same. -/
theorem locate?_congr (hsights : i.sights s = j.sights t) (hcount : i.operandCount = j.operandCount) :
    i.locate? s target = j.locate? t target := by
  simp only [locate?, exactImmediate?_eq_find?, underDereference?_eq_find?, firstImmediate?_eq_find?,
    onlyOperand?, hsights, hcount]

theorem sights_rename (h : Store.Renames σ s t) (i : Instruction) : (i.rename σ).sights t = i.sights s := by
  have hnode (position : Position) (id : NodeId) :
      ((t.get? (σ id)).map fun node => (position, node)).map
          (fun (position, node) => (position, t.sight node)) =
        ((s.get? id).map fun node => (position, node)).map fun (position, node) => (position, s.sight node) := by
    have heq := congrArg (Option.map fun sight => (position, sight)) (h.sight_eq id)
    rwa [Option.map_map, Option.map_map] at heq ⊢
  simp only [sights, placedNodes, rename, List.map_flatMap, List.map_filterMap, List.zipIdx_map,
    List.flatMap_map, List.filterMap_map, Function.comp_def, Prod.map, id_eq, hnode]

theorem locate?_rename (h : Store.Renames σ s t) (i : Instruction) :
    (i.rename σ).locate? t target = i.locate? s target :=
  locate?_congr (sights_rename h i) (List.length_map _)

end Instruction

end Disassembly
