import Mathlib.Data.List.Nodup
import Disassembly.Proofs.Expression.WellFormed

/-!
# Reachable stores

A store is reachable if some order of requests, clearings and roll-backs leads to it from the empty one
(`Reachable`). A roll-back may go to any mark that was ever taken: an old one, one that was used before, one
from before a clearing, or one of another store. All reachable stores are well-formed
(`Reachable.wellFormed`); `Reachable.consistent` says what that means to a caller.
-/

namespace Disassembly.Expression.Store

variable {s t u : Store} {draft : Draft NodeId} {id : NodeId} {node : Node}

mutual

/-- A store that steps lead to from the empty one. -/
inductive Reachable : Store → Prop where
  /-- The empty store. -/
  | empty : Reachable {}
  /-- One step on. -/
  | step {s t : Store} : Reachable s → Step s t → Reachable t

/-- What one call does to a store. A request that fails leaves no more behind than the nodes before the error:
for a single draft nothing, so that it is no step. -/
inductive Step : Store → Store → Prop where
  /-- A draft is stored. -/
  | create {s t : Store} {draft : Draft NodeId} {id : NodeId} : s.create draft = .ok (id, t) → Step s t
  /-- The drafts of an operand are stored, all of them or those before an error. -/
  | internOperand (s : Store) (drafts : List (Draft Nat)) : Step s (s.internOperand drafts).2
  /-- Everything is forgotten. -/
  | clear (s : Store) : Step s s.clear
  /-- The store goes back to a mark, which may be of any store. -/
  | rollback (s : Store) {u : Store} : Reachable u → Step s (s.rollback u.checkpoint)

end

mutual

theorem Reachable.wellFormed {s : Store} : Reachable s → s.WellFormed
  | .empty => wellFormed_empty
  | .step hs hstep => hstep.wellFormed hs.wellFormed

theorem Step.wellFormed {s t : Store} : Step s t → s.WellFormed → t.WellFormed
  | .create hcreate, h => h.create hcreate
  | .internOperand _ drafts, h => h.internAfter _ drafts
  | .clear _, _ => wellFormed_empty
  | .rollback _ hu, h => h.rollback hu.wellFormed.created_eq

end

/-- What holds of the empty store and is kept by every step holds of all reachable stores. The stores
that marks are taken of are no part of the induction. -/
theorem Reachable.induct {P : Store → Prop} (hempty : P {})
    (hstep : ∀ {s t : Store}, s.Reachable → s.Step t → P s → P t) (h : s.Reachable) : P s := by
  refine @Reachable.rec (fun s _ => P s) (fun _ _ _ => True) hempty ?step ?_ ?_ ?_ ?_ s h
  case step => exact fun hs hst hP _ => hstep hs hst hP
  all_goals intros; trivial

/-- A node that a step leaves in its place is not changed by it. -/
theorem Step.get?_eq (h : s.Step t) (hs : id.index < s.size) (ht : id.index < t.size) :
    t.get? id = s.get? id := by
  obtain ⟨node, hnode⟩ := exists_get? hs
  rw [hnode]
  cases h with
  | create hcreate => exact get?_of_create hcreate hnode
  | internOperand s drafts => exact get?_internAfter hnode
  | clear s => cases ht
  | rollback s hu =>
    rw [size_rollback] at ht
    exact get?_rollback_eq_some_iff.mpr ⟨by omega, hnode⟩

/-! ### What a caller sees -/

namespace WellFormed

variable (h : s.WellFormed)

include h

theorem map_id_nodes : s.nodes.toList.map Node.id = (List.range s.size).map NodeId.mk := by
  refine List.ext_getElem? fun i => ?_
  rw [List.getElem?_map, List.getElem?_map, Array.getElem?_toList]
  by_cases hi : i < s.size
  · obtain ⟨node, hnode⟩ : ∃ node, s.get? ⟨i⟩ = some node := exists_get? hi
    rw [show s.nodes[i]? = some node from hnode, List.getElem?_range hi]
    simp [h.id_eq hnode]
  · rw [Array.getElem?_eq_none (by simpa [size] using hi), List.getElem?_eq_none (by simpa using hi)]
    rfl

theorem mem_signatures_iff {sig : Signature} :
    (sig, id) ∈ s.signatures ↔ ∃ node ∈ s.nodes, node.signature = sig ∧ node.id = id := by
  rw [signatures, Std.ExtTreeMap.mem_toList_iff_getElem?_eq_some, h.known_iff, signature?_eq_some_iff]
  constructor
  · rintro ⟨node, hnode, hsig⟩
    exact ⟨node, mem_nodes_iff.mpr ⟨id, hnode⟩, hsig, h.id_eq hnode⟩
  · rintro ⟨node, hmem, hsig, rfl⟩
    obtain ⟨id, hnode⟩ := mem_nodes_iff.mp hmem
    obtain rfl := h.id_eq hnode
    exact ⟨node, hnode, hsig⟩

/-- The signatures listed are those of the nodes, once each, with the ids of the nodes. -/
theorem signatures_perm :
    s.signatures.Perm (s.nodes.toList.map fun node => (node.signature, node.id)) := by
  have hkeys : s.signatures.Nodup :=
    Std.ExtTreeMap.distinct_keys_toList.imp fun hne heq => hne (by
      rw [heq]
      exact Std.ReflCmp.compare_self)
  have hids : (s.nodes.toList.map fun node => (node.signature, node.id)).Nodup := by
    refine List.Nodup.of_map Prod.snd ?_
    rw [List.map_map]
    show (s.nodes.toList.map Node.id).Nodup
    rw [h.map_id_nodes]
    exact List.nodup_range.map fun _ _ => congrArg NodeId.index
  refine (List.perm_ext_iff_of_nodup hkeys hids).mpr fun ⟨sig, id⟩ => ?_
  rw [h.mem_signatures_iff]
  simp

theorem mem_slots_iff {text : String} :
    text ∈ s.symbols.slots ↔ ∃ node ∈ s.nodes, node.symbol.text = text := by
  rw [Std.ExtTreeMap.mem_iff_isSome_getElem?, Option.isSome_iff_exists]
  constructor
  · rintro ⟨slot, hslot⟩
    obtain ⟨id, node, hnode, hsym⟩ := h.slot_iff.mp hslot
    exact ⟨node, mem_nodes_iff.mpr ⟨id, hnode⟩, by rw [hsym]⟩
  · rintro ⟨node, hmem, rfl⟩
    obtain ⟨id, hnode⟩ := mem_nodes_iff.mp hmem
    exact ⟨node.symbol.slot, h.slot_iff.mpr ⟨id, node, hnode, rfl⟩⟩

end WellFormed

/-- The parts of a reachable store are in step. The node at place `i` has number `i + 1`, parents have smaller
numbers than their children, kinds without an immediate have a symbol, the signatures listed are those of the
nodes with their ids, the texts pooled are their symbols, and as many nodes were created as there are. -/
theorem Reachable.consistent (h : s.Reachable) :
    (∀ i node, s.nodes[i]? = some node → node.id.number = i + 1) ∧
      (∀ node ∈ s.nodes, ∀ parent ∈ node.parent, parent.number < node.id.number) ∧
      (∀ node ∈ s.nodes, node.kind.isImmediate = false → node.symbol.text ≠ "") ∧
      s.signatures.Perm (s.nodes.toList.map fun node => (node.signature, node.id)) ∧
      (∀ text, text ∈ s.symbols.slots ↔ ∃ node ∈ s.nodes, node.symbol.text = text) ∧
      s.stats.created = s.size := by
  have hs := h.wellFormed
  refine ⟨fun i node hnode => ?_, fun node hmem parent hparent => ?_, fun node hmem hkind hempty => ?_,
    hs.signatures_perm, fun text => hs.mem_slots_iff, hs.created_eq⟩
  · have hid : node.id = ⟨i⟩ := hs.id_eq hnode
    rw [hid, NodeId.number]
  · obtain ⟨id, hnode⟩ := mem_nodes_iff.mp hmem
    rw [hs.id_eq hnode]
    exact Nat.succ_lt_succ (hs.parent_lt hnode parent hparent)
  · obtain ⟨id, hnode⟩ := mem_nodes_iff.mp hmem
    have := hs.symbol_ne hnode
    simp [Draft.lacksSymbol, Node.toDraft, hempty, hkind] at this

/-- Four bytes at `[esp]`, a memory access. -/
def access : List (Draft Nat) :=
  [.sizePrefix "b4", { kind := .dereference, symbol := "[", parent := some 0 },
    { kind := .register, symbol := "esp", parent := some 1 }]

/-- A store taken back to the mark of another one, where then an operand is rejected at its second draft. -/
def revisited : Store :=
  let other := (({} : Store).internOperand [.register "eax"]).2
  let returned := (({} : Store).internOperand access).2.rollback other.checkpoint
  (returned.internOperand [.register "eax", { kind := .operator, symbol := "+", parent := some 7 }]).2

theorem consistent_revisited :
    revisited.Reachable ∧ revisited.size = 2 ∧ revisited.stats.created = 2 ∧
      ∀ text, text ∈ revisited.symbols.slots ↔ ∃ node ∈ revisited.nodes, node.symbol.text = text := by
  have hreach : revisited.Reachable :=
    ((Reachable.empty.step (.internOperand _ _)).step
      (.rollback _ (Reachable.empty.step (.internOperand _ _)))).step (.internOperand _ _)
  have hsize : revisited.size = 2 := by decide +kernel
  obtain ⟨-, -, -, -, htexts, hcreated⟩ := hreach.consistent
  exact ⟨hreach, hsize, by rw [hcreated, hsize], htexts⟩

end Disassembly.Expression.Store
