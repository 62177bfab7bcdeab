import Disassembly.Proofs.Expression.Operand

/-!
# Maximal sharing

The chain of a node lists what the node and its ancestors up to the root say of themselves: kind, position,
immediate and hash of the symbol. In a reachable store no two nodes have the same chain, and the drafts of
operands whose nodes are all still there got the same id exactly if the chains read off the drafts are equal
(`Reachable.sharing`). The first is an induction over parents (`WellFormed.chain_inj`); the second
compares both operands with the nodes that stand for them (`Spells.chain_eq`).
-/

namespace Disassembly.Expression

/-! ### Chains -/

/-- The links from place `i` upwards, where `above` tells the link at a place and the place of its parent. A
parent is followed only downwards in places, as parents come before their children. -/
def readUp (above : Nat → Option (Link × Option Nat)) (i : Nat) : List Link :=
  match above i with
  | none => []
  | some (link, none) => [link]
  | some (link, some parent) => if parent < i then link :: readUp above parent else [link]
termination_by i

theorem readUp_eq {above : Nat → Option (Link × Option Nat)} {i : Nat} {link : Link}
    {parent : Option Nat} (h : above i = some (link, parent)) (hlt : ∀ p ∈ parent, p < i) :
    readUp above i = link :: parent.elim [] (readUp above) := by
  rw [readUp, h]
  cases parent with
  | none => rfl
  | some parent => exact if_pos (hlt parent rfl)

/-- The chain of the node with the given id; empty if there is none. -/
def Store.chain (s : Store) (id : NodeId) : List Link :=
  readUp (fun i => (s.get? ⟨i⟩).map fun node => (node.link, node.parent.map NodeId.index)) id.index

/-- The chain of draft `i` of an operand; empty if there is none. -/
def Draft.chain (drafts : List (Draft Nat)) (i : Nat) : List Link :=
  readUp (fun i => drafts[i]?.map fun draft => (draft.link, draft.parent)) i

namespace Store

variable {s : Store} {drafts : List (Draft Nat)} {ids : List NodeId} {id : NodeId} {node : Node}

namespace WellFormed

theorem chain_eq (h : s.WellFormed) (hnode : s.get? id = some node) :
    s.chain id = node.link :: node.parent.elim [] s.chain := by
  rw [chain, readUp_eq (by rw [hnode, Option.map_some])]
  · cases node.parent <;> rfl
  · intro p hp
    obtain ⟨parent, hparent, rfl⟩ := Option.map_eq_some_iff.mp hp
    exact h.parent_lt hnode parent hparent

theorem chain_ne_nil (h : s.WellFormed) (hid : id.index < s.size) : s.chain id ≠ [] := by
  obtain ⟨node, hnode⟩ := exists_get? hid
  rw [h.chain_eq hnode]
  exact List.cons_ne_nil _ _

/-- Nodes with the same chain are the same. -/
theorem chain_inj (h : s.WellFormed) {a b : NodeId} (ha : a.index < s.size) (hb : b.index < s.size)
    (heq : s.chain a = s.chain b) : a = b := by
  induction hi : a.index using Nat.strong_induction_on generalizing a b with
  | _ i ih =>
    obtain ⟨m, hm⟩ := exists_get? ha
    obtain ⟨n, hn⟩ := exists_get? hb
    rw [h.chain_eq hm, h.chain_eq hn, List.cons.injEq] at heq
    obtain ⟨hlink, hrest⟩ := heq
    refine h.eq_of_link_eq hm hn hlink ?_
    cases hp : m.parent with
    | none =>
      cases hq : n.parent with
      | none => rfl
      | some q =>
        rw [hp, hq] at hrest
        exact absurd hrest.symm (h.chain_ne_nil (h.parent_lt_size hn hq))
    | some p =>
      have hplt := h.parent_lt_size hm hp
      cases hq : n.parent with
      | none =>
        rw [hp, hq] at hrest
        exact absurd hrest (h.chain_ne_nil hplt)
      | some q =>
        rw [hp, hq] at hrest
        rw [ih p.index (hi ▸ h.parent_lt hm p hp) hplt (h.parent_lt_size hn hq) hrest rfl]

end WellFormed

/-- A node has the chain that is read off the drafts. -/
theorem Spells.chain_eq (hs : s.WellFormed) (h : s.Spells drafts ids) {i : Nat} (hi : ids[i]? = some id) :
    s.chain id = Draft.chain drafts i := by
  induction i using Nat.strong_induction_on generalizing id with
  | _ i ih =>
    have hlt : i < drafts.length := h.length_eq ▸ (List.getElem?_eq_some_iff.mp hi).1
    have hdraft : drafts[i]? = some drafts[i] := List.getElem?_eq_getElem hlt
    obtain ⟨hparents, id', node, hi', hnode, hlink, hparent⟩ := h.exists_node hdraft
    obtain rfl : id = id' := by simpa [hi] using hi'
    rw [hs.chain_eq hnode, Draft.chain, readUp_eq (by rw [hdraft, Option.map_some]) hparents, hlink]
    congr 1
    cases hp : drafts[i].parent with
    | none =>
      rw [hparent, hp]
      rfl
    | some p =>
      have hpi := hparents p hp
      obtain ⟨parent, hpid⟩ : ∃ parent, ids[p]? = some parent :=
        ⟨_, List.getElem?_eq_getElem (by rw [h.length_eq]; omega)⟩
      rw [hparent, hp, Option.bind_some, hpid]
      exact ih p hpi hpid

/-- In a reachable store no two nodes have the same chain. And of two operands whose nodes are all there, two
drafts have the same id exactly if they have the same chain. -/
theorem Reachable.sharing (h : s.Reachable) :
    (∀ a b : NodeId, a.index < s.size → b.index < s.size → a ≠ b → s.chain a ≠ s.chain b) ∧
      ∀ drafts drafts' ids ids', s.Holds drafts ids → s.Holds drafts' ids' →
        ids.length = drafts.length ∧ ids'.length = drafts'.length ∧
          ∀ i j, i < drafts.length → j < drafts'.length →
            (ids[i]? = ids'[j]? ↔ Draft.chain drafts i = Draft.chain drafts' j) := by
  refine ⟨fun a b ha hb hne heq => hne (h.wellFormed.chain_inj ha hb heq), ?_⟩
  intro drafts drafts' ids ids' hholds hholds'
  obtain ⟨hs, hspells⟩ := hholds.spells
  obtain ⟨-, hspells'⟩ := hholds'.spells
  refine ⟨hspells.length_eq, hspells'.length_eq, fun i j hi hj => ?_⟩
  rw [← hspells.length_eq] at hi
  rw [← hspells'.length_eq] at hj
  have hi' := List.getElem?_eq_getElem hi
  have hj' := List.getElem?_eq_getElem hj
  rw [← hspells.chain_eq hs hi', ← hspells'.chain_eq hs hj', hi', hj', Option.some.injEq]
  refine ⟨fun heq => by rw [heq], fun heq => ?_⟩
  exact hs.chain_inj (hspells.lt_size (List.getElem_mem hi)) (hspells'.lt_size (List.getElem_mem hj)) heq

/-- The memory access again, behind another register and with its base register also on its own. -/
def doubled : List (Draft Nat) :=
  [.register "ebx", .sizePrefix "b4", { kind := .dereference, symbol := "[", parent := some 1 },
    { kind := .register, symbol := "esp", parent := some 2 }, .register "esp"]

/-- A store of the memory access, taken back to where it was after one more operand. -/
def restored : Store :=
  let stored := (({} : Store).internOperand access).2
  (stored.internOperand [.register "eax"]).2.rollback stored.checkpoint

theorem sharing_doubled :
    (restored.internOperand doubled).2.Reachable ∧
      (restored.internOperand doubled).2.Holds access [⟨0⟩, ⟨1⟩, ⟨2⟩] ∧
      (restored.internOperand doubled).2.Holds doubled [⟨3⟩, ⟨0⟩, ⟨1⟩, ⟨2⟩, ⟨4⟩] ∧
      Draft.chain access 2 = Draft.chain doubled 3 ∧ Draft.chain access 2 ≠ Draft.chain doubled 4 := by
  have hstored : Reachable (internOperand {} access).2 := Reachable.empty.step (.internOperand _ _)
  have hrestored : restored.Reachable := (hstored.step (.internOperand _ _)).step (.rollback _ hstored)
  have hreach : (restored.internOperand doubled).2.Reachable := hrestored.step (.internOperand _ _)
  have haccess : (internOperand {} access).2.Holds access [⟨0⟩, ⟨1⟩, ⟨2⟩] :=
    .intern .empty (Prod.ext (by decide +kernel) rfl)
  have hkept : restored.Holds access [⟨0⟩, ⟨1⟩, ⟨2⟩] :=
    (haccess.step (.internOperand _ _) (by decide +kernel)).step (.rollback _ hstored) (by decide +kernel)
  have hboth : (restored.internOperand doubled).2.Holds access [⟨0⟩, ⟨1⟩, ⟨2⟩] :=
    hkept.step (.internOperand _ _) (by decide +kernel)
  have hdoubled : (restored.internOperand doubled).2.Holds doubled [⟨3⟩, ⟨0⟩, ⟨1⟩, ⟨2⟩, ⟨4⟩] :=
    .intern hrestored (Prod.ext (by decide +kernel) rfl)
  obtain ⟨-, -, hiff⟩ := hreach.sharing.2 _ _ _ _ hboth hdoubled
  refine ⟨hreach, hboth, hdoubled, (hiff 2 3 (by decide) (by decide)).mp rfl, fun heq => ?_⟩
  have := (hiff 2 4 (by decide) (by decide)).mpr heq
  simp at this

end Store

end Disassembly.Expression
