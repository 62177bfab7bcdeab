import Disassembly.Proofs.Graph.Dominators

/-!
# Immediate dominators

The dominator tree of a graph holds the immediate dominator of every node that has one, and none for any other
(`DominatorTree.immediateDominator?_compute`). The nodes that have one are those in reach but for the root: that
there is one comes from the algorithm (`DominatorTree.Tells`), that there is no second one from walks alone
(`IsImmediateDominator.unique`). Walks know nothing of how the successors of a node are listed, so neither does
the tree.
-/

namespace Disassembly.Graph

namespace DominatorTree

variable {g : Digraph} {root d v x : Nat} {n : Numbering} {dominator : Array (Option Nat)} {tree : DominatorTree}

/-! ### Nodes out of reach -/

theorem immediateDominator?_of_ofNumbering? (htree : ofNumbering? root n dominator = some tree)
    (hx : tree.isReachable x = false) : tree.immediateDominator? x = none := by
  rw [ofNumbering?_eq] at htree
  obtain ⟨parent, hparent, rfl⟩ := Option.map_eq_some_iff.mp htree
  simp only [isReachable, Array.getElem?_map] at hx
  simp only [immediateDominator?, List.getElem?_toArray, getElem?_of_mapM hparent, Array.getElem?_toList]
  rcases hnumber : n.number[x]? with _ | _ | w
  · rfl
  · rfl
  · simp [hnumber] at hx

@[simp] theorem immediateDominator?_unreached (size root x : Nat) :
    (unreached size root).immediateDominator? x = none := by
  simp only [immediateDominator?, unreached, Array.getElem?_replicate]
  split <;> rfl

@[simp] theorem isReachable_unreached (size root x : Nat) : (unreached size root).isReachable x = false := by
  simp only [isReachable, unreached, Array.getElem?_replicate]
  split <;> rfl

/-- A node that the root does not reach has no immediate dominator, be it a node of the graph or not. -/
theorem immediateDominator?_of_isReachable_eq_false (hx : (compute g root).isReachable x = false) :
    (compute g root).immediateDominator? x = none := by
  unfold compute at hx ⊢
  cases htree : compute? g root with
  | none => simp
  | some tree =>
    rw [htree] at hx
    unfold compute? at htree
    split at htree
    · obtain ⟨n, -, htree⟩ := Option.bind_eq_some_iff.mp htree
      obtain ⟨dominator, -, htree⟩ := Option.bind_eq_some_iff.mp htree
      exact immediateDominator?_of_ofNumbering? htree hx
    · cases htree
      simp

/-- The nodes in reach are those to which there is a walk from the root, if that is a node. -/
theorem isReachable_compute_iff :
    (compute g root).isReachable x = true ↔ root < g.size ∧ ∃ p, Walk g.Adj root x p := by
  by_cases hroot : root < g.size
  · obtain ⟨n, h, htree⟩ := exists_tells hroot
    rw [htree.isReachable_iff, and_iff_right hroot]
    exact h.exists_number_iff
  · simp [compute, compute?, hroot]

/-! ### Nodes in reach -/

/-- What the tree holds for a node in reach is its immediate dominator. Of two immediate dominators of one node
each dominates the other, so that there is no choice. -/
theorem Tells.immediateDominator?_eq_some_iff {h : n.IsDepthFirst g root} (htree : Tells h tree)
    (hv : n.vertex[v]? = some x) :
    tree.immediateDominator? x = some d ↔ IsImmediateDominator g.Adj root d x := by
  by_cases h0 : v = 0
  · subst h0
    obtain rfl : root = x := by simpa [h.root_eq] using hv
    rw [htree.root]
    exact iff_of_false (by simp) fun hidom => not_strictlyDominates_root hidom.1
  · obtain ⟨e, y, he, hy, hidom⟩ := htree.immediate (by omega) hv
    have hnode := h.isImmediateDominator_node he hv hidom
    rw [hy, Option.some.injEq]
    constructor
    · rintro rfl
      exact hnode
    · intro hidom'
      exact hnode.unique hidom'

theorem immediateDominator?_eq_some_iff :
    (compute g root).immediateDominator? x = some d ↔
      root < g.size ∧ IsImmediateDominator g.Adj root d x := by
  cases hx : (compute g root).isReachable x with
  | false =>
    rw [immediateDominator?_of_isReachable_eq_false hx]
    refine iff_of_false (by simp) ?_
    rintro ⟨hroot, hidom⟩
    rw [isReachable_compute_iff.mpr ⟨hroot, hidom.1.2.1⟩] at hx
    cases hx
  | true =>
    have hroot := (isReachable_compute_iff.mp hx).1
    obtain ⟨n, h, htree⟩ := exists_tells hroot
    obtain ⟨v, hv⟩ := htree.isReachable_iff.mp hx
    rw [htree.immediateDominator?_eq_some_iff hv, and_iff_right hroot]

/-- Every node in reach but the root has an immediate dominator. -/
theorem exists_immediateDominator? (hroot : root < g.size) {p : List Nat} (hp : Walk g.Adj root x p)
    (hne : x ≠ root) : ∃ d, (compute g root).immediateDominator? x = some d := by
  obtain ⟨n, h, htree⟩ := exists_tells hroot
  obtain ⟨v, hv⟩ := h.exists_number hp
  have h0 : 0 < v := by
    apply Nat.pos_of_ne_zero
    rintro rfl
    exact hne (by simpa [h.root_eq] using hv.symm)
  obtain ⟨d, y, -, hy, -⟩ := htree.immediate h0 hv
  exact ⟨y, hy⟩

/-- The tree of a graph holds for a node the closest of its strict dominators, the one that all others dominate.
There is one exactly if the root reaches the node and is another: for the root itself, for nodes out of its reach
and past the last node the tree holds nothing. How often and in which order the successors of a node are listed
does not matter. -/
theorem immediateDominator?_compute (g : Digraph) (root x : Nat) :
    (∀ d, (compute g root).immediateDominator? x = some d ↔
        root < g.size ∧ IsImmediateDominator g.Adj root d x) ∧
      ((∃ d, (compute g root).immediateDominator? x = some d) ↔
        root < g.size ∧ x ≠ root ∧ ∃ p, Walk g.Adj root x p) ∧
      ∀ g' : Digraph, g'.size = g.size → (∀ v w, g'.Adj v w ↔ g.Adj v w) →
        (compute g' root).immediateDominator? x = (compute g root).immediateDominator? x := by
  refine ⟨fun d => immediateDominator?_eq_some_iff, ?_, ?_⟩
  · constructor
    · rintro ⟨d, hd⟩
      obtain ⟨hroot, hidom⟩ := immediateDominator?_eq_some_iff.mp hd
      refine ⟨hroot, ?_, hidom.1.2.1⟩
      rintro rfl
      exact not_strictlyDominates_root hidom.1
    · rintro ⟨hroot, hne, p, hp⟩
      exact exists_immediateDominator? hroot hp hne
  · intro g' hsize hadj
    have hsame : g'.Adj = g.Adj := funext fun v => funext fun w => propext (hadj v w)
    apply Option.ext
    intro d
    rw [immediateDominator?_eq_some_iff, immediateDominator?_eq_some_iff, hsize, hsame]

/-- A diamond: the two ways to node 3 part at the root, and node 4 hangs below it. One successor is no node. -/
def diamond : Digraph := ⟨#[[1, 2], [3], [3, 9], [4], []]⟩

/-- The same graph, its successors listed in another order and some of them twice. -/
def relisted : Digraph := ⟨#[[2, 1, 2], [3, 3], [3], [4, 4], [7]]⟩

theorem immediateDominator?_compute_relisted :
    (compute relisted 0).immediateDominator? 4 = some 3 ∧
      IsImmediateDominator diamond.Adj 0 3 4 ∧ (compute relisted 0).immediateDominator? 3 = some 0 := by
  have hadj : ∀ v w, relisted.Adj v w ↔ diamond.Adj v w := by
    have hnodes : ∀ v < 5, ∀ w < 5, relisted.Adj v w ↔ diamond.Adj v w := by decide
    intro v w
    constructor <;> intro h
    · exact (hnodes v h.lt_size.1 w h.lt_size.2).mp h
    · exact (hnodes v h.lt_size.1 w h.lt_size.2).mpr h
  have hfour : (compute diamond 0).immediateDominator? 4 = some 3 := by decide +kernel
  have hthree : (compute diamond 0).immediateDominator? 3 = some 0 := by decide +kernel
  obtain ⟨hidom, -, hsame⟩ := immediateDominator?_compute diamond 0 4
  refine ⟨?_, ((hidom 3).mp hfour).2, ?_⟩
  · rw [hsame relisted rfl hadj, hfour]
  · rw [(immediateDominator?_compute diamond 0 3).2.2 relisted rfl hadj, hthree]

end DominatorTree

end Disassembly.Graph
