import Disassembly.Proofs.Graph.Progress

/-!
# Dominator trees

The dominator tree of a graph says exactly what dominance by walks says. `Numbering.exists_dominators?`
gives every number its immediate dominator among the numbers; walks of the graph and walks between numbers
are the same (`dominates_iff_node`), so that the tree holds the immediate dominator of every node
(`DominatorTree.Tells`), and going up in it meets all dominators (`Tells.dominates_iff`).
-/

namespace Disassembly.Graph

open DepthFirstTree

variable {g : Digraph} {root a b d k u v w x y : Nat}

/-! ### The last pass -/

/-- What holds when the relative dominators of the vertices before `k` have been replaced. -/
structure CompletedBelow (t : DepthFirstTree) (k : Nat) (dominator : Array (Option Nat)) : Prop where
  /-- Every vertex has a cell. -/
  size : dominator.size = t.count
  /-- The root has no dominator. -/
  root : dominator[0]? = some none
  /-- The vertices before `k` have their immediate dominators. -/
  below : ∀ {v : Nat}, 0 < v → v < k → ∃ d, dominator[v]? = some (some d) ∧
    IsImmediateDominator t.edge 0 d v
  /-- The others have relative dominators. -/
  rest : ∀ {v : Nat}, k ≤ v → v < t.count → ∃ d, dominator[v]? = some (some d) ∧ t.Relative v d

variable {t : DepthFirstTree} {semi : Array Nat} {dominator : Array (Option Nat)}

/-- The immediate dominator of a vertex replaces the relative one. -/
theorem CompletedBelow.exists_complete? (h : CompletedBelow t w dominator) (h0 : 0 < w)
    (hw : w < t.count) (hsemi : semi[w]? = some (t.semi w)) :
    ∃ dominator', complete? semi dominator w = some dominator' ∧
      CompletedBelow t (w + 1) dominator' := by
  obtain ⟨d, hd, hrel⟩ := h.rest (Nat.le_refl w) hw
  -- One write to `w` with its immediate dominator is all that happens to the cells.
  have hset {e : Nat} (he : IsImmediateDominator t.edge 0 e w) :
      CompletedBelow t (w + 1) (dominator.setIfInBounds w (some e)) := by
    have hlt : w < dominator.size := h.size ▸ hw
    refine
      { size := by simpa using h.size
        root := ?_
        below := fun {v} hv hvw => ?_
        rest := fun {v} hv hlt' => ?_ }
    · rw [getElem?_setIfInBounds_of_lt hlt, if_neg (by omega), h.root]
    · rw [getElem?_setIfInBounds_of_lt hlt]
      by_cases heq : w = v
      · subst heq
        exact ⟨e, if_pos rfl, he⟩
      · rw [if_neg heq]
        exact h.below hv (by omega)
    · rw [getElem?_setIfInBounds_of_lt hlt, if_neg (by omega)]
      exact h.rest (by omega) hlt'
  rcases hrel with ⟨hleast, hlt, habove, hlower⟩ | ⟨hleast, rfl⟩
  · have hdw : d < w := Nat.lt_of_le_of_ne habove.le fun heq => by
      rw [heq] at hlower
      exact Nat.lt_irrefl _ hlower
    obtain ⟨e, he, hidom⟩ := h.below (by omega) hdw
    refine ⟨_, ?_, hset (isImmediateDominator_of_least h0 hw habove hlt hleast hidom)⟩
    simp [complete?, hd, hsemi, Nat.ne_of_gt hlt, he, write?_of_size (h.size ▸ hw)]
  · have hsame : dominator.setIfInBounds w (some (t.semi w)) = dominator := by
      refine Array.ext_getElem? fun i => ?_
      rw [getElem?_setIfInBounds_of_lt (h.size ▸ hw)]
      split
      · simp_all
      · rfl
    refine ⟨dominator, by simp [complete?, hd, hsemi], ?_⟩
    exact hsame ▸ hset (isImmediateDominator_semi h0 hw hleast)

/-- The vertices of `l` are left to be completed: the last ones, in order. -/
def Uncompleted (t : DepthFirstTree) (l : List Nat) (dominator : Array (Option Nat)) : Prop :=
  ∃ k, 0 < k ∧ k + l.length = t.count ∧ l = List.range' k l.length ∧ CompletedBelow t k dominator

namespace Numbering

variable {n : Numbering}

/-- Every number but the root's gets its immediate dominator. -/
theorem exists_dominators? (h : n.IsDepthFirst g root) :
    ∃ dominator, n.dominators? g = some dominator ∧ CompletedBelow h.tree n.count dominator := by
  obtain ⟨edges, hedges, hmem⟩ := h.exists_edges?
  obtain ⟨s, hs, hseen⟩ := Progress.exists_finish? h hmem
  have h0 : 0 < n.count := lt_count h.root_eq
  have hsemi {w : Nat} (hw0 : 0 < w) (hw : w < n.count) : s.forest.semi[w]? = some (h.tree.semi w) := by
    rw [hseen.keeps.semi_eq (hseen.size ▸ hw), hseen.seen hw0 hw]
  have step : ∀ w l dominator, Uncompleted h.tree (w :: l) dominator →
      ∃ dominator', complete? s.forest.semi dominator w = some dominator' ∧
        Uncompleted h.tree l dominator' := by
    rintro w l dominator ⟨k, hk, hlen, hl, hbelow⟩
    rw [List.length_cons] at hlen hl
    rw [List.range'_succ, List.cons.injEq] at hl
    obtain ⟨rfl, hl⟩ := hl
    have hw : w < h.tree.count := by omega
    obtain ⟨dominator', hd, hbelow'⟩ := hbelow.exists_complete? hk hw (hsemi hk hw)
    exact ⟨dominator', hd, w + 1, by omega, by omega, hl, hbelow'⟩
  have hstart : Uncompleted h.tree n.descendants s.relative := by
    refine ⟨1, by omega, ?_, by simp [descendants], ?_⟩
    · simp only [descendants, List.length_range']
      exact Nat.add_sub_cancel' h0
    · exact
        { size := hseen.size_relative
          root := hseen.unsettled (by omega) h0
          below := fun hv hv1 => by omega
          rest := fun hv hlt => hseen.exists_relative hv hlt }
  obtain ⟨dominator, hd, k, -, hk, -, hbelow⟩ := exists_foldlM (Uncompleted h.tree) step hstart
  obtain rfl : k = n.count := hk
  exact ⟨dominator, by simp [dominators?, hedges, hs, hd], hbelow⟩

/-! ### Walks of nodes and walks of numbers -/

namespace IsDepthFirst

variable (h : n.IsDepthFirst g root)

include h

/-- Equal nodes have equal numbers, and the other way round. -/
theorem eq_iff (hx : n.vertex[v]? = some x) (hy : n.vertex[w]? = some y) : w = v ↔ y = x := by
  constructor
  · rintro rfl
    simpa [hy] using hx
  · rintro rfl
    rw [← h.number_iff] at hx hy
    simpa [hx, eq_comm] using hy

/-- A walk of nodes is one of numbers. -/
theorem exists_walk_number {q : List Nat} (hwalk : Walk g.Adj x y q) (hx : n.vertex[v]? = some x) :
    ∃ w p, n.vertex[w]? = some y ∧ Walk (n.Edge g) v w p ∧
      ∀ u z, n.vertex[u]? = some z → (u ∈ p ↔ z ∈ q) := by
  induction hwalk generalizing v with
  | single x =>
    refine ⟨v, [v], hx, .single v, fun u z hz => ?_⟩
    rw [List.mem_singleton, List.mem_singleton]
    exact h.eq_iff hx hz
  | @cons x x' y q hadj _ ih =>
    obtain ⟨v', hv', -⟩ := h.closed hx hadj
    obtain ⟨w, p, hw, hp, hmem⟩ := ih hv'
    refine ⟨w, v :: p, hw, .cons ⟨x, x', hx, hv', hadj⟩ hp, fun u z hz => ?_⟩
    rw [List.mem_cons, List.mem_cons, h.eq_iff hx hz, hmem u z hz]

/-- A walk of numbers is one of nodes. -/
theorem exists_walk_node {p : List Nat} (hwalk : Walk (n.Edge g) v w p) (hx : n.vertex[v]? = some x) :
    ∃ y q, n.vertex[w]? = some y ∧ Walk g.Adj x y q ∧
      ∀ u z, n.vertex[u]? = some z → (u ∈ p ↔ z ∈ q) := by
  induction hwalk generalizing x with
  | single v =>
    refine ⟨x, [x], hx, .single x, fun u z hz => ?_⟩
    rw [List.mem_singleton, List.mem_singleton]
    exact h.eq_iff hx hz
  | @cons v v' w p hedge _ ih =>
    obtain ⟨x₀, x', hx₀, hx', hadj⟩ := hedge
    obtain rfl : x = x₀ := by simpa [hx] using hx₀
    obtain ⟨y, q, hy, hq, hmem⟩ := ih hx'
    refine ⟨y, x :: q, hy, .cons hadj hq, fun u z hz => ?_⟩
    rw [List.mem_cons, List.mem_cons, h.eq_iff hx hz, hmem u z hz]

/-- What is reached from the root is numbered. -/
theorem exists_number {q : List Nat} (hwalk : Walk g.Adj root x q) : ∃ v : Nat, n.vertex[v]? = some x := by
  obtain ⟨v, -, hv, -⟩ := h.exists_walk_number hwalk h.root_eq
  exact ⟨v, hv⟩

/-- What is numbered is what is reached from the root. -/
theorem exists_number_iff : (∃ v : Nat, n.vertex[v]? = some x) ↔ ∃ p, Walk g.Adj root x p := by
  constructor
  · rintro ⟨v, hv⟩
    obtain ⟨p, hp⟩ := DepthFirstTree.exists_walk (t := h.tree) (Numbering.lt_count hv)
    obtain ⟨y, q, hy, hq, -⟩ := h.exists_walk_node hp h.root_eq
    obtain rfl : x = y := by simpa [hv] using hy
    exact ⟨q, hq⟩
  · rintro ⟨p, hp⟩
    exact h.exists_number hp

/-- Numbers dominate each other as their nodes do. -/
theorem dominates_iff_node (hd : n.vertex[d]? = some a) (hw : n.vertex[w]? = some b) :
    Dominates (n.Edge g) 0 d w ↔ Dominates g.Adj root a b := by
  constructor
  · rintro ⟨⟨p, hp⟩, hall⟩
    obtain ⟨b', q, hb', hq, -⟩ := h.exists_walk_node hp h.root_eq
    obtain rfl : b = b' := by simpa [hw] using hb'
    refine ⟨⟨q, hq⟩, fun q hq => ?_⟩
    obtain ⟨w', p', hw', hp', hmem⟩ := h.exists_walk_number hq h.root_eq
    obtain rfl := (h.eq_iff hw hw').mpr rfl
    exact (hmem d a hd).mp (hall p' hp')
  · rintro ⟨⟨q, hq⟩, hall⟩
    obtain ⟨w', p, hw', hp, -⟩ := h.exists_walk_number hq h.root_eq
    obtain rfl := (h.eq_iff hw hw').mpr rfl
    refine ⟨⟨p, hp⟩, fun p hp => ?_⟩
    obtain ⟨b', q', hb', hq', hmem⟩ := h.exists_walk_node hp h.root_eq
    obtain rfl : b = b' := by simpa [hw] using hb'
    exact (hmem d a hd).mpr (hall q' hq')

theorem strictlyDominates_iff_node (hd : n.vertex[d]? = some a) (hw : n.vertex[w]? = some b) :
    StrictlyDominates (n.Edge g) 0 d w ↔ StrictlyDominates g.Adj root a b := by
  rw [StrictlyDominates, StrictlyDominates, h.dominates_iff_node hd hw, ne_eq, ne_eq, h.eq_iff hw hd]

/-- The immediate dominator of a number is that of its node. -/
theorem isImmediateDominator_node (hd : n.vertex[d]? = some a) (hw : n.vertex[w]? = some b)
    (hidom : IsImmediateDominator (n.Edge g) 0 d w) : IsImmediateDominator g.Adj root a b := by
  refine ⟨(h.strictlyDominates_iff_node hd hw).mp hidom.1, fun a' ha' => ?_⟩
  obtain ⟨q, hq⟩ := ha'.2.reached
  obtain ⟨d', hd'⟩ := h.exists_number hq
  exact (h.dominates_iff_node hd' hd).mp (hidom.2 d' ((h.strictlyDominates_iff_node hd' hw).mpr ha'))

end IsDepthFirst

end Numbering

/-! ### The tree by nodes -/

namespace DominatorTree

variable {n : Numbering} {tree : DominatorTree}

/-- The tree tells by nodes what a numbering knows: which nodes are numbered, and the immediate dominator
of each of them. -/
structure Tells (h : n.IsDepthFirst g root) (tree : DominatorTree) : Prop where
  /-- Every node has a cell. -/
  size : tree.parent.size = g.size
  /-- The nodes in reach are those with a number. -/
  isReachable_iff : ∀ {x : Nat}, tree.isReachable x = true ↔ ∃ v : Nat, n.vertex[v]? = some x
  /-- The root has no immediate dominator. -/
  root : tree.immediateDominator? root = none
  /-- Every other numbered node has one. -/
  immediate : ∀ {v x : Nat}, 0 < v → n.vertex[v]? = some x → ∃ d y, n.vertex[d]? = some y ∧
    tree.immediateDominator? x = some y ∧ IsImmediateDominator (n.Edge g) 0 d v

/-- Going up in the tree from a node in reach meets its dominators. -/
theorem Tells.mem_chain_iff {h : n.IsDepthFirst g root} (htree : Tells h tree) {fuel : Nat}
    (hv : n.vertex[v]? = some x) (hfuel : v < fuel) :
    a ∈ tree.chain fuel x ↔ Dominates g.Adj root a x := by
  induction fuel generalizing v x with
  | zero => omega
  | succ fuel ih =>
    by_cases h0 : v = 0
    · subst h0
      obtain rfl : root = x := by simpa [h.root_eq] using hv
      simp only [chain, htree.root, List.mem_singleton]
      constructor
      · rintro rfl
        exact .self (.single a)
      · intro hdom
        simpa using hdom.2 [root] (.single root)
    · obtain ⟨d, y, hd, hy, hidom⟩ := htree.immediate (by omega) hv
      have hlt : d < v := IsImmediateDominator.lt (t := h.tree) (Numbering.lt_count hv) hidom
      simp only [chain, hy, List.mem_cons]
      rw [ih hd (by omega), (h.isImmediateDominator_node hd hv hidom).dominates_iff]

theorem Tells.dominates_iff {h : n.IsDepthFirst g root} (htree : Tells h tree) :
    tree.dominates a b = true ↔ Dominates g.Adj root a b := by
  rw [dominates, Bool.and_eq_true, Bool.and_eq_true, htree.isReachable_iff, htree.isReachable_iff,
    List.contains_iff_mem]
  have hmem {w : Nat} (hb : n.vertex[w]? = some b) : a ∈ tree.dominators b ↔ Dominates g.Adj root a b := by
    refine htree.mem_chain_iff hb ?_
    rw [htree.size]
    exact Nat.lt_of_lt_of_le (Numbering.lt_count hb) h.count_le
  constructor
  · rintro ⟨⟨-, w, hb⟩, ha⟩
    exact (hmem hb).mp ha
  · intro hdom
    obtain ⟨p, hp⟩ := hdom.reached
    obtain ⟨q, hq⟩ := hdom.1
    obtain ⟨w, hb⟩ := h.exists_number hq
    exact ⟨⟨h.exists_number hp, w, hb⟩, (hmem hb).mpr hdom⟩

/-- The immediate dominator of a node with the number `number`, or without one. -/
def cell? (n : Numbering) (dominator : Array (Option Nat)) (number : Option Nat) :
    Option (Option Nat) :=
  match number with
  | none => some none
  | some w => dominator[w]?.bind fun
    | none => some none
    | some d => n.vertex[d]?.map some

theorem ofNumbering?_eq : ofNumbering? root n dominator =
    (n.number.toList.mapM (cell? n dominator)).map fun parent =>
      { root, parent := parent.toArray, reached := n.number.map Option.isSome } := by
  rw [ofNumbering?, Option.map_eq_bind]
  refine congrArg (· >>= _) (congrArg (List.mapM · _) ?_)
  funext o
  match o with
  | none => rfl
  | some w =>
    match h : dominator[w]? with
    | none => simp [cell?, h]
    | some none => simp [cell?, h]
    | some (some d) => simp [cell?, h, Option.map_eq_bind]

theorem cell?_root (hdom : CompletedBelow t k dominator) :
    cell? n dominator (some 0) = some none := by
  simp [cell?, hdom.root]

theorem exists_cell? (h : n.IsDepthFirst g root) (hdom : CompletedBelow h.tree n.count dominator)
    (h0 : 0 < v) (hv : v < n.count) :
    ∃ d y, n.vertex[d]? = some y ∧ cell? n dominator (some v) = some (some y) ∧
      IsImmediateDominator (n.Edge g) 0 d v := by
  obtain ⟨d, hd, hidom⟩ := hdom.below h0 hv
  have hlt : d < v := IsImmediateDominator.lt (t := h.tree) hv hidom
  obtain ⟨y, hy⟩ := Numbering.exists_vertex (Nat.lt_trans hlt hv)
  exact ⟨d, y, hy, by simp [cell?, hd, hy], hidom⟩

/-- The tree made from a numbering and the immediate dominators by number tells both by nodes. -/
theorem exists_ofNumbering? (h : n.IsDepthFirst g root)
    (hdom : CompletedBelow h.tree n.count dominator) :
    ∃ tree, ofNumbering? root n dominator = some tree ∧ Tells h tree := by
  have hcell : ∀ o ∈ n.number.toList, ∃ cell, cell? n dominator o = some cell := by
    intro o ho
    match o with
    | none => exact ⟨none, rfl⟩
    | some 0 => exact ⟨none, cell?_root hdom⟩
    | some (v + 1) =>
      obtain ⟨x, hx⟩ := List.mem_iff_getElem?.mp ho
      rw [Array.getElem?_toList, h.number_iff] at hx
      obtain ⟨d, y, -, hcell, -⟩ := exists_cell? h hdom (by omega) (Numbering.lt_count hx)
      exact ⟨some y, hcell⟩
  obtain ⟨parent, hparent⟩ := exists_mapM hcell
  have hget {x v : Nat} (hv : n.vertex[v]? = some x) : parent[x]? = cell? n dominator (some v) := by
    rw [getElem?_of_mapM hparent, Array.getElem?_toList, h.number_iff.mpr hv, Option.bind_some]
  refine ⟨_, by rw [ofNumbering?_eq, hparent]; rfl, ?_⟩
  refine
    { size := ?_
      isReachable_iff := fun {x} => ?_
      root := ?_
      immediate := fun {v x} h0 hv => ?_ }
  · simp [length_of_mapM hparent, h.size_number]
  · simp only [isReachable, Array.getElem?_map, ← h.number_iff]
    match n.number[x]? with
    | none => simp
    | some none => simp
    | some (some v) => simp
  · simp [immediateDominator?, hget h.root_eq, cell?_root hdom]
  · obtain ⟨d, y, hy, hcell, hidom⟩ := exists_cell? h hdom h0 (Numbering.lt_count hv)
    exact ⟨d, y, hy, by simp [immediateDominator?, hget hv, hcell], hidom⟩

/-- The tree of a root that is a node tells what the numbering of the search from there knows. -/
theorem tells_compute (hroot : root < g.size) (hn : g.depthFirst? root = some n) (h : n.IsDepthFirst g root) :
    compute? g root = some (compute g root) ∧ Tells h (compute g root) := by
  obtain ⟨dominator, hd, hdom⟩ := Numbering.exists_dominators? h
  obtain ⟨tree, ht, htree⟩ := exists_ofNumbering? h hdom
  have hcompute : compute? g root = some tree := by simp [compute?, hroot, hn, hd, ht]
  have hsame : compute g root = tree := by simp [compute, hcompute]
  exact ⟨hsame ▸ hcompute, hsame ▸ htree⟩

theorem exists_tells (hroot : root < g.size) :
    ∃ (n : Numbering) (h : n.IsDepthFirst g root), Tells h (compute g root) := by
  obtain ⟨n, hn, h⟩ := exists_depthFirst? hroot
  exact ⟨n, h, (tells_compute hroot hn h).2⟩

/-- In the dominator tree of a graph a node dominates another just if the root reaches the other and every
walk to it passes through the first; from a root that is no node nothing dominates anything. -/
theorem dominates_compute_iff (g : Digraph) (root a b : Nat) :
    (compute g root).dominates a b = true ↔ root < g.size ∧ Dominates g.Adj root a b := by
  by_cases hroot : root < g.size
  · obtain ⟨n, h, htree⟩ := exists_tells hroot
    rw [htree.dominates_iff]
    exact (and_iff_right hroot).symm
  · have hreach (x : Nat) : (compute g root).isReachable x = false := by
      simp only [compute, compute?, if_neg hroot, Option.getD_some, unreached, isReachable,
        Array.getElem?_replicate]
      split <;> rfl
    simp [dominates, hreach, hroot]

end DominatorTree

end Disassembly.Graph
