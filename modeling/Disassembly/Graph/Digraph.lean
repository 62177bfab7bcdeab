/-!
# Directed graphs

A graph on the nodes `0, …, n - 1`, given by the successors of each node. A successor that is no
node of the graph counts for nothing, and one that is listed twice counts as once: `Digraph.Adj` is
what the graph means, and `Digraph.adj_iff` reads it off the lists. `adj_ofEdges` says that a graph made
from a list of edges has exactly those edges of the list that run between its nodes.
-/

namespace Disassembly.Graph

/-- A directed graph by lists of successors. -/
structure Digraph where
  /-- The successors of each node; they need not be nodes. -/
  successors : Array (List Nat)
  deriving Repr

namespace Digraph

/-- How many nodes there are. -/
def size (g : Digraph) : Nat := g.successors.size

/-- The successors of a node that are nodes themselves, in order. -/
def neighbours (g : Digraph) (v : Nat) : List Nat :=
  (g.successors[v]?.getD []).filter (· < g.size)

/-- How many edges there are, repeated ones counted as often as they are listed. -/
def edgeCount (g : Digraph) : Nat := ((List.range g.size).map fun v => (g.neighbours v).length).foldr (· + ·) 0

/-- There is an edge from `v` to `w`. -/
def Adj (g : Digraph) (v w : Nat) : Prop := w ∈ g.neighbours v

instance (g : Digraph) (v w : Nat) : Decidable (g.Adj v w) := inferInstanceAs (Decidable (_ ∈ _))

/-- There is an edge to each node that is listed among the successors. -/
theorem adj_iff {g : Digraph} {v w : Nat} :
    g.Adj v w ↔ ∃ listed, g.successors[v]? = some listed ∧ w ∈ listed ∧ w < g.size := by
  unfold Adj neighbours
  cases g.successors[v]? with
  | none => simp
  | some listed => simp

theorem Adj.lt_size {g : Digraph} {v w : Nat} (h : g.Adj v w) : v < g.size ∧ w < g.size := by
  obtain ⟨listed, hlisted, -, hw⟩ := adj_iff.mp h
  exact ⟨(Array.getElem?_eq_some_iff.mp hlisted).1, hw⟩

/-- One more edge, put before the others of its source. -/
def addEdge (edge : Nat × Nat) (successors : Array (List Nat)) : Array (List Nat) :=
  successors.modify edge.1 (edge.2 :: ·)

/-- The graph on `n` nodes with the given edges; an edge from or to elsewhere counts for nothing. -/
def ofEdges (n : Nat) (edges : List (Nat × Nat)) : Digraph where
  successors := edges.foldr addEdge (Array.replicate n [])

@[simp] theorem size_ofEdges (n : Nat) (edges : List (Nat × Nat)) : (ofEdges n edges).size = n := by
  unfold size ofEdges
  induction edges with
  | nil => simp
  | cons edge edges ih => simpa [addEdge] using ih

theorem getElem?_ofEdges (n : Nat) (edges : List (Nat × Nat)) (v : Nat) (h : v < n) :
    (ofEdges n edges).successors[v]? =
      some ((edges.filter (·.1 = v)).map Prod.snd) := by
  unfold ofEdges
  induction edges with
  | nil => simp [h]
  | cons edge edges ih =>
    simp only [List.foldr_cons, addEdge, Array.getElem?_modify]
    by_cases hv : edge.1 = v
    · simp [hv, ih]
    · simp [hv, ih]

theorem adj_ofEdges {n : Nat} {edges : List (Nat × Nat)} {v w : Nat} :
    (ofEdges n edges).Adj v w ↔ v < n ∧ w < n ∧ (v, w) ∈ edges := by
  have hlisted : w ∈ (edges.filter (·.1 = v)).map Prod.snd ↔ (v, w) ∈ edges := by
    simp only [List.mem_map, List.mem_filter, decide_eq_true_eq, Prod.exists]
    constructor
    · rintro ⟨a, b, ⟨hmem, rfl⟩, rfl⟩
      exact hmem
    · intro hmem
      exact ⟨v, w, ⟨hmem, rfl⟩, rfl⟩
  constructor
  · intro h
    obtain ⟨hv, hw⟩ := h.lt_size
    rw [size_ofEdges] at hv hw
    obtain ⟨listed, hsuccessors, hmem, -⟩ := adj_iff.mp h
    rw [getElem?_ofEdges n edges v hv, Option.some.injEq] at hsuccessors
    exact ⟨hv, hw, hlisted.mp (hsuccessors ▸ hmem)⟩
  · rintro ⟨hv, hw, hmem⟩
    rw [adj_iff, getElem?_ofEdges n edges v hv, size_ofEdges]
    exact ⟨_, rfl, hlisted.mpr hmem, hw⟩

end Digraph

end Disassembly.Graph
