import Disassembly.Proofs.Graph.Ancestor
import Disassembly.Proofs.Graph.Walk

/-!
# Depth-first trees

A graph on the vertices `0, …, count - 1` with a spanning tree of root 0, numbered in the order in
which a depth-first search enters the vertices. Two laws carry everything else: the descendants of a
vertex are numbered without a gap (`interval`), and an edge to a greater number goes down the tree
(`forward`). `exists_turn` is what they come to: on every walk, the least vertex is an ancestor of the
last, so that a walk to a vertex turns down the tree somewhere above it and never leaves it again.
-/

namespace Disassembly.Graph

/-- A graph with a spanning tree in depth-first order. -/
structure DepthFirstTree where
  /-- How many vertices there are. -/
  count : Nat
  /-- The edges. -/
  edge : Nat → Nat → Prop
  /-- The vertex above each vertex but the root. -/
  parent : Nat → Option Nat
  /-- Edges run between vertices. -/
  edge_lt : ∀ {v w : Nat}, edge v w → v < count ∧ w < count
  /-- Every vertex but the root has a parent. -/
  exists_parent : ∀ {w : Nat}, 0 < w → w < count → ∃ p, parent w = some p
  /-- Parents come first. -/
  parent_lt : Descending parent
  /-- From the parent there is an edge. -/
  parent_edge : ∀ {p w : Nat}, parent w = some p → edge p w
  /-- An edge to a greater number goes to a descendant. -/
  forward : ∀ {v w : Nat}, edge v w → v < w → Ancestor parent v w
  /-- Whatever is numbered between a vertex and a descendant is a descendant too. -/
  interval : ∀ {u v w : Nat}, Ancestor parent u w → u ≤ v → v ≤ w → Ancestor parent u v

namespace DepthFirstTree

variable (t : DepthFirstTree) {a d u v w x : Nat} {p : List Nat}

/-- `u` is `v` or one of the vertices above it. -/
abbrev Above (u v : Nat) : Prop := Ancestor t.parent u v

variable {t}

theorem Above.le (h : t.Above u v) : u ≤ v := Ancestor.le t.parent_lt h

theorem Above.of_le (h : t.Above u w) (h' : t.Above v w) (hle : u ≤ v) : t.Above u v :=
  Ancestor.of_le t.parent_lt h h' hle

/-- The root is above every vertex. -/
theorem above_of_lt (hw : w < t.count) : t.Above 0 w := by
  induction w using Nat.strongRecOn with
  | ind w ih =>
    by_cases h0 : w = 0
    · subst h0
      exact .refl
    · obtain ⟨p, hp⟩ := t.exists_parent (by omega) hw
      have := t.parent_lt hp
      exact .up hp (ih p this (by omega))

/-- Down the tree there is a walk among the vertices between its ends. -/
theorem Above.exists_walk (h : t.Above u w) :
    ∃ p, Walk t.edge u w p ∧ ∀ x ∈ p, u ≤ x ∧ x ≤ w := by
  induction h with
  | refl => exact ⟨[u], .single u, by simp⟩
  | @up q w hq h ih =>
    obtain ⟨p, hp, hle⟩ := ih
    refine ⟨p ++ [w], hp.snoc (t.parent_edge hq), fun x hx => ?_⟩
    have hqw := t.parent_lt hq
    have huq := Above.le h
    rcases List.mem_append.mp hx with hx | hx
    · have := hle x hx
      omega
    · obtain rfl := List.mem_singleton.mp hx
      omega

theorem exists_walk (hw : w < t.count) : ∃ p, Walk t.edge 0 w p := by
  obtain ⟨p, hp, -⟩ := (above_of_lt hw).exists_walk
  exact ⟨p, hp⟩

/-- A walk that never goes below `u` stays among the descendants of `u`. -/
theorem above_of_walk (h : Walk t.edge v w p) (hv : t.Above u v) (hle : ∀ x ∈ p, u ≤ x) :
    t.Above u w := by
  induction h with
  | single v => exact hv
  | @cons v x w p he h ih =>
    refine ih ?_ fun y hy => hle y (.tail _ hy)
    have hux := hle x (.tail _ h.start_mem)
    by_cases hvx : v < x
    · exact hv.trans (t.forward he hvx)
    · exact t.interval hv hux (by omega)

/-- Every walk turns at its least vertex `y`: up to its first visit there it keeps above `y`, and from
there on it goes down to its end. -/
theorem exists_turn (h : Walk t.edge v w p) :
    ∃ y ∈ p, t.Above y w ∧ (∀ x ∈ p, y ≤ x) ∧ ∃ q, Walk t.edge v y q ∧ ∀ x ∈ q, y ≤ x := by
  induction h with
  | single v => exact ⟨v, by simp, .refl, by simp, [v], .single v, by simp⟩
  | @cons v u w p he h ih =>
    obtain ⟨y, hy, hyw, hle, q, hq, hqle⟩ := ih
    by_cases hvy : v ≤ y
    · have hle' : ∀ x ∈ v :: p, v ≤ x := by
        intro x hx
        rcases List.mem_cons.mp hx with rfl | hx
        · exact Nat.le_refl x
        · exact Nat.le_trans hvy (hle x hx)
      exact ⟨v, .head _, above_of_walk (.cons he h) .refl hle', hle', [v], .single v, by simp⟩
    · have hyv : y ≤ v := by omega
      exact ⟨y, .tail _ hy, hyw, List.forall_mem_cons.mpr ⟨hyv, hle⟩, v :: q, .cons he hq,
        List.forall_mem_cons.mpr ⟨hyv, hqle⟩⟩

end DepthFirstTree

end Disassembly.Graph
