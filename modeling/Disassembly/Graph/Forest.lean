import Disassembly.Graph.Cell

/-!
# Forests with path compression

A forest grows by linking the root of a tree under a vertex of another. Every vertex carries a
semidominator value, and `Forest.eval?` asks for the vertex of least value on the path from a vertex
up to its root, the root left out. To answer fast next time the path is compressed: every vertex of
it is hung just under the root, and its label remembers the best vertex that was passed over.
-/

namespace Disassembly.Graph

/-- A forest on the vertices `0, …, n - 1`. -/
structure Forest where
  /-- The value of each vertex. -/
  semi : Array Nat
  /-- The vertex above each vertex on its compressed path; a root has none. -/
  ancestor : Array (Option Nat)
  /-- For each vertex the best one on the part of its path that compression has left out. -/
  label : Array Nat

namespace Forest

/-- Every vertex alone, its value its own number. -/
def singletons (count : Nat) : Forest where
  semi := Array.range count
  ancestor := Array.replicate count none
  label := Array.range count

/-- Hangs the tree of the root `child` under `parent`. -/
def link? (f : Forest) (parent child : Nat) : Option Forest := do
  return { f with ancestor := ← fill? f.ancestor child parent }

/-- The vertices from `v` upwards that are neither roots nor just under one, the uppermost first,
before those of `path`. -/
def climb? (f : Forest) : (fuel : Nat) → (v : Nat) → (path : List Nat) → Option (List Nat)
  | 0, _, _ => none
  | fuel + 1, v, path => do
    let a ← (← f.ancestor[v]?)
    match ← f.ancestor[a]? with
    | none => some path
    | some _ => f.climb? fuel a (v :: path)

/-- Hangs `v` under the vertex above the one above it, and lets its label take over what is passed
over if that is better. -/
def shorten? (f : Forest) (v : Nat) : Option Forest := do
  let a ← (← f.ancestor[v]?)
  let passed ← f.label[a]?
  let own ← f.label[v]?
  let better := (← f.semi[passed]?) < (← f.semi[own]?)
  return { f with
    label := ← write? f.label v (if better then passed else own)
    ancestor := ← write? f.ancestor v (← f.ancestor[a]?) }

/-- Hangs every vertex on the path from `v` just under its root, from the top down. -/
def compress? (f : Forest) (v : Nat) : Option Forest := do
  (← f.climb? f.ancestor.size v []).foldlM shorten? f

/-- A vertex of least value on the path from `v` to its root without the root, or `v` if it is a
root itself, together with the compressed forest. -/
def eval? (f : Forest) (v : Nat) : Option (Nat × Forest) := do
  match ← f.ancestor[v]? with
  | none => some (v, f)
  | some _ =>
    let f ← f.compress? v
    return (← f.label[v]?, f)

end Forest

end Disassembly.Graph
