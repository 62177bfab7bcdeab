import Disassembly.Proofs.Graph.Course

/-!
# Compression goes unnoticed

A forest answers as the tree of its links tells, whichever paths were compressed before (`Forest.Answers`), after all
orderly calls and so at every point of a run that finds semidominators (`Forest.compression_unobservable`).
-/

namespace Disassembly.Graph.Forest

/-- What a forest says about `v` is what the tree of its links tells. -/
structure Answers (tree : Nat → Option Nat) (f : Forest) (v : Nat) : Prop where
  /-- A vertex that was not linked is its own answer. -/
  eval_root : tree v = none → f.eval? v = some (v, f)
  /-- The answer for any other is a vertex of least value on the path of the tree from it up to its root, the root
  left out. -/
  eval_best : tree v ≠ none → ∃ u f', f.eval? v = some (u, f') ∧ OnPath tree v u ∧
    ∀ w, OnPath tree v w → f.value u ≤ f.value w
  /-- The roots, be it those of the forest or of the tree, and the least values that it yields for other vertices are
  the same after its path has been compressed. -/
  compress : tree v ≠ none → ∃ f', f.compress? v = some f' ∧ ∀ x, f'.yield? x = f.yield? x ∧
    ∀ r, (f'.IsRootOf r x ↔ f.IsRootOf r x) ∧ (f.IsRootOf r x ↔ Ancestor tree r x ∧ tree r = none)

variable {tree : Nat → Option Nat} {f : Forest} {v : Nat}

theorem Keeps.answers (h : Keeps tree f) (hv : v < f.ancestor.size) : Answers tree f v where
  eval_root := h.eval?_of_root hv
  eval_best := fun hp => by
    obtain ⟨u, f', heval, -, hu, hleast⟩ := h.exists_best hp
    exact ⟨u, f', heval, hu, hleast⟩
  compress := fun hp => by
    obtain ⟨p, hp⟩ := Option.ne_none_iff_exists'.mp hp
    obtain ⟨f', hcompress, hkeeps, hsemi, -⟩ := h.exists_compress? hp
    refine ⟨f', hcompress, fun x => ⟨h.yield?_congr hkeeps hsemi x, fun r => ⟨?_, h.isRootOf_iff⟩⟩⟩
    rw [hkeeps.isRootOf_iff, h.isRootOf_iff]

/-- After orderly calls a forest answers as the tree of the links among them tells. The calls that are made of the
forest while semidominators are found are orderly, up to any of them. -/
theorem compression_unobservable :
    (∀ count calls f, Orderly calls → (singletons count).after? calls = some f →
      ∀ v < count, Answers (linkedBy calls) f v) ∧
    ∀ (g : Digraph) (root : Nat), root < g.size → ∃ n edges c, g.depthFirst? root = some n ∧
      n.edges? g = some edges ∧ Course.finish? n edges = some c ∧ Progress.finish? n edges = some c.toProgress ∧
      (singletons n.count).after? c.calls = some c.forest ∧
      ∀ calls, calls <+: c.calls → Orderly calls ∧ ∃ f, (singletons n.count).after? calls = some f := by
  constructor
  · intro count calls f horderly hcalls v hv
    obtain ⟨hkeeps, hsize⟩ := keeps_of_orderly horderly hcalls
    exact hkeeps.answers (hsize ▸ hv)
  · intro g root hroot
    obtain ⟨n, edges, c, hn, hedges, hc, hprogress, h, hdone⟩ := Course.exists_recorded hroot
    refine ⟨n, edges, c, hn, hedges, hc, hprogress, hdone.after?_eq, fun calls hcalls => ?_⟩
    obtain ⟨rest, hrest⟩ := hcalls
    have hafter : (singletons n.count).after? (calls ++ rest) = some c.forest := hrest ▸ hdone.after?_eq
    rw [after?_append] at hafter
    obtain ⟨f, hf, -⟩ := Option.bind_eq_some_iff.mp hafter
    exact ⟨hdone.orderly.of_prefix ⟨rest, hrest⟩, f, hf⟩

/-- Five vertices are linked to one path, which is compressed in part on the way. -/
def trail : List Call :=
  [.lower 4 1, .link 3 4, .lower 3 2, .link 2 3, .eval 4, .lower 2 0, .link 1 2, .lower 1 0, .link 0 1]

/-- In the tree 4 hangs under 3, but the path that is left of it goes past that. -/
theorem compression_unobservable_trail :
    (∃ f, (singletons 5).after? trail = some f ∧ linkedBy trail 4 = some 3 ∧ f.above 4 = some 2 ∧
      Answers (linkedBy trail) f 4) ∧
    ∃ n edges c, Course.shortcut.depthFirst? 0 = some n ∧ n.edges? Course.shortcut = some edges ∧
      Course.finish? n edges = some c ∧ (singletons n.count).after? c.calls = some c.forest ∧ Orderly c.calls := by
  have habove : ((singletons 5).after? trail).map (above · 4) = some (some 2) := by decide +kernel
  obtain ⟨f, hf, habove⟩ := Option.map_eq_some_iff.mp habove
  obtain ⟨n, edges, c, hn, hedges, hc, -, hafter, hall⟩ := compression_unobservable.2 Course.shortcut 0 (by decide)
  exact ⟨⟨f, hf, by decide, habove, compression_unobservable.1 5 trail f (by decide) hf 4 (by decide)⟩,
    n, edges, c, hn, hedges, hc, hafter, (hall c.calls (List.prefix_refl _)).1⟩

end Disassembly.Graph.Forest
