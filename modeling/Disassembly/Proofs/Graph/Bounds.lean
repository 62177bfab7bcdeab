import Disassembly.Proofs.Graph.Compression
import Disassembly.Proofs.Graph.ImmediateDominators

/-!
# Bounds

Nothing is read or written past the end of an array while a dominator tree is computed, and every loop of the
computation ends. That the checks made on the way all succeed is what `compute?` having a result says
(`DominatorTree.tells_compute`). Loops end because numbers go down: a vertex of the forest hangs under a smaller one
(`Forest.InBounds`), so that the climb to just under the root takes fewer rounds than the number of its vertex
(`Forest.InBounds.exists_path`), and an immediate dominator has a smaller number than its node, so that going up from a
node ends at the root (`DominatorTree.Tells.exists_ascent`). `DominatorTree.compute_in_bounds` puts all of this together.
-/

namespace Disassembly.Graph

open DepthFirstTree

/-! ### The forest -/

namespace Forest

variable {tree : Nat → Option Nat} {f : Forest} {a count fuel v : Nat}

/-- Every vertex has a cell in each array, and every index that a cell holds is that of a vertex, not past its own. -/
structure InBounds (count : Nat) (f : Forest) : Prop where
  /-- Every vertex has a value. -/
  size_semi : f.semi.size = count
  /-- Every vertex hangs under another or is known to be a root. -/
  size_ancestor : f.ancestor.size = count
  /-- Every vertex has a label. -/
  size_label : f.label.size = count
  /-- A vertex hangs under a smaller one. -/
  ancestor_lt : ∀ {v a : Nat}, f.ancestor[v]? = some (some a) → a < v
  /-- The label of a vertex is no greater one. -/
  label_le : ∀ {v u : Nat}, f.label[v]? = some u → u ≤ v

theorem Keeps.inBounds (h : Keeps tree f) : f.InBounds f.ancestor.size where
  size_semi := h.size_semi
  size_ancestor := rfl
  size_label := h.size_label
  ancestor_lt := fun ha => by
    obtain ⟨-, -, -, -, hlt, -⟩ := h.of_ancestor ha
    exact hlt
  label_le := fun {v u} hu => by
    have hv : v < f.ancestor.size := h.size_label ▸ (Array.getElem?_eq_some_iff.mp hu).1
    cases hp : tree v with
    | none =>
      obtain rfl : v = u := by simpa [(h.root hv hp).2] using hu
      exact Nat.le_refl v
    | some p =>
      obtain ⟨a, u', -, hu', -, -, hbest⟩ := h.linked hp
      obtain rfl : u' = u := by simpa [hu'] using hu
      exact hbest.above.le h.descending

/-- The climb from a vertex that hangs under another ends after fewer rounds than the number of the vertex, each of
which notes one vertex; fuel only has to last that long. -/
theorem InBounds.exists_path (h : f.InBounds count) (ha : f.ancestor[v]? = some (some a)) :
    ∃ path, path.length < v ∧ ∀ fuel rest, v < fuel → f.climb? fuel v rest = some (path ++ rest) := by
  induction v using Nat.strongRecOn generalizing a with
  | ind v ih =>
    have hav := h.ancestor_lt ha
    have hv := (Array.getElem?_eq_some_iff.mp ha).1
    obtain ⟨above, habove⟩ : ∃ above, f.ancestor[a]? = some above :=
      ⟨_, Array.getElem?_eq_getElem (Nat.lt_trans hav hv)⟩
    cases above with
    | none =>
      refine ⟨[], by simpa using Nat.zero_lt_of_lt hav, fun fuel rest hfuel => ?_⟩
      obtain ⟨fuel, rfl⟩ := Nat.exists_eq_succ_of_ne_zero (Nat.ne_zero_of_lt hfuel)
      simp [climb?, ha, habove]
    | some b =>
      obtain ⟨path, hlength, hclimb⟩ := ih a hav habove
      refine ⟨path ++ [v], by simp; omega, fun fuel rest hfuel => ?_⟩
      obtain ⟨fuel, rfl⟩ := Nat.exists_eq_succ_of_ne_zero (Nat.ne_zero_of_lt hfuel)
      simp [climb?, ha, habove, hclimb fuel (v :: rest) (by omega)]

end Forest

/-- Whatever the forest was asked for first in a run, it was answered. -/
theorem Course.Faithful.exists_forest {t : DepthFirstTree} {c : Course} {k : Nat} {calls : List Forest.Call}
    (h : c.Faithful t k) (hcalls : calls <+: c.calls) :
    ∃ f, (Forest.singletons t.count).after? calls = some f ∧ f.Keeps (Forest.linkedBy calls) ∧
      f.ancestor.size = t.count := by
  have horderly := h.orderly.of_prefix hcalls
  obtain ⟨rest, hrest⟩ := hcalls
  have hafter : (Forest.singletons t.count).after? (calls ++ rest) = some c.forest := hrest ▸ h.after?_eq
  rw [Forest.after?_append] at hafter
  obtain ⟨f, hf, -⟩ := Option.bind_eq_some_iff.mp hafter
  exact ⟨f, hf, Forest.keeps_of_orderly horderly hf⟩

namespace DominatorTree

variable {g : Digraph} {root d v x y : Nat} {n : Numbering} {tree : DominatorTree}

/-! ### Going up -/

/-- `d` is the immediate dominator of `x` and has a smaller number. -/
def StepsUp (n : Numbering) (tree : DominatorTree) (x d : Nat) : Prop :=
  tree.immediateDominator? x = some d ∧
    ∃ v w, n.number[x]? = some (some v) ∧ n.number[d]? = some (some w) ∧ w < v

/-- `path` leads from `x` to the root, from each node to its immediate dominator and so to smaller and smaller numbers. -/
structure Ascent (n : Numbering) (tree : DominatorTree) (root x : Nat) (path : List Nat) : Prop where
  /-- It starts at `x`. -/
  head?_eq : path.head? = some x
  /-- It ends at the root, -/
  getLast?_eq : path.getLast? = some root
  /-- which has no immediate dominator. -/
  top : tree.immediateDominator? root = none
  /-- In between it goes to immediate dominators. -/
  isChain : path.IsChain (StepsUp n tree)

/-- Going up from `x` one meets `d` (`true`), or comes to a node without an immediate dominator and has not met it. -/
inductive Meets (tree : DominatorTree) (d : Nat) : Nat → Bool → Prop where
  /-- Here it is. -/
  | here : Meets tree d d true
  /-- It is another node, and one goes on from its immediate dominator. -/
  | up {x y : Nat} {met : Bool} : x ≠ d → tree.immediateDominator? x = some y → Meets tree d y met → Meets tree d x met
  /-- It is another node, and there is nowhere to go. -/
  | top {x : Nat} : x ≠ d → tree.immediateDominator? x = none → Meets tree d x false

theorem Ascent.cons (hstep : StepsUp n tree x y) {path : List Nat} (h : Ascent n tree root y path) :
    Ascent n tree root x (x :: path) where
  head?_eq := rfl
  getLast?_eq := by simp [List.getLast?_cons, h.getLast?_eq]
  top := h.top
  isChain := List.isChain_cons.mpr ⟨fun z hz => by
    obtain rfl : y = z := by simpa [h.head?_eq] using hz
    exact hstep, h.isChain⟩

namespace Tells

variable {h : n.IsDepthFirst g root} (htree : Tells h tree)

include htree

theorem stepsUp (hv : n.vertex[v]? = some x) (hd : tree.immediateDominator? x = some d) :
    StepsUp n tree x d ∧ ∃ w < v, n.vertex[w]? = some d := by
  have h0 : 0 < v := by
    apply Nat.pos_of_ne_zero
    rintro rfl
    obtain rfl : root = x := by simpa [h.root_eq] using hv
    simp [htree.root] at hd
  obtain ⟨w, y, hw, hy, hidom⟩ := htree.immediate h0 hv
  obtain rfl : y = d := by simpa [hy] using hd
  have hlt : w < v := IsImmediateDominator.lt (t := h.tree) (Numbering.lt_count hv) hidom
  exact ⟨⟨hd, v, w, h.number_iff.mpr hv, h.number_iff.mpr hw, hlt⟩, w, hlt, hw⟩

/-- Going up from a node in reach ends at the root after no more steps than the number of the node, with any fuel that
lasts for the nodes on the way. -/
theorem exists_ascent (hv : n.vertex[v]? = some x) :
    ∃ path, Ascent n tree root x path ∧ path.length ≤ v + 1 ∧
      ∀ fuel, path.length ≤ fuel → tree.chain fuel x = path := by
  induction v using Nat.strongRecOn generalizing x with
  | ind v ih =>
    by_cases h0 : v = 0
    · subst h0
      obtain rfl : root = x := by simpa [h.root_eq] using hv
      refine ⟨[root], ⟨rfl, rfl, htree.root, List.isChain_singleton root⟩, by simp, fun fuel hfuel => ?_⟩
      obtain ⟨fuel, rfl⟩ := Nat.exists_eq_succ_of_ne_zero (Nat.ne_zero_of_lt hfuel)
      simp [chain, htree.root]
    · obtain ⟨-, y, -, hy, -⟩ := htree.immediate (by omega) hv
      obtain ⟨hstep, w, hlt, hw⟩ := htree.stepsUp hv hy
      obtain ⟨path, hpath, hlength, hchain⟩ := ih w hlt hw
      refine ⟨x :: path, hpath.cons hstep, by simp; omega, fun fuel hfuel => ?_⟩
      obtain ⟨fuel, rfl⟩ := Nat.exists_eq_succ_of_ne_zero (Nat.ne_zero_of_lt hfuel)
      simp [chain, hy, hchain fuel (by simpa using hfuel)]

/-- Whether a node is on the way up is what going up finds out. -/
theorem meets (d : Nat) {fuel : Nat} (hv : n.vertex[v]? = some x) (hfuel : v < fuel) :
    tree.Meets d x ((tree.chain fuel x).contains d) := by
  induction fuel generalizing v x with
  | zero => omega
  | succ fuel ih =>
    by_cases hx : x = d
    · subst hx
      simpa [chain] using Meets.here
    · have hdx : d ≠ x := Ne.symm hx
      cases hy : tree.immediateDominator? x with
      | none => simpa [chain, hy, hdx] using Meets.top hx hy
      | some y =>
        obtain ⟨-, w, hlt, hw⟩ := htree.stepsUp hv hy
        have hup := Meets.up hx hy (ih hw (by omega))
        simpa [chain, hy, hdx] using hup

end Tells

/-- From no node one can go up for ever. -/
theorem wellFounded_immediateDominator? (g : Digraph) (root : Nat) :
    WellFounded fun d x => (compute g root).immediateDominator? x = some d := by
  by_cases hroot : root < g.size
  · obtain ⟨n, h, htree⟩ := exists_tells hroot
    let rank (x : Nat) : Nat := n.number[x]?.join.getD 0
    refine Subrelation.wf (r := fun d x => rank d < rank x) (fun {d x} hd => ?_) (measure rank).wf
    have hreach : (compute g root).isReachable x = true := by
      apply Decidable.byContradiction
      intro hne
      rw [immediateDominator?_of_isReachable_eq_false (Bool.eq_false_iff.mpr hne)] at hd
      cases hd
    obtain ⟨v, hv⟩ := htree.isReachable_iff.mp hreach
    obtain ⟨⟨-, v', w, hv', hw, hlt⟩, -⟩ := htree.stepsUp hv hd
    simpa [rank, hv', hw] using hlt
  · refine ⟨fun x => .intro x fun d hd => ?_⟩
    simp [compute, compute?, hroot] at hd

/-- Computing a dominator tree uses no place outside an array, nor a missing entry as a place, and all loops in it end.
The checks on the way succeed, and what is looked up without one, the successors of a vertex and the predecessors of a
number, is there. Every parent, every vertex above another in the forest, whatever the forest was asked for before, and
every immediate dominator has a smaller number than what is below it. So compressing a path ends after fewer rounds than
the number of its vertex, and going up from a node in reach comes to the root after fewer steps than there are nodes,
whatever one looks for on the way. -/
theorem compute_in_bounds (g : Digraph) (root : Nat) :
    (compute? g root = some (compute g root) ∧ (compute g root).parent.size = g.size) ∧
    (WellFounded fun d x => (compute g root).immediateDominator? x = some d) ∧
    (root < g.size → ∃ n edges c, g.depthFirst? root = some n ∧ n.edges? g = some edges ∧
      Course.finish? n edges = some c ∧ Progress.finish? n edges = some c.toProgress ∧
      (∀ v x : Nat, n.vertex[v]? = some x → x < g.size ∧ n.number[x]? = some (some v)) ∧
      (∀ v w, (v, w) ∈ edges → v < n.count ∧ w < n.count) ∧
      (∀ w : Nat, 0 < w → w < n.count → ∃ p, n.parent[w]? = some (some p) ∧ p < w) ∧
      (∀ calls, calls <+: c.calls → ∃ f, (Forest.singletons n.count).after? calls = some f ∧ f.InBounds n.count ∧
        ∀ v a : Nat, f.ancestor[v]? = some (some a) → ∃ path f', path.length < v ∧
          (∀ fuel, v < fuel → f.climb? fuel v [] = some path) ∧ f.compress? v = some f') ∧
      ∀ x, (compute g root).isReachable x = true →
        (∃ path, Ascent n (compute g root) root x path ∧ path.length ≤ g.size ∧
          ∀ fuel, path.length ≤ fuel → (compute g root).chain fuel x = path) ∧
        ∀ d, (compute g root).isReachable d = true →
          (compute g root).Meets d x ((compute g root).dominates d x)) := by
  refine ⟨?_, wellFounded_immediateDominator? g root, fun hroot => ?_⟩
  · by_cases hroot : root < g.size
    · obtain ⟨n, hn, h⟩ := exists_depthFirst? hroot
      obtain ⟨hcompute, htree⟩ := tells_compute hroot hn h
      exact ⟨hcompute, htree.size⟩
    · simp [compute, compute?, hroot, unreached]
  obtain ⟨n, edges, c, hn, hedges, hc, hprogress, h, hdone⟩ := Course.exists_recorded hroot
  have htree := (tells_compute hroot hn h).2
  have hle := h.count_le
  refine ⟨n, edges, c, hn, hedges, hc, hprogress, fun v x hx => ?_, fun v w hmem => ?_, fun w h0 hw => ?_,
    fun calls hcalls => ?_, fun x hx => ?_⟩
  · have hnumber := h.number_iff.mpr hx
    exact ⟨h.size_number ▸ (Array.getElem?_eq_some_iff.mp hnumber).1, hnumber⟩
  · obtain ⟨edges', hedges', hiff⟩ := h.exists_edges?
    obtain rfl : edges = edges' := Option.some.inj (hedges.symm.trans hedges')
    exact h.tree.edge_lt ((hiff v w).mp hmem)
  · obtain ⟨p, hp⟩ := h.exists_above h0 hw
    exact ⟨p, Option.join_eq_some_iff.mp hp, h.descending hp⟩
  · obtain ⟨f, hf, hkeeps, hsize⟩ : ∃ f, (Forest.singletons n.count).after? calls = some f ∧
        f.Keeps (Forest.linkedBy calls) ∧ f.ancestor.size = n.count := hdone.toFaithful.exists_forest hcalls
    have hbounds : f.InBounds n.count := hsize ▸ hkeeps.inBounds
    refine ⟨f, hf, hbounds, fun v a ha => ?_⟩
    obtain ⟨⟨p, hp⟩, -⟩ := hkeeps.of_ancestor ha
    obtain ⟨path, hlength, hclimb⟩ := hbounds.exists_path ha
    obtain ⟨f', hf', -⟩ := hkeeps.exists_compress? hp
    exact ⟨path, f', hlength, fun fuel hfuel => by rw [hclimb fuel [] hfuel, List.append_nil], hf'⟩
  · obtain ⟨v, hv⟩ := htree.isReachable_iff.mp hx
    have hvsize : v < g.size := Nat.lt_of_lt_of_le (Numbering.lt_count hv) hle
    obtain ⟨path, hpath, hlength, hchain⟩ := htree.exists_ascent hv
    refine ⟨⟨path, hpath, by omega, hchain⟩, fun d hd => ?_⟩
    rw [dominates, hd, hx, dominators, Bool.and_self, Bool.true_and]
    exact htree.meets d hv (htree.size ▸ hvsize)

/-- In the path of four nodes with a shortcut from the root to the last, 3 hangs under 2 and 2 under 1 when 1 has been
linked to the root, so that compressing the path of 3 notes both. The dominators of 3 are itself and the root. -/
theorem compute_in_bounds_shortcut : compute? Course.shortcut 0 = some (compute Course.shortcut 0) ∧
    (∃ f, (Forest.singletons 4).after? [.eval 0, .lower 3 0, .eval 2, .lower 3 0, .link 2 3, .eval 1, .lower 2 1,
      .link 1 2, .eval 2, .eval 0, .lower 1 0, .link 0 1] = some f ∧ f.InBounds 4 ∧
      ∀ fuel, 3 < fuel → f.climb? fuel 3 [] = some [2, 3]) ∧
    (∀ fuel, 2 ≤ fuel → (compute Course.shortcut 0).chain fuel 3 = [3, 0]) ∧
    (compute Course.shortcut 0).Meets 2 3 false := by
  obtain ⟨⟨hcompute, -⟩, -, hall⟩ := compute_in_bounds Course.shortcut 0
  obtain ⟨n, edges, c, hn, hedges, hc, -, -, -, -, hforest, hup⟩ := hall (by decide)
  refine ⟨hcompute, ?_, ?_, ?_⟩
  · have hrun : (do
        let n ← Course.shortcut.depthFirst? 0
        let c ← Course.finish? n (← n.edges? Course.shortcut)
        let f ← (Forest.singletons 4).after? (c.calls.take 12)
        return (n.count, c.calls.take 12, f.ancestor[3]?, ← f.climb? 4 3 [])) =
        some (4, [.eval 0, .lower 3 0, .eval 2, .lower 3 0, .link 2 3, .eval 1, .lower 2 1, .link 1 2, .eval 2, .eval 0,
          .lower 1 0, .link 0 1], some (some 2), [2, 3]) := by
      decide +kernel
    obtain ⟨f, hf, hbounds, hclimb⟩ := hforest (c.calls.take 12) (List.take_prefix 12 c.calls)
    rw [hn, Option.bind_eq_bind, Option.bind_some, hedges, Option.bind_eq_bind, Option.bind_some, hc] at hrun
    simp only [Option.bind_eq_bind, Option.bind_some, Option.bind_eq_some_iff, Option.pure_def, Option.some.injEq,
      Prod.mk.injEq] at hrun
    obtain ⟨f', hf', path', hpath', hcount, hcalls, hancestor, rfl⟩ := hrun
    rw [hcount] at hf hbounds
    obtain rfl : f' = f := Option.some.inj (hf'.symm.trans hf)
    obtain ⟨path, -, -, hpath, -⟩ := hclimb 3 2 hancestor
    obtain rfl : [2, 3] = path := Option.some.inj (hpath'.symm.trans (hpath 4 (by decide)))
    exact ⟨f', hcalls ▸ hf, hbounds, hpath⟩
  · obtain ⟨⟨path, -, hlength, hchain⟩, -⟩ := hup 3 (by decide +kernel)
    have hpath : [3, 0] = path := by
      rw [← hchain 4 hlength]
      decide +kernel
    exact fun fuel hfuel => (hchain fuel (hpath ▸ hfuel)).trans hpath.symm
  · have hmeets := (hup 3 (by decide +kernel)).2 2 (by decide +kernel)
    have hdominates : (compute Course.shortcut 0).dominates 2 3 = false := by decide +kernel
    rwa [hdominates] at hmeets

end DominatorTree

end Disassembly.Graph
