import Disassembly.Graph.DepthFirst
import Disassembly.Proofs.Graph.Checked
import Disassembly.Proofs.Graph.DepthFirstTree
import Disassembly.Proofs.Graph.SearchRuns
import Mathlib.Algebra.BigOperators.Intervals

/-!
# The depth-first search

`Digraph.depthFirst?` numbers the nodes that its root reaches in depth-first order
(`exists_depthFirst?`), so that their numbers form a `DepthFirstTree`.

What the search keeps is `Search.Valid`: the path on the stack is a branch of the tree, every number
given since a vertex of the path was entered belongs to a descendant of it, and what a vertex of the path
has looked at, like all neighbours of a vertex that was left, is numbered. Each step takes one from
`Search.work`, which starts at the fuel of the search and ends at zero only with an empty path, so that the
search halts (`Search.Valid.exists_halts`).
-/

namespace Disassembly.Graph

variable {g : Digraph} {root u v w x y : Nat}

/-! ### Numberings -/

namespace Numbering

variable {n : Numbering}

/-- The number from which a number was entered. -/
def above (n : Numbering) (v : Nat) : Option Nat := n.parent[v]?.join

/-- There is an edge between the nodes of two numbers. -/
def Edge (n : Numbering) (g : Digraph) (v w : Nat) : Prop :=
  ∃ x y, n.vertex[v]? = some x ∧ n.vertex[w]? = some y ∧ g.Adj x y

/-- The numbering with one more node, entered from `p`. -/
def push (n : Numbering) (p : Option Nat) (y : Nat) : Numbering where
  number := n.number.setIfInBounds y (some n.count)
  vertex := n.vertex.push y
  parent := n.parent.push p

/-- A numbering of some nodes along the edges of a graph, as a depth-first search makes it. -/
structure Coherent (g : Digraph) (root : Nat) (n : Numbering) : Prop where
  /-- Every node has a cell for its number. -/
  size_number : n.number.size = g.size
  /-- Every number has a cell for its parent. -/
  size_parent : n.parent.size = n.count
  /-- Numbers and nodes belong to each other. -/
  number_iff : ∀ {x v : Nat}, n.number[x]? = some (some v) ↔ n.vertex[v]? = some x
  /-- The root comes first. -/
  root_eq : n.vertex[0]? = some root
  /-- Every other number has a parent. -/
  exists_above : ∀ {w : Nat}, 0 < w → w < n.count → ∃ p, n.above w = some p
  /-- A parent is a smaller number with an edge to its child. -/
  above_edge : ∀ {p w : Nat}, n.above w = some p → p < w ∧ n.Edge g p w
  /-- Descendants are numbered without a gap. -/
  interval : ∀ {u v w : Nat}, Ancestor n.above u w → u ≤ v → v ≤ w → Ancestor n.above u v

/-- A numbering in depth-first order of everything that its root reaches. -/
structure IsDepthFirst (g : Digraph) (root : Nat) (n : Numbering) : Prop extends
    Coherent g root n where
  /-- Neighbours are numbered, greater ones as descendants. -/
  closed : ∀ {v x y : Nat}, n.vertex[v]? = some x → g.Adj x y →
    ∃ w, n.vertex[w]? = some y ∧ (v < w → Ancestor n.above v w)

theorem lt_count (h : n.vertex[v]? = some x) : v < n.count :=
  (Array.getElem?_eq_some_iff.mp h).1

theorem exists_vertex (h : v < n.count) : ∃ x, n.vertex[v]? = some x :=
  ⟨n.vertex[v], Array.getElem?_eq_getElem h⟩

@[simp] theorem count_push (p : Option Nat) : (n.push p y).count = n.count + 1 := by
  simp [push, count]

theorem vertex_push (p : Option Nat) (v : Nat) :
    (n.push p y).vertex[v]? = if v = n.count then some y else n.vertex[v]? :=
  Array.getElem?_push

/-- Nodes keep their numbers. -/
theorem vertex_push_of_eq (p : Option Nat) (h : n.vertex[v]? = some x) :
    (n.push p y).vertex[v]? = some x := by
  rw [vertex_push, if_neg (by have := lt_count h; omega), h]

theorem Edge.push (p : Option Nat) (h : n.Edge g v w) : (n.push p y).Edge g v w := by
  obtain ⟨x, x', hx, hx', hadj⟩ := h
  exact ⟨x, x', vertex_push_of_eq p hx, vertex_push_of_eq p hx', hadj⟩

namespace Coherent

variable (h : n.Coherent g root)

include h

theorem descending : Descending n.above := fun hp => (h.above_edge hp).1

theorem above_push (p : Option Nat) (v : Nat) :
    (n.push p y).above v = if v = n.count then p else n.above v := by
  simp only [above, push, Array.getElem?_push, h.size_parent]
  split <;> simp

/-- Old numbers keep their ancestors. -/
theorem ancestor_push_iff (p : Option Nat) (hw : w < n.count) :
    Ancestor (n.push p y).above u w ↔ Ancestor n.above u w := by
  refine (Ancestor.congr h.descending fun v hv => ?_).symm
  rw [h.above_push, if_neg (by omega)]

/-- Entering an unnumbered neighbour of `p` keeps the numbering coherent if all numbers from an ancestor
of `p` on are descendants of that ancestor. -/
theorem push {p : Nat} (hx : n.vertex[p]? = some x) (hadj : g.Adj x y)
    (hy : n.number[y]? = some none)
    (hall : ∀ u, Ancestor n.above u p → ∀ w, u ≤ w → w < n.count → Ancestor n.above u w) :
    (n.push (some p) y).Coherent g root := by
  have hp := lt_count hx
  have hlt : y < n.number.size := (Array.getElem?_eq_some_iff.mp hy).1
  have hvertex (v : Nat) : n.vertex[v]? ≠ some y := by
    rw [ne_eq, ← h.number_iff, hy]
    simp
  refine
    { size_number := by simpa [Numbering.push] using h.size_number
      size_parent := by simp [Numbering.push, count, h.size_parent]
      number_iff := ?_
      root_eq := vertex_push_of_eq _ h.root_eq
      exists_above := ?_
      above_edge := ?_
      interval := ?_ }
  · intro z v
    rw [vertex_push]
    simp only [Numbering.push, getElem?_setIfInBounds_of_lt hlt]
    by_cases hyz : y = z
    · subst hyz
      have := hvertex v
      by_cases hv : v = n.count <;> simp_all [eq_comm]
    · rw [if_neg hyz, h.number_iff]
      by_cases hv : v = n.count
      · simp [hv, hyz, count]
      · rw [if_neg hv]
  · intro w h0 hw
    rw [h.above_push]
    split
    · exact ⟨p, rfl⟩
    · rw [count_push] at hw
      exact h.exists_above h0 (by omega)
  · intro q w hq
    rw [h.above_push] at hq
    split at hq
    · obtain rfl := Option.some.inj hq
      refine ⟨by omega, x, y, vertex_push_of_eq _ hx, ?_, hadj⟩
      rw [vertex_push, if_pos (by assumption)]
    · exact ⟨(h.above_edge hq).1, (h.above_edge hq).2.push _⟩
  · intro u v w ha huv hvw
    by_cases hv : v = w
    · exact hv ▸ ha
    obtain ⟨q, hq, hu⟩ := ha.of_ne (by omega)
    rw [h.above_push] at hq
    split at hq
    · obtain rfl := Option.some.inj hq
      rw [h.ancestor_push_iff _ hp] at hu
      rw [h.ancestor_push_iff _ (by omega)]
      exact hall u hu v huv (by omega)
    · obtain ⟨_, z, -, hz, -⟩ := (h.above_edge hq).2
      have hw := lt_count hz
      rw [h.ancestor_push_iff _ hw] at ha
      rw [h.ancestor_push_iff _ (by omega)]
      exact h.interval ha huv hvw

end Coherent

/-- The numbering of a root alone. -/
def ofRoot (g : Digraph) (root : Nat) : Numbering :=
  push { number := Array.replicate g.size none } none root

@[simp] theorem count_ofRoot : (ofRoot g root).count = 1 := count_push none

@[simp] theorem vertex_ofRoot (v : Nat) :
    (ofRoot g root).vertex[v]? = if v = 0 then some root else none := by
  rw [ofRoot, vertex_push]
  simp [count]

@[simp] theorem above_ofRoot (v : Nat) : (ofRoot g root).above v = none := by
  cases v <;> simp [above, ofRoot, push]

theorem coherent_ofRoot (hroot : root < g.size) : (ofRoot g root).Coherent g root := by
  refine
    { size_number := by simp [ofRoot, push]
      size_parent := by simp [ofRoot, push, count]
      number_iff := ?_
      root_eq := by simp
      exists_above := ?_
      above_edge := by simp
      interval := ?_ }
  · intro x v
    have hlt : root < (Array.replicate g.size (none : Option Nat)).size := by simpa using hroot
    rw [vertex_ofRoot]
    simp only [ofRoot, push, count, getElem?_setIfInBounds_of_lt hlt]
    by_cases hx : root = x <;> by_cases hv : v = 0 <;>
      simp [hx, hv, Array.getElem?_replicate, eq_comm]
  · intro w h0 hw
    rw [count_ofRoot] at hw
    omega
  · intro u v w hu huv hvw
    obtain rfl := hu.of_root (above_ofRoot w)
    obtain rfl : v = u := by omega
    exact .refl

end Numbering

/-! ### The path of a search -/

/-- The numbers on the path of a search, its last vertex first. -/
structure Branch (g : Digraph) (n : Numbering) (path : List Nat) : Prop where
  /-- They are numbers. -/
  lt_count : ∀ v ∈ path, v < n.count
  /-- The path goes down the tree. -/
  decreasing : path.Pairwise (· > ·)
  /-- All numbers since one was given belong to its descendants. -/
  descends : ∀ v ∈ path, ∀ w, v ≤ w → w < n.count → Ancestor n.above v w
  /-- What is above the path is on it. -/
  up : ∀ v ∈ path, ∀ u, Ancestor n.above u v → u ∈ path
  /-- The neighbours of what is not on the path any more are numbered, greater ones as descendants. -/
  left : ∀ {v x y : Nat}, v ∉ path → n.vertex[v]? = some x → g.Adj x y →
    ∃ w, n.vertex[w]? = some y ∧ (v < w → Ancestor n.above v w)

namespace Branch

variable {n : Numbering} {p : Nat} {path : List Nat}

/-- A vertex whose neighbours are all numbered may be left. -/
theorem leave (hn : n.Coherent g root) (h : Branch g n (v :: path))
    (hall : ∀ x y : Nat, n.vertex[v]? = some x → g.Adj x y → ∃ w : Nat, n.vertex[w]? = some y) :
    Branch g n path := by
  refine
    { lt_count := fun u hu => h.lt_count u (.tail _ hu)
      decreasing := (List.pairwise_cons.mp h.decreasing).2
      descends := fun u hu => h.descends u (.tail _ hu)
      up := ?_
      left := ?_ }
  · intro w hw u hu
    have hvw := (List.pairwise_cons.mp h.decreasing).1 w hw
    have huw := hu.le hn.descending
    exact (List.mem_cons.mp (h.up w (.tail _ hw) u hu)).resolve_left (by omega)
  · intro u x y hu hx hadj
    by_cases huv : u = v
    · subst huv
      obtain ⟨w, hw⟩ := hall x y hx hadj
      exact ⟨w, hw, fun hlt => h.descends u (.head _) w (by omega) (Numbering.lt_count hw)⟩
    · exact h.left (by simp [huv, hu]) hx hadj

/-- An unnumbered neighbour of the last vertex may be entered. -/
theorem push (hn : n.Coherent g root) (h : Branch g n (p :: path)) :
    Branch g (n.push (some p) y) (n.count :: p :: path) := by
  have hp := h.lt_count p (.head _)
  have hle : ∀ v ∈ p :: path, v ≤ p := by
    intro v hv
    rcases List.mem_cons.mp hv with rfl | hv
    · exact Nat.le_refl v
    · exact Nat.le_of_lt ((List.pairwise_cons.mp h.decreasing).1 v hv)
  have habove : (n.push (some p) y).above n.count = some p := by
    rw [hn.above_push, if_pos rfl]
  refine
    { lt_count := ?_
      decreasing := List.pairwise_cons.mpr ⟨h.lt_count, h.decreasing⟩
      descends := ?_
      up := ?_
      left := ?_ }
  · intro v hv
    rw [Numbering.count_push]
    rcases List.mem_cons.mp hv with rfl | hv
    · omega
    · have := h.lt_count v hv
      omega
  · intro v hv w hvw hw
    rw [Numbering.count_push] at hw
    rcases List.mem_cons.mp hv with rfl | hv
    · obtain rfl : w = n.count := by omega
      exact .refl
    by_cases hwn : w < n.count
    · exact (hn.ancestor_push_iff _ hwn).mpr (h.descends v hv w hvw hwn)
    · obtain rfl : w = n.count := by omega
      exact .up habove ((hn.ancestor_push_iff _ hp).mpr (h.descends v hv p (hle v hv) hp))
  · intro v hv u hu
    rcases List.mem_cons.mp hv with rfl | hv
    · by_cases hne : u = n.count
      · exact hne ▸ .head _
      obtain ⟨q, hq, hu⟩ := hu.of_ne hne
      obtain rfl : p = q := by simpa [habove] using hq
      exact .tail _ (h.up p (.head _) u ((hn.ancestor_push_iff _ hp).mp hu))
    · exact .tail _ (h.up v hv u ((hn.ancestor_push_iff _ (h.lt_count v hv)).mp hu))
  · intro v x z hv hx hadj
    rw [List.mem_cons, not_or] at hv
    rw [Numbering.vertex_push, if_neg hv.1] at hx
    obtain ⟨w, hw, hvw⟩ := h.left hv.2 hx hadj
    exact ⟨w, Numbering.vertex_push_of_eq _ hw, fun hlt =>
      (hn.ancestor_push_iff _ (Numbering.lt_count hw)).mpr (hvw hlt)⟩

/-- The root is a path. -/
theorem ofRoot : Branch g (.ofRoot g root) [0] := by
  refine
    { lt_count := by simp
      decreasing := List.pairwise_singleton _ _
      descends := ?_
      up := ?_
      left := ?_ }
  · intro v hv w hvw hw
    rw [Numbering.count_ofRoot] at hw
    obtain rfl : v = w := by omega
    exact .refl
  · intro v hv u hu
    exact hu.of_root (Numbering.above_ofRoot v) ▸ hv
  · intro v x y hv hx
    have := Numbering.lt_count hx
    rw [Numbering.count_ofRoot] at this
    rw [List.mem_singleton] at hv
    omega

end Branch

/-! ### Steps -/

namespace Search

variable {s : Search} {pending : List Nat} {frames : List Frame}

/-- What a search keeps. -/
structure Valid (g : Digraph) (root : Nat) (s : Search) : Prop where
  /-- The numbering so far is coherent. -/
  coherent : s.Coherent g root
  /-- The stack is a path of the tree. -/
  branch : Branch g s.toNumbering (s.stack.map Frame.number)
  /-- What a vertex of the path has looked at is numbered. -/
  looked : ∀ f ∈ s.stack, ∀ {x y : Nat}, s.vertex[f.number]? = some x → g.Adj x y →
    y ∈ f.pending ∨ ∃ w : Nat, s.vertex[w]? = some y
  /-- What it has still to look at are neighbours. -/
  pending_adj : ∀ f ∈ s.stack, ∀ y ∈ f.pending,
    ∃ x, s.vertex[f.number]? = some x ∧ g.Adj x y

/-- How many steps the nodes without a number will take: one for each and for each of its neighbours. -/
def unentered (g : Digraph) (number : Array (Option Nat)) : Nat :=
  ∑ x ∈ Finset.range g.size, if number[x]? = some none then (g.neighbours x).length + 1 else 0

/-- How many steps are left: those of the nodes without a number, and one for each frame and for each
neighbour it has still to look at. -/
def work (g : Digraph) (s : Search) : Nat :=
  unentered g s.number + s.stack.foldr (fun f n => f.pending.length + 1 + n) 0

theorem step?_leave (hs : s.stack = ⟨v, []⟩ :: frames) :
    s.step? g = some { s with stack := frames } := by
  simp [step?, hs]

theorem step?_known (hs : s.stack = ⟨v, y :: pending⟩ :: frames)
    (hy : s.number[y]? = some (some w)) :
    s.step? g = some { s with stack := ⟨v, pending⟩ :: frames } := by
  simp [step?, hs, hy]

theorem step?_new (hs : s.stack = ⟨v, y :: pending⟩ :: frames) (hy : s.number[y]? = some none) :
    s.step? g = some { s.toNumbering.push (some v) y with
      stack := ⟨s.count, g.neighbours y⟩ :: ⟨v, pending⟩ :: frames } := by
  simp [step?, hs, hy, enter?, fill?_of_empty hy, Numbering.push]

namespace Valid

/-- Leaving a vertex that has looked at all its neighbours. -/
theorem leave (h : s.Valid g root) (hs : s.stack = ⟨v, []⟩ :: frames) :
    Valid g root { s with stack := frames } := by
  obtain ⟨hn, hb, hlook, hpend⟩ := h
  rw [hs] at hb hlook hpend
  refine
    { coherent := hn
      branch := hb.leave hn fun x y hx hadj => ?_
      looked := fun f hf => hlook f (.tail _ hf)
      pending_adj := fun f hf => hpend f (.tail _ hf) }
  exact (hlook ⟨v, []⟩ (.head _) hx hadj).resolve_left (by simp)

/-- Looking at a neighbour that is numbered. -/
theorem known (h : s.Valid g root) (hs : s.stack = ⟨v, y :: pending⟩ :: frames)
    (hy : s.number[y]? = some (some w)) :
    Valid g root { s with stack := ⟨v, pending⟩ :: frames } := by
  obtain ⟨hn, hb, hlook, hpend⟩ := h
  rw [hs] at hb hlook hpend
  refine { coherent := hn, branch := hb, looked := ?_, pending_adj := ?_ }
  · intro f hf x z hx hadj
    rcases List.mem_cons.mp hf with rfl | hf
    · rcases hlook ⟨v, y :: pending⟩ (.head _) hx hadj with hz | hz
      · rcases List.mem_cons.mp hz with rfl | hz
        · exact Or.inr ⟨w, hn.number_iff.mp hy⟩
        · exact Or.inl hz
      · exact Or.inr hz
    · exact hlook f (.tail _ hf) hx hadj
  · intro f hf z hz
    rcases List.mem_cons.mp hf with rfl | hf
    · exact hpend ⟨v, y :: pending⟩ (.head _) z (.tail _ hz)
    · exact hpend f (.tail _ hf) z hz

/-- Entering a neighbour that is not numbered yet. -/
theorem new (h : s.Valid g root) (hs : s.stack = ⟨v, y :: pending⟩ :: frames)
    (hy : s.number[y]? = some none) :
    Valid g root { s.toNumbering.push (some v) y with
      stack := ⟨s.count, g.neighbours y⟩ :: ⟨v, pending⟩ :: frames } := by
  obtain ⟨hn, hb, hlook, hpend⟩ := h
  rw [hs] at hb hlook hpend
  obtain ⟨x, hx, hadj⟩ := hpend ⟨v, y :: pending⟩ (.head _) y (.head _)
  have hnew : (s.toNumbering.push (some v) y).vertex[s.count]? = some y := by
    rw [Numbering.vertex_push, if_pos rfl]
  have hold : ∀ f ∈ Frame.mk v (y :: pending) :: frames, ∀ z,
      (s.toNumbering.push (some v) y).vertex[f.number]? = some z →
        s.vertex[f.number]? = some z := by
    intro f hf z hz
    have := hb.lt_count f.number (List.mem_map_of_mem hf)
    rwa [Numbering.vertex_push, if_neg (by omega)] at hz
  refine
    { coherent := hn.push hx hadj hy fun u hu => hb.descends u (hb.up v (.head _) u hu)
      branch := hb.push hn
      looked := ?_
      pending_adj := ?_ }
  · intro f hf x' z hx' hadj'
    rcases List.mem_cons.mp hf with rfl | hf
    · obtain rfl : y = x' := by simpa [hnew] using hx'
      exact Or.inl hadj'
    have hmono : (∃ w : Nat, s.vertex[w]? = some z) →
        ∃ w : Nat, (s.toNumbering.push (some v) y).vertex[w]? = some z :=
      fun ⟨w, hw⟩ => ⟨w, Numbering.vertex_push_of_eq _ hw⟩
    rcases List.mem_cons.mp hf with rfl | hf
    · rcases hlook ⟨v, y :: pending⟩ (.head _) (hold _ (.head _) x' hx') hadj' with hz | hz
      · rcases List.mem_cons.mp hz with rfl | hz
        · exact Or.inr ⟨s.count, hnew⟩
        · exact Or.inl hz
      · exact Or.inr (hmono hz)
    · exact (hlook f (.tail _ hf) (hold f (.tail _ hf) x' hx') hadj').imp_right hmono
  · intro f hf z hz
    rcases List.mem_cons.mp hf with rfl | hf
    · exact ⟨y, hnew, hz⟩
    rcases List.mem_cons.mp hf with rfl | hf
    · obtain ⟨x', hx', hadj'⟩ := hpend ⟨v, y :: pending⟩ (.head _) z (.tail _ hz)
      exact ⟨x', Numbering.vertex_push_of_eq _ hx', hadj'⟩
    · obtain ⟨x', hx', hadj'⟩ := hpend f (.tail _ hf) z hz
      exact ⟨x', Numbering.vertex_push_of_eq _ hx', hadj'⟩

end Valid

/-- Entering a node takes its share from what is left. -/
theorem unentered_eq_add {number : Array (Option Nat)} (hsize : number.size = g.size)
    (hy : number[y]? = some none) (v : Nat) :
    unentered g number =
      (g.neighbours y).length + 1 + unentered g (number.setIfInBounds y (some v)) := by
  have hlt : y < number.size := (Array.getElem?_eq_some_iff.mp hy).1
  have hmem : y ∈ Finset.range g.size := Finset.mem_range.mpr (hsize ▸ hlt)
  unfold unentered
  rw [← Finset.add_sum_erase _ _ hmem, ← Finset.add_sum_erase _ (fun x =>
    if (number.setIfInBounds y (some v))[x]? = some none then _ else _) hmem]
  simp only [getElem?_setIfInBounds_of_lt hlt, hy, if_true]
  rw [if_neg (by simp), Nat.zero_add]
  congr 1
  refine Finset.sum_congr rfl fun x hx => ?_
  rw [if_neg (Ne.symm (Finset.ne_of_mem_erase hx))]

/-- A step goes through, keeps the search valid and leaves one step less to do. -/
theorem Valid.exists_step? (h : s.Valid g root) (hs : s.stack ≠ []) :
    ∃ s', s.step? g = some s' ∧ s'.Valid g root ∧ s'.work g + 1 = s.work g := by
  match hstack : s.stack with
  | [] => exact absurd hstack hs
  | ⟨v, []⟩ :: frames =>
    refine ⟨_, step?_leave hstack, h.leave hstack, ?_⟩
    simp only [work, hstack, List.foldr_cons, List.length_nil]
    omega
  | ⟨v, y :: pending⟩ :: frames =>
    obtain ⟨x, -, hadj⟩ := h.pending_adj ⟨v, y :: pending⟩ (by simp [hstack]) y (.head _)
    have hlt : y < s.number.size := by
      rw [h.coherent.size_number]
      exact hadj.lt_size.2
    obtain ⟨o, ho⟩ : ∃ o, s.number[y]? = some o := ⟨_, Array.getElem?_eq_getElem hlt⟩
    cases o with
    | some w =>
      refine ⟨_, step?_known hstack ho, h.known hstack ho, ?_⟩
      simp only [work, hstack, List.foldr_cons, List.length_cons]
      omega
    | none =>
      refine ⟨_, step?_new hstack ho, h.new hstack ho, ?_⟩
      simp only [work, hstack, List.foldr_cons, List.length_cons, Numbering.push]
      rw [unentered_eq_add h.coherent.size_number ho s.count]
      omega

/-- A valid search ends, and takes one step for each piece of the work that it leaves less. -/
theorem Valid.exists_halts (h : s.Valid g root) :
    ∃ steps s', s.Halts g steps s' ∧ s'.Valid g root ∧ steps + s'.work g = s.work g := by
  induction hwork : s.work g generalizing s with
  | zero =>
    by_cases hs : s.stack = []
    · exact ⟨0, s, .done hs, h, by omega⟩
    · obtain ⟨s₁, -, -, hless⟩ := h.exists_step? hs
      omega
  | succ work ih =>
    by_cases hs : s.stack = []
    · exact ⟨0, s, .done hs, h, by omega⟩
    · obtain ⟨s₁, hs₁, hv, hless⟩ := h.exists_step? hs
      obtain ⟨steps, s', hhalts, hv', hsum⟩ := ih hv (by omega)
      exact ⟨steps + 1, s', .step hs hs₁ hhalts, hv', by omega⟩

/-- What is left in the end is the work of the nodes that were not entered. -/
theorem Halts.work_eq {steps : Nat} (h : s.Halts g steps s') : s'.work g = unentered g s'.number := by
  simp [work, h.stack_eq]

/-! ### The start of a search -/

theorem unentered_replicate : unentered g (Array.replicate g.size none) = g.size + g.edgeCount := by
  have hall : unentered g (Array.replicate g.size none) =
      ∑ x ∈ Finset.range g.size, ((g.neighbours x).length + 1) := by
    refine Finset.sum_congr rfl fun x hx => if_pos ?_
    simp [Finset.mem_range.mp hx]
  have hcount : g.edgeCount = ∑ x ∈ Finset.range g.size, (g.neighbours x).length := rfl
  rw [hall, hcount, Finset.sum_add_distrib, ← Finset.card_eq_sum_ones, Finset.card_range,
    Nat.add_comm]

/-- The search that has entered its root only is valid and has the fuel it needs. -/
theorem exists_start? (hroot : root < g.size) :
    ∃ s, start? g root = some s ∧ s.Valid g root ∧ s.work g = g.size + g.edgeCount := by
  have hempty : (Array.replicate g.size (none : Option Nat))[root]? = some none := by
    simp [hroot]
  refine ⟨{ Numbering.ofRoot g root with stack := [⟨0, g.neighbours root⟩] }, ?_, ?_, ?_⟩
  · simp [start?, enter?, fill?_of_empty hempty, Numbering.ofRoot, Numbering.push, Numbering.count]
  · refine
      { coherent := Numbering.coherent_ofRoot hroot
        branch := Branch.ofRoot
        looked := ?_
        pending_adj := ?_ }
    · intro f hf x y hx hadj
      obtain rfl := List.mem_singleton.mp hf
      obtain rfl : root = x := by simpa using hx
      exact Or.inl hadj
    · intro f hf y hy
      obtain rfl := List.mem_singleton.mp hf
      exact ⟨root, by simp, hy⟩
  · rw [← unentered_replicate, unentered_eq_add (by simp) hempty 0]
    simp [work, Numbering.ofRoot, Numbering.push, Numbering.count, Nat.add_comm]

end Search

/-! ### The result -/

/-- The search from a node halts with a numbering in depth-first order. Of its fuel it leaves the steps of the nodes
that it does not enter. -/
theorem exists_search (hroot : root < g.size) : ∃ start steps finish, Search.start? g root = some start ∧
    start.Halts g steps finish ∧ steps + Search.unentered g finish.number = g.size + g.edgeCount ∧
    g.depthFirst? root = some finish.toNumbering ∧ finish.toNumbering.IsDepthFirst g root := by
  obtain ⟨start, hstart, hvalid, hwork⟩ := Search.exists_start? hroot
  obtain ⟨steps, finish, hhalts, hv, hsum⟩ := hvalid.exists_halts
  have hrun : start.run? g (g.size + g.edgeCount) = some finish :=
    Search.run?_eq_some_iff.mpr ⟨steps, by omega, hhalts⟩
  refine ⟨start, steps, finish, hstart, hhalts, by rw [← hhalts.work_eq, hsum, hwork],
    by simp [Digraph.depthFirst?, hstart, hrun], hv.coherent, ?_⟩
  exact fun hx hadj => hv.branch.left (by simp [hhalts.stack_eq]) hx hadj

/-- A search from a node numbers all that the node reaches in depth-first order. -/
theorem exists_depthFirst? (hroot : root < g.size) :
    ∃ n, g.depthFirst? root = some n ∧ n.IsDepthFirst g root := by
  obtain ⟨_, _, finish, -, -, -, hfirst, h⟩ := exists_search hroot
  exact ⟨finish.toNumbering, hfirst, h⟩

namespace Numbering.IsDepthFirst

variable {n : Numbering}

/-- The list of edges has every edge between numbers. -/
theorem exists_edges? (h : n.IsDepthFirst g root) :
    ∃ edges, n.edges? g = some edges ∧ ∀ v w, (v, w) ∈ edges ↔ n.Edge g v w := by
  have htargets (x : Nat) : ∃ targets, (g.neighbours x).mapM (n.number[·]?) = some targets := by
    refine exists_mapM fun y hy => ⟨_, Array.getElem?_eq_getElem ?_⟩
    rw [h.size_number]
    exact (Digraph.Adj.lt_size hy).2
  obtain ⟨rows, hrows⟩ := exists_mapM (l := n.vertex.toList.zipIdx) (f := fun (p : Nat × Nat) => do
    let targets ← (g.neighbours p.1).mapM (n.number[·]?)
    return targets.filterMap fun target => target.map fun w => (p.2, w)) fun p _ => by
      obtain ⟨targets, htargets⟩ := htargets p.1
      exact ⟨_, by simp only [htargets]; rfl⟩
  refine ⟨rows.flatten, by simp only [edges?, hrows]; rfl, fun v w => ?_⟩
  have hvertex (x : Nat) : (x, v) ∈ n.vertex.toList.zipIdx ↔ n.vertex[v]? = some x := by
    rw [List.mem_zipIdx_iff_getElem?, Array.getElem?_toList]
  rw [List.mem_flatten]
  constructor
  · rintro ⟨row, hrow, hmem⟩
    obtain ⟨⟨x, v'⟩, hx, heq⟩ := (mem_of_mapM hrows row).mp hrow
    obtain ⟨targets, htargets⟩ := htargets x
    simp only [htargets, Option.bind_eq_bind, Option.bind_some, Option.pure_def,
      Option.some.injEq] at heq
    subst heq
    obtain ⟨o, ho, hw⟩ := List.mem_filterMap.mp hmem
    obtain ⟨y, hy, hnum⟩ := (mem_of_mapM htargets o).mp ho
    obtain ⟨w', rfl, heq⟩ := Option.map_eq_some_iff.mp hw
    cases heq
    exact ⟨x, y, (hvertex x).mp hx, h.number_iff.mp hnum, hy⟩
  · rintro ⟨x, y, hx, hy, hadj⟩
    obtain ⟨targets, htargets⟩ := htargets x
    refine ⟨_, (mem_of_mapM hrows _).mpr ⟨(x, v), (hvertex x).mpr hx, by simp only [htargets]; rfl⟩, ?_⟩
    exact List.mem_filterMap.mpr
      ⟨some w, (mem_of_mapM htargets _).mpr ⟨y, hadj, h.number_iff.mpr hy⟩, rfl⟩

/-- There are no more numbers than nodes. -/
theorem count_le (h : n.IsDepthFirst g root) : n.count ≤ g.size := by
  have hnode {v : Nat} (hv : v < n.count) : ∃ x < g.size, n.number[x]? = some (some v) ∧
      n.vertex[v]? = some x := by
    obtain ⟨x, hx⟩ := exists_vertex hv
    have hnum := h.number_iff.mpr hx
    exact ⟨x, h.size_number ▸ (Array.getElem?_eq_some_iff.mp hnum).1, hnum, hx⟩
  have hcard := Finset.card_le_card_of_injOn (s := Finset.range n.count) (t := Finset.range g.size)
    (fun v => n.vertex[v]?.getD 0) (fun v hv => ?_) (fun v hv w hw heq => ?_)
  · simpa using hcard
  · obtain ⟨x, hlt, -, hx⟩ := hnode (Finset.mem_range.mp hv)
    simpa [hx] using hlt
  · obtain ⟨x, -, hnum, hx⟩ := hnode (Finset.mem_range.mp hv)
    obtain ⟨y, -, hnum', hy⟩ := hnode (Finset.mem_range.mp hw)
    obtain rfl : x = y := by simpa [hx, hy] using heq
    simpa [hnum] using hnum'

/-- The tree of a depth-first numbering. -/
def tree (h : n.IsDepthFirst g root) : DepthFirstTree where
  count := n.count
  edge := n.Edge g
  parent := n.above
  edge_lt := fun ⟨_, _, hx, hy, _⟩ => ⟨lt_count hx, lt_count hy⟩
  exists_parent := h.exists_above
  parent_lt := h.descending
  parent_edge := fun hp => (h.above_edge hp).2
  forward := by
    rintro v w ⟨x, y, hx, hy, hadj⟩ hlt
    obtain ⟨w', hw', hvw⟩ := h.closed hx hadj
    obtain rfl : w' = w := by
      rw [← h.number_iff] at hw' hy
      simpa [hw'] using hy
    exact hvw hlt
  interval := h.interval

end Numbering.IsDepthFirst

end Disassembly.Graph
