import Disassembly.Graph.Dominators
import Disassembly.Proofs.Graph.DepthFirst
import Disassembly.Proofs.Graph.Forest
import Disassembly.Proofs.Graph.Semidominator

/-!
# Finding semidominators

`Progress.finish?` ends with the semidominator of every vertex as its value in the forest and with a
relative dominator of every vertex (`Progress.exists_finish?`).

`SeenFrom t k` is what holds when the vertices from `k` on have been seen: the forest stands for the part
of the tree among them, their values are their semidominators, and each of them either waits in the bucket
of its semidominator, which no child of that has emptied yet, or has a relative dominator. While a bucket
is being emptied, the vertices taken out of it are in `hand`.
-/

namespace Disassembly.Graph

open DepthFirstTree

variable {t : DepthFirstTree} {d k p u v w x : Nat}

namespace DepthFirstTree

/-- The part of the tree that hangs the vertices from `k` on. -/
def linkedFrom (t : DepthFirstTree) (k v : Nat) : Option Nat := if k ≤ v then t.parent v else none

/-- `d` is the semidominator of `v` and its immediate dominator, or a vertex between them with a lower
semidominator, the lowest of all there. -/
def Relative (t : DepthFirstTree) (v d : Nat) : Prop :=
  (∀ y, t.semi v < y → t.Above y v → t.semi d ≤ t.semi y) ∧ t.semi v < d ∧ t.Above d v ∧
      t.semi d < t.semi v ∨
    (∀ y, t.semi v < y → t.Above y v → t.semi v ≤ t.semi y) ∧ d = t.semi v

theorem above_of_linkedFrom (h : Ancestor (t.linkedFrom k) u v) : t.Above u v := by
  refine h.mono fun {v p} hp => ?_
  unfold linkedFrom at hp
  split at hp
  · exact hp
  · simp at hp

theorem ancestor_linkedFrom (h : t.Above u v) (hk : k ≤ u) : Ancestor (t.linkedFrom k) u v := by
  induction h with
  | refl => exact .refl
  | @up q v hq h ih =>
    have := h.le t.parent_lt
    have := t.parent_lt hq
    exact .up (by rw [linkedFrom, if_pos (by omega), hq]) ih

theorem linkedFrom_ne_none (hk : 0 < k) (hv : v < t.count) : t.linkedFrom k v ≠ none ↔ k ≤ v := by
  unfold linkedFrom
  split
  · obtain ⟨p, hp⟩ := t.exists_parent (w := v) (by omega) hv
    simp_all
  · simp_all

theorem linkedFrom_eq (hp : t.parent w = some p) :
    t.linkedFrom w = fun v => if v = w then some p else t.linkedFrom (w + 1) v := by
  funext v
  unfold linkedFrom
  by_cases hvw : v = w
  · rw [if_pos hvw, if_pos (by omega), hvw, hp]
  · rw [if_neg hvw]
    by_cases hle : w ≤ v
    · rw [if_pos hle, if_pos (by omega)]
    · rw [if_neg hle, if_neg (by omega)]

/-- Before any vertex is seen nothing is linked. -/
theorem linkedFrom_count (t : DepthFirstTree) : t.linkedFrom t.count = fun _ => none := by
  funext v
  unfold linkedFrom
  split
  · cases hp : t.parent v with
    | none => rfl
    | some p =>
      have := (t.edge_lt (t.parent_edge hp)).2
      omega
  · rfl

end DepthFirstTree

namespace Numbering

variable {n : Numbering}

/-- The predecessors of a number are the successors in the graph of reversed edges. -/
theorem exists_predecessors {g : Digraph} {edges : List (Nat × Nat)} (hedges : ∀ v w, (v, w) ∈ edges ↔ n.Edge g v w)
    (hw : w < n.count) : ∃ preds, (Digraph.ofEdges n.count (edges.map Prod.swap)).successors[w]? = some preds ∧
      ∀ v, v ∈ preds ↔ n.Edge g v w := by
  refine ⟨_, Digraph.getElem?_ofEdges n.count _ w hw, fun v => ?_⟩
  rw [← hedges]
  constructor
  · intro hv
    obtain ⟨edge, hfilter, rfl⟩ := List.mem_map.mp hv
    obtain ⟨hswap, hfst⟩ := List.mem_filter.mp hfilter
    obtain ⟨edge', hmem, rfl⟩ := List.mem_map.mp hswap
    exact of_decide_eq_true hfst ▸ hmem
  · intro hmem
    exact List.mem_map.mpr ⟨(w, v), List.mem_filter.mpr ⟨List.mem_map.mpr ⟨(v, w), hmem, rfl⟩, by simp⟩, rfl⟩

/-- Going through all numbers but the root's from the last to the first: what every step brings down by one number is
brought down to the first. -/
theorem exists_foldlM_descendants {σ : Type} {f : σ → Nat → Option σ} (P : Nat → σ → Prop)
    (step : ∀ w s, 0 < w → w < n.count → P (w + 1) s → ∃ s', f s w = some s' ∧ P w s') (h0 : 0 < n.count) {s : σ}
    (h : P n.count s) : ∃ s', n.descendants.reverse.foldlM f s = some s' ∧ P 1 s' := by
  have key : ∀ k < n.count, ∀ s, P (k + 1) s → ∃ s', (List.range' 1 k).reverse.foldlM f s = some s' ∧ P 1 s' := by
    intro k
    induction k with
    | zero => exact fun _ s hs => ⟨s, rfl, hs⟩
    | succ k ih =>
      intro hk s hs
      obtain ⟨s₁, hs₁, hP⟩ := step (k + 1) s (by omega) hk hs
      obtain ⟨s₂, hs₂, hP⟩ := ih (by omega) s₁ hP
      refine ⟨s₂, ?_, hP⟩
      rw [List.range'_concat, List.reverse_append, List.reverse_singleton, List.singleton_append, List.foldlM_cons,
        Nat.one_mul, Nat.add_comm 1 k, hs₁]
      exact hs₂
  exact key (n.count - 1) (by omega) s (by rwa [Nat.sub_add_cancel h0])

end Numbering

namespace Progress

variable {f : Forest} {s : Progress}

/-! ### The semidominator of one vertex -/

/-- What holds while the predecessors of `w` are looked at, `preds` still to come: the value of `w` is a
candidate or still `w`, and at most every candidate but for those that only `preds` offer. -/
structure Lowering (t : DepthFirstTree) (w : Nat) (preds : List Nat) (f : Forest) : Prop where
  /-- The forest stands for the tree of the vertices seen before. -/
  keeps : f.Keeps (t.linkedFrom (w + 1))
  /-- Every vertex is in it. -/
  size : f.ancestor.size = t.count
  /-- The vertices seen before have their semidominators as values. -/
  seen : ∀ {x : Nat}, w < x → x < t.count → f.value x = t.semi x
  /-- The vertices not yet seen have their own numbers. -/
  unseen : ∀ {x : Nat}, x < w → f.value x = x
  /-- What is still to come are predecessors. -/
  edge : ∀ v ∈ preds, t.edge v w
  /-- The value was lowered. -/
  le : f.value w ≤ w
  /-- It was lowered to candidates only. -/
  candidate : f.value w = w ∨ t.Candidate (f.value w) w
  /-- It is at most every candidate that was offered. -/
  least : ∀ {x : Nat}, t.Candidate x w → f.value w ≤ x ∨
    ∃ v ∈ preds, v = x ∨ ∃ u, t.Above u v ∧ w < u ∧ t.Candidate x u

namespace Lowering

variable {preds : List Nat}

/-- `eval?` of a predecessor `v` gives a vertex `u` whose value is a candidate, unless it is `w`, and at
most every candidate that `v` offers. -/
theorem of_eval? (h : Lowering t w (v :: preds) f) (hu : Ancestor (t.linkedFrom (w + 1)) u v)
    (hroot : t.linkedFrom (w + 1) u = none → u = v)
    (hleast : ∀ y, Ancestor (t.linkedFrom (w + 1)) y v → t.linkedFrom (w + 1) y ≠ none →
      f.value u ≤ f.value y) :
    (u = w ∨ t.Candidate (f.value u) w) ∧
      ∀ x, (v = x ∨ ∃ y, t.Above y v ∧ w < y ∧ t.Candidate x y) → f.value u ≤ x ∨ w ≤ x := by
  have hedge := h.edge v (.head _)
  have hv := (t.edge_lt hedge).1
  have huv := above_of_linkedFrom hu
  have hult : u < t.count := Nat.lt_of_le_of_lt huv.le hv
  constructor
  · by_cases hwu : w < u
    · rw [h.seen hwu hult]
      exact Or.inr (candidate_of_above hedge huv hwu (candidate_semi (by omega) hult))
    · by_cases heq : u = w
      · exact Or.inl heq
      · obtain rfl := hroot (if_neg (by omega))
        rw [h.unseen (by omega)]
        exact Or.inr (candidate_of_edge hedge)
  · rintro x (rfl | ⟨y, hyv, hwy, hx⟩)
    · by_cases hvw : w ≤ v
      · exact Or.inr hvw
      · obtain rfl := hu.of_root (if_neg (by omega))
        exact Or.inl (Nat.le_of_eq (h.unseen (by omega)))
    · have hylt : y < t.count := Nat.lt_of_le_of_lt hyv.le hv
      have := hleast y (ancestor_linkedFrom hyv hwy) ((linkedFrom_ne_none (by omega) hylt).mpr hwy)
      rw [h.seen hwy hylt] at this
      exact Or.inl (Nat.le_trans this (semi_le hx))

/-- Looking at one predecessor. -/
theorem exists_lower? (h : Lowering t w (v :: preds) f) (hw : w < t.count) :
    ∃ f', lower? w f v = some f' ∧ Lowering t w preds f' := by
  have hv := (t.edge_lt (h.edge v (.head _))).1
  obtain ⟨u, f₁, heval, hkeeps, hsemi, hsize, hu, hroot, hleast⟩ :=
    h.keeps.exists_eval? (h.size ▸ hv)
  obtain ⟨hcand, hoffer⟩ := h.of_eval? hu hroot hleast
  have hvalue := Forest.value_congr hsemi
  have hsize₁ : f₁.ancestor.size = t.count := hsize.trans h.size
  have hsu := hkeeps.semi_eq (hkeeps.lt_of_above hu (hsize₁ ▸ hv))
  have hsw := hkeeps.semi_eq (hsize₁ ▸ hw)
  have hlt : w < f₁.semi.size := by
    rw [hkeeps.size_semi, hsize₁]
    exact hw
  let m := min (f.value u) (f.value w)
  have hvalue' (x : Nat) : Forest.value { f₁ with semi := f₁.semi.setIfInBounds w m } x =
      if w = x then m else f.value x := by
    rw [← hvalue, Forest.value, getElem?_setIfInBounds_of_lt hlt]
    split <;> rfl
  refine ⟨{ f₁ with semi := f₁.semi.setIfInBounds w m }, ?_, ?_⟩
  · simp [lower?, heval, hsu, hsw, hvalue, write?_of_size hlt, m]
  · refine
      { keeps := hkeeps.setSemi (if_neg (by omega))
        size := hsize₁
        seen := fun hwx hx => ?_
        unseen := fun hxw => ?_
        edge := fun v hv => h.edge v (.tail _ hv)
        le := ?_
        candidate := ?_
        least := fun {x} hx => ?_ }
    · rw [hvalue', if_neg (by omega)]
      exact h.seen hwx hx
    · rw [hvalue', if_neg (by omega)]
      exact h.unseen hxw
    · rw [hvalue', if_pos rfl]
      exact Nat.le_trans (Nat.min_le_right _ _) h.le
    · rw [hvalue', if_pos rfl]
      rcases Nat.le_total (f.value u) (f.value w) with hle | hle
      · rw [show m = f.value u from Nat.min_eq_left hle]
        rcases hcand with rfl | hcand
        · exact h.candidate
        · exact Or.inr hcand
      · rw [show m = f.value w from Nat.min_eq_right hle]
        exact h.candidate
    · rw [hvalue', if_pos rfl]
      have hmu : m ≤ f.value u := Nat.min_le_left _ _
      have hmw : m ≤ f.value w := Nat.min_le_right _ _
      have := h.le
      rcases h.least hx with hle | ⟨v', hv', hoffered⟩
      · exact Or.inl (Nat.le_trans hmw hle)
      rcases List.mem_cons.mp hv' with rfl | hv'
      · rcases hoffer x hoffered with hle | hle
        · exact Or.inl (Nat.le_trans hmu hle)
        · exact Or.inl (by omega)
      · exact Or.inr ⟨v', hv', hoffered⟩

/-- When all predecessors have been looked at, the value is the semidominator. -/
theorem value_eq (h : Lowering t w [] f) (h0 : 0 < w) (hw : w < t.count) : f.value w = t.semi w := by
  have hle : f.value w ≤ t.semi w := (h.least (candidate_semi h0 hw)).resolve_right (by simp)
  have hlt := semi_lt h0 hw
  have := semi_le (h.candidate.resolve_left (by omega))
  omega

end Lowering

/-! ### Waiting and settling -/

/-- The vertices that wait for `p`. -/
def waiting (s : Progress) (p : Nat) : List Nat := s.bucket[p]?.getD []

/-- What holds when the vertices from `k` on have been seen and those of `hand`, just taken out of a
bucket, are still to be settled. -/
structure SeenFrom (t : DepthFirstTree) (k : Nat) (hand : List Nat) (s : Progress) : Prop where
  /-- The forest stands for the tree of the vertices seen. -/
  keeps : s.forest.Keeps (t.linkedFrom k)
  /-- Every vertex is in it. -/
  size : s.forest.ancestor.size = t.count
  /-- The vertices seen have their semidominators as values. -/
  seen : ∀ {x : Nat}, k ≤ x → x < t.count → s.forest.value x = t.semi x
  /-- The vertices not yet seen have their own numbers. -/
  unseen : ∀ {x : Nat}, x < k → s.forest.value x = x
  /-- Every vertex has a bucket. -/
  size_bucket : s.bucket.size = t.count
  /-- Every vertex has a cell for its relative dominator. -/
  size_relative : s.relative.size = t.count
  /-- What waits was seen, waits for its semidominator, and waits no longer than up to a child of that. -/
  waits : ∀ {p v : Nat}, v ∈ s.waiting p → k ≤ v ∧ v < t.count ∧ t.semi v = p ∧
    s.relative[v]? = some none ∧ ∀ c, k ≤ c → t.parent c = some p → v < c
  /-- Nothing waits twice. -/
  nodup : ∀ p, (s.waiting p).Nodup
  /-- What is in hand has no relative dominator yet. -/
  hand_empty : ∀ v ∈ hand, s.relative[v]? = some none
  /-- Nothing is in hand twice. -/
  hand_nodup : hand.Nodup
  /-- Nothing in hand waits in a bucket. -/
  hand_out : ∀ v ∈ hand, ∀ p, v ∉ s.waiting p
  /-- Everything else that was seen has a relative dominator. -/
  settled : ∀ {v : Nat}, k ≤ v → v < t.count → v ∈ hand ∨ v ∈ s.waiting (t.semi v) ∨
    ∃ d, s.relative[v]? = some (some d) ∧ t.Relative v d
  /-- What was not seen has none. -/
  unsettled : ∀ {v : Nat}, v < k → v < t.count → s.relative[v]? = some none

/-- Between its semidominator `p` and a vertex `v` not before the child `w` of `p` there are only vertices
from `w` on: no other child of `p` before `w` has such descendants. -/
theorem le_of_above (hp : t.parent w = some p) (hv : w ≤ v) (hx : t.Above x v) (hpx : p < x) :
    w ≤ x := by
  refine Decidable.byContradiction fun hlt => ?_
  have hxw := t.interval hx (Nat.le_of_not_le hlt) hv
  obtain ⟨q, hq, hxq⟩ := hxw.of_ne (by omega)
  obtain rfl : p = q := by simpa [hp] using hq
  have := hxq.le t.parent_lt
  omega

/-- Settling one vertex of those that waited for `p`, its child `w` just linked. -/
theorem SeenFrom.exists_settle? {hand : List Nat} (h : SeenFrom t w (v :: hand) s)
    (hp : t.parent w = some p) (hwv : w ≤ v) (hv : v < t.count) (hsemi : t.semi v = p) :
    ∃ s', settle? p s v = some s' ∧ SeenFrom t w hand s' := by
  have hpw := t.parent_lt hp
  have hlinked {y : Nat} (hy : t.Above y v) : t.linkedFrom w y ≠ none ↔ w ≤ y :=
    linkedFrom_ne_none (by omega) (Nat.lt_of_le_of_lt hy.le hv)
  obtain ⟨u, f, heval, hkeeps, hsame, hsize, hu, hroot, hleast⟩ := h.keeps.exists_eval? (h.size ▸ hv)
  have huv := above_of_linkedFrom hu
  have hwu : w ≤ u := (hlinked huv).mp fun hnone => by
    rw [hroot hnone] at hnone
    exact (hlinked .refl).mpr hwv hnone
  have hult : u < t.count := Nat.lt_of_le_of_lt huv.le hv
  have hbest : ∀ y, t.semi v < y → t.Above y v → t.semi u ≤ t.semi y := by
    intro y hy hyv
    have hwy := le_of_above hp hwv hyv (hsemi ▸ hy)
    have := hleast y (ancestor_linkedFrom hyv hwy) ((hlinked hyv).mpr hwy)
    rwa [h.seen hwu hult, h.seen hwy (Nat.lt_of_le_of_lt hyv.le hv)] at this
  have hvalue := Forest.value_congr hsame
  have hsize' : f.ancestor.size = t.count := hsize.trans h.size
  have hsu : f.semi[u]? = some (t.semi u) := by
    rw [hkeeps.semi_eq (hsize' ▸ hult), hvalue, h.seen hwu hult]
  have hsv : f.semi[v]? = some p := by
    rw [hkeeps.semi_eq (hsize' ▸ hv), hvalue, h.seen hwv hv, hsemi]
  have hcell := h.hand_empty v (.head _)
  have hvsize : v < s.relative.size := h.size_relative ▸ hv
  let d := if t.semi u < p then u else p
  have hrel : t.Relative v d := by
    by_cases hlt : t.semi u < p
    · rw [show d = u from if_pos hlt]
      exact Or.inl ⟨hbest, by omega, huv, by omega⟩
    · rw [show d = p from if_neg hlt]
      exact Or.inr ⟨fun y hy hyv => by have := hbest y hy hyv; omega, hsemi.symm⟩
  have hother {x : Nat} (hx : s.relative[x]? = some none) (hne : v ≠ x) :
      (s.relative.setIfInBounds v (some d))[x]? = some none := by
    rw [getElem?_setIfInBounds_of_lt hvsize, if_neg hne, hx]
  have hnodup := List.nodup_cons.mp h.hand_nodup
  refine ⟨{ s with forest := f, relative := s.relative.setIfInBounds v (some d) }, ?_, ?_⟩
  · simp [settle?, heval, hsu, hsv, fill?_of_empty hcell, d]
  · refine
      { keeps := hkeeps
        size := hsize'
        seen := fun hx hlt => hvalue ▸ h.seen hx hlt
        unseen := fun hx => hvalue ▸ h.unseen hx
        size_bucket := h.size_bucket
        size_relative := by simpa using h.size_relative
        waits := fun {q x} hx => ?_
        nodup := h.nodup
        hand_empty := fun x hx => ?_
        hand_nodup := hnodup.2
        hand_out := fun x hx => h.hand_out x (.tail _ hx)
        settled := fun {x} hx hlt => ?_
        unsettled := fun hx hlt => hother (h.unsettled hx hlt) (by omega) }
    · obtain ⟨hwx, hlt, hq, hempty, hchild⟩ := h.waits hx
      have hne : v ≠ x := fun heq => h.hand_out v (.head _) q (heq ▸ hx)
      exact ⟨hwx, hlt, hq, hother hempty hne, hchild⟩
    · have hne : v ≠ x := fun heq => hnodup.1 (heq ▸ hx)
      exact hother (h.hand_empty x (.tail _ hx)) hne
    · by_cases hvx : v = x
      · subst hvx
        exact Or.inr (Or.inr ⟨d, by rw [getElem?_setIfInBounds_of_lt hvsize, if_pos rfl], hrel⟩)
      · rcases h.settled hx hlt with hhand | hwaits | ⟨e, he, hrel'⟩
        · exact Or.inl ((List.mem_cons.mp hhand).resolve_left (Ne.symm hvx))
        · exact Or.inr (Or.inl hwaits)
        · refine Or.inr (Or.inr ⟨e, ?_, hrel'⟩)
          rw [getElem?_setIfInBounds_of_lt hvsize, if_neg hvx, he]

/-! ### Seeing a vertex -/

/-- The predecessors of `w` are looked at from the state in which all later vertices have been seen. -/
theorem SeenFrom.lowering {preds : List Nat} (h : SeenFrom t (w + 1) [] s)
    (hpreds : ∀ v, v ∈ preds ↔ t.edge v w) : Lowering t w preds s.forest where
  keeps := h.keeps
  size := h.size
  seen := fun hx hlt => h.seen hx hlt
  unseen := fun hx => h.unseen (by omega)
  edge := fun v hv => (hpreds v).mp hv
  le := Nat.le_of_eq (h.unseen (by omega))
  candidate := Or.inl (h.unseen (by omega))
  least := fun hx => by
    obtain ⟨v, hv, hoffer⟩ := exists_offer hx
    exact Or.inr ⟨v, (hpreds v).mpr hv, hoffer⟩

/-- What waits for `q` after `w` has been put into the bucket of its semidominator. -/
noncomputable def joined (t : DepthFirstTree) (w : Nat) (s : Progress) (q : Nat) : List Nat :=
  if t.semi w = q then s.waiting q ++ [w] else s.waiting q

namespace SeenFrom

variable {q : Nat} (h : SeenFrom t (w + 1) [] s)

include h

theorem waits_joined (hw : w < t.count) (hv : v ∈ joined t w s q) :
    w ≤ v ∧ v < t.count ∧ t.semi v = q ∧ s.relative[v]? = some none ∧
      ∀ c, w < c → t.parent c = some q → v < c := by
  have hold (hv : v ∈ s.waiting q) : w ≤ v ∧ v < t.count ∧ t.semi v = q ∧
      s.relative[v]? = some none ∧ ∀ c, w < c → t.parent c = some q → v < c := by
    obtain ⟨hwv, hlt, hq, hempty, hchild⟩ := h.waits hv
    exact ⟨by omega, hlt, hq, hempty, hchild⟩
  unfold joined at hv
  split at hv
  · rcases List.mem_append.mp hv with hv | hv
    · exact hold hv
    · obtain rfl := List.mem_singleton.mp hv
      exact ⟨Nat.le_refl v, hw, by assumption, h.unsettled (by omega) hw, fun _ hc _ => hc⟩
  · exact hold hv

theorem nodup_joined : (joined t w s q).Nodup := by
  unfold joined
  split
  · rw [← List.concat_eq_append]
    refine (h.nodup q).concat fun hw => ?_
    have := (h.waits hw).1
    omega
  · exact h.nodup q

/-- When `w` has been linked to its parent, the bucket of the parent may be emptied. -/
theorem take (hp : t.parent w = some p) (hw : w < t.count) (bucket : Array (List Nat))
    (hkeeps : f.Keeps (t.linkedFrom w)) (hsize : f.ancestor.size = t.count)
    (hseen : ∀ x, w ≤ x → x < t.count → f.value x = t.semi x) (hunseen : ∀ x < w, f.value x = x)
    (hbucket : bucket.size = t.count)
    (hmem : ∀ q, bucket[q]?.getD [] = if p = q then [] else joined t w s q) :
    SeenFrom t w (joined t w s p) { s with forest := f, bucket } := by
  have hwaiting (q : Nat) : waiting { s with forest := f, bucket } q =
      if p = q then [] else joined t w s q := hmem q
  refine
    { keeps := hkeeps
      size := hsize
      seen := hseen _
      unseen := hunseen _
      size_bucket := hbucket
      size_relative := h.size_relative
      waits := fun {q v} hv => ?_
      nodup := fun q => ?_
      hand_empty := fun v hv => (h.waits_joined hw hv).2.2.2.1
      hand_nodup := h.nodup_joined
      hand_out := fun v hv q hq => ?_
      settled := fun {v} hv hlt => ?_
      unsettled := fun hv hlt => h.unsettled (by omega) hlt }
  · rw [hwaiting] at hv
    split at hv
    · simp at hv
    · obtain ⟨hwv, hlt, hq, hempty, hchild⟩ := h.waits_joined hw hv
      refine ⟨hwv, hlt, hq, hempty, fun c hc hcq => hchild c ?_ hcq⟩
      have hne : w ≠ c := by
        rintro rfl
        simp_all
      omega
  · rw [hwaiting]
    split
    · exact List.nodup_nil
    · exact h.nodup_joined
  · rw [hwaiting] at hq
    split at hq
    · simp at hq
    · have := (h.waits_joined hw hv).2.2.1
      have := (h.waits_joined hw hq).2.2.1
      omega
  · have hjoined : v ∈ joined t w s (t.semi v) ∨ ∃ d, s.relative[v]? = some (some d) ∧ t.Relative v d := by
      by_cases hvw : v = w
      · subst hvw
        exact Or.inl (by simp [joined])
      · refine ((h.settled (v := v) (by omega) hlt).resolve_left (by simp)).imp_left fun hmem => ?_
        unfold joined
        split
        · exact List.mem_append_left _ hmem
        · exact hmem
    rcases hjoined with hj | hrel
    · by_cases heq : p = t.semi v
      · exact Or.inl (heq ▸ hj)
      · exact Or.inr (Or.inl (by rwa [hwaiting, if_neg heq]))
    · exact Or.inr (Or.inr hrel)

/-- When the value of `w` has been found, `w` is put into a bucket and linked, and the bucket of its parent is emptied,
without fail. -/
theorem exists_taken (hp : t.parent w = some p) (hw : w < t.count) (hlow : Lowering t w [] f) :
    ∃ bucket f' bucket', f.semi[w]? = some (t.semi w) ∧
      s.bucket[t.semi w]? = some (s.waiting (t.semi w)) ∧
      write? s.bucket (t.semi w) (s.waiting (t.semi w) ++ [w]) = some bucket ∧ f.link? p w = some f' ∧
      bucket[p]? = some (joined t w s p) ∧ write? bucket p [] = some bucket' ∧
      (∀ q, bucket'[q]?.getD [] = if p = q then [] else joined t w s q) ∧
      SeenFrom t w (joined t w s p) { s with forest := f', bucket := bucket' } := by
  have hpw := t.parent_lt hp
  obtain ⟨f', hf', hkeeps, hsemi, hsize⟩ :=
    hlow.keeps.exists_link? (if_neg (by omega)) (hlow.size ▸ hw) hpw
  have hvalue := Forest.value_congr hsemi
  have hvaluew := hlow.value_eq (by omega) hw
  have hslt : t.semi w < t.count := Nat.lt_trans (semi_lt (by omega) hw) hw
  have hbucket : s.bucket[t.semi w]? = some (s.waiting (t.semi w)) := by
    have : t.semi w < s.bucket.size := h.size_bucket ▸ hslt
    simp [waiting, this]
  let bucket := s.bucket.setIfInBounds (t.semi w) (s.waiting (t.semi w) ++ [w])
  have hsize₁ : bucket.size = t.count := by simp [bucket, h.size_bucket]
  have hmem (q : Nat) : bucket[q]?.getD [] = joined t w s q := by
    rw [getElem?_setIfInBounds_of_lt (h.size_bucket ▸ hslt), joined]
    split
    · simp_all
    · rfl
  have hplt : p < bucket.size := by omega
  have htake : bucket[p]? = some (joined t w s p) := by
    rw [← hmem, Array.getElem?_eq_getElem hplt]
    rfl
  have hemptied (q : Nat) : (bucket.setIfInBounds p [])[q]?.getD [] = if p = q then [] else joined t w s q := by
    rw [getElem?_setIfInBounds_of_lt hplt]
    split
    · rfl
    · exact hmem q
  refine ⟨bucket, f', bucket.setIfInBounds p [], ?_, hbucket, write?_of_size (h.size_bucket ▸ hslt) _, hf', htake,
    write?_of_size hplt _, hemptied, ?_⟩
  · rw [hlow.keeps.semi_eq (hlow.size ▸ hw), hvaluew]
  refine h.take hp hw _ (linkedFrom_eq hp ▸ hkeeps) (hsize.trans hlow.size) ?_ ?_ (by simpa using hsize₁) hemptied
  · intro x hx hlt
    rw [hvalue]
    by_cases hxw : x = w
    · exact hxw ▸ hvaluew
    · exact hlow.seen (by omega) hlt
  · intro x hx
    rw [hvalue]
    exact hlow.unseen hx

/-- Seeing one more vertex. -/
theorem exists_see? {parents : Array (Option Nat)} {predecessors : Array (List Nat)}
    {preds : List Nat} (hp : t.parent w = some p) (hw : w < t.count)
    (hparents : parents[w]? = some (some p)) (hlist : predecessors[w]? = some preds)
    (hpreds : ∀ v, v ∈ preds ↔ t.edge v w) :
    ∃ s', see? parents predecessors s w = some s' ∧ SeenFrom t w [] s' := by
  obtain ⟨f, hf, hlow⟩ := exists_foldlM (Lowering t w)
    (fun v l f hl => hl.exists_lower? hw) (h.lowering hpreds)
  obtain ⟨bucket, f', bucket', hsemi, hold, hbucket, hf', htake, hbucket', -, hstart⟩ := h.exists_taken hp hw hlow
  obtain ⟨s', hs', hseen⟩ := exists_foldlM_of_mem (P := SeenFrom t w) (fun v hv l s hs => by
    obtain ⟨hwv, hlt, hsemi, -⟩ := h.waits_joined hw hv
    exact hs.exists_settle? hp hwv hlt hsemi) hstart
  refine ⟨s', ?_, hseen⟩
  simp [see?, hlist, hf, hsemi, hold, hbucket, hparents, hf', htake, hbucket', ← hs']

end SeenFrom

/-! ### Seeing all vertices -/

/-- Before any vertex is seen. -/
theorem seenFrom_start : SeenFrom t t.count [] (start t.count) := by
  have hwaiting (p : Nat) : (start t.count).waiting p = [] := by
    simp only [waiting, start, Array.getElem?_replicate]
    split <;> rfl
  refine
    { keeps := t.linkedFrom_count ▸ Forest.keeps_singletons t.count
      size := by simp [start, Forest.singletons]
      seen := fun hx hlt => by omega
      unseen := fun hx => by simp [start, Forest.singletons, Forest.value, hx]
      size_bucket := by simp [start]
      size_relative := by simp [start]
      waits := fun hv => by simp [hwaiting] at hv
      nodup := fun p => by simp [hwaiting]
      hand_empty := by simp
      hand_nodup := List.nodup_nil
      hand_out := by simp
      settled := fun hv hlt => by omega
      unsettled := fun _ hlt => by simp [start, hlt] }

/-- When all vertices but the root have been seen, none waits any more: the child of the semidominator on
the way to a vertex has emptied the bucket after that vertex came in. -/
theorem SeenFrom.exists_relative (h : SeenFrom t 1 [] s) (h0 : 0 < v) (hv : v < t.count) :
    ∃ d, s.relative[v]? = some (some d) ∧ t.Relative v d := by
  rcases h.settled h0 hv with hhand | hwaits | hrel
  · simp at hhand
  · obtain ⟨c, hc, hcv⟩ := (semi_above h0 hv).exists_child (Nat.ne_of_lt (semi_lt h0 hv))
    have := t.parent_lt hc
    have := (h.waits hwaits).2.2.2.2 c (by omega) hc
    have := hcv.le t.parent_lt
    omega
  · exact hrel

/-- All vertices of a depth-first numbering are seen without fail. -/
theorem exists_finish? {g : Digraph} {root : Nat} {n : Numbering} {edges : List (Nat × Nat)}
    (h : n.IsDepthFirst g root) (hedges : ∀ v w, (v, w) ∈ edges ↔ n.Edge g v w) :
    ∃ s, finish? n edges = some s ∧ SeenFrom h.tree 1 [] s := by
  refine Numbering.exists_foldlM_descendants (SeenFrom h.tree · []) (fun w s h0 hw hseen => ?_)
    (Numbering.lt_count h.root_eq) seenFrom_start
  obtain ⟨p, hp⟩ := h.exists_above h0 hw
  obtain ⟨preds, hlist, hpreds⟩ := Numbering.exists_predecessors hedges hw
  exact hseen.exists_see? (t := h.tree) hp hw (Option.join_eq_some_iff.mp hp) hlist hpreds

end Progress

end Disassembly.Graph
