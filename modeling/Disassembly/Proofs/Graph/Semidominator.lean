import Disassembly.Proofs.Graph.DepthFirstTree
import Mathlib.Order.Lattice.Nat

/-!
# Semidominators

A candidate of `w` is a vertex from which one gets to `w` through vertices past `w` only
(`candidate_iff_detour`); the least one is the semidominator of `w`. Semidominators say everything about
dominance: a proper ancestor `d` of `w` dominates it just if no vertex between them, `w` included, has a
candidate before `d` (`strictlyDominates_iff`). What the algorithm of Lengauer and Tarjan relies on follows
by comparing numbers on one branch of the tree: when the semidominator is the immediate dominator
(`isImmediateDominator_semi`), when another vertex has the same immediate dominator
(`isImmediateDominator_of_least`), and how the candidates of a vertex come from its predecessors
(`candidate_of_edge`, `candidate_of_above`, `exists_offer`).
-/

namespace Disassembly.Graph

/-- There is a walk from `v` to `w` of one edge at least, with nothing but vertices past `w` between its ends. -/
def Detour (r : Nat → Nat → Prop) (v w : Nat) : Prop := ∃ inner, Walk r v w (v :: (inner ++ [w])) ∧ ∀ u ∈ inner, w < u

namespace DepthFirstTree

variable {t : DepthFirstTree} {a d u v w x : Nat} {p : List Nat}

/-! ### Candidates -/

variable (t) in
/-- There is a walk from `x` to `w` that after its first edge stays at or past `w`. -/
def Candidate (x w : Nat) : Prop := ∃ a p, t.edge x a ∧ Walk t.edge a w p ∧ ∀ y ∈ p, w ≤ y

variable (t) in
/-- The least candidate. -/
noncomputable def semi (w : Nat) : Nat := sInf {x | t.Candidate x w}

/-- A predecessor is a candidate. -/
theorem candidate_of_edge (h : t.edge v w) : t.Candidate v w :=
  ⟨w, [w], h, .single w, by simp⟩

/-- The candidates of what lies past `w` and above a predecessor of `w` are candidates of `w`. -/
theorem candidate_of_above (h : t.edge v w) (hu : t.Above u v) (hlt : w < u)
    (hx : t.Candidate x u) : t.Candidate x w := by
  obtain ⟨a, p, ha, hp, hple⟩ := hx
  obtain ⟨q, hq, hqle⟩ := hu.exists_walk
  obtain ⟨l, hl, hmem⟩ := hp.append hq
  refine ⟨a, l ++ [w], ha, hl.snoc h, fun y hy => ?_⟩
  rcases List.mem_append.mp hy with hy | hy
  · rcases (hmem y).mp hy with hy | hy
    · have := hple y hy
      omega
    · have := (hqle y hy).1
      omega
  · obtain rfl := List.mem_singleton.mp hy
    exact Nat.le_refl y

/-- A walk that stays at or past its end comes to it from past it, unless it starts there. -/
theorem eq_or_exists_last (h : Walk t.edge a w p) (hle : ∀ y ∈ p, w ≤ y) :
    a = w ∨ ∃ v q, t.edge v w ∧ Walk t.edge a v q ∧ ∀ y ∈ q, w < y := by
  induction h with
  | single w => exact Or.inl rfl
  | @cons a b w p he h ih =>
    by_cases haw : a = w
    · exact Or.inl haw
    right
    have hwa : w < a := by
      have := hle a (.head _)
      omega
    rcases ih fun y hy => hle y (.tail _ hy) with rfl | ⟨v, q, hv, hq, hlt⟩
    · exact ⟨a, [a], he, .single a, by simpa using hwa⟩
    · exact ⟨v, a :: q, hv, .cons he hq, List.forall_mem_cons.mpr ⟨hwa, hlt⟩⟩

/-- Every candidate of `w` is offered by a predecessor `v`: it is `v` itself, or a candidate of a
vertex past `w` that lies above `v`. -/
theorem exists_offer (h : t.Candidate x w) :
    ∃ v, t.edge v w ∧ (v = x ∨ ∃ u, t.Above u v ∧ w < u ∧ t.Candidate x u) := by
  obtain ⟨a, p, ha, hp, hle⟩ := h
  rcases eq_or_exists_last hp hle with rfl | ⟨v, q, hv, hq, hlt⟩
  · exact ⟨x, ha, Or.inl rfl⟩
  · obtain ⟨u, hu, huv, -, l, hl, hlle⟩ := exists_turn hq
    exact ⟨v, hv, Or.inr ⟨u, huv, hlt u hu, a, l, ha, hl, hlle⟩⟩

/-- The walk of a candidate, cut where it first comes to `w`, is a detour. -/
theorem candidate_iff_detour : t.Candidate x w ↔ Detour t.edge x w := by
  constructor
  · rintro ⟨a, p, ha, hp, hle⟩
    rcases eq_or_exists_last hp hle with rfl | ⟨v, q, hv, hq, hlt⟩
    · exact ⟨[], .cons ha (.single a), by simp⟩
    · exact ⟨q, .cons ha (hq.snoc hv), hlt⟩
  · rintro ⟨inner, h, hlt⟩
    cases hrest : inner ++ [w] with
    | nil => simp at hrest
    | cons b p =>
      rw [hrest] at h
      cases h with
      | cons ha hp =>
        refine ⟨_, _, ha, hrest ▸ hp, fun y hy => ?_⟩
        rcases List.mem_append.mp hy with hy | hy
        · exact Nat.le_of_lt (hlt y hy)
        · exact Nat.le_of_eq (List.mem_singleton.mp hy).symm

/-- A candidate before `w` is above it: the walk never goes below the candidate. -/
theorem Candidate.above (h : t.Candidate x w) (hlt : x < w) : t.Above x w := by
  obtain ⟨a, p, ha, hp, hle⟩ := h
  refine above_of_walk (.cons ha hp) .refl (List.forall_mem_cons.mpr ⟨Nat.le_refl x, fun y hy => ?_⟩)
  have := hle y hy
  omega

theorem semi_le (h : t.Candidate x w) : t.semi w ≤ x := Nat.sInf_le h

section

variable (h0 : 0 < w) (hw : w < t.count)

include h0 hw

theorem candidate_semi : t.Candidate (t.semi w) w := by
  obtain ⟨p, hp⟩ := t.exists_parent h0 hw
  exact Nat.sInf_mem (s := {x | t.Candidate x w}) ⟨p, candidate_of_edge (t.parent_edge hp)⟩

theorem isLeast_semi : IsLeast {v | Detour t.edge v w} (t.semi w) :=
  ⟨candidate_iff_detour.mp (candidate_semi h0 hw), fun _ hx => semi_le (candidate_iff_detour.mpr hx)⟩

theorem semi_lt : t.semi w < w := by
  obtain ⟨p, hp⟩ := t.exists_parent h0 hw
  have := semi_le (candidate_of_edge (t.parent_edge hp))
  have := t.parent_lt hp
  omega

theorem semi_above : t.Above (t.semi w) w := (candidate_semi h0 hw).above (semi_lt h0 hw)

end

/-! ### Dominance by semidominators -/

theorem dominates_self (hw : w < t.count) : Dominates t.edge 0 w w := by
  obtain ⟨p, hp⟩ := exists_walk hw
  exact .self hp

/-- A dominator is on the branch of the tree that leads to the vertex. -/
theorem above_of_dominates (hw : w < t.count) (h : Dominates t.edge 0 d w) : t.Above d w := by
  have key : ∀ x, t.Above 0 x → t.Above x w → ∃ p, Walk t.edge 0 x p ∧ ∀ y ∈ p, t.Above y w := by
    intro x hx hxw
    induction hx with
    | refl => exact ⟨[0], .single 0, by simpa using hxw⟩
    | @up q x hq _ ih =>
      obtain ⟨p, hp, hall⟩ := ih ((Ancestor.of_above hq).trans hxw)
      refine ⟨p ++ [x], hp.snoc (t.parent_edge hq), fun y hy => ?_⟩
      rcases List.mem_append.mp hy with hy | hy
      · exact hall y hy
      · obtain rfl := List.mem_singleton.mp hy
        exact hxw
  obtain ⟨p, hp, hall⟩ := key w (above_of_lt hw) .refl
  exact hall d (h.2 p hp)

/-- A walk from below `d` to a vertex past it leaves for the last time what is below `d`. -/
theorem exists_departure (h : Walk t.edge v w p) (hw : d ≤ w) :
    (∀ y ∈ p, d ≤ y) ∨
      ∃ x a q, x < d ∧ t.edge x a ∧ Walk t.edge a w q ∧ (∀ y ∈ q, d ≤ y) ∧ ∀ y ∈ q, y ∈ p := by
  induction h with
  | single w => exact Or.inl (by simpa using hw)
  | @cons v a w p he h ih =>
    rcases ih hw with hle | ⟨x, b, q, hx, hb, hq, hle, hsub⟩
    · by_cases hdv : d ≤ v
      · exact Or.inl (List.forall_mem_cons.mpr ⟨hdv, hle⟩)
      · exact Or.inr ⟨v, a, p, by omega, he, h, hle, fun y hy => .tail _ hy⟩
    · exact Or.inr ⟨x, b, q, hx, hb, hq, hle, fun y hy => .tail _ (hsub y hy)⟩

/-- A walk to `w` around an ancestor `d` enters the branch between them from before `d`. -/
theorem exists_candidate_of_walk (h : Walk t.edge 0 w p) (hd : t.Above d w) (hdp : d ∉ p) :
    ∃ y, t.Above d y ∧ d < y ∧ t.Above y w ∧ ∃ x < d, t.Candidate x y := by
  rcases exists_departure h hd.le with hle | ⟨x, a, q, hx, ha, hq, hle, hsub⟩
  · -- The walk starts at 0, so it is 0 that it goes around.
    have := hle 0 h.start_mem
    obtain rfl : d = 0 := by omega
    exact absurd h.start_mem hdp
  · obtain ⟨y, hy, hyw, -, l, hl, hlle⟩ := exists_turn hq
    have hdy := hle y hy
    have hne : d ≠ y := fun heq => hdp (heq ▸ hsub y hy)
    exact ⟨y, hd.of_le hyw hdy, by omega, hyw, x, hx, a, l, ha, hl, hlle⟩

/-- From a candidate before `d` one gets around `d` to whatever the branch below `d` leads to. -/
theorem exists_walk_around (hy : t.Above v w) (hdv : d < v) (hxd : x < d)
    (hx : t.Candidate x v) : ∃ p, Walk t.edge 0 w p ∧ d ∉ p := by
  obtain ⟨a, p, ha, hp, hple⟩ := hx
  obtain ⟨p₁, hp₁, hle₁⟩ := (above_of_lt (t.edge_lt ha).1).exists_walk
  obtain ⟨p₂, hp₂, hle₂⟩ := hy.exists_walk
  obtain ⟨q, hq, hmem⟩ := hp.append hp₂
  obtain ⟨l, hl, hmem'⟩ := hp₁.append (.cons ha hq)
  refine ⟨l, hl, fun hd => ?_⟩
  rcases (hmem' d).mp hd with hd | hd
  · have := (hle₁ d hd).2
    omega
  rcases List.mem_cons.mp hd with rfl | hd
  · omega
  rcases (hmem d).mp hd with hd | hd
  · have := hple d hd
    omega
  · have := (hle₂ d hd).1
    omega

/-- A proper ancestor `d` of `w` dominates it just if no vertex from below `d` down to `w` has a
candidate before `d`. -/
theorem strictlyDominates_iff (hw : w < t.count) :
    StrictlyDominates t.edge 0 d w ↔
      t.Above d w ∧ d < w ∧ ∀ y, d < y → t.Above y w → d ≤ t.semi y := by
  constructor
  · rintro ⟨hne, h⟩
    have hd := above_of_dominates hw h
    refine ⟨hd, by have := hd.le; omega, fun y hdy hy => Nat.le_of_not_lt fun hlt => ?_⟩
    have hcand := candidate_semi (t := t) (by omega) (Nat.lt_of_le_of_lt hy.le hw)
    obtain ⟨p, hp, hdp⟩ := exists_walk_around hy hdy hlt hcand
    exact hdp (h.2 p hp)
  · rintro ⟨hd, hlt, hle⟩
    refine ⟨by omega, exists_walk hw, fun p hp => Decidable.byContradiction fun hdp => ?_⟩
    obtain ⟨y, -, hdy, hy, x, hx, hcand⟩ := exists_candidate_of_walk hp hd hdp
    have := hle y hdy hy
    have := semi_le hcand
    omega

/-! ### Immediate dominators -/

section

variable (h0 : 0 < w) (hw : w < t.count)

include h0 hw

/-- If no vertex between the semidominator of `w` and `w` has a lower one, the semidominator is the
immediate dominator. -/
theorem isImmediateDominator_semi (hle : ∀ y, t.semi w < y → t.Above y w → t.semi w ≤ t.semi y) :
    IsImmediateDominator t.edge 0 (t.semi w) w := by
  have hsw := semi_above h0 hw
  have hlt := semi_lt h0 hw
  refine ⟨(strictlyDominates_iff hw).mpr ⟨hsw, hlt, hle⟩, fun d hd => ?_⟩
  obtain ⟨hdw, hdlt, hdle⟩ := (strictlyDominates_iff hw).mp hd
  have hds := hdle w hdlt .refl
  by_cases heq : d = t.semi w
  · subst heq
    exact dominates_self (by omega)
  · refine ((strictlyDominates_iff (by omega)).mpr ⟨hdw.of_le hsw hds, by omega, ?_⟩).2
    exact fun y hy hys => hdle y hy (hys.trans hsw)

/-- Among the vertices between the semidominator of `w` and `w`, one with the least semidominator has
the same strict dominators as `w`. -/
theorem strictlyDominates_iff_of_least (hu : t.Above u w) (hlt : t.semi w < u)
    (hle : ∀ y, t.semi w < y → t.Above y w → t.semi u ≤ t.semi y) :
    StrictlyDominates t.edge 0 d w ↔ StrictlyDominates t.edge 0 d u := by
  have huw := hu.le
  have hsw := hle w (semi_lt h0 hw) .refl
  rw [strictlyDominates_iff hw, strictlyDominates_iff (by omega)]
  constructor
  · rintro ⟨hd, hdw, hall⟩
    have hds := hall w hdw .refl
    exact ⟨hd.of_le hu (by omega), by omega, fun y hy hyu => hall y hy (hyu.trans hu)⟩
  · rintro ⟨hd, hdu, hall⟩
    refine ⟨hd.trans hu, by omega, fun y hy hyw => ?_⟩
    by_cases hyu : y ≤ u
    · exact hall y hy (hyw.of_le hu hyu)
    · exact Nat.le_trans (hall u hdu .refl) (hle y (by omega) hyw)

theorem isImmediateDominator_of_least (hu : t.Above u w) (hlt : t.semi w < u)
    (hle : ∀ y, t.semi w < y → t.Above y w → t.semi u ≤ t.semi y)
    (hd : IsImmediateDominator t.edge 0 d u) : IsImmediateDominator t.edge 0 d w := by
  have hiff {d : Nat} := strictlyDominates_iff_of_least (d := d) h0 hw hu hlt hle
  exact ⟨hiff.mpr hd.1, fun d' hd' => hd.2 d' (hiff.mp hd')⟩

end

theorem IsImmediateDominator.lt (hw : w < t.count) (h : IsImmediateDominator t.edge 0 d w) :
    d < w := ((strictlyDominates_iff hw).mp h.1).2.1

end DepthFirstTree

end Disassembly.Graph
