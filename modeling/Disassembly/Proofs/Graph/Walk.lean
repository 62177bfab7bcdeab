/-!
# Walks and dominance

What dominance means, told by walks alone: a node dominates another from a root if the root reaches
the other and every walk to it passes through the first. The lemmas here hold of every relation; they
put walks together and cut them at a vertex.
-/

namespace Disassembly.Graph

variable {α : Type} {r : α → α → Prop} {u v w x : α} {p q : List α}

/-- `Walk r v w p`: along the edges of `r` one gets from `v` to `w` through the vertices `p`, both ends
among them. -/
inductive Walk (r : α → α → Prop) : α → α → List α → Prop where
  /-- Staying where one is. -/
  | single (v : α) : Walk r v v [v]
  /-- An edge, and on from there. -/
  | cons {u v w : α} {p : List α} : r u v → Walk r v w p → Walk r u w (u :: p)

namespace Walk

theorem start_mem (h : Walk r v w p) : v ∈ p := by
  cases h <;> simp

theorem stop_mem (h : Walk r v w p) : w ∈ p := by
  induction h with
  | single v => simp
  | cons _ _ ih => exact List.mem_cons_of_mem _ ih

/-- Walks are put together where one ends and the other starts. -/
theorem append (h : Walk r u v p) (h' : Walk r v w q) :
    ∃ l, Walk r u w l ∧ ∀ y, y ∈ l ↔ y ∈ p ∨ y ∈ q := by
  induction h with
  | single v =>
    refine ⟨q, h', fun y => ⟨Or.inr, ?_⟩⟩
    rintro (hy | hy)
    · obtain rfl := List.mem_singleton.mp hy
      exact h'.start_mem
    · exact hy
  | cons hr _ ih =>
    obtain ⟨l, hl, hmem⟩ := ih h'
    exact ⟨_ :: l, .cons hr hl, fun y => by simp [hmem, or_assoc]⟩

/-- One more edge at the end. -/
theorem snoc (h : Walk r u v p) (hr : r v w) : Walk r u w (p ++ [w]) := by
  induction h with
  | single v => exact .cons hr (.single w)
  | cons hr' _ ih => exact .cons hr' (ih hr)

/-- A walk is cut at any of its vertices. -/
theorem split (h : Walk r v w p) (hx : x ∈ p) :
    ∃ p₁ p₂, Walk r v x p₁ ∧ Walk r x w p₂ ∧ (∀ y ∈ p₁, y ∈ p) ∧ ∀ y ∈ p₂, y ∈ p := by
  induction h with
  | single v =>
    obtain rfl := List.mem_singleton.mp hx
    exact ⟨[x], [x], .single x, .single x, fun _ => id, fun _ => id⟩
  | @cons u v w p hr h ih =>
    by_cases hxu : x = u
    · subst hxu
      exact ⟨[x], x :: p, .single x, .cons hr h, by simp, fun _ => id⟩
    · obtain ⟨p₁, p₂, h₁, h₂, hsub₁, hsub₂⟩ := ih ((List.mem_cons.mp hx).resolve_left hxu)
      refine ⟨u :: p₁, p₂, .cons hr h₁, h₂, fun y hy => ?_, fun y hy => .tail _ (hsub₂ y hy)⟩
      rcases List.mem_cons.mp hy with rfl | hy
      · exact .head _
      · exact .tail _ (hsub₁ y hy)

/-- Of a walk that ends at a vertex of some sort, the part up to the first such vertex. -/
theorem exists_first {P : α → Prop} (h : Walk r v w p) (hw : P w) :
    ∃ x l, P x ∧ Walk r v x (l ++ [x]) ∧ ∀ y ∈ l, ¬ P y := by
  induction h with
  | single v => exact ⟨v, [], hw, .single v, by simp⟩
  | @cons u v w p hr _ ih =>
    by_cases hu : P u
    · exact ⟨u, [], hu, .single u, by simp⟩
    · obtain ⟨x, l, hx, hl, hnone⟩ := ih hw
      exact ⟨x, u :: l, hx, .cons hr hl, List.forall_mem_cons.mpr ⟨hu, hnone⟩⟩

end Walk

/-! ### Dominance -/

/-- `w` is reached from `root`, and every walk to it passes through `d`. -/
def Dominates (r : α → α → Prop) (root d w : α) : Prop :=
  (∃ p, Walk r root w p) ∧ ∀ p, Walk r root w p → d ∈ p

/-- `d` dominates `w` and is another vertex. -/
def StrictlyDominates (r : α → α → Prop) (root d w : α) : Prop := d ≠ w ∧ Dominates r root d w

/-- `d` is the closest strict dominator of `w`: all others dominate it as well. -/
def IsImmediateDominator (r : α → α → Prop) (root d w : α) : Prop :=
  StrictlyDominates r root d w ∧ ∀ d', StrictlyDominates r root d' w → Dominates r root d' d

variable {root d d' : α}

theorem Dominates.self (h : Walk r root w p) : Dominates r root w w :=
  ⟨⟨p, h⟩, fun _ h' => h'.stop_mem⟩

/-- A dominator is reached itself. -/
theorem Dominates.reached (h : Dominates r root d w) : ∃ p, Walk r root d p := by
  obtain ⟨⟨p, hp⟩, hmem⟩ := h
  obtain ⟨p₁, _, h₁, -⟩ := hp.split (hmem p hp)
  exact ⟨p₁, h₁⟩

theorem Dominates.trans (h : Dominates r root d' d) (h' : Dominates r root d w) :
    Dominates r root d' w := by
  refine ⟨h'.1, fun p hp => ?_⟩
  obtain ⟨p₁, _, h₁, -, hsub, -⟩ := hp.split (h'.2 p hp)
  exact hsub _ (h.2 p₁ h₁)

/-- Two vertices that dominate each other are one: a walk comes to one of them first. -/
theorem Dominates.antisymm (h : Dominates r root d d') (h' : Dominates r root d' d) : d = d' := by
  obtain ⟨p, hp⟩ := h.1
  obtain ⟨x, l, hx, hl, hnone⟩ := hp.exists_first (P := fun x => x = d ∨ x = d') (.inr rfl)
  rcases hx with rfl | rfl
  · have hmem : d' ∈ l ∨ d' = x := by simpa using h'.2 _ hl
    exact (hmem.resolve_left fun hl => hnone d' hl (.inr rfl)).symm
  · have hmem : d ∈ l ∨ d = x := by simpa using h.2 _ hl
    exact hmem.resolve_left fun hl => hnone d hl (.inl rfl)

/-- The root has no strict dominator: the walk that stays there passes through no other vertex. -/
theorem not_strictlyDominates_root : ¬ StrictlyDominates r root d root := by
  rintro ⟨hne, h⟩
  exact hne (by simpa using h.2 [root] (.single root))

/-- A vertex has one immediate dominator at most. -/
theorem IsImmediateDominator.unique (h : IsImmediateDominator r root d w)
    (h' : IsImmediateDominator r root d' w) : d = d' :=
  (h'.2 d h.1).antisymm (h.2 d' h'.1)

/-- The dominators of a vertex are itself and those of its immediate dominator. -/
theorem IsImmediateDominator.dominates_iff (h : IsImmediateDominator r root d w) :
    Dominates r root d' w ↔ d' = w ∨ Dominates r root d' d := by
  constructor
  · intro h'
    by_cases hw : d' = w
    · exact Or.inl hw
    · exact Or.inr (h.2 d' ⟨hw, h'⟩)
  · rintro (rfl | h')
    · obtain ⟨p, hp⟩ := h.1.2.1
      exact .self hp
    · exact h'.trans h.1.2

end Disassembly.Graph
