/-!
# Ancestors

A forest on numbers, given by the vertex above each one, where there is one. In every forest here a
vertex lies under a smaller one (`Descending`), so that ancestors are compared by their numbers:
`Ancestor.of_le` says that those of one vertex form a chain.
-/

namespace Disassembly.Graph

variable {above above' : Nat → Option Nat} {p u v w : Nat}

/-- Every vertex lies under a smaller one, or is a root. -/
def Descending (above : Nat → Option Nat) : Prop := ∀ {p v : Nat}, above v = some p → p < v

/-- `Ancestor above u v`: `u` is `v` or lies above it. -/
inductive Ancestor (above : Nat → Option Nat) (u : Nat) : Nat → Prop where
  /-- Every vertex counts as its own ancestor. -/
  | refl : Ancestor above u u
  /-- What is above the vertex above `v` is above `v`. -/
  | up {p v : Nat} : above v = some p → Ancestor above u p → Ancestor above u v

namespace Ancestor

theorem of_above (h : above v = some p) : Ancestor above p v := .up h .refl

theorem trans (h : Ancestor above u v) (h' : Ancestor above v w) : Ancestor above u w := by
  induction h' with
  | refl => exact h
  | up hp _ ih => exact .up hp ih

theorem le (hd : Descending above) (h : Ancestor above u v) : u ≤ v := by
  induction h with
  | refl => exact Nat.le_refl u
  | up hp _ ih =>
    have := hd hp
    omega

/-- An ancestor other than the vertex itself is one of the vertex above it. -/
theorem of_ne (h : Ancestor above u v) (hne : u ≠ v) :
    ∃ p, above v = some p ∧ Ancestor above u p := by
  cases h with
  | refl => exact absurd rfl hne
  | up hp h => exact ⟨_, hp, h⟩

theorem of_root (h : Ancestor above u v) (hv : above v = none) : u = v := by
  by_cases hne : u = v
  · exact hne
  · obtain ⟨p, hp, -⟩ := h.of_ne hne
    simp [hv] at hp

/-- Of two ancestors of one vertex the smaller lies above the other. -/
theorem of_le (hd : Descending above) (h : Ancestor above u w) (h' : Ancestor above v w)
    (hle : u ≤ v) : Ancestor above u v := by
  induction h' with
  | refl => exact h
  | @up p w hp h' ih =>
    refine ih ?_
    have hv := h'.le hd
    have hw := hd hp
    obtain ⟨p', hp', h⟩ := h.of_ne (by omega)
    rw [hp, Option.some.injEq] at hp'
    exact hp' ▸ h

/-- Between a vertex and an ancestor above it there is a child of the ancestor. -/
theorem exists_child (h : Ancestor above u w) (hne : u ≠ w) :
    ∃ c, above c = some u ∧ Ancestor above c w := by
  induction h with
  | refl => exact absurd rfl hne
  | @up p w hp h ih =>
    by_cases hup : u = p
    · exact ⟨w, hup ▸ hp, .refl⟩
    · obtain ⟨c, hc, h⟩ := ih hup
      exact ⟨c, hc, .up hp h⟩

/-- Ancestors stay when vertices are put under others. -/
theorem mono (hsub : ∀ {v p : Nat}, above v = some p → above' v = some p)
    (h : Ancestor above u v) : Ancestor above' u v := by
  induction h with
  | refl => exact .refl
  | up hp _ ih => exact .up (hsub hp) ih

/-- Below an old ancestor nothing new comes in. -/
theorem of_extended {a : Nat} (hd : Descending above')
    (hsub : ∀ {v p : Nat}, above v = some p → above' v = some p) (ha : Ancestor above a v)
    (h : Ancestor above' u v) (hlt : a < u) : Ancestor above u v := by
  induction ha with
  | refl =>
    have := h.le hd
    omega
  | @up q v hq _ ih =>
    by_cases hne : u = v
    · exact hne ▸ .refl
    · obtain ⟨q', hq', h⟩ := h.of_ne hne
      rw [hsub hq, Option.some.injEq] at hq'
      exact .up hq (ih (hq' ▸ h))

/-- Only what is above the vertices up to `v` decides which are the ancestors of `v`. -/
theorem congr (hd : Descending above) (heq : ∀ x ≤ v, above x = above' x) :
    Ancestor above u v ↔ Ancestor above' u v := by
  constructor <;> intro h
  · induction h with
    | refl => exact .refl
    | up hp _ ih =>
      have := hd hp
      exact .up (heq _ (Nat.le_refl _) ▸ hp) (ih fun x hx => heq x (by omega))
  · induction h with
    | refl => exact .refl
    | up hp _ ih =>
      rw [← heq _ (Nat.le_refl _)] at hp
      have := hd hp
      exact .up hp (ih fun x hx => heq x (by omega))

end Ancestor

end Disassembly.Graph
