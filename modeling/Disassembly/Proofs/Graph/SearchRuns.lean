import Disassembly.Graph.DepthFirst

/-!
# Runs of the depth-first search

`Search.Halts` says without any fuel that a search ends, and after how many steps; `run?` with fuel comes to the same
(`Search.run?_eq_some_iff`).
-/

namespace Disassembly.Graph

variable {g : Digraph}

namespace Search

variable {s s' : Search} {fuel steps : Nat}

/-- The path of the search is empty after that many steps and not before. -/
inductive Halts (g : Digraph) : Search → Nat → Search → Prop where
  /-- The path is empty. -/
  | done {s : Search} : s.stack = [] → Halts g s 0 s
  /-- A step goes through, and the search ends later. -/
  | step {s s₁ s' : Search} {steps : Nat} :
    s.stack ≠ [] → s.step? g = some s₁ → Halts g s₁ steps s' → Halts g s (steps + 1) s'

theorem Halts.stack_eq (h : s.Halts g steps s') : s'.stack = [] := by
  induction h with
  | done hs => exact hs
  | step _ _ _ ih => exact ih

/-- With fuel a search comes to its end if the fuel lasts, and to nothing else. -/
theorem run?_eq_some_iff : s.run? g fuel = some s' ↔ ∃ steps ≤ fuel, s.Halts g steps s' := by
  induction fuel generalizing s with
  | zero =>
    simp only [run?, List.isEmpty_iff, Option.ite_none_right_eq_some, Option.some.injEq]
    constructor
    · rintro ⟨hs, rfl⟩
      exact ⟨0, Nat.le_refl 0, .done hs⟩
    · rintro ⟨steps, hle, h⟩
      cases h with
      | done hs => exact ⟨hs, rfl⟩
      | step _ _ _ => omega
  | succ fuel ih =>
    by_cases hs : s.stack = []
    · simp only [run?, hs, List.isEmpty_nil, if_true, Option.some.injEq]
      constructor
      · rintro rfl
        exact ⟨0, Nat.zero_le _, .done hs⟩
      · rintro ⟨steps, -, h⟩
        cases h with
        | done _ => rfl
        | step hne _ _ => exact absurd hs hne
    · simp only [run?, List.isEmpty_iff, hs, if_false, Option.bind_eq_bind, Option.bind_eq_some_iff, ih]
      constructor
      · rintro ⟨s₁, hs₁, steps, hle, h⟩
        exact ⟨steps + 1, by omega, .step hs hs₁ h⟩
      · rintro ⟨steps, hle, h⟩
        cases h with
        | done hempty => exact absurd hempty hs
        | step _ hs₁ h => exact ⟨_, hs₁, _, by omega, h⟩

end Search

end Disassembly.Graph
