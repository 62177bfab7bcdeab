/-!
# Checked writes

Writing to a place of an array that may not exist. The graph algorithms read and write every cell
with a check, so that a run that ends with a result has used no place outside its arrays.
-/

namespace Disassembly.Graph

variable {α : Type}

/-- The array with `a` at place `i`; none if there is no such place. -/
def write? (cells : Array α) (i : Nat) (a : α) : Option (Array α) :=
  if h : i < cells.size then some (cells.set i a) else none

/-- The array with its empty cell at place `i` filled; none if there is no such place or the cell
was filled before. -/
def fill? (cells : Array (Option α)) (i : Nat) (a : α) : Option (Array (Option α)) :=
  match cells[i]? with
  | some none => write? cells i (some a)
  | _ => none

theorem write?_eq_some_iff {cells cells' : Array α} {i : Nat} {a : α} :
    write? cells i a = some cells' ↔ ∃ h : i < cells.size, cells.set i a h = cells' := by
  unfold write?
  split
  · simp_all
  · simp
    omega

theorem write?_of_lt {cells : Array α} {i : Nat} (h : i < cells.size) (a : α) :
    write? cells i a = some (cells.set i a) := by
  simp [write?, h]

end Disassembly.Graph
