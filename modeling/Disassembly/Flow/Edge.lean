import Disassembly.Address
import Disassembly.Text.Hex

/-!
# Flow edges

An edge is a possible transfer of control between two addresses of a function. Edges are ordered by
source, then by target, then by kind.
-/

namespace Disassembly.Flow

open Disassembly.Text

/-- Why control may pass along an edge. -/
inductive EdgeKind where
  /-- A condition holds. -/
  | whenTrue
  /-- A condition does not hold. -/
  | whenFalse
  /-- Always. -/
  | unconditional
  /-- A selector has one of its values. -/
  | switch
  deriving DecidableEq, Repr

namespace EdgeKind

/-- The number of a kind outside the program. -/
def tag : EdgeKind → Nat
  | whenTrue => 1
  | whenFalse => 2
  | unconditional => 3
  | switch => 4

/-- The kind with the given number. -/
def ofTag? (tag : Nat) : Option EdgeKind :=
  [whenTrue, whenFalse, unconditional, switch].find? (·.tag == tag)

/-- The name of a kind. -/
def name : EdgeKind → String
  | whenTrue => "true"
  | whenFalse => "false"
  | unconditional => "unconditional"
  | switch => "switch"

theorem ofTag?_tag (kind : EdgeKind) : ofTag? kind.tag = some kind := by cases kind <;> rfl

theorem tag_inj {a b : EdgeKind} (h : a.tag = b.tag) : a = b := by
  have := congrArg ofTag? h
  rwa [ofTag?_tag, ofTag?_tag, Option.some.injEq] at this

/-- Kinds are ordered as their numbers are. -/
instance : Ord EdgeKind := ⟨compareOn tag⟩

instance : Std.TransOrd EdgeKind := inferInstanceAs (Std.TransCmp (compareOn tag))

instance : Std.LawfulEqOrd EdgeKind where
  compare_self {a} := Std.ReflOrd.compare_self (a := a.tag)
  eq_of_compare h := tag_inj (Std.LawfulEqOrd.eq_of_compare h)

end EdgeKind

/-- A transfer of control from one address to another. -/
structure Edge where
  /-- Where control comes from. -/
  source : Address
  /-- Where it goes. -/
  target : Address
  /-- Why. -/
  kind : EdgeKind
  deriving DecidableEq, Repr

namespace Edge

/-- The order by source, then by target, then by kind. -/
def order : Edge → Edge → Ordering :=
  compareLex (compareOn source) (compareLex (compareOn target) (compareOn kind))

instance : Ord Edge := ⟨order⟩

instance : Std.TransOrd Edge :=
  inferInstanceAs (Std.TransCmp
    (compareLex (compareOn source) (compareLex (compareOn target) (compareOn kind))))

instance : Std.LawfulEqOrd Edge where
  compare_self {a} := by
    change order a a = .eq
    simp [order, compareLex, compareOn]
  eq_of_compare {a b} h := by
    change order a b = .eq at h
    obtain ⟨source, target, kind⟩ := a
    obtain ⟨source', target', kind'⟩ := b
    simpa [order, compareLex, compareOn, Ordering.then_eq_eq] using h

/-- Whether the first edge comes before the second or is the same. -/
def le (a b : Edge) : Bool := (order a b).isLE

/-- The text of an edge, such as `0x10 -> 0x20 (true)`. -/
def text (edge : Edge) : String :=
  markedHex edge.source.toNat ++ " -> " ++ markedHex edge.target.toNat ++
    " (" ++ edge.kind.name ++ ")"

end Edge

end Disassembly.Flow
