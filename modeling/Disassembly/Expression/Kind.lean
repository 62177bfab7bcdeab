/-!
# Kinds of expression nodes

Each kind has a tag byte, which is part of a node's signature and therefore fixed, and a name.
`Kind.ofTag?` reads exactly the tags that `Kind.tag` writes.
-/

namespace Disassembly.Expression

/-- What an expression node stands for. -/
inductive Kind where
  /-- The mnemonic of an instruction. -/
  | mnemonic
  /-- A symbol. -/
  | symbol
  /-- An integer. -/
  | immediateInt
  /-- A floating-point number, by its bits. -/
  | immediateFloat
  /-- An operator such as `+`. -/
  | operator
  /-- A register. -/
  | register
  /-- The width of an access. -/
  | sizePrefix
  /-- A memory access. -/
  | dereference
  /-- An immediate that opens a new operand. -/
  | newOperand
  /-- An immediate that names a stack variable. -/
  | stackVariable
  /-- An immediate that names a global variable. -/
  | globalVariable
  /-- An immediate that is the target of a jump. -/
  | jumpLabel
  /-- An immediate that names a function. -/
  | function
  /-- No valid kind. -/
  | invalid
  deriving DecidableEq, Repr

namespace Kind

/-- The tag byte. -/
def tag : Kind → UInt8
  | mnemonic => 0
  | symbol => 1
  | immediateInt => 2
  | immediateFloat => 3
  | operator => 4
  | register => 5
  | sizePrefix => 6
  | dereference => 7
  | newOperand => 8
  | stackVariable => 9
  | globalVariable => 10
  | jumpLabel => 11
  | function => 12
  | invalid => 255

/-- Every kind, in the order of the tags. -/
def all : List Kind :=
  [mnemonic, symbol, immediateInt, immediateFloat, operator, register, sizePrefix, dereference,
    newOperand, stackVariable, globalVariable, jumpLabel, function, invalid]

/-- The kind with the given tag byte, if there is one. -/
def ofTag? (tag : UInt8) : Option Kind := all.find? (·.tag == tag)

/-- Whether nodes of this kind carry an immediate, and so may do without a symbol. -/
def isImmediate : Kind → Bool
  | immediateInt | immediateFloat | newOperand | stackVariable | globalVariable | jumpLabel
  | function => true
  | _ => false

/-- The name of a kind in messages and listings. -/
def name : Kind → String
  | mnemonic => "mnemonic"
  | symbol => "symbol"
  | immediateInt => "immediate_int"
  | immediateFloat => "immediate_float"
  | operator => "operator"
  | register => "register"
  | sizePrefix => "size_prefix"
  | dereference => "dereference"
  | newOperand => "new_operand"
  | stackVariable => "stack_variable"
  | globalVariable => "global_variable"
  | jumpLabel => "jump_label"
  | function => "function"
  | invalid => "invalid"

theorem mem_all (kind : Kind) : kind ∈ all := by cases kind <;> decide

theorem ofTag?_tag (kind : Kind) : ofTag? kind.tag = some kind := by cases kind <;> rfl

theorem tag_inj {a b : Kind} (h : a.tag = b.tag) : a = b := by
  have := congrArg ofTag? h
  rwa [ofTag?_tag, ofTag?_tag, Option.some.injEq] at this

/-- Kinds are ordered as their tags are. -/
instance : Ord Kind := ⟨compareOn tag⟩

end Kind

end Disassembly.Expression
