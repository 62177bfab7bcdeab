import Std.Data.ExtTreeMap
import Disassembly.Bytes.LittleEndian
import Disassembly.Text.Hex
import Disassembly.Text.Sdbm
import Disassembly.Expression.Kind

/-!
# Signatures

The signature of a node is the fixed-width key by which equal nodes are found:

| bytes  | field                                 |
|--------|---------------------------------------|
| 0      | tag of the kind                       |
| 1–2    | position                              |
| 3–10   | immediate, as its bits                |
| 11–14  | SDBM hash of the symbol               |
| 15–18  | number of the parent, 0 for a root    |

Fields wider than a byte are little-endian, and signatures are ordered byte by byte. Only the symbol
is hashed: symbols with the same hash give the same signature when all other fields agree.
-/

namespace Disassembly.Expression

open Disassembly.Bytes Disassembly.Text

/-- The 19 bytes that identify a node. -/
structure Signature where
  /-- The bytes, in the layout above. -/
  bytes : List UInt8
  /-- There are always 19. -/
  length_bytes : bytes.length = 19
  deriving DecidableEq

namespace Signature

/-- The signature of a node with the given fields; `parent` is 0 for a root. -/
def ofFields (kind : Kind) (position : UInt16) (immediate : Int64) (symbol : String)
    (parent : UInt32) : Signature where
  bytes := LittleEndian.encode 1 kind.tag.toNat ++ LittleEndian.encode 2 position.toNat ++
    LittleEndian.encode 8 immediate.toUInt64.toNat ++
    LittleEndian.encode 4 (Sdbm.hash symbol).toNat ++ LittleEndian.encode 4 parent.toNat
  length_bytes := by simp

/-- The number in the `width` bytes from `offset` on. -/
def field (s : Signature) (offset width : Nat) : Nat :=
  LittleEndian.decode ((s.bytes.drop offset).take width)

/-- The tag of the kind. -/
def kindTag (s : Signature) : UInt8 := UInt8.ofNat (s.field 0 1)

/-- The position. -/
def position (s : Signature) : UInt16 := UInt16.ofNat (s.field 1 2)

/-- The immediate. -/
def immediate (s : Signature) : Int64 := (UInt64.ofNat (s.field 3 8)).toInt64

/-- The hash of the symbol. -/
def symbolHash (s : Signature) : UInt32 := UInt32.ofNat (s.field 11 4)

/-- The number of the parent, 0 for a root. -/
def parent (s : Signature) : UInt32 := UInt32.ofNat (s.field 15 4)

/-- The bytes as 38 hexadecimal digits. -/
def hex (s : Signature) : String := hexBytes s.bytes

instance : ToString Signature where
  toString s := "Signature(" ++ s.hex ++ ")"

instance : Ord Signature where
  compare a b := compare a.bytes b.bytes

instance : Std.TransOrd Signature where
  eq_swap {a b} := @Std.OrientedCmp.eq_swap (List UInt8) compare inferInstance a.bytes b.bytes
  isLE_trans {a b c} :=
    @Std.TransCmp.isLE_trans (List UInt8) compare inferInstance a.bytes b.bytes c.bytes

instance : Std.LawfulEqOrd Signature where
  compare_self {a} := @Std.ReflCmp.compare_self (List UInt8) compare inferInstance a.bytes
  eq_of_compare {a b} h := by
    obtain ⟨a, ha⟩ := a
    obtain ⟨b, hb⟩ := b
    obtain rfl : a = b := @Std.LawfulEqCmp.eq_of_compare (List UInt8) compare inferInstance _ _ h
    rfl

end Signature

end Disassembly.Expression
