/-!
# Little-endian bytes

A natural number laid out in a fixed number of bytes, least significant byte first, and read back.
Reading is exact up to the width: what is dropped are the digits past the last byte.
-/

namespace Disassembly.Bytes.LittleEndian

/-- The lowest `width` base-256 digits of `n`, lowest first. -/
def encode : (width : Nat) → (n : Nat) → List UInt8
  | 0, _ => []
  | width + 1, n => UInt8.ofNat n :: encode width (n / 256)

/-- The number whose base-256 digits, lowest first, are the given bytes. -/
def decode : List UInt8 → Nat
  | [] => 0
  | b :: bs => b.toNat + 256 * decode bs

@[simp] theorem length_encode (width n : Nat) : (encode width n).length = width := by
  induction width generalizing n with
  | zero => rfl
  | succ width ih => simp [encode, ih]

theorem decode_encode_succ (width n : Nat) :
    decode (encode (width + 1) n) = n % 256 + 256 * decode (encode width (n / 256)) := by
  simp [encode, decode]

end Disassembly.Bytes.LittleEndian
