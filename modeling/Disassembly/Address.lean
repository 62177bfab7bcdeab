/-!
# Addresses

Code addresses are 64-bit words. Moving past the end of the address space stops at its last address.
-/

namespace Disassembly

/-- An address in the program. -/
abbrev Address := UInt64

namespace Address

/-- The last address. -/
def last : Address := UInt64.ofNat (UInt64.size - 1)

/-- The address `size` bytes further on, or the last one if there is none. -/
def advance (address : Address) (size : UInt8) : Address :=
  if address.toNat + size.toNat < UInt64.size then UInt64.ofNat (address.toNat + size.toNat)
  else last

theorem toNat_advance (address : Address) (size : UInt8) :
    (advance address size).toNat = min (address.toNat + size.toNat) (UInt64.size - 1) := by
  unfold advance last
  split
  · rw [UInt64.toNat_ofNat_of_lt' (by assumption)]
    omega
  · rw [UInt64.toNat_ofNat_of_lt' (by decide)]
    omega

theorem le_advance (address : Address) (size : UInt8) : address ≤ advance address size := by
  rw [UInt64.le_iff_toNat_le, toNat_advance]
  have := address.toNat_lt
  simp only [UInt64.size]
  omega

theorem le_max_left (a b : Address) : a ≤ max a b := by
  show a ≤ if a ≤ b then b else a
  split
  · assumption
  · exact UInt64.le_refl a

theorem le_max_right (a b : Address) : b ≤ max a b := by
  show b ≤ if a ≤ b then b else a
  split
  · exact UInt64.le_refl b
  · exact UInt64.le_of_lt (UInt64.not_le.mp (by assumption))

end Address

end Disassembly
