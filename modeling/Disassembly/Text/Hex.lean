/-!
# Hexadecimal text

The three hexadecimal forms that listings use: shortest lower case, two digits for a byte, and upper
case padded with zeros to a width.
-/

namespace Disassembly.Text

/-- Lower-case digits without leading zeros; zero is `0`. -/
def hex (n : Nat) : String := String.ofList (Nat.toDigits 16 n)

/-- `hex` with the mark `0x` before it. -/
def markedHex (n : Nat) : String := "0x" ++ hex n

/-- Upper-case digits, padded on the left with zeros to at least `width` digits. -/
def paddedHex (width n : Nat) : String :=
  String.ofList (((Nat.toDigits 16 n).map Char.toUpper).leftpad width '0')

/-- Each byte as two lower-case digits, in order. -/
def hexBytes (bytes : List UInt8) : String :=
  String.ofList (bytes.flatMap fun b => (Nat.toDigits 16 b.toNat).leftpad 2 '0')

end Disassembly.Text
