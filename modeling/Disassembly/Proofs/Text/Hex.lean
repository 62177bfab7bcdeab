import Mathlib.Data.Nat.Digits.Defs
import Disassembly.Text.Hex

/-!
# Reading hexadecimal text

Numbers are read from hexadecimal digits of either case (`readDigits?`). What `hex` writes reads back, and it is a
numeral, lower case and without leading zeros (`readDigits?_hex`, `isNumeral_hex`); with a sign before it any integer is
written in this way (`readSigned?_minus_hex`, `readSigned?_hex`). What `paddedHex` writes reads back as well
(`readDigits?_paddedHex`), since zeros in front add nothing.
-/

namespace Disassembly.Text

/-! ### Readers -/

/-- The digits in lower case, each at the place of its value. -/
def lowerDigits : List Char :=
  ['0', '1', '2', '3', '4', '5', '6', '7', '8', '9', 'a', 'b', 'c', 'd', 'e', 'f']

/-- The digits in upper case. -/
def upperDigits : List Char :=
  ['0', '1', '2', '3', '4', '5', '6', '7', '8', '9', 'A', 'B', 'C', 'D', 'E', 'F']

/-- The value of a digit of either case. -/
def digit? (c : Char) : Option Nat := (lowerDigits.idxOf? c).or (upperDigits.idxOf? c)

/-- The number that results when digits are read after `n` has been. -/
def readOn? (n : Nat) (digits : List Char) : Option Nat :=
  digits.foldlM (fun n c => (digit? c).map (16 * n + ·)) n

/-- The number that some digits write; there must be one at least. -/
def readDigits? (digits : List Char) : Option Nat :=
  if digits.isEmpty then none else readOn? 0 digits

/-- The integer that some digits write, or a minus sign and some digits. -/
def readSigned? : List Char → Option Int
  | '-' :: digits => (readDigits? digits).map fun (n : Nat) => -(n : Int)
  | digits => (readDigits? digits).map fun (n : Nat) => (n : Int)

/-- Lower-case digits, of which the first is zero only if it is the only one. -/
structure IsNumeral (digits : List Char) : Prop where
  /-- There is a digit. -/
  ne_nil : digits ≠ []
  /-- All are lower-case digits. -/
  lower : ∀ c ∈ digits, c ∈ lowerDigits
  /-- No zero leads. -/
  head : digits.head? = some '0' → digits = ['0']

/-! ### Digits -/

theorem digit?_digitChar : ∀ d < 16, digit? d.digitChar = some d := by decide

theorem digit?_toUpper_digitChar : ∀ d < 16, digit? d.digitChar.toUpper = some d := by decide

theorem digitChar_mem_lowerDigits : ∀ d < 16, d.digitChar ∈ lowerDigits := by decide

theorem toUpper_digitChar_mem_upperDigits : ∀ d < 16, d.digitChar.toUpper ∈ upperDigits := by decide

theorem exists_of_mem_toDigits {c : Char} (n : Nat) (hc : c ∈ Nat.toDigits 16 n) : ∃ d < 16, c = d.digitChar := by
  induction n using Nat.strongRecOn with
  | ind n ih =>
    rw [Nat.toDigits_eq_if (by decide)] at hc
    split at hc
    · exact ⟨n, by assumption, List.mem_singleton.mp hc⟩
    · rcases List.mem_append.mp hc with hc | hc
      · exact ih (n / 16) (by omega) hc
      · exact ⟨n % 16, Nat.mod_lt n (by decide), List.mem_singleton.mp hc⟩

/-- Only zero is written with a zero first. -/
theorem eq_zero_of_head?_toDigits (n : Nat) (h : (Nat.toDigits 16 n).head? = some '0') : n = 0 := by
  induction n using Nat.strongRecOn with
  | ind n ih =>
    rw [Nat.toDigits_eq_if (by decide)] at h
    split at h
    · simpa [Nat.digitChar_eq_zero] using h
    · rw [List.head?_append, Option.or_of_isSome (by simp [Nat.toDigits_ne_nil])] at h
      have := ih (n / 16) (by omega) h
      omega

theorem isNumeral_toDigits (n : Nat) : IsNumeral (Nat.toDigits 16 n) where
  ne_nil := Nat.toDigits_ne_nil
  lower := fun c hc => by
    obtain ⟨d, hd, rfl⟩ := exists_of_mem_toDigits n hc
    exact digitChar_mem_lowerDigits d hd
  head := fun h => by
    obtain rfl := eq_zero_of_head?_toDigits n h
    exact Nat.toDigits_zero 16

/-! ### Reading back -/

theorem readOn?_append (n : Nat) (digits more : List Char) :
    readOn? n (digits ++ more) = (readOn? n digits).bind (readOn? · more) := List.foldlM_append

/-- Digits read back in whatever way each of them is spelt. -/
theorem readOn?_toDigits (spell : Char → Char) (hspell : ∀ d < 16, digit? (spell d.digitChar) = some d) (n : Nat) :
    readOn? 0 ((Nat.toDigits 16 n).map spell) = some n := by
  have hlast (n d : Nat) (hd : d < 16) : readOn? n [spell d.digitChar] = some (16 * n + d) := by
    simp [readOn?, hspell d hd]
  induction n using Nat.strongRecOn with
  | ind n ih =>
    rw [Nat.toDigits_eq_if (by decide)]
    split
    · rw [List.map_singleton, hlast 0 n (by assumption), Nat.mul_zero, Nat.zero_add]
    · rw [List.map_append, List.map_singleton, readOn?_append, ih (n / 16) (by omega), Option.bind_some,
        hlast _ _ (Nat.mod_lt n (by decide)), Nat.div_add_mod]

/-- Zeros in front add nothing. -/
theorem readOn?_replicate_append (k : Nat) (digits : List Char) :
    readOn? 0 (List.replicate k '0' ++ digits) = readOn? 0 digits := by
  induction k with
  | zero => rfl
  | succ k ih => exact ih

theorem readDigits?_of_ne_nil {digits : List Char} (h : digits ≠ []) : readDigits? digits = readOn? 0 digits :=
  if_neg (by simpa using h)

theorem isNumeral_hex (n : Nat) : IsNumeral (hex n).toList := by
  rw [hex, String.toList_ofList]
  exact isNumeral_toDigits n

theorem readDigits?_hex (n : Nat) : readDigits? (hex n).toList = some n := by
  rw [readDigits?_of_ne_nil (isNumeral_hex n).ne_nil, hex, String.toList_ofList]
  simpa using readOn?_toDigits id digit?_digitChar n

/-- A minus sign is no digit, so that without one the sign is not taken from the digits. -/
theorem readSigned?_hex (n : Nat) : readSigned? (hex n).toList = some (n : Int) := by
  have hsign : ∀ digits, IsNumeral digits → readSigned? digits = (readDigits? digits).map fun (n : Nat) => (n : Int) := by
    intro digits h
    unfold readSigned?
    split
    · have := h.lower '-' (.head _)
      simp [lowerDigits] at this
    · rfl
  rw [hsign _ (isNumeral_hex n), readDigits?_hex, Option.map_some]

theorem readSigned?_minus_hex (n : Nat) : readSigned? ('-' :: (hex n).toList) = some (-(n : Int)) := by
  rw [readSigned?, readDigits?_hex, Option.map_some]

theorem readDigits?_paddedHex (width n : Nat) : readDigits? (paddedHex width n).toList = some n := by
  have hne : (paddedHex width n).toList ≠ [] := by simp [paddedHex, List.leftpad]
  rw [readDigits?_of_ne_nil hne, paddedHex, String.toList_ofList, List.leftpad, readOn?_replicate_append]
  exact readOn?_toDigits Char.toUpper digit?_toUpper_digitChar n

theorem length_paddedHex {width n : Nat} (hwidth : 0 < width) (hn : n < 16 ^ width) :
    (paddedHex width n).toList.length = width := by
  have hle := (Nat.length_toDigits_le_iff (b := 16) (by decide) hwidth).mpr hn
  rw [paddedHex, String.toList_ofList, List.length_leftpad, List.length_map]
  exact Nat.max_eq_left hle

theorem mem_upperDigits_of_mem_paddedHex {width n : Nat} {c : Char} (hc : c ∈ (paddedHex width n).toList) :
    c ∈ upperDigits := by
  rw [paddedHex, String.toList_ofList, List.leftpad, List.mem_append, List.mem_replicate] at hc
  rcases hc with ⟨-, rfl⟩ | hc
  · decide
  · obtain ⟨lower, hlower, rfl⟩ := List.mem_map.mp hc
    obtain ⟨d, hd, rfl⟩ := exists_of_mem_toDigits n hlower
    exact toUpper_digitChar_mem_upperDigits d hd

end Disassembly.Text
