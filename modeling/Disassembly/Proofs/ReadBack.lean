import Disassembly.Expression.Node
import Disassembly.Flow.Function
import Disassembly.Proofs.Text.Hex

/-!
# Texts that read back

The tokens of immediates and the generated names of functions say all about their values: the one is read back as the
immediate (`Expression.readImmediate?_immediateText`), the other as the entry point (`Flow.entryNamed?_generatedName`),
so that two functions without a name never have one in common (`Flow.Function.generatedName_inj`). `texts_read_back`
also says how they are written.
-/

namespace Disassembly

open Text

/-! ### Immediates -/

namespace Expression

/-- The 64-bit integer that a text writes in hexadecimal; none if it writes no integer or one that does not fit. -/
def readImmediate? (text : String) : Option Int64 :=
  (readSigned? text.toList).bind fun z => if (Int64.ofInt z).toInt = z then some (Int64.ofInt z) else none

theorem readImmediate?_of_readSigned? {text : String} {value : Int64}
    (h : readSigned? text.toList = some value.toInt) : readImmediate? text = some value := by
  simp [readImmediate?, h, Int64.ofInt_toInt]

namespace Node

variable {value : Int64}

theorem immediateText_of_neg (h : value < 0) : (immediateText value).toList = '-' :: (hex value.toInt.natAbs).toList := by
  rw [immediateText, if_pos h, String.toList_append]
  rfl

theorem immediateText_of_not_neg (h : ¬ value < 0) : immediateText value = hex value.toInt.natAbs := if_neg h

/-- The sign and the digits of the magnitude make up the immediate. -/
theorem readImmediate?_immediateText (value : Int64) : readImmediate? (immediateText value) = some value := by
  apply readImmediate?_of_readSigned?
  by_cases h : value < 0
  · rw [immediateText_of_neg h, readSigned?_minus_hex]
    rw [Int64.lt_iff_toInt_lt, Int64.toInt_zero] at h
    exact congrArg some (by omega)
  · rw [immediateText_of_not_neg h, readSigned?_hex]
    rw [Int64.lt_iff_toInt_lt, Int64.toInt_zero] at h
    exact congrArg some (by omega)

/-- A minus sign stands before negative immediates only, and what follows is a numeral. -/
theorem exists_numeral_immediateText (value : Int64) : ∃ digits, IsNumeral digits ∧
    (immediateText value).toList = (if value < 0 then ['-'] else []) ++ digits := by
  refine ⟨(hex value.toInt.natAbs).toList, isNumeral_hex _, ?_⟩
  by_cases h : value < 0
  · rw [immediateText_of_neg h, if_pos h]
    rfl
  · rw [immediateText_of_not_neg h, if_neg h]
    rfl

/-- An immediate without a name is written by its value. -/
theorem text_of_isImmediate {node : Node} (himmediate : node.isImmediate = true) (hsymbol : node.symbol.text = "") :
    node.text = immediateText node.immediate := by
  have hkind : node.kind ≠ .dereference := by
    intro hkind
    rw [isImmediate, hkind] at himmediate
    cases himmediate
  simp [text, isDereference, hkind, hsymbol]

end Node

end Expression

/-! ### Generated names -/

namespace Flow

/-- The entry point that a generated name tells; none for any other name. -/
def entryNamed? (name : String) : Option Address :=
  match name.toList with
  | 's' :: 'u' :: 'b' :: '_' :: digits =>
    (readDigits? digits).bind fun n => if n < UInt64.size then some (UInt64.ofNat n) else none
  | _ => none

namespace Function

/-- The number of digits in a generated name. -/
def nameWidth (entry : Address) : Nat := if entry.toNat < UInt32.size then 8 else 16

theorem toList_generatedName (entry : Address) :
    (generatedName entry).toList = ['s', 'u', 'b', '_'] ++ (paddedHex (nameWidth entry) entry.toNat).toList :=
  String.toList_append

theorem entryNamed?_generatedName (entry : Address) : entryNamed? (generatedName entry) = some entry := by
  rw [entryNamed?, toList_generatedName]
  simp [readDigits?_paddedHex, entry.toNat_lt_size]

theorem length_digits_generatedName (entry : Address) :
    (paddedHex (nameWidth entry) entry.toNat).toList.length = nameWidth entry := by
  have hentry := entry.toNat_lt_size
  unfold nameWidth
  split
  · exact length_paddedHex (by decide) (by assumption)
  · exact length_paddedHex (by decide) hentry

theorem generatedName_inj {entry entry' : Address} (h : generatedName entry = generatedName entry') : entry = entry' := by
  have hread := entryNamed?_generatedName entry
  rw [h, entryNamed?_generatedName] at hread
  exact (Option.some.inj hread).symm

variable {f : Function}

theorem mangled_of_nameless (h : f.name = "") : f.mangled = generatedName f.entry := by simp [mangled, h]

theorem demangled_of_nameless (h : f.name = "") (hdemangled : f.demangledName = "") :
    f.demangled = generatedName f.entry := by
  simp [demangled, hdemangled, mangled_of_nameless h]

/-- A real name is one that shows. -/
theorem hasRealName_iff : f.hasRealName = true ↔ f.mangled ≠ generatedName f.entry := by
  by_cases h : f.name = "" <;> simp [hasRealName, mangled, h]

end Function

end Flow

open Disassembly.Expression Disassembly.Flow

/-- The token of an immediate without a symbol is a numeral, with a minus sign before it if the immediate is negative,
and reads back as the immediate, whichever of all 64-bit integers that is. A generated name is `sub_` with 8 upper-case
digits, or 16 if the entry point needs them, and reads back as the entry point. So functions without a name that are
entered at different addresses have different names, and a function has a real name just if its name is not the
generated one. -/
theorem texts_read_back :
    (∀ node : Node, node.isImmediate = true → node.symbol.text = "" →
      readImmediate? node.text = some node.immediate ∧
      ∃ digits, IsNumeral digits ∧ node.text.toList = (if node.immediate < 0 then ['-'] else []) ++ digits) ∧
    (∀ entry : Address, entryNamed? (Function.generatedName entry) = some entry ∧
      ∃ digits, (Function.generatedName entry).toList = ['s', 'u', 'b', '_'] ++ digits ∧
        digits.length = (if entry.toNat < UInt32.size then 8 else 16) ∧ ∀ c ∈ digits, c ∈ upperDigits) ∧
    (∀ f f' : Function, f.name = "" → f'.name = "" → f.entry ≠ f'.entry → f.mangled ≠ f'.mangled ∧
      (f.demangledName = "" → f'.demangledName = "" → f.demangled ≠ f'.demangled)) ∧
    ∀ f : Function, f.hasRealName = true ↔ f.mangled ≠ Function.generatedName f.entry := by
  refine ⟨fun node himmediate hsymbol => ?_, fun entry => ?_, fun f f' hf hf' hne => ?_, fun f => Function.hasRealName_iff⟩
  · rw [Node.text_of_isImmediate himmediate hsymbol]
    exact ⟨Node.readImmediate?_immediateText _, Node.exists_numeral_immediateText _⟩
  · exact ⟨Function.entryNamed?_generatedName entry, _, Function.toList_generatedName entry,
      Function.length_digits_generatedName entry, fun c hc => mem_upperDigits_of_mem_paddedHex hc⟩
  · have hnames : Function.generatedName f.entry ≠ Function.generatedName f'.entry :=
      fun h => hne (Function.generatedName_inj h)
    refine ⟨?_, fun hd hd' => ?_⟩
    · rwa [Function.mangled_of_nameless hf, Function.mangled_of_nameless hf']
    · rwa [Function.demangled_of_nameless hf hd, Function.demangled_of_nameless hf' hd']

/-- A node with the least immediate. -/
def leastNode : Node where
  id := ⟨0⟩
  kind := .immediateInt
  symbol := ⟨"", 0⟩
  immediate := Int64.minValue
  position := 0
  relocatable := false
  parent := none

/-- The least immediate has a magnitude that is no immediate, and the last entry point with 8 digits has as its
neighbour the first with 16. -/
theorem texts_read_back_extremes :
    leastNode.text = "-8000000000000000" ∧ readImmediate? leastNode.text = some Int64.minValue ∧
    Function.generatedName 0xFFFFFFFF = "sub_FFFFFFFF" ∧ entryNamed? "sub_FFFFFFFF" = some 0xFFFFFFFF ∧
    Function.generatedName 0x100000000 = "sub_0000000100000000" ∧
    Function.mangled { entry := 0xFFFFFFFF } ≠ Function.mangled { entry := 0x100000000 } := by
  obtain ⟨himmediates, hentries, hnameless, -⟩ := texts_read_back
  have hlast : Function.generatedName 0xFFFFFFFF = "sub_FFFFFFFF" := by decide +kernel
  refine ⟨by decide +kernel, (himmediates leastNode rfl rfl).1, hlast, ?_, by decide +kernel, ?_⟩
  · exact hlast ▸ (hentries 0xFFFFFFFF).1
  · exact (hnameless { entry := 0xFFFFFFFF } { entry := 0x100000000 } rfl rfl (by decide)).1

end Disassembly
