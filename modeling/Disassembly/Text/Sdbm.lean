/-!
# The SDBM text hash

A 32-bit hash that depends on the order of the bytes of a text. All arithmetic is modulo `2 ^ 32`.
-/

namespace Disassembly.Text.Sdbm

/-- Takes one more byte into the hash: `h` becomes `b + 65599 · h`, computed with two shifts. -/
def step (h : UInt32) (b : UInt8) : UInt32 := b.toUInt32 + (h <<< 6) + (h <<< 16) - h

/-- The hash of a sequence of bytes, starting from zero. -/
def ofBytes (bytes : List UInt8) : UInt32 := bytes.foldl step 0

/-- The bytes of a text in UTF-8. -/
def bytes (text : String) : List UInt8 := text.toUTF8.data.toList

/-- The hash of a text, taken over its UTF-8 bytes. -/
def hash (text : String) : UInt32 := ofBytes (bytes text)

end Disassembly.Text.Sdbm
