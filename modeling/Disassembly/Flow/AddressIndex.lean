import Disassembly.Address

/-!
# The address index

The index finds, among many half-open ranges that may overlap, the greatest range that contains an
address, ranges being ordered by start, then by end, then by owner. They are kept in this order, each
with its reach, the farthest end of all ranges up to it. A look-up goes back from the last range that
does not start past the address and may stop at a reach that is not past it either, since no range
from there back contains it.
-/

namespace Disassembly.Flow

/-- A range of addresses and the entry point of the function that owns it. -/
structure Span where
  /-- The first address. -/
  start : Address
  /-- The address just past the last. -/
  stop : Address
  /-- The entry point of the owner. -/
  entry : Address
  deriving DecidableEq, Repr

namespace Span

/-- The order by start, then by end, then by owner. -/
def order : Span → Span → Ordering :=
  compareLex (compareOn start) (compareLex (compareOn stop) (compareOn entry))

instance : Ord Span := ⟨order⟩

instance : Std.TransOrd Span :=
  inferInstanceAs (Std.TransCmp
    (compareLex (compareOn start) (compareLex (compareOn stop) (compareOn entry))))

instance : Std.LawfulEqOrd Span where
  compare_self {a} := by
    change order a a = .eq
    simp [order, compareLex, compareOn]
  eq_of_compare {a b} h := by
    change order a b = .eq at h
    obtain ⟨start, stop, entry⟩ := a
    obtain ⟨start', stop', entry'⟩ := b
    simpa [order, compareLex, compareOn, Ordering.then_eq_eq] using h

/-- Whether the first span comes before the second or is the same. -/
def le (a b : Span) : Bool := (order a b).isLE

/-- Whether an address lies in the range. -/
def contains (span : Span) (address : Address) : Bool :=
  span.start ≤ address && address < span.stop

end Span

/-- A span in an index. -/
structure IndexEntry where
  /-- The span. -/
  span : Span
  /-- The farthest end of this span and of those before it. -/
  reach : Address
  deriving DecidableEq, Repr

/-- Spans in ascending order, each with its reach. -/
structure AddressIndex where
  /-- The spans with their reaches. -/
  entries : List IndexEntry := []
  deriving DecidableEq, Repr

namespace AddressIndex

/-- Gives each span its reach, `reach` being that of the spans before them. -/
def withReach (reach : Address) : List Span → List IndexEntry
  | [] => []
  | span :: spans =>
    let reach := max reach span.stop
    ⟨span, reach⟩ :: withReach reach spans

/-- The index of some spans. -/
def ofSpans (spans : List Span) : AddressIndex := ⟨withReach 0 (spans.mergeSort Span.le)⟩

/-- How many spans there are. -/
def size (index : AddressIndex) : Nat := index.entries.length

/-- The owner of the first of the entries, which go backwards, that contains an address. -/
def search (address : Address) : List IndexEntry → Option Address
  | [] => none
  | ⟨span, reach⟩ :: entries =>
    if reach ≤ address then none
    else if address < span.stop then some span.entry
    else search address entries

/-- The owner of the greatest span that contains an address. -/
def owner? (index : AddressIndex) (address : Address) : Option Address :=
  search address (index.entries.takeWhile fun entry => entry.span.start ≤ address).reverse

end AddressIndex

end Disassembly.Flow
