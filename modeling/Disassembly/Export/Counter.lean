import Disassembly.Export.Pass

/-!
# Counters

The counters that a finished pass adds to, with the names and descriptions under which a monitor
knows them. All of them count things.
-/

namespace Disassembly.Export

/-- A counter. -/
inductive Counter where
  /-- New nodes. -/
  | created
  /-- Requests answered with a node that was there. -/
  | deduplicated
  /-- Dropped edges. -/
  | edgesDropped
  /-- Back edges. -/
  | backEdges
  /-- References for which no place was found. -/
  | unresolved
  deriving DecidableEq, Repr

namespace Counter

/-- The counters in the order in which they are announced and added to. -/
def all : List Counter := [created, deduplicated, edgesDropped, backEdges, unresolved]

/-- The name of a counter. -/
def name : Counter → String
  | created => "bexp_expressions_created_total"
  | deduplicated => "bexp_expressions_deduplicated_total"
  | edgesDropped => "bexp_edges_dropped_total"
  | backEdges => "bexp_back_edges_total"
  | unresolved => "bexp_xrefs_unresolved_total"

/-- The unit of every counter. -/
def unit : String := "count"

/-- What a counter counts. -/
def description : Counter → String
  | created => "Distinct expression nodes created"
  | deduplicated => "Expression requests answered by an existing node"
  | edgesDropped => "Flow graph edges dropped while repairing endpoints"
  | backEdges => "Loop back edges found"
  | unresolved => "Cross-references without a matching operand expression"

/-- How much a finished pass adds to a counter. -/
def increment (stats : PassStats) : Counter → Nat
  | created => stats.store.created
  | deduplicated => stats.store.deduplicated
  | edgesDropped => stats.finalize.edgesDropped
  | backEdges => stats.backEdges
  | unresolved => stats.unresolved

end Counter

end Disassembly.Export
