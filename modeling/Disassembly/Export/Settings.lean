/-!
# Settings of an export pass
-/

namespace Disassembly.Export

/-- What an export pass is asked to do. -/
structure Settings where
  /-- Whether functions may be finalized at the same time. The result does not depend on it, since
  they are finalized independently of each other. -/
  parallel : Bool := true
  /-- Whether edges are repaired: moved to the starts of blocks, or dropped. -/
  repairEdges : Bool := true
  /-- Whether every function is assigned the type that its structure suggests. -/
  classifyTypes : Bool := false
  /-- Whether a store that is taken over is emptied first. -/
  clearStore : Bool := true
  deriving DecidableEq, Repr

/-- The usual settings, with functions finalized one after the other. -/
def Settings.sequential : Settings := { parallel := false }

end Disassembly.Export
