/-!
# Limits of an extraction

## Main definitions

* `CodeAtlas.ExtractionLimits` — how many nodes may be visited for one file.
-/

set_option autoImplicit false

namespace CodeAtlas

/-- The limits of one extraction. -/
structure ExtractionLimits where
  /-- The nodes that the walk and the call scans may visit before the file is given up. -/
  maxNodes : Nat := 500000
  deriving DecidableEq, Repr

end CodeAtlas
