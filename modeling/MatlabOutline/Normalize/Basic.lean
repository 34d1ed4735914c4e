import MatlabOutline.Normalize.Header
import MatlabOutline.Normalize.Continuation
import MatlabOutline.Normalize.Signature
import MatlabOutline.Normalize.Stub

/-!
The normal form of a source text, in which declarations are read.
-/

namespace MatlabOutline

/-- Joins continued lines, completes signatures, and expands method declarations. -/
def normalize (code : String) : String :=
  expandStubs (completeSignatures (joinContinuedLines code))

end MatlabOutline
