/-!
# Version

The version of the library.
-/

namespace TensorTree

/-- The version of the library. -/
def version : String := "0.3.0"

end TensorTree
