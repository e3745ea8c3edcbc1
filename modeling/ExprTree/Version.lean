/-!
The version of the library, in a module that needs nothing else of it.
-/

namespace ExprTree

def version : String :=
  "0.1.0"

end ExprTree
