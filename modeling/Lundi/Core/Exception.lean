import Lundi.Core.Bytes

/-!
# Exceptions

The objects that handlers, middleware, the library and the socket operations throw, as far as the
`catch` clauses of the server tell them apart.
-/

namespace Lundi

/-- Error codes of socket operations. -/
inductive ErrorCode
  | eof
  | connectionReset
  | other
  deriving DecidableEq

/-- Thrown objects: `asio::system_error`, other classes derived from `std::exception`, and objects
of unrelated types, which `catch ( const std::exception& )` does not catch. -/
inductive Exception
  | systemError (code : ErrorCode) (what : Bytes)
  | standard (what : Bytes)
  | foreign
  deriving DecidableEq

namespace Exception

/-- The exception is derived from `std::exception`. -/
def isStd : Exception → Bool
  | .foreign => false
  | _ => true

/-- `what()`. -/
def what : Exception → Bytes
  | .systemError _ what => what
  | .standard what => what
  | .foreign => []

end Exception

end Lundi
