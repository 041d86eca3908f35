/-! # JSON documents

The values that the HTTP surface answers with. A number is an unsigned word or a double; members
keep the order in which they are given.
-/

namespace Ephemera.Json

/-- A JSON value to be written. -/
inductive Document where
  | null
  | flag (holds : Bool)
  | word (n : UInt64)
  | real (x : Float)
  | text (text : String)
  | object (members : List (String × Document))

end Ephemera.Json
