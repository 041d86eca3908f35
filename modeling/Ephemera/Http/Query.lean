import Ephemera.Request
import Ephemera.Text.Numeral
import Ephemera.Text.Percent

/-! # Queries

A query is a form: pairs of a name and a value, separated by ampersands. A pair without an equals
sign has the empty value.
-/

namespace Ephemera.Http

/-- The parts of a text between separators. -/
def splitAt (separator : Char) : List Char → List (List Char)
  | [] => [[]]
  | c :: rest =>
    if c = separator then [] :: splitAt separator rest
    else
      match splitAt separator rest with
      | [] => [[c]]
      | part :: parts => (c :: part) :: parts

/-- A pair of a form. A name or value that is no text, once it is decoded, is missing. -/
def formPair (part : List Char) : Option String × Option String :=
  (Text.formDecode? (part.takeWhile (· ≠ '=')),
    Text.formDecode? ((part.dropWhile (· ≠ '=')).drop 1))

/-- The pairs of a form. Empty parts are left out. -/
def formPairs (query : List Char) : List (Option String × Option String) :=
  ((splitAt '&' query).filter (· ≠ [])).map formPair

/-- The value of a field that is given at most once, and as an integer. -/
def integerField? (pairs : List (Option String × Option String)) (name : String) :
    Option (Option Int) :=
  match (pairs.filter (·.1 = some name)).map (·.2) with
  | [] => some none
  | [value] => (value.bind Text.integer?).map some
  | _ => none

/-- The durations that a query asks for, unless one of them is given twice or is no integer. Other
fields are ignored. -/
def expiryQuery? (query : List Char) : Option ExpiryQuery := do
  let pairs := formPairs query
  let create ← integerField? pairs "create"
  let update ← integerField? pairs "update"
  let access ← integerField? pairs "access"
  return { create, update, access }

end Ephemera.Http
