/-! # Media types

The media type of a body, as a header gives it: a type and a subtype, and parameters that have to be
well formed but do not matter. A subtype may end in a suffix after a plus sign.
-/

namespace Ephemera.Http

/-- A media type without its parameters. -/
structure MediaType where
  type : String
  /-- The subtype up to its suffix. -/
  subtype : String
  suffix : Option String
  deriving DecidableEq, Repr

namespace MediaType

/-- The characters of names and of values without quotes. -/
def isToken (c : Char) : Bool :=
  c.isAlphanum || "!#$%&'*+-.^_\x60|~".contains c

/-- The characters that may stand between quotes: those of ASCII that are no control characters. -/
def isQuotable (c : Char) : Bool :=
  31 < c.toNat && c.toNat < 127

mutual

/-- Whether parameters are well formed from a name on. -/
def parametersFrom : List Char → Bool
  | [] => true
  | ' ' :: rest => parametersFrom rest
  | c :: rest => isToken c && nameFrom rest

/-- Whether parameters are well formed within a name. -/
def nameFrom : List Char → Bool
  | [] => false
  | '=' :: '"' :: rest => openQuote rest
  | '=' :: rest => valueStart rest
  | c :: rest => isToken c && nameFrom rest

/-- Whether parameters are well formed at the start of a value without quotes. -/
def valueStart : List Char → Bool
  | [] => true
  | c :: rest => isToken c && valueFrom rest

/-- Whether parameters are well formed within a value without quotes. -/
def valueFrom : List Char → Bool
  | [] => true
  | ';' :: rest => parametersFrom rest
  | c :: rest => isToken c && valueFrom rest

/-- Whether parameters are well formed after an opening quote; the quotes are not empty. -/
def openQuote : List Char → Bool
  | [] => false
  | c :: rest => isQuotable c && quotedFrom rest

/-- Whether parameters are well formed within quotes. -/
def quotedFrom : List Char → Bool
  | [] => false
  | '"' :: rest => afterQuote rest
  | c :: rest => isQuotable c && quotedFrom rest

/-- Whether parameters are well formed after a closing quote. -/
def afterQuote : List Char → Bool
  | [] => true
  | ';' :: rest => parametersFrom rest
  | ' ' :: rest => afterQuote rest
  | _ :: _ => false

end

/-- The media type with that type and subtype. The suffix follows the last plus sign that is not at
the start. -/
def ofParts (type subtype : List Char) : MediaType :=
  let afterPlus := (subtype.reverse.takeWhile (· ≠ '+')).reverse
  let front := subtype.dropLast.take (subtype.length - afterPlus.length - 1)
  if afterPlus.length < subtype.length ∧ front ≠ [] then
    { type := String.ofList type, subtype := String.ofList front,
      suffix := some (String.ofList afterPlus) }
  else { type := String.ofList type, subtype := String.ofList subtype, suffix := none }

/-- The media type that a header gives, in lower case. Parameters follow a semicolon right after the
subtype, which is not empty then; no blank may stand before the semicolon. -/
def parse? (header : String) : Option MediaType :=
  let cs := header.toList.map Char.toLower
  let (type, rest) := cs.span isToken
  match rest with
  | '/' :: rest =>
    let (subtype, rest) := rest.span isToken
    if type = [] then none
    else
      match rest with
      | [] => some (ofParts type subtype)
      | c :: rest =>
        if c = ';' ∧ subtype ≠ [] ∧ parametersFrom rest then some (ofParts type subtype)
        else none
  | _ => none

/-- Whether bodies of this type are JSON. -/
def isJson (m : MediaType) : Bool :=
  m.type = "application" && (m.subtype = "json" || m.suffix = some "json")

end MediaType

end Ephemera.Http
