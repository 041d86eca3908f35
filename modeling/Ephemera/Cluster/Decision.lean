import Ephemera.Expiry.Plan

/-! # What operations decide

Every operation on one key is a decision: it sees the live value of the key, if there is one,
states its intent and gives its result. Where the value is kept, and under which policy the intent
is carried out, is no part of the decision, so the primary of a key and a transaction run the same
ones.

An entry processor is a script of commands on a draft of the entry. The draft remembers the last
change, or that the value was read; that decides the intent.
-/

namespace Ephemera

universe v w

/-- An operation on one key. -/
abbrev Decision (V : Type v) (ρ : Type w) := Option V → Intent V × ρ

/-- A command of an entry processor. -/
inductive Command (V : Type v) where
  /-- Ask whether the entry has a value. -/
  | probe
  /-- Read the value. -/
  | value
  /-- Give the entry a value. -/
  | set (value : V)
  /-- Read the value, and give the entry the value, if any, with a suffix. -/
  | append (suffix : V)
  /-- Take the value away. -/
  | remove
  deriving DecidableEq, Repr

/-- The answer to a command. -/
inductive Reply (V : Type v) where
  | done
  | flag (holds : Bool)
  | value (value : Option V)
  deriving DecidableEq, Repr

/-- What a processor has done to the entry so far. -/
inductive DraftAction (V : Type v) where
  | none
  | read
  | set (value : V)
  | remove
  deriving DecidableEq, Repr

/-- The entry as a processor sees and changes it. -/
structure Draft (V : Type v) where
  value : Option V
  action : DraftAction V := .none
  deriving DecidableEq, Repr

namespace Draft

variable {V : Type v}

/-- Reading counts only as long as nothing else was done. -/
def read (d : Draft V) : Draft V :=
  match d.action with
  | .none => { d with action := .read }
  | _ => d

/-- Give the draft a value. -/
def set (_ : Draft V) (value : V) : Draft V where
  value := some value
  action := .set value

/-- Take the value away. -/
def remove (_ : Draft V) : Draft V where
  value := none
  action := .remove

/-- The intent of a finished draft of an entry that did or did not exist. Removing what did not
exist is nothing, even after a value was set. -/
def intent (d : Draft V) (existed : Bool) : Intent V :=
  match d.action with
  | .none => .ignore
  | .read => .read
  | .set value => .write value
  | .remove => if existed then .remove else .ignore

/-- Run one command. -/
def run [Append V] [Inhabited V] (d : Draft V) : Command V → Draft V × Reply V
  | .probe => (d, .flag d.value.isSome)
  | .value => (d.read, .value d.value)
  | .set value => (d.set value, .done)
  | .append suffix => (d.read.set (d.value.getD default ++ suffix), .value d.value)
  | .remove => (d.remove, .done)

/-- Run a script, and collect the replies. -/
def runScript [Append V] [Inhabited V] : List (Command V) → Draft V → Draft V × List (Reply V)
  | [], d => (d, [])
  | command :: rest, d =>
    let (d, reply) := d.run command
    let (d, replies) := runScript rest d
    (d, reply :: replies)

end Draft

namespace Decision

variable {V : Type v}

/-- Store a value. -/
def put (value : V) : Decision V Unit :=
  fun _ => (.write value, ())

/-- Read the value. -/
def get : Decision V (Option V) :=
  fun live => (.read, live)

/-- Store a value if there is none, and tell whether it was stored. To find one is an access. -/
def putIfAbsent (value : V) : Decision V Bool
  | none => (.write value, true)
  | some _ => (.read, false)

/-- Remove the entry, and tell whether there was one. -/
def remove : Decision V Bool
  | none => (.ignore, false)
  | some _ => (.remove, true)

/-- Remove the entry if it holds `expected`, and tell whether it did. To find another value is an
access. -/
def removeIfEquals [DecidableEq V] (expected : V) : Decision V Bool
  | none => (.ignore, false)
  | some value => if value = expected then (.remove, true) else (.read, false)

/-- Replace the value of an entry, and tell whether there was one. -/
def replace (value : V) : Decision V Bool
  | none => (.ignore, false)
  | some _ => (.write value, true)

/-- Replace the value if it is `expected`, and tell whether it was. To find another value is an
access. -/
def replaceIfEquals [DecidableEq V] (expected value : V) : Decision V Bool
  | none => (.ignore, false)
  | some current => if current = expected then (.write value, true) else (.read, false)

/-- Run an entry processor. -/
def invoke [Append V] [Inhabited V] (script : List (Command V)) : Decision V (List (Reply V)) :=
  fun live =>
    let (draft, replies) := Draft.runScript script { value := live }
    (draft.intent live.isSome, replies)

end Decision

end Ephemera
