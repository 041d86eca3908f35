import Ephemera.Expiry.Policy

/-! # Settings of a cache

What decides the behaviour of one cache: its default policy, whether replication is awaited and
transactions are available, whether expired entries are reclaimed eagerly, and whether nodes keep
near copies of keys they do not own.
-/

namespace Ephemera

/-- How changes reach the replicas. -/
inductive Atomicity where
  /-- Replication is not awaited. -/
  | atomic
  /-- Replication is awaited, and transactions are available. -/
  | transactional
  deriving DecidableEq, Repr

namespace Atomicity

/-- The mode of that name; the case of ASCII letters does not matter. -/
def parse (text : String) : Except CacheError Atomicity :=
  let lower := text.map Char.toLower
  if lower = "atomic" then .ok atomic
  else if lower = "transactional" then .ok transactional
  else .error (.unknownAtomicity lower)

end Atomicity

/-- The settings of one cache. -/
structure CacheConfig where
  /-- The policy of a call that brings none. -/
  policy : Policy := .unset
  atomicity : Atomicity := .atomic
  /-- Whether expired entries are reclaimed by sweeps; otherwise they go only when touched. -/
  eager : Bool := true
  /-- Whether nodes keep near copies. -/
  near : Bool := false
  /-- Milliseconds between two sweeps of a node. -/
  sweepInterval : Millis := 100
  deriving DecidableEq, Repr

namespace CacheConfig

/-- Whether a write completes only after its replicas have acknowledged it. -/
def synchronous (c : CacheConfig) : Bool :=
  c.atomicity == .transactional

/-- Eager reclamation needs a sweep interval. -/
def validate (c : CacheConfig) : Except CacheError Unit :=
  if c.eager && c.sweepInterval == 0 then .error .noSweepInterval else .ok ()

end CacheConfig

end Ephemera
