import Ephemera.Config.Cache
import Ephemera.Text.Numeral

/-! # Settings of a server

A server reads its settings from variables of its environment. A variable that is not set, or whose
text is not of the right form, leaves the default in place; only the atomicity mode is taken as it
stands, and checked when the settings of the cache are made from those of the server.
-/

namespace Ephemera

/-- The settings of a server. -/
structure Settings where
  /-- The port it listens at. -/
  port : Nat := 3000
  /-- How many nodes there are. -/
  nodes : Nat := 3
  /-- How many backup copies a key has. -/
  backups : Nat := 1
  /-- How many partitions keys are spread over. -/
  partitions : Nat := 64
  /-- Milliseconds between two sweeps of a node. -/
  sweepInterval : Millis := 100
  eager : Bool := true
  near : Bool := false
  /-- The name of the atomicity mode. -/
  atomicity : String := "atomic"
  /-- The durations of the default policy in milliseconds. -/
  create : Option Int := none
  update : Option Int := none
  access : Option Int := none
  /-- Whether entries are eternal whatever the durations are. -/
  eternal : Bool := false
  deriving DecidableEq, Repr

namespace Settings

/-- The settings that an environment gives. -/
def ofEnvironment (lookup : String → Option String) : Settings :=
  let defaults : Settings := {}
  let natural (name : String) (limit default : Nat) : Nat :=
    ((lookup name).bind (Text.natural? limit)).getD default
  let truth (name : String) (default : Bool) : Bool :=
    ((lookup name).bind Text.truth?).getD default
  let integer (name : String) : Option Int := (lookup name).bind Text.integer?
  { port := natural "SERVER_PORT" (Text.largest 16) defaults.port
    nodes := natural "NODE_COUNT" (Text.largest 64) defaults.nodes
    backups := natural "BACKUPS" (Text.largest 64) defaults.backups
    partitions := natural "PARTITIONS" (Text.largest 32) defaults.partitions
    sweepInterval :=
      UInt64.ofNat (natural "SWEEP_INTERVAL_MS" (Text.largest 64) defaults.sweepInterval.toNat)
    eager := truth "EAGER_TTL" defaults.eager
    near := truth "NEAR_CACHE" defaults.near
    atomicity := (lookup "ATOMICITY_MODE").getD defaults.atomicity
    create := integer "EXPIRY_CREATE_MS"
    update := integer "EXPIRY_UPDATE_MS"
    access := integer "EXPIRY_ACCESS_MS"
    eternal := truth "EXPIRY_ETERNAL" defaults.eternal }

/-- The default policy of the cache. -/
def policy (s : Settings) : Except CacheError Policy :=
  if s.eternal then .ok (.custom .eternal)
  else
    match s.create, s.update, s.access with
    | none, none, none => .ok .unset
    | create, update, access => (Durations.ofInts create update access).map .custom

/-- The settings of the cache. A policy that is refused is reported first, then an unknown
atomicity mode, then a missing sweep interval. -/
def cache (s : Settings) : Except CacheError CacheConfig := do
  let policy ← s.policy
  let atomicity ← Atomicity.parse s.atomicity
  let config : CacheConfig :=
    { policy, atomicity, eager := s.eager, near := s.near, sweepInterval := s.sweepInterval }
  config.validate
  return config

end Settings

end Ephemera
