/-! # Statistics

A store counts what happens to its copies, each event under exactly one heading. The counters are
64-bit words. A snapshot adds the number of copies held, and snapshots add up over stores.
-/

namespace Ephemera

/-- What a store counts. -/
inductive StoreEvent where
  /-- A read found a live copy. -/
  | hit
  /-- A read found nothing, or only an expired copy. -/
  | miss
  /-- A copy was written: created, updated, given a new lifetime, or received from a primary. -/
  | put
  /-- A copy was removed by a removal or by a duration of zero. -/
  | removal
  /-- A copy was dropped because an operation found it expired. -/
  | expired
  /-- A copy was reclaimed by a sweep. -/
  | swept
  deriving DecidableEq, Repr

/-- The counters of a store. -/
structure Counters where
  hits : UInt64 := 0
  misses : UInt64 := 0
  puts : UInt64 := 0
  removals : UInt64 := 0
  expired : UInt64 := 0
  swept : UInt64 := 0
  deriving DecidableEq, Repr

namespace Counters

/-- Count one event. -/
def record (c : Counters) : StoreEvent → Counters
  | .hit => { c with hits := c.hits + 1 }
  | .miss => { c with misses := c.misses + 1 }
  | .put => { c with puts := c.puts + 1 }
  | .removal => { c with removals := c.removals + 1 }
  | .expired => { c with expired := c.expired + 1 }
  | .swept => { c with swept := c.swept + 1 }

end Counters

/-- A snapshot of the counters of one or more stores. -/
structure Stats extends Counters where
  /-- How many copies are held. -/
  entries : UInt64 := 0
  deriving DecidableEq, Repr

namespace Stats

/-- The snapshot of two groups of stores together. -/
def add (a b : Stats) : Stats where
  hits := a.hits + b.hits
  misses := a.misses + b.misses
  puts := a.puts + b.puts
  removals := a.removals + b.removals
  expired := a.expired + b.expired
  swept := a.swept + b.swept
  entries := a.entries + b.entries

/-- The snapshot of all given groups together. -/
def total (all : List Stats) : Stats :=
  all.foldl add {}

/-- The share of reads that found a live copy, zero before the first read. -/
def hitRate (s : Stats) : Float :=
  let reads := s.hits + s.misses
  if reads = 0 then 0 else s.hits.toFloat / reads.toFloat

end Stats

end Ephemera
