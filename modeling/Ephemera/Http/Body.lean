import Ephemera.Expiry.Ttl
import Ephemera.Json.Document
import Ephemera.Store.Stats
import Ephemera.Text.Instant

/-! # Bodies of responses

The JSON documents that the HTTP surface answers with.
-/

namespace Ephemera.Http.Body

open Ephemera.Json

/-- The value that was read. -/
def get (key value : String) : Document :=
  .object [("key", .text key), ("value", .text value)]

/-- A value was written; it may have expired at once. -/
def put (key : String) (stored : Bool) : Document :=
  let outcome := if stored then "set successfully" else "expired immediately"
  .object
    [("message", .text ("Key '" ++ key ++ "' " ++ outcome)), ("key", .text key),
      ("stored", .flag stored)]

/-- A key was removed. -/
def delete (key : String) : Document :=
  .object [("message", .text ("Key '" ++ key ++ "' deleted successfully")), ("key", .text key)]

/-- The lifetime of a key. -/
def ttl (key : String) (ttl : Ttl) (now : Millis) : Document :=
  .object
    [("key", .text key), ("ttl_ms", .word ttl.span), ("expire_time_ms", .word ttl.expireTime),
      ("remaining_ms", ((ttl.remaining now).map .word).getD .null)]

/-- The statistics of a number of nodes. -/
def stats (s : Stats) (nodes : Nat) : Document :=
  .object
    [("hits", .word s.hits), ("misses", .word s.misses), ("puts", .word s.puts),
      ("removals", .word s.removals), ("expired", .word s.expired), ("swept", .word s.swept),
      ("total_entries", .word s.entries), ("hit_rate", .real s.hitRate),
      ("nodes", .word (UInt64.ofNat nodes))]

/-- The server is up. -/
def health (now : Millis) : Document :=
  .object [("status", .text "healthy"), ("timestamp", .text (Text.instant now))]

/-- What went wrong. -/
def error (message : String) : Document :=
  .object [("error", .text message)]

end Ephemera.Http.Body
