import Ingest.Feed
import Ingest.Log
import Ingest.Rate.Limit

/-!
# Settings

What a run of the program is told: the feeds, the storages, and how to fetch. `Settings.problem?`
says what is wrong with settings, the first thing in a fixed order.
-/

namespace Ingest

structure Settings where
  feeds : List Feed := []
  /-- The addresses of the storages; with none, responses are thrown away. -/
  storages : List String := []
  rateLimit : Option RateLimit := none
  /-- Workers per stage; 0 stands for one per core. -/
  workers : Nat := 0
  timeoutSeconds : Int := 30
  userAgent : String := "siphon/1.0"
  truncate : Bool := false
  logLevel : String := "info"
  help : Bool := false
  deriving DecidableEq, Repr

namespace Settings

def problem? (s : Settings) : Option Error :=
  if s.feeds.isEmpty then some ⟨.noRequests, "no requests defined"⟩
  else if s.feeds.any fun f => f.request.url.isEmpty then some (.missingField "url")
  else (s.rateLimit.bind RateLimit.problem?).or <|
    if s.timeoutSeconds ≤ 0 then some (.unreadable "--timeout")
    else if (LogLevel.ofName? s.logLevel).isNone then some (.unreadable "--log-level")
    else none

/-- How to call the program. -/
def usage (program : String) : String :=
  "Usage: " ++ untilNul program ++ " [options]\n" ++
  "  --url URL          Request to fetch (repeatable)\n" ++
  "  --table NAME       Destination table for the previous --url " ++
    "(default: URL path without '/')\n" ++
  "  --database NAME    Destination database/schema for the previous --url\n" ++
  "  --method M         HTTP method for the previous --url (default: GET)\n" ++
  "  --header 'K: V'    Header for the previous --url (repeatable)\n" ++
  "  --storage DSN      postgres://..., postgresql://... or memory:// (repeatable)\n" ++
  "  --rate N           Requests per interval (requires --interval-ms)\n" ++
  "  --interval-ms MS   Rate limit interval\n" ++
  "  --burst B          Rate limit burst (default: 1)\n" ++
  "  --workers N        Workers per stage (default: one per core)\n" ++
  "  --timeout S        Per-request timeout in seconds (default: 30)\n" ++
  "  --user-agent UA    User agent (default: siphon/1.0)\n" ++
  "  --truncate         Truncate destination tables before the run\n" ++
  "  --log-level L      trace, debug, info, warn, error, critical, off (default: info)\n"

end Settings

end Ingest
