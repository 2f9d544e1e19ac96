import Ingest.Http.Client
import Ingest.Pipeline.Pace
import Ingest.Settings.Arguments
import Ingest.Store.Any

/-!
# The command line program

Reads the settings, opens the storages in order, empties the destinations if that is asked for, and
carries out one run. Nothing is opened before the settings are good, and no request is sent before
every storage is open and emptied. However it ends, every connection is finished.
-/

namespace Ingest

namespace Cli

open Pipeline

/-- The world of the program: what its transport and its server live in, its storages, and the
token bucket once it was used. -/
structure World (τ ρ : Type) where
  web : τ
  server : ρ
  stores : List Store := []
  meter : Option (Rate.Meter Float) := none
  /-- What the transport was asked so far, each time next to the server as it was then. No step looks
  at it. -/
  exchanges : List (Http.Exchange × ρ) := []

/-- How the program has ended. -/
structure Ending (τ ρ : Type) where
  code : Nat
  /-- What it wrote beside its log. -/
  text : String := ""
  log : List LogLine := []
  web : τ
  server : ρ
  /-- What the transport was asked, as the world keeps it. -/
  exchanges : List (Http.Exchange × ρ) := []

variable {τ ρ : Type}

/-- The context that the program works under. -/
def context : String := "main"

/-- Opens storages in order, after those that are open already. With an error, nothing after the
address at fault is tried. -/
def openAll (srv : Store.Postgres.Server ρ) :
    List String → List Store → ρ → Option Error × List Store × ρ
  | [], opened, w => (none, opened, w)
  | address :: rest, opened, w =>
    match Store.openAt srv address w with
    | (.error e, w) => (some e, opened, w)
    | (.ok s, w) => openAll srv rest (opened ++ [s]) w

/-- Empties tables in each storage, up to the first that fails. -/
def truncateAll (srv : Store.Postgres.Server ρ) (ds : List Destination) :
    List Store → ρ → Option Error × List Store × ρ
  | [], w => (none, [], w)
  | s :: rest, w =>
    match s.truncate srv false ds w with
    | (some e, s, w) => (some e, s :: rest, w)
    | (none, s, w) =>
      match truncateAll srv ds rest w with
      | (e, rest, w) => (e, s :: rest, w)

def closeAll (srv : Store.Postgres.Server ρ) : List Store → ρ → List Store × ρ
  | [], w => ([], w)
  | s :: rest, w =>
    match s.close srv w with
    | (s, w) =>
      match closeAll srv rest w with
      | (rest, w) => (s :: rest, w)

def releaseAll (srv : Store.Postgres.Server ρ) (stores : List Store) (w : ρ) : ρ :=
  stores.foldl (fun w s => s.release srv w) w

def clientOptions (s : Settings) : Http.Client.Options :=
  { timeoutSeconds := s.timeoutSeconds, userAgent := s.userAgent }

/-- The client over a transport. -/
def send (t : Http.Transport τ) (s : Settings) (j : Job) (w : World τ ρ) :
    Except Error Http.Response × List LogLine × World τ ρ :=
  match Http.Client.send t (clientOptions s) j.feed.request w.web with
  | (result, lines, web) =>
    (result, lines, { w with
      web := web
      exchanges :=
        if t.available w.web then
          w.exchanges ++ [(Http.Client.exchange (clientOptions s) j.feed.request, w.server)]
        else w.exchanges })

/-- The storage with number `k`, which is `opened` at first. -/
def writer (srv : Store.Postgres.Server ρ) (opened : Store) (k : Nat) : Writer (World τ ρ) :=
  { type := opened.typeName
    upsert := fun cancelled u w =>
      match ((w.stores[k]?).getD opened).upsert srv cancelled u w.server with
      | (result, store, server) =>
        (result, { w with stores := w.stores.set k store, server := server }) }

def limiter : Option RateLimit → Limiter (World τ ρ)
  | none => .absent
  | some r =>
    .ofMeter (fun w : World τ ρ => w.meter.getD (.ofLimit r)) fun m w => { w with meter := some m }

def services (t : Http.Transport τ) (srv : Store.Postgres.Server ρ) (s : Settings)
    (stores : List Store) : Services (World τ ρ) :=
  { limiter := limiter s.rateLimit
    send := send t s
    writers := stores.zipIdx.map fun p => writer srv p.1 p.2 }

/-- One request comes after the other. -/
def pace : Pace :=
  { sendsLast := true }

/-- The error that the program ends with, as it is logged. -/
def complaint (e : Error) : LogLine :=
  .error (e.message ++ " (" ++ e.code.category ++ " error)")

/-- The log lines that the settings let through. -/
def kept (s : Settings) (log : List LogLine) : List LogLine :=
  match LogLevel.ofName? s.logLevel with
  | some level => log.filter fun l => l.isKeptAt level
  | none => log

/-- How runs are carried out: with settings, open storages, the transport's world and the server's,
the run at its end and what is around it. -/
def Engine (τ ρ : Type) : Type :=
  Settings → List Store → τ → ρ → Run × Shared (World τ ρ)

/-- Carries out runs at the program's own pace, with `cores` workers per stage unless the settings say
how many. -/
def engine (t : Http.Transport τ) (srv : Store.Postgres.Server ρ) (cores : Nat) : Engine τ ρ :=
  fun s stores web server =>
    Run.carryOut (services t srv s stores) pace context s.feeds (Batch.workersOr cores s.workers)
      { world := { web := web, server := server, stores := stores } }

/-- Closes the storages after a run. -/
def conclude (srv : Store.Postgres.Server ρ) (s : Settings) (r : Run)
    (shared : Shared (World τ ρ)) : Ending τ ρ :=
  let (stores, server) := closeAll srv shared.world.stores shared.world.server
  let error := r.returned?.join
  { code := if error.isSome then 1 else 0
    log := kept s (shared.log ++ (error.map complaint).toList)
    web := shared.world.web
    server := releaseAll srv stores server
    exchanges := shared.world.exchanges }

/-- Carries out a run over open storages and closes them. -/
def ingest (srv : Store.Postgres.Server ρ) (go : Engine τ ρ) (s : Settings) (stores : List Store)
    (web : τ) (server : ρ) : Ending τ ρ :=
  let (r, shared) := go s stores web server
  conclude srv s r shared

/-- Does what settings say. -/
def execute (srv : Store.Postgres.Server ρ) (go : Engine τ ρ) (s : Settings) (web : τ)
    (server : ρ) : Ending τ ρ :=
  match openAll srv s.storages [] server with
  | (some e, stores, server) =>
    { code := 1, log := kept s [.error e.message], web := web,
      server := releaseAll srv stores server }
  | (none, stores, server) =>
    if s.truncate then
      match truncateAll srv (s.feeds.map Feed.destination) stores server with
      | (some e, stores, server) =>
        { code := 1, log := kept s [.error ("truncate: " ++ e.message)], web := web,
          server := releaseAll srv stores server }
      | (none, stores, server) => ingest srv go s stores web server
    else ingest srv go s stores web server

/-- What the program writes about bad arguments: nothing if it has not even a name of its own. -/
def reproach (arguments : List String) (e : Error) : String :=
  match arguments with
  | [] => ""
  | program :: _ =>
    untilNul program ++ ": " ++ e.message ++ "\n" ++ Settings.usage program

/-- Runs the program, whose runs are carried out by an engine; the first argument is its name. -/
def runBy (srv : Store.Postgres.Server ρ) (go : Engine τ ρ) (arguments : List String) (web : τ)
    (server : ρ) : Ending τ ρ :=
  match Settings.ofArguments arguments with
  | .error e => { code := 2, text := reproach arguments e, web := web, server := server }
  | .ok s =>
    if s.help then
      { code := 0, text := Settings.usage (arguments.headD ""), web := web, server := server }
    else execute srv go s web server

/-- Runs the program at its own pace. -/
def run (t : Http.Transport τ) (srv : Store.Postgres.Server ρ) (cores : Nat)
    (arguments : List String) (web : τ) (server : ρ) : Ending τ ρ :=
  runBy srv (engine t srv cores) arguments web server

end Cli

end Ingest
