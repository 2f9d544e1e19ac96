import Ingest.Cli

/-!
# The program

The command line program without a network: every address is out of reach and every server refuses.
Settings are read and checked, and storages in memory work.
-/

namespace Ingest.Offline

def transport : Http.Transport Unit :=
  ⟨fun _ => true, fun _ w => ({ failure := some "Could not connect to server" }, w)⟩

def server : Store.Postgres.Server Unit :=
  { connect := fun _ w => ((1, some "no connection to the server"), w)
    execute := fun _ _ w => (.error "no connection to the server", w)
    finish := fun _ w => w }

/-- How many workers a stage gets if none are asked for. -/
def cores : Nat := 4

end Ingest.Offline

def main (arguments : List String) : IO UInt32 := do
  let ending :=
    Ingest.Cli.run Ingest.Offline.transport Ingest.Offline.server Ingest.Offline.cores
      ("ingest" :: arguments) () ()
  IO.eprint ending.text
  for line in ending.log do
    IO.eprintln line.render
  return ending.code.toUInt32
