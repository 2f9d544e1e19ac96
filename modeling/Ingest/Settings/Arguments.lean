import Ingest.Settings.Basic
import Ingest.Number.Reading

/-!
# Command line arguments

Arguments are read in groups: an option with the value after it, or an option that stands alone.
`Draft.read` takes them one group after the other into a `Draft` and stops at the first problem;
`Settings.ofArguments` then puts the settings together and checks them.

A request's own options (`--table`, `--database`, `--method` and `--header`) belong to the latest
`--url`. A call for help ends the reading at once and takes the settings as they are then.
-/

namespace Ingest

namespace Settings

/-- What has been read so far: the settings, and the parts of a rate limit. -/
structure Draft where
  settings : Settings := {}
  rate : Option Int := none
  intervalMs : Option Int := none
  burst : Int := 1
  deriving DecidableEq, Repr

namespace Draft

def modify (d : Draft) (f : Settings → Settings) : Draft :=
  { d with settings := f d.settings }

/-- Changes the latest feed; `flag` needs one to belong to. -/
def modifyLatest (d : Draft) (flag : String) (f : Feed → Feed) : Except Error Draft :=
  if d.settings.feeds.isEmpty then .error (.missingField ("--url before " ++ flag))
  else .ok (d.modify fun s => { s with feeds := s.feeds.modify (s.feeds.length - 1) f })

def addHeader (h : String × String) (f : Feed) : Feed :=
  { f with request := { f.request with headers := f.request.headers ++ [h] } }

/-- The header that a value of `--header` names: the text before the first colon, and the text
after it without the spaces it starts with. -/
def header? (value : String) : Option (String × String) :=
  (Text.cut [':'] value.toList).map fun (name, text) =>
    (String.ofList name, String.ofList (text.dropWhile (· == ' ')))

/-- The integer that the value of `flag` spells. -/
def integer (flag value : String) : Except Error Int :=
  match Whole.read? value.toList with
  | some n => .ok n
  | none => .error (.unreadable flag)

/-- Takes an option with its value. -/
def take (d : Draft) (flag value : String) : Except Error Draft :=
  if flag = "--url" then
    .ok (d.modify fun s => { s with feeds := s.feeds ++ [{ request := { url := value } }] })
  else if flag = "--table" then d.modifyLatest flag fun f => { f with table := value }
  else if flag = "--database" then d.modifyLatest flag fun f => { f with database := value }
  else if flag = "--method" then
    d.modifyLatest flag fun f => { f with request := { f.request with method := value } }
  else if flag = "--header" then
    match d.modifyLatest flag id, header? value with
    | .error e, _ => .error e
    | .ok _, none => .error (.unreadable flag)
    | .ok d, some h => d.modifyLatest flag (addHeader h)
  else if flag = "--storage" then
    .ok (d.modify fun s => { s with storages := s.storages ++ [value] })
  else if flag = "--rate" then (integer flag value).map fun n => { d with rate := some n }
  else if flag = "--interval-ms" then
    (integer flag value).map fun n => { d with intervalMs := some n }
  else if flag = "--burst" then (integer flag value).map fun n => { d with burst := n }
  else if flag = "--workers" then
    (integer flag value).bind fun n =>
      if n < 0 then .error (.unreadable flag)
      else .ok (d.modify fun s => { s with workers := n.toNat })
  else if flag = "--timeout" then
    (integer flag value).map fun n => d.modify fun s => { s with timeoutSeconds := n }
  else if flag = "--user-agent" then .ok (d.modify fun s => { s with userAgent := value })
  else if flag = "--log-level" then .ok (d.modify fun s => { s with logLevel := value })
  else .error ⟨.unableToParse, "unknown option " ++ flag⟩

/-- The settings that a draft read to its end stands for. A rate and an interval need each
other. -/
def finish (d : Draft) : Except Error Settings :=
  match d.rate, d.intervalMs with
  | some _, none => .error (.missingRateField "--interval-ms")
  | none, some _ => .error (.missingRateField "--rate")
  | some requests, some intervalMs =>
    check { d.settings with rateLimit := some ⟨requests, intervalMs, d.burst⟩ }
  | none, none => check d.settings
where
  check (s : Settings) : Except Error Settings :=
    match s.problem? with
    | some e => .error e
    | none => .ok s

def isHelp (flag : String) : Bool :=
  flag = "-h" || flag = "--help"

/-- Reads the groups of a list of arguments. -/
def read (d : Draft) : List String → Except Error Settings
  | [] => d.finish
  | [flag] =>
    if isHelp flag then .ok { d.settings with help := true }
    else if flag = "--truncate" then (d.modify fun s => { s with truncate := true }).finish
    else .error (.missingField (flag ++ " value"))
  | flag :: value :: rest =>
    if isHelp flag then .ok { d.settings with help := true }
    else if flag = "--truncate" then
      (d.modify fun s => { s with truncate := true }).read (value :: rest)
    else (d.take flag value).bind fun d => d.read rest

end Draft

/-- The settings that a command line stands for. The first argument is the program's name. -/
def ofArguments (arguments : List String) : Except Error Settings :=
  ({} : Draft).read ((arguments.drop 1).map untilNul)

end Settings

end Ingest
