import ImageAudit.Diagnostics.Event
import ImageAudit.Message.Catalog

/-! Event logs. A file is judged by the worst event of its log. -/
namespace ImageAudit

inductive Status where
  | ok
  | warn
  | error
  /-- No format recognised the file. -/
  | unknown
deriving DecidableEq, Repr

namespace Status

def name : Status → String
  | .ok => "ok"
  | .warn => "warn"
  | .error => "error"
  | .unknown => "unknown"

def ofName? : String → Option Status
  | "ok" => some .ok
  | "warn" => some .warn
  | "error" => some .error
  | "unknown" => some .unknown
  | _ => none

def key? : Status → Option String
  | .ok => some "processor.result.ok"
  | .warn => some "processor.result.warn"
  | .error => some "processor.result.error"
  | .unknown => none

end Status

abbrev Log := List Event

namespace Log

def add (log : Log) (severity : Severity) (key message : String) : Log :=
  log ++ [⟨severity, key, message⟩]

def record (log : Log) (catalog : Catalog) (severity : Severity) (key : String)
    (args : List String) : Log :=
  log.add severity key (catalog.text key args)

def contains (log : Log) (key : String) : Bool := log.any (·.key == key)

def problems (log : Log) : Log := log.filter (·.severity.isProblem)

def hasProblem (log : Log) : Bool := log.any (·.severity.isProblem)

def isSuccess (log : Log) : Bool := !log.hasProblem

def highest? (log : Log) : Option Severity :=
  log.foldl (fun worst e => some (match worst with
    | none => e.severity
    | some s => s.max e.severity)) none

def status (log : Log) : Status :=
  match log.highest? with
  | some .error => .error
  | some .warning => .warn
  | _ => .ok

def insertKey (key : String) : List String → List String
  | [] => [key]
  | k :: rest =>
    if key < k then key :: k :: rest
    else if key = k then k :: rest
    else k :: insertKey key rest

def problemKeys (log : Log) : List String :=
  log.problems.foldl (fun keys e => insertKey e.key keys) []

/-- The messages of the problems in one line; several are numbered from one. -/
def summary (log : Log) : String :=
  match log.problems.map (·.message) with
  | [] => ""
  | [single] => single
  | many => " ".intercalate
      (many.zipIdx.map fun (message, i) => "(" ++ toString (i + 1) ++ ") " ++ message)

end Log
end ImageAudit
