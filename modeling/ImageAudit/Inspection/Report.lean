import ImageAudit.Diagnostics.Log
import ImageAudit.Text.Json

/-! Reports on files. A report is written as a line of tab-separated texts or as a JSON object. -/
namespace ImageAudit

structure Report where
  path : String
  /-- Short name of the format, if one recognised the file. -/
  format : Option String
  status : Status
  /-- Text of the status. -/
  message : String
  events : Log
deriving DecidableEq, Repr

namespace Report

def unidentified (path : String) : Report := ⟨path, none, .unknown, "", []⟩

def identified (path format : String) (log : Log) : Report :=
  let message := match log.status.key? with
    | some key => Catalog.english.text key []
    | none => ""
  ⟨path, some format, log.status, message, log⟩

def isOk (r : Report) : Bool := r.status == .ok

def problemKeys (r : Report) : List String := r.events.problemKeys

def line (r : Report) : String :=
  match r.format with
  | none => r.path ++ "\t?\t"
  | some format => r.path ++ "\t" ++ format ++ "\t" ++ r.message ++ "\t" ++ r.events.summary

def eventJson (e : Event) : String :=
  Json.object [
    ("severity", Json.quote e.severity.name),
    ("key", Json.quote e.key),
    ("message", Json.quote e.message)]

def json (r : Report) : String :=
  Json.object [
    ("path", Json.quote r.path),
    ("format", match r.format with
      | some format => Json.quote format
      | none => "null"),
    ("status", Json.quote r.status.name),
    ("message", Json.quote r.message),
    ("events", Json.array (r.events.map eventJson))]

end Report
end ImageAudit
