import ImageAudit.Inspection.Report
import ImageAudit.Settings

/-! The options of a run. -/
namespace ImageAudit

structure Options where
  /-- Files and directories to inspect. -/
  paths : List String
  /-- Only identify formats. -/
  identify : Bool := false
  /-- Hold the first TIFF directory against the baseline profile. -/
  baseline : Bool := false
  /-- Number of workers, if one is asked for. -/
  threads : Option Nat := none
  /-- Leave out files whose extension is not known. -/
  knownOnly : Bool := false
  /-- Print nothing for files that are in order. -/
  quiet : Bool := false
  /-- Print JSON objects instead of lines. -/
  json : Bool := false
  logLevel : Option String := none
  verbose : Bool := false
deriving DecidableEq, Repr

inductive OptionsError where
  | noPaths
  | noThreads
  | unknownLogLevel (level : String)
deriving DecidableEq, Repr

def logLevels : List String := ["trace", "debug", "info", "warn", "error"]

def OptionsError.message : OptionsError → String
  | .noPaths => "At least one file or directory is required"
  | .noThreads => "threads must be greater than 0"
  | .unknownLogLevel level =>
    "log_level must be one of " ++ ", ".intercalate logLevels ++ ", got '" ++ level ++ "'"

namespace Options

def normalLevel (level : String) : String := level.map Char.toLower

def error? (o : Options) : Option OptionsError :=
  if o.paths.isEmpty then some .noPaths
  else if o.threads == some 0 then some .noThreads
  else match o.logLevel with
    | none => none
    | some level =>
      if logLevels.contains (normalLevel level) then none else some (.unknownLogLevel level)

/-- Which log messages are wanted. A level that is asked for outdoes the verbose option. -/
def logFilter (o : Options) : String :=
  "imgcheck=" ++ match o.logLevel with
    | some level => normalLevel level
    | none => if o.verbose then "debug" else "info"

def settings (o : Options) : Settings := ⟨if o.identify then .identify else .check, o.baseline⟩

def printed? (o : Options) (r : Report) : Option String :=
  if o.quiet && r.isOk then none
  else some (if o.json then r.json else r.line)

end Options
end ImageAudit
