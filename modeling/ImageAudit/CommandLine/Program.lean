import ImageAudit.CommandLine.Arguments
import ImageAudit.Files.Collection
import ImageAudit.Inspection.Pool

/-! A whole run: options are read, files are collected and inspected, and a line is printed for
each of them. -/
namespace ImageAudit

structure Machine where
  /-- The files below a directory; none for anything that is not a directory. -/
  below? : String → Option (List (List String))
  opener : Opener
  environment : Arguments.Environment
  /-- Number of processors. -/
  processors : Nat

structure Outcome where
  exitCode : Nat
  /-- What was printed, one text for each report. -/
  printed : List String
deriving DecidableEq, Repr

namespace Program

/-- Exit code of a run that was refused. Asking for help or the version is no failure. -/
def refusalCode : Arguments.Refusal → Nat
  | .help | .version => 0
  | _ => 2

def optionsErrorCode : Nat := 1

def threadsPerProcessor : Nat := 8

def inspect (m : Machine) (o : Options) : List String :=
  let files := Collection.collect m.below? o.knownOnly o.paths
  let wanted := o.threads.getD (m.processors * threadsPerProcessor)
  let threads := Pool.threadCount wanted files.length
  (Pool.inspectAll m.opener o.settings files threads).filterMap o.printed?

def run (m : Machine) (arguments : List String) : Outcome :=
  match Arguments.parse arguments m.environment with
  | .error refusal => ⟨refusalCode refusal, []⟩
  | .ok o =>
    match o.error? with
    | some _ => ⟨optionsErrorCode, []⟩
    | none => ⟨0, inspect m o⟩

end Program
end ImageAudit
