/-! Diagnostic events and their severities. -/
namespace ImageAudit

inductive Severity where
  /-- A positive confirmation. -/
  | info
  /-- Suspicious, but the file may be used. -/
  | warning
  /-- A violation that makes the file invalid. -/
  | error
deriving DecidableEq, Repr

namespace Severity

def rank : Severity → Nat
  | .info => 0
  | .warning => 1
  | .error => 2

def name : Severity → String
  | .info => "info"
  | .warning => "warning"
  | .error => "error"

def isProblem (s : Severity) : Bool := s != .info

def max (a b : Severity) : Severity := if a.rank < b.rank then b else a

end Severity

/-- One recorded diagnostic. The key does not depend on the language of the message. -/
structure Event where
  severity : Severity
  key : String
  message : String
deriving DecidableEq, Repr

end ImageAudit
