/-! What is asked of a decoder. -/
namespace ImageAudit

inductive Mode where
  /-- Up to its signature. -/
  | identify
  /-- Through its whole structure. -/
  | check
deriving DecidableEq, Repr

structure Settings where
  mode : Mode := .check
  /-- Whether the first TIFF directory is held against the baseline profile. -/
  baseline : Bool := false
deriving DecidableEq, Repr

def Settings.isIdentify (s : Settings) : Bool := s.mode == .identify

end ImageAudit
