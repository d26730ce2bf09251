import ImageAudit.Tiff.DirectoryReader

/-! Following the directories of a file. Sub-directories and GPS directories are followed a limited
number of levels down, and no offset is entered twice, so the chain of main directories ends. A
failing read ends everything; what was learned before it is kept. -/
namespace ImageAudit.Tiff

structure Survey where
  findings : Array ImageAudit.Finding
  /-- Offsets of the directories entered, newest first. -/
  visited : List Nat
  budget : Budget
  /-- The main directories that were read in full, in chain order. -/
  directories : Array DirectoryTree

abbrev Survey.Step (α : Type) := EStateM.Result ReadError Survey α

namespace Survey

def start (budget : Budget) : Survey := ⟨#[], [], budget, #[]⟩

def report (s : Survey) (finding : Finding) : Survey :=
  { s with findings := s.findings.push (.tiff finding) }

def takeReading (s : Survey) (offset : Nat) (r : DirectoryReading) : Survey :=
  { s with
    findings := s.findings ++ r.findings
    visited := offset :: s.visited
    budget := r.budget }

def enter (c : Context) (kind : DirectoryKind) (index offset : Nat) (s : Survey) :
    Step (Option Directory) :=
  if s.visited.contains offset then .ok none (s.report (.directoryRepeated offset))
  else
    let reading := Directory.read c kind index offset s.budget
    match reading.result with
    | .error cause => .error cause (s.takeReading offset reading)
    | .ok d => .ok d (s.takeReading offset reading)

/-- Reads the directories at `offsets` one after another. Those that cannot be entered are left
out. -/
def readEach (read : Nat → Survey → Step (Option DirectoryTree)) :
    (offsets : List Nat) → (trees : Array DirectoryTree) → Survey → Step (Array DirectoryTree)
  | [], trees, s => .ok trees s
  | offset :: rest, trees, s =>
    match read offset s with
    | .error cause s => .error cause s
    | .ok none s => readEach read rest trees s
    | .ok (some tree) s => readEach read rest (trees.push tree) s

def maxDepth : Nat := 8

def readTree (c : Context) (index : Nat) : (levels : Nat) → DirectoryKind → (offset : Nat) →
    Survey → Step (Option DirectoryTree)
  | 0, kind, offset, s =>
    match s.enter c kind index offset with
    | .error cause s => .error cause s
    | .ok none s => .ok none s
    | .ok (some d) s =>
      .ok (some (.node d [] []))
        (if d.hasChildren then s.report (.nestingTooDeep offset maxDepth) else s)
  | levels + 1, kind, offset, s =>
    match s.enter c kind index offset with
    | .error cause s => .error cause s
    | .ok none s => .ok none s
    | .ok (some d) s =>
      match readEach (readTree c index levels .sub) d.subOffsets #[] s with
      | .error cause s => .error cause s
      | .ok subs s =>
        match readEach (readTree c index levels .gps) d.gpsOffset?.toList #[] s with
        | .error cause s => .error cause s
        | .ok gps s => .ok (some (.node d subs.toList gps.toList)) s

def readMain (c : Context) (offset : Nat) (s : Survey) : Step (Option DirectoryTree) :=
  readTree c s.directories.size maxDepth .main offset s

def addMain (s : Survey) (tree : DirectoryTree) : Survey :=
  { s with directories := s.directories.push tree }

def unvisited (s : Survey) (fileLength : Nat) : Nat :=
  (List.range fileLength).countP fun offset => !s.visited.contains offset

end Survey
end ImageAudit.Tiff
