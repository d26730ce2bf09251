import ImageAudit.Files.Extension

/-! The files to inspect: those that are named, and all files below the directories that are
named. -/
namespace ImageAudit.Collection

/-- The files of a collection. For a directory `below?` lists the files below it, each by the names
on the way to it; for anything else it has no list. -/
def expand (below? : String → Option (List (List String))) (paths : List String) : List String :=
  paths.flatMap fun path =>
    match below? path with
    | none => [path]
    | some files => files.map (Path.descend path)

def collect (below? : String → Option (List (List String))) (knownOnly : Bool)
    (paths : List String) : List String :=
  let files := expand below? paths
  if knownOnly then files.filter Extension.isKnown else files

end ImageAudit.Collection
