import ImageAudit.CommandLine.Program

/-! The command line: files are read one after another and each report is printed at once. -/
namespace ImageAudit.Main

def isDirectory (path : String) : IO Bool :=
  (System.mkFilePath [path]).isDir

def entryType? (folder : String) (entry : IO.FS.DirEntry) : IO (Option IO.FS.FileType) := do
  try
    let place ← IO.FS.realPath folder
    return some (← (place / entry.fileName).metadata).type
  catch _ => return none

/-- The files below a directory, each by the names on the way to it. What cannot be read is left
out. -/
partial def filesBelow (path : String) : IO (List (List String)) := do
  try
    let mut files := []
    for entry in ← (System.mkFilePath [path]).readDir do
      match ← entryType? path entry with
      | some .file => files := files ++ [[entry.fileName]]
      | some .dir =>
        let below ← filesBelow (Path.child path entry.fileName)
        files := files ++ below.map (entry.fileName :: ·)
      | _ => pure ()
    return files
  catch _ => return []

def openFile (path : String) : IO (Except ReadError Source) := do
  try
    return .ok (.ofBytes path (← IO.FS.readBinFile path))
  catch e => return .error (.cannotOpen path (toString e))

def inspect (o : Options) (files : List String) : IO Unit := do
  let mut decoders := Decoders.new o.settings
  for path in files do
    let opened ← openFile path
    let (result, next) := decoders.inspectFile (fun _ => opened) path
    decoders := next
    match result with
    | .error cause => IO.eprintln cause.message
    | .ok report =>
      match o.printed? report with
      | some text => IO.println text
      | none => pure ()

def usage : String := "Usage: imgcheck [OPTIONS] [PATHS]..."

def refuse : Arguments.Refusal → IO Unit
  | .help => IO.println usage
  | .version => IO.println "imgcheck"
  | _ => IO.eprintln usage

def run (arguments : List String) : IO UInt32 := do
  let values ← Arguments.variableNames.mapM fun name => return (name, ← IO.getEnv name)
  match Arguments.parse arguments fun name => (values.lookup name).join with
  | .error refusal =>
    refuse refusal
    return (Program.refusalCode refusal).toUInt32
  | .ok o =>
    match o.error? with
    | some error =>
      IO.eprintln ("Configuration error: " ++ error.message)
      return Program.optionsErrorCode.toUInt32
    | none =>
      let listings ← (← o.paths.filterM isDirectory).mapM fun path =>
        return (path, ← filesBelow path)
      inspect o (Collection.collect (listings.lookup ·) o.knownOnly o.paths)
      return 0

end ImageAudit.Main

def main (arguments : List String) : IO UInt32 := ImageAudit.Main.run arguments
