import ImageAudit.CommandLine.Options
import ImageAudit.Text.Word

/-! Reading options from arguments and, where these leave an option open, from the environment.
Values that stand apart from their option, and paths, are taken in when the next option or the end
of the arguments shows that they are complete; an argument that is not known is refused before
that. -/
namespace ImageAudit.Arguments

inductive Refusal where
  | unknownArgument
  | invalidValue
  | malformedNumber
  | tooManyValues
  | repeatedOption
  /-- The help text is asked for. -/
  | help
  /-- The version is asked for. -/
  | version
deriving DecidableEq, Repr

inductive Switch where
  | identify
  | baseline
  | knownOnly
  | quiet
  | json
  | verbose
deriving DecidableEq, Repr

inductive Setting where
  | threads
  | logLevel
deriving DecidableEq, Repr

inductive Named where
  | switch (s : Switch)
  | setting (s : Setting)
  | refusal (r : Refusal)
deriving DecidableEq, Repr

def long? : String → Option Named
  | "identify" => some (.switch .identify)
  | "tiff-baseline" => some (.switch .baseline)
  | "threads" => some (.setting .threads)
  | "known-extensions-only" => some (.switch .knownOnly)
  | "quiet" => some (.switch .quiet)
  | "json" => some (.switch .json)
  | "log-level" => some (.setting .logLevel)
  | "verbose" => some (.switch .verbose)
  | "help" => some (.refusal .help)
  | "version" => some (.refusal .version)
  | _ => none

def short? : Char → Option Named
  | 'i' => some (.switch .identify)
  | 'j' => some (.setting .threads)
  | 'k' => some (.switch .knownOnly)
  | 'q' => some (.switch .quiet)
  | 'l' => some (.setting .logLevel)
  | 'v' => some (.switch .verbose)
  | 'h' => some (.refusal .help)
  | 'V' => some (.refusal .version)
  | _ => none

structure Given where
  paths : List String
  switches : List Switch
  threads : Option Nat
  logLevel : Option String
deriving DecidableEq, Repr

namespace Given

def none : Given := ⟨[], [], .none, .none⟩

def addSwitch (g : Given) (s : Switch) : Except Refusal Given :=
  if g.switches.contains s then .error .repeatedOption
  else .ok { g with switches := s :: g.switches }

def has (g : Given) : Setting → Bool
  | .threads => g.threads.isSome
  | .logLevel => g.logLevel.isSome

def addValue (g : Given) (value : String) : Setting → Except Refusal Given
  | .threads =>
    match Word.ofText? value.toList with
    | .none => .error .malformedNumber
    | some threads => .ok { g with threads := some threads }
  | .logLevel => .ok { g with logLevel := some value }

/-- Takes in the values of an option, which must be one. A missing value is worse than a
repetition, and a repetition is worse than a malformed value. -/
def addSetting (g : Given) (s : Setting) (value : Option String) : Except Refusal Given :=
  match value with
  | .none => .error .invalidValue
  | some value => if g.has s then .error .repeatedOption else g.addValue value s

def addPaths (g : Given) (paths : List String) : Except Refusal Given :=
  if paths.contains "" then .error .invalidValue else .ok { g with paths := g.paths ++ paths }

end Given

inductive Pending where
  | nothing
  | paths (values : List String)
  | setting (s : Setting) (value : Option String)
deriving DecidableEq, Repr

structure Reading where
  given : Given
  pending : Pending
  /-- The last argument was an option whose value is still to come. -/
  awaiting : Bool
  /-- All further arguments are paths. -/
  trailing : Bool
deriving DecidableEq, Repr

namespace Reading

def start : Reading := ⟨.none, .nothing, false, false⟩

def settle (r : Reading) : Except Refusal Reading :=
  let taken : Except Refusal Given := match r.pending with
    | .nothing => .ok r.given
    | .paths values => r.given.addPaths values
    | .setting s value => r.given.addSetting s value
  taken.map fun given => ⟨given, .nothing, false, r.trailing⟩

def readNamed (r : Reading) (n : Named) : Except Refusal Reading :=
  match r.settle with
  | .error refusal => .error refusal
  | .ok r =>
    match n with
    | .switch s => (r.given.addSwitch s).map fun given => { r with given }
    | .setting s => .ok { r with pending := .setting s none, awaiting := true }
    | .refusal refusal => .error refusal

def readAttached (r : Reading) (s : Setting) (value : String) : Except Refusal Reading :=
  match r.settle with
  | .error refusal => .error refusal
  | .ok r => (r.given.addSetting s (some value)).map fun given => { r with given }

def readLong (r : Reading) (name : String) (value : Option String) : Except Refusal Reading :=
  match long? name, value with
  | none, _ => .error .unknownArgument
  | some (.setting s), some value => r.readAttached s value
  | some _, some _ => .error .tooManyValues
  | some n, none => r.readNamed n

/-- Reads the letters of a cluster. What follows an option with a value is that value, less an
equals sign in front. -/
def readCluster (r : Reading) : List Char → Except Refusal Reading
  | [] => .ok r
  | letter :: rest =>
    match short? letter, rest with
    | none, _ => .error .unknownArgument
    | some (.setting s), '=' :: value => r.readAttached s (String.ofList value)
    | some (.setting s), c :: value => r.readAttached s (String.ofList (c :: value))
    | some n, rest =>
      match r.readNamed n with
      | .error refusal => .error refusal
      | .ok r => readCluster r rest

def readPath (r : Reading) (path : String) : Except Refusal Reading :=
  match r.pending with
  | .paths values => .ok { r with pending := .paths (values ++ [path]) }
  | _ => r.settle.map fun r => { r with pending := .paths [path] }

def readPlain (r : Reading) (text : String) : Except Refusal Reading :=
  match r.pending with
  | .setting s none =>
    if r.awaiting then .ok { r with pending := .setting s (some text), awaiting := false }
    else r.readPath text
  | _ => r.readPath text

def read (r : Reading) (argument : String) : Except Refusal Reading :=
  if r.trailing then r.readPath argument
  else match argument.toList with
    | ['-', '-'] => .ok { r with trailing := true, awaiting := false }
    | '-' :: '-' :: text =>
      let name := String.ofList (text.takeWhile (· != '='))
      match text.dropWhile (· != '=') with
      | [] => r.readLong name none
      | _ :: value => r.readLong name (some (String.ofList value))
    | '-' :: letter :: rest => r.readCluster (letter :: rest)
    | _ => r.readPlain argument

def readAll (r : Reading) : List String → Except Refusal Reading
  | [] => r.settle
  | argument :: rest =>
    match r.read argument with
    | .error refusal => .error refusal
    | .ok r => readAll r rest

end Reading

abbrev Environment := String → Option String

namespace Given

def fillSwitch (g : Given) (env : Environment) (name : String) (s : Switch) :
    Except Refusal Given :=
  if g.switches.contains s then .ok g
  else match env name with
    | .none | some "false" => .ok g
    | some "true" => g.addSwitch s
    | some _ => .error .invalidValue

def fillSetting (g : Given) (env : Environment) (name : String) (s : Setting) :
    Except Refusal Given :=
  if g.has s then .ok g
  else match env name with
    | .none => .ok g
    | some value => g.addValue value s

/-- Fills in what the environment has. The first bad value is refused. -/
def fill (g : Given) (env : Environment) : Except Refusal Given := do
  let g ← g.fillSwitch env "IMGCHECK_IDENTIFY" .identify
  let g ← g.fillSwitch env "IMGCHECK_TIFF_BASELINE" .baseline
  let g ← g.fillSetting env "IMGCHECK_THREADS" .threads
  let g ← g.fillSwitch env "IMGCHECK_KNOWN_EXTENSIONS_ONLY" .knownOnly
  let g ← g.fillSwitch env "IMGCHECK_QUIET" .quiet
  g.fillSetting env "IMGCHECK_LOG_LEVEL" .logLevel

def options (g : Given) : Options where
  paths := g.paths
  identify := g.switches.contains .identify
  baseline := g.switches.contains .baseline
  threads := g.threads
  knownOnly := g.switches.contains .knownOnly
  quiet := g.switches.contains .quiet
  json := g.switches.contains .json
  logLevel := g.logLevel
  verbose := g.switches.contains .verbose

end Given

def variableNames : List String :=
  ["IMGCHECK_IDENTIFY", "IMGCHECK_TIFF_BASELINE", "IMGCHECK_THREADS",
    "IMGCHECK_KNOWN_EXTENSIONS_ONLY", "IMGCHECK_QUIET", "IMGCHECK_LOG_LEVEL"]

def parse (arguments : List String) (env : Environment) : Except Refusal Options := do
  let r ← Reading.start.readAll arguments
  let g ← r.given.fill env
  return g.options

end ImageAudit.Arguments
