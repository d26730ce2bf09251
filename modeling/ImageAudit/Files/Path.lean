/-! Paths. A path is a sequence of components; single dots and repeated slashes inside it do not
count. -/
namespace ImageAudit.Path

inductive Component where
  /-- The slash that starts an absolute path. -/
  | root
  /-- A single dot at the start of a path. -/
  | current
  | parent
  | name (text : String)
deriving DecidableEq, Repr

namespace Component

def rank : Component → Nat
  | root => 0
  | current => 1
  | parent => 2
  | name _ => 3

def lt : Component → Component → Bool
  | name a, name b => a < b
  | a, b => a.rank < b.rank

end Component

def parts (path : String) : List String := path.splitOn "/"

def inner? : String → Option Component
  | "" | "." => none
  | ".." => some .parent
  | text => some (.name text)

def components (path : String) : List Component :=
  match parts path with
  | "" :: rest => (if rest.isEmpty then [] else [.root]) ++ rest.filterMap inner?
  | "." :: rest => .current :: rest.filterMap inner?
  | texts => texts.filterMap inner?

/-- Lexicographic order of components; `false` for paths with the same components. -/
def before : List Component → List Component → Bool
  | [], [] => false
  | [], _ :: _ => true
  | _ :: _, [] => false
  | a :: as, b :: bs => if a.lt b then true else if b.lt a then false else before as bs

def le (a b : String) : Bool := !before (components b) (components a)

def fileName? (path : String) : Option String :=
  match (components path).getLast? with
  | some (.name text) => some text
  | _ => none

/-- The part of the file name behind its last dot. A dot at the very start does not count. -/
def extension? (path : String) : Option String :=
  match fileName? path with
  | none => none
  | some name =>
    let (reversed, rest) := name.toList.reverse.span (· != '.')
    match rest with
    | _ :: _ :: _ => some (String.ofList reversed.reverse)
    | _ => none

def child (base name : String) : String :=
  if base.isEmpty || base.toList.getLast? == some '/' then base ++ name else base ++ "/" ++ name

def descend (base : String) (names : List String) : String := names.foldl child base

end ImageAudit.Path
