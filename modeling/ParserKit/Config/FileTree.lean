/-!
# Trees of files

A tree of directories and files without links, and paths in it.  A path is
the list of names from the root down; the root itself is always a directory.
The nearest configuration is looked for in a directory and then in those above
it, up to the root.
-/

namespace ParserKit

/-- The names from the root down. -/
abbrev Path := List String

namespace Path

/-- The parts of a written path; a slash at either end makes an empty part. -/
def splitSlashes (s : String) : List String := (s.toList.splitOn '/').map String.ofList

def isAbsolute (s : String) : Bool := s.toList.head? == some '/'

/-- One step along a path: an empty part and a dot stay, two dots go up. -/
def step (path : Path) (part : String) : Path :=
  if part = "" ∨ part = "." then path
  else if part = ".." then path.dropLast
  else path ++ [part]

/-- The place that a written path names, seen from a directory. -/
def resolve (directory : Path) (s : String) : Path :=
  (splitSlashes s).foldl step (if isAbsolute s then [] else directory)

/-- The place that a start path names, seen from the working directory; without a
start path it is that directory. -/
def ofStart (directory : Path) : Option String → Path
  | some s => resolve directory s
  | none => directory

/-- A path from the root as it is written. -/
def text (path : Path) : String := "/" ++ "/".intercalate path

/-- A written path without its empty parts and dots.  Two slashes at the start
are kept, any other number becomes one. -/
def tidy (s : String) : String :=
  let parts := (splitSlashes s).filter fun part => part ≠ "" ∧ part ≠ "."
  let root :=
    if s.startsWith "//" && !s.startsWith "///" then "//"
    else if isAbsolute s then "/"
    else ""
  let written := root ++ "/".intercalate parts
  if written.isEmpty then "." else written

end Path

inductive FileEntry
  | file (content : String)
  | directory
  deriving DecidableEq, Repr

structure FileTree where
  entries : List (Path × FileEntry)
  deriving Repr

namespace FileTree

def entry? (tree : FileTree) (path : Path) : Option FileEntry :=
  if path = [] then some .directory else tree.entries.lookup path

/-- Add an entry and the directories above it. -/
def add (tree : FileTree) (path : Path) (entry : FileEntry) : FileTree :=
  let above := (List.range path.length).map path.take
  let missing := above.filter fun p => (tree.entry? p).isNone
  ⟨(path, entry) :: missing.map (·, .directory) ++ tree.entries⟩

def ofList (entries : List (Path × FileEntry)) : FileTree :=
  entries.foldl (fun tree e => tree.add e.1 e.2) ⟨[]⟩

def isFile (tree : FileTree) (path : Path) : Bool :=
  match tree.entry? path with
  | some (.file _) => true
  | _ => false

/-- Follow the parts of a written path one by one; only a directory has
anything below it or beside it. -/
def follow (tree : FileTree) : Path → List String → Option Path
  | path, [] => if (tree.entry? path).isSome then some path else none
  | path, part :: parts =>
      if tree.entry? path = some .directory then tree.follow (path.step part) parts else none

/-- What stands at a written path, seen from a directory; the empty path names
nothing. -/
def stat (tree : FileTree) (directory : Path) (s : String) : Option FileEntry :=
  if s.isEmpty then
    none
  else
    match tree.follow (if Path.isAbsolute s then [] else directory) (Path.splitSlashes s) with
    | some path => tree.entry? path
    | none => none

/-- The name of configuration files. -/
def configName : String := "combinator.toml"

def candidate (directory : Path) : Path := directory ++ [configName]

/-- Look for a configuration in a directory and those above it; the names of the
directory are given from the innermost one up. -/
def nearestConfig (tree : FileTree) : List String → Option Path
  | [] => if (tree.entry? (candidate [])).isSome then some (candidate []) else none
  | name :: above =>
      let here := candidate (name :: above).reverse
      if (tree.entry? here).isSome then some here else nearestConfig tree above

/-- The nearest configuration for a start path, which may name a file; without
one the search starts in the working directory. -/
def findConfig (tree : FileTree) (directory : Path) (start : Option String) : Option Path :=
  let place := Path.ofStart directory start
  let first := if tree.isFile place then place.dropLast else place
  tree.nearestConfig first.reverse

/-- What is said when there is no configuration. -/
def notFoundMessage : String := "No " ++ configName ++ " found in any parent directory"

end FileTree

end ParserKit
