import ParserKit.Command.Run

/-!
# The program

Gathers the files that a command may look at, runs the command on them and
prints what it answers.
-/

namespace ParserKit.Main

open Command

/-- What stands at a path in the file system. -/
def readEntry (path : Path) : IO (Option FileEntry) := do
  let place := (← IO.currentDir) / Path.text path
  try
    return some (.file (← IO.FS.readFile place))
  catch _ =>
    return if ← place.isDir then some .directory else none

/-- Add a path and what stands at it to a tree. -/
def addEntry (tree : FileTree) (path : Path) : IO FileTree := do
  match ← readEntry path with
  | some entry => return tree.add path entry
  | none => return tree

/-- The files that a command line in a directory may refer to: the
configurations above the directory, and the one that is named. -/
def relevantPaths (directory : Path) (words : List String) : List Path :=
  let above := (List.range (directory.length + 1)).map directory.take
  let named :=
    match evalSpec.gather (words.drop 1) with
    | .ok i => i.values .config
    | .error _ => []
  above ++ above.map FileTree.candidate ++ named.map (Path.resolve directory)

def gatherWorld (words : List String) : IO World := do
  let directory := Path.resolve [] (← IO.currentDir).toString
  let tree ← (relevantPaths directory words).foldlM addEntry ⟨[]⟩
  return ⟨tree, directory, ← (← IO.getStderr).isTty⟩

end ParserKit.Main

open ParserKit in
def main (words : List String) : IO UInt32 := do
  match Command.run (← Main.gatherWorld words) words with
  | .ok r =>
      (← IO.getStdout).putStr r.out
      (← IO.getStderr).putStr r.err
      return r.exit.toUInt32
  | .error crash =>
      (← IO.getStderr).putStrLn crash.message
      return 1
