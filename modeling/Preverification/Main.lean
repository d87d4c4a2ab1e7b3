import Preverification.CommandLine.Run

/-!
# The program

Reads the files that the arguments name, and writes the new ones. Everything else is decided by
`Preverification.CommandLine`.
-/

namespace Preverification.CommandLine

/-- The contents of a file. -/
def readContents (path : String) : IO Bytes := return (← IO.FS.readBinFile path).toList

/-- What kind of thing is at a path. -/
def kindAt? (path : String) : IO (Option IO.FS.FileType) := do
  try return some (← (IO.FS.DirEntry.mk path "").root.metadata).type
  catch _ => return none

/-- The names in a directory, in order. A directory that cannot be read has none. -/
def namesIn (path : String) : IO (List String) := do
  try
    let found ← (IO.FS.DirEntry.mk path "").root.readDir
    return (found.toList.map (·.fileName)).mergeSort fun first second => decide (first ≤ second)
  catch _ => return []

/-! ### Failures -/

/-- What a failure to read or to write is for a tree of files. -/
def fileError? (error : IO.Error) : Option FileError :=
  match error with
  | .noFileOrDirectory _ code _ | .alreadyExists _ code _ | .inappropriateType _ code _
  | .invalidArgument _ code _ => FileError.ofCode? code.toNat
  | _ => none

/-- The words for the reason of a failure. -/
def reasonText (error : IO.Error) : String :=
  match fileError? error with
  | some known => known.text
  | none => toString error

/-! ### Reading -/

/-- The files that some names lead to from a directory, each by its names, in the order of the
names. -/
partial def filesBelow (directory : String) (names : FilePath) : IO (List FilePath) := do
  let here := FileTree.below directory names
  match ← kindAt? here with
  | some .dir => return (← (← namesIn here).mapM fun name =>
      filesBelow directory (names ++ [name])).flatten
  | some .file => return [names]
  | _ => return []

/-- The entries at the input. -/
def loadEntries (path : String) : IO (List ArchiveEntry) := do
  match ← kindAt? path with
  | some .file =>
    let contents ← readContents path
    return [⟨(FileTree.parts path).getLastD "", contents⟩]
  | _ => (← filesBelow path []).mapM fun names =>
      return entryOf (names, ← readContents (FileTree.below path names))

/-- A directory as a part of the class path. What cannot be read is not in it. -/
def loadSource (path : String) : IO ClassSource := do
  let found ← (← filesBelow path []).filterMapM fun names => do
    try return some (FileTree.textOf names, ← readContents (FileTree.below path names))
    catch _ => return none
  return .directory (.ofList found)

/-! ### Writing -/

/-- Makes a directory unless it is there. -/
def ensureDirectory (path : String) : IO Unit := do
  try IO.FS.createDir path
  catch error => if (← kindAt? path) != some .dir then throw error

/-- Makes a directory and those around it, unless they are there. The parts of its path are given
the last one first. -/
def makeDirectories : List String → IO Unit
  | [] => return ()
  | name :: outer =>
    if FileTree.isHere name then makeDirectories outer
    else do
      let path := FileTree.textOf (name :: outer).reverse
      try ensureDirectory path
      catch error =>
        if fileError? error = some .notFound then
          makeDirectories outer
          ensureDirectory path
        else throw error

/-- Writes an entry below a directory. -/
def saveEntry (directory : String) (entry : ArchiveEntry) : IO Unit := do
  let path := FileTree.extend directory entry.name
  makeDirectories (FileTree.parts path).reverse.tail
  IO.FS.writeBinFile path (.mk entry.contents.toArray)

/-- Preverifies what the options name. -/
def execute (options : Options) : IO UInt8 := do
  try
    let sources ← (options.input :: options.classPath).mapM loadSource
    let report := options.process ⟨sources⟩ (← loadEntries options.input)
    IO.eprint (problemText report)
    report.entries.forM (saveEntry options.output)
    IO.print (summaryText report)
    return exitCode report
  catch error =>
    IO.eprint (accessFailureText (reasonText error))
    return 1

end Preverification.CommandLine

open Preverification.CommandLine in
/-- The program. -/
def main (arguments : List String) : IO UInt32 := do
  match Request.parse arguments with
  | .error error =>
    IO.eprint (usageText error)
    return 2
  | .ok .help =>
    IO.print helpText
    return 0
  | .ok .version =>
    IO.print versionText
    return 0
  | .ok (.run options) => return (← execute options).toUInt32
