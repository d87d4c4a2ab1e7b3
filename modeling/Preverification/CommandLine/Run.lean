import Preverification.Archive
import Preverification.CommandLine.Options
import Preverification.FileTree

/-!
# Runs

What the program does with its arguments in a directory: it reads entries, preverifies them as an
archive, writes the new entries below another directory, and tells what it has done.
-/

namespace Preverification.CommandLine

/-- What a run leaves behind, besides files: an exit code, and what was printed on the streams for
output and for errors. -/
structure Result where
  exitCode : UInt8
  output : String
  errors : String
deriving DecidableEq, Repr

/-! ### Reading -/

/-- The entry of a file below the input. -/
def entryOf (file : FilePath × Bytes) : ArchiveEntry := ⟨FileTree.textOf file.1, file.2⟩

/-- The entries at a path: a file is one entry by its name, and a directory has the files below it
as entries. Where nothing is, there are no entries. -/
def entriesAt (tree : FileTree) (path : String) : Except FileError (List ArchiveEntry) :=
  match (tree.find? path).map fun place => (place, tree.node? place) with
  | some (place, some (.file contents)) => .ok [⟨place.getLastD "", contents⟩]
  | _ => (tree.readFiles path).map (·.map entryOf)

/-- Directories by their paths, as a class path. -/
def classPathAt (tree : FileTree) (paths : List String) : ClassPath :=
  ⟨paths.map (.ofDirectory tree)⟩

/-! ### Preverifying -/

/-- Preverifies the entries that were found at the input. -/
def Options.process (options : Options) (classPath : ClassPath) (entries : List ArchiveEntry) :
    ArchiveReport :=
  ((options.policy.preverifyArchive options.input .always entries).run (.ofClassPath classPath)).1

/-- The number of classes that a report is about. -/
def classCount (report : ArchiveReport) : Nat :=
  report.events.countP fun event =>
    match event with
    | .entryEnd _ _ (some _) => true
    | _ => false

/-- The words for the problems of an entry. -/
def failureText (entry : String) (problems : List Problem) : String :=
  "Error preverifying " ++ entry ++ "\n" ++
    String.join (problems.map fun problem => "  " ++ problem.text ++ "\n")

/-- The words for all problems. -/
def problemText (report : ArchiveReport) : String :=
  String.join (report.failures.map fun (entry, problems) => failureText entry problems)

/-- The words for what was done. -/
def summaryText (report : ArchiveReport) : String :=
  "Preverified " ++ toString (classCount report) ++ " classes (" ++
    toString report.failures.length ++ " failed)\n"

/-- The exit code when everything could be written. -/
def exitCode (report : ArchiveReport) : UInt8 := if report.isSuccess then 0 else 1

/-! ### Writing -/

/-- Writes entries below a directory. -/
def writeEntries (directory : String) (entries : List ArchiveEntry) : FileTree.Change Unit :=
  entries.forM fun entry =>
    FileTree.Change.write (FileTree.extend directory entry.name) entry.contents

/-- The words for arguments that make no sense. -/
def usageText (error : UsageError) : String :=
  "error: " ++ error.message ++ "\n\n" ++ usageLine ++ "\n\nFor more information, try '--help'.\n"

/-- The words for a failure to read or to write. -/
def accessFailureText (reason : String) : String := "Error: " ++ reason ++ "\n"

/-- Runs the program in a directory. -/
def run (arguments : List String) : StateM FileTree Result := fun tree =>
  match Request.parse arguments with
  | .error error => (⟨2, "", usageText error⟩, tree)
  | .ok .help => (⟨0, helpText, ""⟩, tree)
  | .ok .version => (⟨0, versionText, ""⟩, tree)
  | .ok (.run options) =>
    match entriesAt tree options.input with
    | .error error => (⟨1, "", accessFailureText error.text⟩, tree)
    | .ok entries =>
      let report := options.process (classPathAt tree (options.input :: options.classPath)) entries
      match writeEntries options.output report.entries tree with
      | .ok () tree => (⟨exitCode report, summaryText report, problemText report⟩, tree)
      | .error error tree =>
        (⟨1, "", problemText report ++ accessFailureText error.text⟩, tree)

end Preverification.CommandLine
