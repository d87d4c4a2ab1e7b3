import Preverification.Bytes
import Std.Data.HashMap

/-!
# Trees of files

A `FileTree` is what is in the directory in which a program runs: files and directories by their
paths. Texts of paths have slashes between their parts, of which `.` means the directory itself and
`..` the one around it; a text that starts with a slash starts at the root of the file system.
Nothing is known of what is outside of the directory, so it is taken as empty.

Names and texts have a greatest size, in bytes. Changes fail as they do on a file system, and what
was changed before a failure stays changed.
-/

namespace Preverification

open MonadExcept (ofExcept)

/-- The names that lead from the directory of a tree to a place. Places outside of it start with as
many `..` as there are directories to leave, or with the slash that is the root of the file
system. -/
abbrev FilePath := List String

/-- What is at a place of a tree. -/
inductive FileNode where
  | directory
  | file (contents : Bytes)
deriving DecidableEq, Repr

/-- Why something cannot be done with a place of a tree. -/
inductive FileError where
  | notFound
  | alreadyExists
  | notADirectory
  | isADirectory
  | nameTooLong
deriving DecidableEq, Repr

namespace FileError

/-- The number that operating systems have for an error. -/
def code : FileError → Nat
  | notFound => 2 | alreadyExists => 17 | notADirectory => 20 | isADirectory => 21
  | nameTooLong => 36

/-- The error that has a number. -/
def ofCode? (number : Nat) : Option FileError :=
  [notFound, alreadyExists, notADirectory, isADirectory, nameTooLong].find? (·.code = number)

/-- The name of an error. -/
def name : FileError → String
  | notFound => "NotFound" | alreadyExists => "AlreadyExists"
  | notADirectory => "NotADirectory" | isADirectory => "IsADirectory"
  | nameTooLong => "InvalidFilename"

/-- The words for an error. -/
def words : FileError → String
  | notFound => "No such file or directory" | alreadyExists => "File exists"
  | notADirectory => "Not a directory" | isADirectory => "Is a directory"
  | nameTooLong => "File name too long"

/-- The text of an error. -/
def text (error : FileError) : String :=
  "Os \x7b code: " ++ toString error.code ++ ", kind: " ++ error.name ++ ", message: \"" ++
    error.words ++ "\" \x7d"

end FileError

/-- Files and directories by their paths. -/
structure FileTree where
  nodes : Std.HashMap FilePath FileNode

namespace FileTree

instance : EmptyCollection FileTree := ⟨⟨∅⟩⟩

/-- The place that is the root of the file system. -/
def root : FilePath := ["/"]

/-- Whether a place is a directory whatever is in a tree: the directory of the tree, those around
it, and the root of the file system. -/
def isGiven (place : FilePath) : Bool := place == root || place.all (· == "..")

/-- What is at a place. -/
def node? (tree : FileTree) (place : FilePath) : Option FileNode :=
  if isGiven place then some .directory else tree.nodes[place]?

/-- Whether there is a directory at a place. -/
def isDirectory (tree : FileTree) (place : FilePath) : Bool := tree.node? place = some .directory

/-! ### Texts of paths -/

/-- The number of bytes that a name may have. -/
def maxNameSize : Nat := 255

/-- The number of bytes that the text of a path may have. -/
def maxTextSize : Nat := 4095

/-- The parts of a text between its slashes. -/
def parts (text : String) : List String := (slashParts text.toList).map String.ofList

/-- The text with some parts. -/
def textOf (parts : List String) : String := "/".intercalate parts

/-- Whether a text is short enough to be the path of something. -/
def fits (text : String) : Bool := text.utf8ByteSize ≤ maxTextSize

/-- The text of what has a name in the directory of a text. -/
def extend (text name : String) : String :=
  if text.endsWith "/" then text ++ name else text ++ "/" ++ name

/-- The text of what some names lead to from the directory of a text. -/
def below (text : String) (names : FilePath) : String := names.foldl extend text

/-- Whether a part means the directory that it is in. -/
def isHere (part : String) : Bool := part = "" || part = "."

/-! ### Places -/

/-- The directory around a place. The root of the file system is in itself. -/
def around (place : FilePath) : FilePath :=
  if place = root then root
  else match place.getLast? with
    | none | some ".." => place ++ [".."]
    | some _ => place.dropLast

/-- The place of a name in a directory. -/
def child (place : FilePath) (name : String) : Except FileError FilePath :=
  if maxNameSize < name.utf8ByteSize then .error .nameTooLong else .ok (place ++ [name])

/-- Follows a part from a place on. Only directories have parts. -/
def follow (tree : FileTree) (place : FilePath) (part : String) : Except FileError FilePath := do
  if !tree.isDirectory place then throw .notADirectory
  if isHere part then return place
  if part = ".." then return around place
  let next ← child place part
  if (tree.node? next).isSome then return next else throw .notFound

/-- Follows the parts of a text. -/
def followAll (tree : FileTree) (parts : List String) : Except FileError FilePath :=
  if !fits (textOf parts) then .error .nameTooLong
  else match parts with
    | "" :: rest => rest.foldlM tree.follow root
    | _ => parts.foldlM tree.follow []

/-- The place that a text leads to. -/
def find? (tree : FileTree) (text : String) : Option FilePath :=
  if text = "" then none else (tree.followAll (parts text)).toOption

/-! ### Reading -/

/-- Whether names lead out of the directory from which they are followed. -/
def isOutside (names : FilePath) : Bool := names.head? = some ".." || names.head? = root.head?

/-- The names that lead from a directory to a place in it. -/
def namesFrom? (directory place : FilePath) : Option FilePath :=
  let names := place.drop directory.length
  if directory.isPrefixOf place && !isOutside names then some names else none

/-- The files below a directory, by the names that lead to them, in the order of the names. -/
def files (tree : FileTree) (directory : FilePath) : List (FilePath × Bytes) :=
  let found := tree.nodes.toList.filterMap fun (place, node) =>
    match node with
    | .directory => none
    | .file contents => (namesFrom? directory place).map ((·, contents))
  found.mergeSort fun first second => (compare first.1 second.1).isLE

/-- The files below the directory that a text leads to. Where there is none, there are no files. -/
def filesAt (tree : FileTree) (text : String) : List (FilePath × Bytes) :=
  match tree.find? text with
  | none => []
  | some place => if tree.isDirectory place then tree.files place else []

/-- Reads the files below the directory that a text leads to. What is in a directory with too long a
path is passed over, and a file with too long a path cannot be read. -/
def readFiles (tree : FileTree) (text : String) : Except FileError (List (FilePath × Bytes)) :=
  let listed := (tree.filesAt text).filter fun (names, _) => fits (below text names.dropLast)
  if listed.all fun (names, _) => fits (below text names) then .ok listed else .error .nameTooLong

/-! ### Changing -/

/-- A change to a tree that may fail half way. -/
abbrev Change := EStateM FileError FileTree

namespace Change

/-- The tree after a change, whether it failed or not. -/
def apply (change : Change Unit) (tree : FileTree) : FileTree :=
  match change tree with
  | .ok () tree | .error _ tree => tree

/-- The directory that is around the last part of a text, by all the parts in front. -/
def directory (outer : List String) (name : String) : Change FilePath := do
  let tree ← get
  if !fits (textOf (outer ++ [name])) then throw .nameTooLong
  let place ← ofExcept (tree.followAll outer)
  if tree.isDirectory place then return place else throw .notADirectory

/-- Puts something at a place. -/
def put (place : FilePath) (node : FileNode) : Change Unit :=
  modify fun tree => ⟨tree.nodes.insert place node⟩

/-- Makes a directory with a name in the directory that parts lead to. -/
def makeDirectory (outer : List String) (name : String) : Change Unit := do
  let place ← directory outer name
  if name = ".." then throw .alreadyExists
  let place ← ofExcept (child place name)
  if ((← get).node? place).isSome then throw .alreadyExists
  put place .directory

/-- Makes a directory unless it is there. -/
def ensureDirectory (outer : List String) (name : String) : Change Unit := do
  try makeDirectory outer name
  catch error =>
    let tree ← get
    match tree.followAll (outer ++ [name]) with
    | .ok place => if !tree.isDirectory place then throw error
    | .error _ => throw error

/-- Makes a directory and those around it, unless they are there. The parts of its path are given
the last one first. The directories around it come into play only if it has no place yet. -/
def makeDirectories : List String → Change Unit
  | [] => return ()
  | name :: outer =>
    if isHere name then makeDirectories outer
    else do
      try ensureDirectory outer.reverse name
      catch error =>
        if error = .notFound then
          makeDirectories outer
          ensureDirectory outer.reverse name
        else throw error

/-- Writes a file into the directory that parts lead to. One that is there is replaced. -/
def writeFile (outer : List String) (name : String) (contents : Bytes) : Change Unit := do
  let place ← directory outer name
  if isHere name || name = ".." then throw .isADirectory
  let place ← ofExcept (child place name)
  if (← get).isDirectory place then throw .isADirectory
  put place (.file contents)

/-- Writes a file and makes the directories around it. -/
def write (text : String) (contents : Bytes) : Change Unit :=
  match (parts text).reverse with
  | [] => throw .isADirectory
  | name :: outer => do
    makeDirectories outer
    writeFile outer.reverse name contents

end Change

/-! ### Building -/

/-- Adds a file with the directories around it, or a directory if there are no contents. -/
def add (tree : FileTree) (text : String) (contents : Option Bytes) : FileTree :=
  match contents with
  | some bytes => (Change.write text bytes).apply tree
  | none => (Change.makeDirectories (parts text).reverse).apply tree

/-- The tree of some files, by the texts of their paths. What has no contents is a directory. -/
def ofFiles (files : List (String × Option Bytes)) : FileTree :=
  files.foldl (fun tree (text, contents) => tree.add text contents) ∅

end FileTree

end Preverification
