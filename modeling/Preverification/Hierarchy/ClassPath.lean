import Preverification.Constant.Basic
import Preverification.FileTree
import Std.Data.HashMap

/-!
# Class paths

A `ClassPath` is where the files of classes are looked for: some sources, asked one after the other.
It hands out bytes and does not look at them.
-/

namespace Preverification

/-- A place where the files of classes are: by the names of the classes, or in a directory by their
paths there. -/
inductive ClassSource where
  | classes (files : Std.HashMap BinaryName Bytes)
  | directory (files : Std.HashMap String Bytes)

namespace ClassSource

/-- The file of a class. -/
def find? (name : BinaryName) : ClassSource → Option Bytes
  | classes files => files[name]?
  | directory files => files[name.classFilePath]?

/-- The directory that a text leads to. A file with too long a path is not found in it. -/
def ofDirectory (tree : FileTree) (text : String) : ClassSource :=
  let found := (tree.filesAt text).filter fun file =>
    FileTree.fits (FileTree.below text file.1)
  directory (.ofList (found.map fun file => (FileTree.textOf file.1, file.2)))

/-- The number of files. -/
def size : ClassSource → Nat
  | classes files => files.size
  | directory files => files.size

end ClassSource

/-- Places where the files of classes are looked for, in the order in which they are asked. -/
structure ClassPath where
  sources : List ClassSource

namespace ClassPath

instance : EmptyCollection ClassPath := ⟨⟨[]⟩⟩

/-- The first file that is found for a class. -/
def find? (classPath : ClassPath) (name : BinaryName) : Option Bytes :=
  classPath.sources.findSome? (·.find? name)

/-- The number of files in all places. -/
def size (classPath : ClassPath) : Nat :=
  classPath.sources.foldl (fun n source => n + source.size) 0

end ClassPath

end Preverification
