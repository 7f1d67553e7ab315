import Std.Data.TreeMap
import Bytecode.Octets

/-! Where finished class files go: into memory, or into files under a directory. -/
namespace Bytecode

/-- Entries by name. A later entry replaces an earlier one of the same name. -/
abbrev Archive := Std.TreeMap String Octets

namespace Archive

def empty : Archive := ∅

def add (name : String) (bytes : Octets) (a : Archive) : Archive := Std.TreeMap.insert a name bytes

def entries (a : Archive) : List (String × Octets) := Std.TreeMap.toList a

end Archive

namespace Path

/-- A slash goes between, unless the path is empty or ends with one. -/
def join (path segment : String) : String :=
  if path.isEmpty || path.toList.getLast? = some '/' then path ++ segment
  else path ++ "/" ++ segment

def segments (name : String) : List String := (name.toList.splitOn '/').map String.ofList

/-- Where an entry goes under a root. -/
def entry (root name : String) : String := (segments name).foldl join root

end Path

/-- What a file system is asked to do. -/
structure Files (m : Type → Type) where
  makeParents : String → m Unit
  write : String → Octets → m Unit

/-- Write an entry to its file, after making the directories that it goes into. -/
def Files.add {m : Type → Type} [Monad m] (files : Files m) (root name : String) (bytes : Octets) :
    m Unit := do
  let path := Path.entry root name
  files.makeParents path
  files.write path bytes

end Bytecode
