import LoxLexer.Bytes

/-!
# `LoxLexer.Source.Directory` — reading from a small working directory held in memory

A working directory holds files and empty subdirectories. A path is followed part by part from the
directory itself, or from outside of it when the path is absolute. Nothing is known of the places outside
but that they are directories. A directory can be opened like a file and has no bytes to read. A path
that is empty, or longer than `longestPath`, leads nowhere, whatever its parts are.
-/

namespace LoxLexer

/-- A working directory: its files by name, and the names of its subdirectories, which are empty. -/
structure Directory where
  files : List (Bytes × Bytes)
  subdirectories : List Bytes
deriving DecidableEq, Repr

namespace Directory

/-- Where the parts of a path can lead. -/
inductive Place where
  /-- A directory above the working directory. -/
  | outside
  /-- The working directory. -/
  | here
  /-- One of its subdirectories. -/
  | inside
  | file (contents : Bytes)
deriving DecidableEq, Repr

/-- The file or subdirectory of the given name. -/
def place? (d : Directory) (name : Bytes) : Option Place :=
  match d.files.find? fun file => file.1 = name with
  | some file => some (.file file.2)
  | none => if name ∈ d.subdirectories then some .inside else none

/-- Follows one part of a path. An empty part and a single dot stay in a directory, two dots leave it, and
    no part follows a file. -/
def follow? (d : Directory) (place : Place) (part : Bytes) : Option Place :=
  match place with
  | .file _ => none
  | .outside => if part = [] ∨ part = ascii "." ∨ part = ascii ".." then some .outside else none
  | .here =>
    if part = [] ∨ part = ascii "." then some .here
    else if part = ascii ".." then some .outside
    else d.place? part
  | .inside =>
    if part = [] ∨ part = ascii "." then some .inside
    else if part = ascii ".." then some .here
    else none

/-- The byte between the parts of a path. -/
def separator : UInt8 := '/'.toUInt8

/-- Bytes of a path, at most: with the byte that ends it, a path takes no more than 4096. -/
def longestPath : Nat := 4095

/-- Follows a whole path; one that is empty or too long leads nowhere. -/
def resolve? (d : Directory) (path : Bytes) : Option Place :=
  if path = [] ∨ longestPath < path.length then none
  else
    let start : Place := if path.head? = some separator then .outside else .here
    (split separator path).foldlM d.follow? start

/-- The bytes that can be read at a path. -/
def read? (d : Directory) (path : Bytes) : Option Bytes :=
  (d.resolve? path).map fun
    | .file contents => contents
    | _ => []

end Directory

end LoxLexer
