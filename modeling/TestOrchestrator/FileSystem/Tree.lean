import TestOrchestrator.FileSystem
import TestOrchestrator.Text.Split
/-!
# File systems as trees

* `Tree` is a list of entries by their places below the root: files, directories and links.
* `Tree.find?` goes a way, over links, to the place at its end and the entry there.
* `Tree.toFileSystem` answers the questions of a file system.

A way must lead over directories. `..` leads back from the place reached, not from the name written.
-/

namespace TestOrchestrator

/-- What can be at a place. -/
inductive Entry where
  | file (content : List UInt8) (executable : Bool)
  | directory
  | link (target : Path)

/-- Whether an entry is a file. -/
def Entry.isFile : Entry → Bool
  | .file .. => true
  | _ => false

/-- Entries by their places. -/
structure Tree where
  /-- The place of the current directory. -/
  cwd : List OsText
  entries : List (List OsText × Entry)

namespace Tree

/-- The entry at a place. The root is a directory. -/
def entry? (t : Tree) (place : List OsText) : Option Entry :=
  if place = [] then some .directory else t.entries.lookup place

/-- Where a walk stops. -/
inductive Stop where
  | arrived (place : List OsText)
  /-- At a link in the directory `place`, with a rest of the way behind it. -/
  | link (place : List OsText) (target : Path) (rest : List OsText)

/-- Walks until a link or the end of the way. -/
def advance (t : Tree) : List OsText → List OsText → Except OsError Stop
  | place, [] => .ok (.arrived place)
  | place, name :: names =>
    match t.entry? place with
    | some .directory =>
      if name = ".." then advance t place.dropLast names
      else if 255 < name.bytes.length then .error .nameTooLong
      else
        match t.entry? (place ++ [name]) with
        | none => .error .notFound
        | some (.link target) => .ok (.link place target names)
        | some _ => advance t (place ++ [name]) names
    | _ => .error .notDirectory

/-- The number of links on one way. -/
def maxLinks : Nat := 40

/-- Walks over at most `links` links; `directory` tells that the end must be a directory. -/
def walk (t : Tree) : Nat → List OsText → List OsText → Bool →
    Except OsError (List OsText × Entry)
  | links, place, names, directory =>
    match t.advance place names with
    | .error e => .error e
    | .ok (.arrived place) =>
      match t.entry? place with
      | some .directory => .ok (place, .directory)
      | some e => if directory then .error .notDirectory else .ok (place, e)
      | none => .error .notFound
    | .ok (.link place target rest) =>
      match links with
      | 0 => .error .tooManyLinks
      | links + 1 =>
        let s := target.steps
        walk t links (if s.absolute then [] else place) (s.names ++ rest)
          (directory || (rest = [] && s.directory))

/-- The place and the entry at the end of a way. -/
def find? (t : Tree) (s : Path.Steps) : Except OsError (List OsText × Entry) :=
  if s.names.any (·.bytes.contains Byte.nul) then .error .nulInName
  else t.walk maxLinks (if s.absolute then [] else t.cwd) s.names s.directory

/-- The path of a place. -/
def pathOf (place : List OsText) : Path :=
  ⟨⟨Byte.slash :: Text.join [Byte.slash] (place.map OsText.bytes)⟩⟩

/-- Whether the end of a way has an entry of a kind. -/
def leadsTo (t : Tree) (kind : Entry → Bool) (s : Path.Steps) : Bool :=
  match t.find? s with
  | .ok (_, e) => kind e
  | .error _ => false

/-- The bytes at the end of a way. -/
def read? (t : Tree) (s : Path.Steps) : Except OsError (List UInt8) := do
  match ← t.find? s with
  | (_, .file content _) => .ok content
  | _ => .error .isDirectory

/-- The answers about a tree. -/
def toFileSystem (t : Tree) : FileSystem where
  cwd := pathOf t.cwd
  isFileAt := t.leadsTo Entry.isFile
  isDirAt := t.leadsTo (!Entry.isFile ·)
  canonicalAt s := (t.find? s).map fun found => pathOf found.1
  readAt := t.read?

end Tree

end TestOrchestrator
