import TestOrchestrator.Path
/-!
# File systems

What a program can ask about files, as a value. A look-up goes by the steps of a path, so paths with
the same components have the same answers.

* `FileSystem.isFile`, `FileSystem.isDir`, `FileSystem.canonical?` and `FileSystem.read?` are the
  questions; the answers to the last two may be an `OsError`.
-/

namespace TestOrchestrator

/-- Why the operating system refuses a request. -/
inductive OsError where
  | notFound
  /-- A file that is no program and names none to run it. -/
  | noProgram
  | permission
  | notDirectory
  | isDirectory
  | nameTooLong
  | tooManyLinks
  /-- A text with the character 0 is no name. -/
  | nulInName
  deriving DecidableEq, Repr

/-- The wording of a refusal. -/
def OsError.message : OsError → String
  | notFound => "No such file or directory (os error 2)"
  | noProgram => "Exec format error (os error 8)"
  | permission => "Permission denied (os error 13)"
  | notDirectory => "Not a directory (os error 20)"
  | isDirectory => "Is a directory (os error 21)"
  | nameTooLong => "File name too long (os error 36)"
  | tooManyLinks => "Too many levels of symbolic links (os error 40)"
  | nulInName => "file name contained an unexpected NUL byte"

/-- The answers of a file system. Relative ways start at the current directory. -/
structure FileSystem where
  /-- The current directory. -/
  cwd : Path
  isFileAt : Path.Steps → Bool
  isDirAt : Path.Steps → Bool
  /-- The path without links that leads to the same place. -/
  canonicalAt : Path.Steps → Except OsError Path
  readAt : Path.Steps → Except OsError (List UInt8)

namespace FileSystem

/-- Whether there is a file at a path. -/
def isFile (fs : FileSystem) (p : Path) : Bool := p.text ≠ "" && fs.isFileAt p.steps

/-- Whether there is a directory at a path. -/
def isDir (fs : FileSystem) (p : Path) : Bool := p.text ≠ "" && fs.isDirAt p.steps

/-- The path without links that leads to the same place. The empty path leads nowhere. -/
def canonical? (fs : FileSystem) (p : Path) : Except OsError Path :=
  if p.text = "" then .error .notFound else fs.canonicalAt p.steps

/-- The bytes of the file at a path. -/
def read? (fs : FileSystem) (p : Path) : Except OsError (List UInt8) :=
  if p.text = "" then .error .notFound else fs.readAt p.steps

end FileSystem

end TestOrchestrator
