import TestOrchestrator.FileSystem.Tree
import TestOrchestrator.Program.Command
/-!
# Starting programs from a tree

* `Tree.start?` finds the program of a command. The command's directory comes first, then the file,
  which must be executable.
* `Image.words` is the program with its arguments. A script names the program that runs it in its
  first line; that program then gets the script's path as an argument.

A program whose path has no slash is looked for in the directories of the variable `PATH`.
-/

namespace TestOrchestrator

/-- A program that can be run. -/
structure Image where
  /-- The program and its arguments. -/
  words : List OsText
  /-- The directory that it is run in. -/
  cwd : List OsText

namespace Tree

/-- The bytes that a compiled program begins with. -/
def compiledMark : List UInt8 := [0x7F, 0x45, 0x4C, 0x46]

/-- The words of the first line of a script behind its mark: a program and at most one argument. -/
def scriptLine? (content : List UInt8) : Option (List OsText) :=
  match content with
  | 35 :: 33 :: bytes =>
    let isSpace (b : UInt8) : Bool := b = 32 || b = 9
    let line := (bytes.takeWhile (· ≠ 10)).dropWhile isSpace
    let program := line.takeWhile (!isSpace ·)
    let argument := ((line.drop program.length).dropWhile isSpace)
    let trimmed := (argument.reverse.dropWhile isSpace).reverse
    if program = [] then none
    else some (⟨program⟩ :: if trimmed = [] then [] else [⟨trimmed⟩])
  | _ => none

/-- The executable file at a path. -/
def executable? (t : Tree) (p : Path) : Except OsError (List UInt8) :=
  if p.text = "" then .error .notFound
  else
    match t.find? p.steps with
    | .ok (_, .file content true) => .ok content
    | .ok _ => .error .permission
    | .error why => .error why

/-- Whether a search goes on behind a directory. -/
def goesOn : OsError → Bool
  | .notFound | .notDirectory | .permission => true
  | _ => false

/-- The first executable file of some paths. Where none is found, one without permission counts more
than one that is missing. -/
def search? (t : Tree) : List Path → OsError → Except OsError (Path × List UInt8)
  | [], why => .error why
  | p :: ps, why =>
    match t.executable? p with
    | .ok content => .ok (p, content)
    | .error e =>
      if goesOn e then search? t ps (if e = .permission then e else why) else .error e

/-- Where the program of a command may be. -/
def places (c : Command) : List Path :=
  if c.program.bytes.contains Byte.slash || c.program.text = "" then [c.program]
  else
    let dirs := Text.splitOn Byte.colon ((c.envVars.get? "PATH").getD "/bin:/usr/bin").bytes
    dirs.map fun d => Path.join ⟨⟨d⟩⟩ c.program

/-- The words to run a file with: the file itself, or the program that its first line names. -/
def words? (t : Tree) (p : Path) (content : List UInt8) (args : List OsText) :
    Except OsError (List OsText) :=
  if content.take 4 = compiledMark then .ok (p.text :: args)
  else
    match scriptLine? content with
    | none => .error .noProgram
    | some line => do
      let _ ← t.executable? ⟨line.headD ""⟩
      return line ++ p.text :: args

/-- Finds the program of a command. -/
def start? (t : Tree) (c : Command) : Except StartFault Image :=
  if c.cutShort then .error .cutShort
  else
    let found : Except OsError Image := do
      let (cwd, _) ← if c.cwd.text = "" then .error .notFound
        else t.find? { c.cwd.steps with directory := true }
      let t := { t with cwd }
      let places := places c
      let (p, content) ←
        match places with
        | [p] => do pure (p, ← t.executable? p)
        | ps => t.search? ps .notFound
      return ⟨← t.words? p content c.args, cwd⟩
    found.mapError .refused

end Tree

end TestOrchestrator
