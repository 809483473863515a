import TestOrchestrator.Definition.Yaml
import TestOrchestrator.Include
import TestOrchestrator.Parameters
import TestOrchestrator.Text.Blank
/-!
# From parameters to a definition

* `resolve` finds the run directory and the run file, expands and reads the file and checks what it
  holds.
* `ResolvedRun` is the definition with the paths that it was found by. The run directory is
  canonical; the other paths are absolute.

A tilde that begins a path stands for the home directory.
-/

namespace TestOrchestrator

/-! ## Errors -/

/-- Why a path cannot be used. -/
inductive PathFault where
  | refused (why : OsError)
  | notADirectory
  | empty
  deriving DecidableEq

/-- The wording of a fault. -/
def PathFault.message : PathFault → String
  | refused why => why.message
  | notADirectory => "not a directory"
  | empty => "cannot make an empty path absolute"

/-- What is wrong with a definition. -/
inductive DefinitionFault where
  | blankName
  | blankPath (test : String)
  deriving DecidableEq

/-- The wording of a fault. -/
def DefinitionFault.message : DefinitionFault → String
  | blankName => "run name is empty"
  | blankPath test => "test '" ++ test ++ "' has no path"

/-- Why parameters lead to no definition. -/
inductive ConfigError where
  | missingDirectory
  | missingFilename
  | path (p : Path) (why : PathFault)
  | read (file : Path) (why : OsError)
  | expansion (e : IncludeError)
  /-- The expanded text holds no definition. -/
  | parse
  | invalid (why : DefinitionFault)
  deriving DecidableEq

/-- The wording of an error. -/
def ConfigError.message : ConfigError → String
  | missingDirectory => "run parameters have no directory"
  | missingFilename => "run parameters have no run file"
  | path p why => "failed to resolve path " ++ p.shown ++ ": " ++ why.message
  | read file why => "failed to read run file " ++ file.shown ++ ": " ++ why.message
  | expansion e => "failed to process includes: " ++ e.message
  | parse => "run file parse error: " ++ Yaml.refusal
  | invalid why => "invalid run definition: " ++ why.message

/-! ## Paths -/

/-- A path with the home directory for a tilde at its front. -/
def Path.expandHome (home : Option Path) (p : Path) : Path :=
  match p.afterTilde?, home with
  | some rest, some home => home.join rest
  | _, _ => p

/-- The absolute form of a path. -/
def absolute (fs : FileSystem) (p : Path) : Except ConfigError Path :=
  match Path.absolute? fs.cwd p with
  | some q => .ok q
  | none => .error (.path p .empty)

/-- The canonical form of a directory. -/
def canonicalDirectory (fs : FileSystem) (p : Path) : Except ConfigError Path :=
  match fs.canonical? p with
  | .error why => .error (.path p (.refused why))
  | .ok q => if fs.isDir q then .ok q else .error (.path p .notADirectory)

/-- Paths with one more at the end, unless the same one is there. -/
def addPath (ps : List Path) (p : Path) : List Path := if ps.any p.same then ps else ps ++ [p]

/-! ## Definitions -/

/-- A definition that has a name and whose tests all have a path. -/
def checked (d : Definition) : Except ConfigError Definition :=
  if Text.allBlank d.name then .error (.invalid .blankName)
  else
    match d.tests.entries.find? fun t => Text.allBlank t.2.path with
    | some t => .error (.invalid (.blankPath t.1))
    | none => .ok d

/-- A definition and the paths that it was found by. -/
structure ResolvedRun where
  definition : Definition
  /-- The run directory. -/
  baseDir : Path
  /-- Where included files were looked for, in order. -/
  includeDirs : List Path
  runFile : Path

/-- Where included files are looked for: the given directories, the run directory, the directory of
the run file. -/
def searchPath (fs : FileSystem) (home : Option Path) (given : List Path) (baseDir runFile : Path) :
    Except ConfigError (List Path) := do
  let dirs ← given.mapM fun d => absolute fs (d.expandHome home)
  return (dirs ++ [baseDir, runFile.parent?.getD baseDir]).foldl addPath []

/-- Finds and reads the definition that parameters name. -/
def resolve (fs : FileSystem) (home : Option Path) (p : Parameters) :
    Except ConfigError ResolvedRun := do
  let some dir := p.dir | .error .missingDirectory
  let some filename := p.filename | .error .missingFilename
  let baseDir ← canonicalDirectory fs (dir.expandHome home)
  let runFile ← absolute fs (filename.expandHome home)
  let raw ← (fs.read? runFile).mapError (.read runFile)
  let includeDirs ← searchPath fs home p.includeDirs baseDir runFile
  let text ← (Include.expand fs includeDirs raw).mapError .expansion
  match Definition.ofYaml? (Text.Utf8.encode text) with
  | none => .error .parse
  | some d => return { definition := ← checked d, baseDir, includeDirs, runFile }

end TestOrchestrator
