import Std.Time.Zoned
import TestOrchestrator.Application
import TestOrchestrator.CommandLine.Usage
import TestOrchestrator.Include.Mentions
import TestOrchestrator.Program.Launch
/-!
# The command

Reads the files that a run needs, runs it and prints its report. The files are the run file, those
that it includes in turn, and the programs of its tests.
-/

namespace TestOrchestrator.Main

/-! ## Surroundings -/

/-- The current moment. -/
def currentMoment : IO Timestamp := do
  let t := Std.Time.DateTime.ofTimestamp (← Std.Time.Timestamp.now) Std.Time.TimeZone.ZoneRules.UTC
  return ⟨t.year, t.month.val.toNat, t.day.val.toNat, t.hour.val.toNat, t.minute.val.toNat,
    t.second.val.toNat, t.nanosecond.val.toNat⟩

/-- The environment; each entry ends with the byte 0. -/
def currentEnviron : IO Environ := do
  let bytes ← try IO.FS.readBinFile "/proc/self/environ" catch _ => pure .empty
  return ⟨(Text.splitOn Byte.nul bytes.toList).dropLast.map OsText.mk⟩

/-! ## Files -/

/-- The place of an absolute path. -/
def placeOf (p : Path) : List OsText := p.steps.names

/-- What is at a path: an entry for it and, if links lead there, one for the end of the way. -/
def entriesAt (p : Path) : IO (List (List OsText × Entry)) := do
  try
    let real : Path := .ofText (toString (← IO.FS.realPath p.shown))
    let entry ←
      try pure (Entry.file (← IO.FS.readBinFile real.shown).toList true)
      catch _ => pure .directory
    let found := (placeOf real, entry)
    return if placeOf p = placeOf real then [found] else [found, (placeOf p, .link real)]
  catch _ => return []

/-- A tree with one more path, if there is something at it. -/
def addPath (t : Tree) (p : Path) : IO Tree := do
  let found ← entriesAt p
  let parents := found.flatMap fun (place, _) =>
    (List.range place.length).map fun n => (place.take n, Entry.directory)
  return { t with entries := t.entries ++ found ++ parents }

/-- The bytes of the file at a path of a tree. -/
def contentOf (t : Tree) (p : Path) : List UInt8 := (t.toFileSystem.read? p).toOption.getD []

/-- A tree with the files that a run file includes. -/
def withDocuments (dirs : List Path) (runFile : Path) (t : Tree) : IO Tree := do
  let mut t := t
  let mut files := [runFile]
  for _ in [0:Include.maxDepth] do
    let wanted := (files.flatMap fun p => Include.candidates dirs (contentOf t p)).eraseDups
    for p in wanted do
      t ← addPath t p
    files := wanted
  return t

/-- A tree with all that parameters ask for. -/
def gather (home : Option Path) (cwd : Path) (p : Parameters) : IO Tree := do
  let here (q : Path) : Path := cwd.join (q.expandHome home)
  let t : Tree := ⟨placeOf cwd, []⟩
  let mut t ← addPath t cwd
  for dir in p.dir.toList ++ p.includeDirs do
    t ← addPath t (here dir)
  match p.filename with
  | none => return t
  | some file =>
    let runFile := here file
    t ← addPath t runFile
    let dirs := (p.includeDirs ++ p.dir.toList).map here ++ runFile.parent?.toList
    t ← withDocuments dirs runFile t
    match resolve t.toFileSystem home p with
    | .error _ => return t
    | .ok r =>
      for (_, spec) in r.definition.tests.entries do
        t ← addPath t (r.baseDir.join ⟨spec.path⟩)
      return t

/-! ## Running -/

/-- The parameters that the words and variables ask for, or none at all. -/
def parametersOf (environ : Environ) (words : List String) : Parameters × Option Path :=
  match understand environ words with
  | .error _ => ({}, none)
  | .ok (args, p) => (p, args.interpreter)

/-- What is said about an end that is no success. -/
def complaint : Exit → String
  | .usage e => e.message
  | .refused why => why
  | .failed e => e.message
  | .done => ""

/-- Runs what the words ask for, prints the report and gives the exit status. -/
def runWords (words : List String) : IO UInt32 := do
  let start ← IO.monoNanosNow
  let environ ← currentEnviron
  let cwd : Path := .ofText (toString (← IO.currentDir))
  let home := ((environ.value? "HOME").filter (·.bytes ≠ [])).map Path.mk
  if let some (_, lines) := opening environ words then
    for line in lines do
      IO.eprintln (LogLevel.debug.word ++ " " ++ line)
  let (p, interpreter) := parametersOf environ words
  let mut files ← gather home cwd p
  for program in interpreter.toList ++ [⟨"/bin/sh"⟩] do
    files ← addPath files (cwd.join program)
  let now ← currentMoment
  let elapsed := (Duration.ofNanos? ((← IO.monoNanosNow) - start)).getD .zero
  let world : World Unit :=
    { files := files.toFileSystem, home, environ, launcher := files.launcher, state := (), now,
      elapsed }
  let (exit, out) := world.run .unlimited () words
  match exit with
  | .usage .help => IO.print CommandLine.usageText
  | .usage .version => IO.print CommandLine.versionText
  | .done => pure ()
  | _ => IO.eprintln (complaint exit)
  try
    let stdout ← IO.getStdout
    stdout.write ⟨out.toArray⟩
    stdout.flush
    return exit.status.toUInt32
  catch _ => return 1

end TestOrchestrator.Main

/-- Runs what the words of the command line ask for. -/
def main (words : List String) : IO UInt32 := TestOrchestrator.Main.runWords words
