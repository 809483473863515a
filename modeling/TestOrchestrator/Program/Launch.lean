import TestOrchestrator.Program.Start
import TestOrchestrator.Shell.Run
/-!
# Running programs of a tree

* `Tree.launch?` starts the program of a command and gives its output. The programs that can be run
  are the shell and the scripts for it.
-/

namespace TestOrchestrator

namespace Tree

/-- The names of the shell. -/
def isShell (program : OsText) : Bool :=
  (Path.steps ⟨program⟩).names.getLast?.any fun name =>
    (["sh", "dash", "bash"] : List OsText).contains name

/-- The output of the shell when it cannot open a script. -/
def cannotOpen (shell script : OsText) : Output :=
  { stdout := []
    stderr := (shell ++ ": 0: cannot open " ++ script ++ ": No such file\n").bytes
    ending := .exited 2 }

/-- The variables of the shell. Its scripts work on texts. -/
def shellVariables (e : Environ) : Table String :=
  .ofList (e.table.entries.map fun (name, value) => (name, value.shown))

/-- The output of the shell for a script and its arguments. -/
def runShell (t : Tree) (i : Image) (e : Environ) (shell : OsText) : List OsText → Output
  | [] => ⟨[], [], .exited 0⟩
  | script :: args =>
    match ({ t with cwd := i.cwd }.find? (Path.steps ⟨script⟩)) with
    | .ok (_, .file content _) =>
      Shell.run (shellVariables e) (pathOf i.cwd).shown script.shown (args.map OsText.shown)
        (Text.Utf8.decodeLossy content)
    | _ => cannotOpen shell script

/-- The output of the program of a command. -/
def launch? (t : Tree) (c : Command) : Except StartFault Output := do
  let i ← t.start? c
  match i.words with
  | program :: args =>
    if isShell program then return t.runShell i c.environ program args
    else .error (.refused .noProgram)
  | [] => .error (.refused .notFound)

/-- The launcher that takes programs from a tree; all are done in no time. -/
def launcher (t : Tree) : Launcher Unit where
  launch c s := ((t.launch? c).map fun o => ⟨o, .zero⟩, s)

end Tree

end TestOrchestrator
