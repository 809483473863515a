import TestOrchestrator.Program
import TestOrchestrator.Path
import TestOrchestrator.Shell
import TestOrchestrator.Text.Split
/-!
# Running shell scripts

* `Shell.State` is where a script stands: its variables and arguments, what it printed, the status
  of its last command and, once it has ended, how.
* `Shell.runScript` runs a script. The commands are those that are built in; no other program is
  started.
-/

namespace TestOrchestrator.Shell

/-- Where a script stands. -/
structure State where
  envVars : Table String
  /-- The name of the script. -/
  name : String
  args : List String
  cwd : String
  status : Nat := 0
  stdout : List UInt8 := []
  stderr : List UInt8 := []
  ending : Option Ending := none

namespace State

/-- Prints a text. -/
def print (s : State) (sink : Sink) (cs : List Char) : State :=
  match sink with
  | .out => { s with stdout := s.stdout ++ Text.Utf8.encode cs }
  | .err => { s with stderr := s.stderr ++ Text.Utf8.encode cs }
  | .nowhere => s

/-- What a script leaves behind. -/
def toOutput (s : State) : Output := ⟨s.stdout, s.stderr, s.ending.getD (.exited s.status)⟩

/-- The value of a parameter that stands for one text. -/
def value (s : State) (name : List Char) : String :=
  match name with
  | ['#'] => toString s.args.length
  | ['?'] => toString s.status
  | ['$'] => "1"
  | ['0'] => s.name
  | [c] =>
    if c.isDigit then (s.args[c.toNat - 49]?).getD
      "" else (s.envVars.get? (String.ofList [c])).getD ""
  | name =>
    let word := name.takeWhile isNameChar
    let value := (s.envVars.get? (String.ofList word)).filter (· ≠ "")
    match name.drop word.length with
    | ':' :: '-' :: default => value.getD (String.ofList default)
    | _ => value.getD ""

end State

/-! ## Expansion -/

/-- A part of a word after its expansions. -/
inductive Chunk where
  | text (quoted : Bool) (cs : List Char)
  /-- A new field begins here. -/
  | cut

/-- Takes a part into the fields; the first component is the field at hand, if it has begun. -/
def joinChunk (fs : Option (List Char) × List (List Char)) (c : Chunk) :
    Option (List Char) × List (List Char) :=
  match c with
  | .cut => (none, fs.2 ++ fs.1.toList)
  | .text true cs => (some (fs.1.getD [] ++ cs), fs.2)
  | .text false cs =>
    cs.foldl (fun fs c =>
      if c = ' ' || c = '\t' || c = '\n' then (none, fs.2 ++ fs.1.toList)
      else (some (fs.1.getD [] ++ [c]), fs.2)) fs

/-- The fields that the parts of a word make. -/
def fields (cs : List Chunk) : List (List Char) :=
  let (last, before) := cs.foldl joinChunk (none, [])
  before ++ last.toList

/-- The arguments as parts of a word. -/
def argumentChunks (quoted : Bool) (args : List String) : List Chunk :=
  (args.map fun a => Chunk.text quoted a.toList).intersperse .cut

/-- The parts of an expanded word; `run` gives the output of a script. -/
def chunks (run : List Char → List Char) (s : State) (w : Word) : List Chunk :=
  w.flatMap fun
    | .text quoted cs => [.text quoted cs]
    | .parameter quoted ['@'] => argumentChunks quoted s.args
    | .parameter true ['*'] => [.text true (Text.joined " " s.args).toList]
    | .parameter false ['*'] => argumentChunks false s.args
    | .parameter quoted name => [.text quoted (s.value name).toList]
    | .output quoted script => [.text quoted (run script)]

/-- A word as one text. -/
def asText (run : List Char → List Char) (s : State) (w : Word) : List Char :=
  (chunks run s w).flatMap fun
    | .text _ cs => cs
    | .cut => [' ']

/-- The name and the value of a word that sets a variable. -/
def assignment? : Word → Option (List Char × Word)
  | .text false cs :: ps =>
    let name := cs.takeWhile isNameChar
    match cs.drop name.length with
    | '=' :: rest =>
      if name ≠ [] && !(name.head?.any Char.isDigit) then some
        (name, .text false rest :: ps) else none
    | _ => none
  | _ => none

/-! ## Built-in commands -/

/-- The number of a word, 2 if it is none. -/
def statusOf (cs : List Char) : Nat := ((String.ofList cs).toNat?.map (· % 256)).getD 2

/-- Text with the backslash sequences for a line feed, a tab and a backslash replaced. -/
def unescape : List Char → List Char
  | '\\' :: 'n' :: cs => '\n' :: unescape cs
  | '\\' :: 't' :: cs => '\t' :: unescape cs
  | '\\' :: '\\' :: cs => '\\' :: unescape cs
  | c :: cs => c :: unescape cs
  | [] => []

/-- Prints the arguments with spaces between. -/
def echo (s : State) (sink : Sink) (args : List (List Char)) : State :=
  let (args, ending) :=
    match args with
    | ['-', 'n'] :: args => (args, [])
    | args => (args, ['\n'])
  { s.print sink (unescape (Text.join [' '] args) ++ ending) with status := 0 }

/-- Runs a built-in command. -/
def builtin (s : State) (c : Simple) (name : List Char) (args : List (List Char)) : State :=
  match String.ofList name with
  | "echo" => echo s c.out args
  | "printf" => { s.print c.out (unescape (args.headD [])) with status := 0 }
  | "pwd" => { s.print c.out (s.cwd.toList ++ ['\n']) with status := 0 }
  | "true" => { s with status := 0 }
  | ":" => { s with status := 0 }
  | "false" => { s with status := 1 }
  | "exit" => { s with ending := some (.exited ((args.head?.map statusOf).getD s.status)) }
  | "kill" =>
    if args.contains ['1'] then { s with ending := some .killed } else { s with status := 1 }
  | "shift" => { s with args := s.args.drop 1, status := 0 }
  | _ =>
    { s.print c.err ((s.name ++ ": " ++ toString c.line ++ ": ").toList ++ name ++
      ": not found\n".toList)
      with status := 127 }

/-- Sets variables by the words at the front of a command that do so, and gives the other words. -/
def assign (run : List Char → List Char) : List Word → State → List Word × State
  | [], s => ([], s)
  | w :: ws, s =>
    match assignment? w with
    | some (name, value) =>
      assign run ws { s with
        envVars := s.envVars.insert (String.ofList name) (String.ofList (asText run s value))
        status := 0 }
    | none => (w :: ws, s)

/-- Runs a simple command, if its condition holds. -/
def runSimple (run : State → List Char → List Char) (s : State) (c : Simple) : State :=
  let skipped :=
    match c.condition with
    | .always => false
    | .success => s.status ≠ 0
    | .failure => s.status = 0
  if s.ending.isSome || skipped || c.words.isEmpty then s
  else
    let (words, s) := assign (run s) c.words s
    match words.flatMap fun w => fields (chunks (run s) s w) with
    | [] => s
    | name :: args =>
      if name = "export".toList then
        (assign (run s) (words.drop 1) { s with status := 0 }).2
      else builtin s c name args

/-- Runs a script; `depth` scripts may be inside one another. -/
def runScript : Nat → State → List Char → State
  | 0, s, _ => s
  | depth + 1, s, script =>
    let output (s : State) (script : List Char) : List Char :=
      let inner := runScript depth { s with stdout := [], stderr := [] } script
      ((Text.Utf8.decodeLossy inner.stdout).reverse.dropWhile (· = '\n')).reverse
    (parse script).foldl (runSimple output) s

/-- The output of a script. -/
def run (envVars : Table String) (cwd : String) (name : String) (args : List String)
    (script : List Char) : Output :=
  (runScript (script.length + 1) { envVars, name, args, cwd } script).toOutput

end TestOrchestrator.Shell
