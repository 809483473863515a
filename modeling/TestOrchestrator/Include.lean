import TestOrchestrator.FileSystem
import TestOrchestrator.Yaml.Value.Printer
import TestOrchestrator.Yaml.Value.Reader
/-!
# Included documents

A mapping with the key `include` stands for the document in the file that it names. Its other keys
go before those of the document, which must then be a mapping. An item of a sequence that has no
other key stands for all the items of the document, if that is a sequence.

* `Include.expandValue load` puts documents in, given how to load one; `Include.load` loads a
  document and all that it includes in turn.
* `Include.expand` does so for a text and writes the result again.

Files are looked for in a list of directories; the first one that has the file counts.
-/

namespace TestOrchestrator

open Yaml

/-- Why a text could not be expanded. -/
inductive IncludeError where
  | notFound (name : String)
  | cycle (file : Path)
  | tooDeep (levels : Nat)
  /-- The key does not name a file. -/
  | invalidDirective
  /-- There are other keys, but the document is no mapping. -/
  | merge (name : String)
  | read (file : Path) (why : OsError)
  | yaml (origin : String)
  deriving DecidableEq

/-- What is said about a document that cannot be read or written. -/
def Yaml.refusal : String := "not a valid YAML document"

/-- The wording of an error. -/
def IncludeError.message : IncludeError → String
  | notFound name => "included file not found in include path: " ++ name
  | cycle file => "include cycle through " ++ file.shown
  | tooDeep levels => "includes nested deeper than " ++ toString levels ++ " levels"
  | invalidDirective => "include directive must name a file"
  | merge name => "cannot merge keys into non-mapping include " ++ name
  | read file why => "failed to read " ++ file.shown ++ ": " ++ why.message
  | yaml origin => "YAML error in " ++ origin ++ ": " ++ Yaml.refusal

namespace Include

/-! ## Directives -/

/-- The key of a directive. -/
def keyword : String := "include"

/-- Whether a key is that of a directive; tags make no difference. -/
def isDirective : Value → Bool
  | .str s => s = keyword
  | .tagged _ v => isDirective v
  | _ => false

/-- The value of the last directive among the entries of a mapping. -/
def target? (entries : Value.Entries) : Option Value :=
  (entries.reverse.find? fun e => isDirective e.1).map (·.2)

/-- Whether a value is a directive and nothing else. -/
def isBare : Value → Bool
  | .map [(.str s, _)] => s = keyword
  | _ => false

/-- The items that an expanded item of a sequence stands for. -/
def spliced (bare : Bool) : Value → List Value
  | .seq items => if bare then items else [.seq items]
  | v => [v]

/-- A loaded document with the other entries of the mapping that includes it. -/
def merged (name : String) (included : Value) (others : Value.Entries) :
    Except IncludeError Value :=
  if others.isEmpty then .ok included
  else
    match included with
    | .map entries => .ok (.map (others.foldl (fun es e => Value.put e.1 e.2 es) entries))
    | _ => .error (.merge name)

/-! ## Expansion -/

section

variable (load : String → Except IncludeError Value)

/-- Follows the directive of a mapping whose other entries are expanded. -/
def follow (target : Option Value) (others : Value.Entries) : Except IncludeError Value :=
  match target with
  | none => .ok (.map others)
  | some (.str name) => do merged name (← load name) others
  | some _ => .error .invalidDirective

mutual

/-- Puts the included documents into a value. -/
def expandValue : Value → Except IncludeError Value
  | .seq items => do return .seq (← expandItems items)
  | .map entries => do follow load (target? entries) (← expandEntries entries)
  | .tagged name v => do return .tagged name (← expandValue v)
  | v => .ok v

/-- Puts the included documents into the items of a sequence. -/
def expandItems : List Value → Except IncludeError (List Value)
  | [] => .ok []
  | v :: vs => do
    let w ← expandValue v
    return spliced (isBare v) w ++ (← expandItems vs)

/-- Puts the included documents into the values of a mapping, leaving out the directives. -/
def expandEntries : Value.Entries → Except IncludeError Value.Entries
  | [] => .ok []
  | (k, v) :: es =>
    if isDirective k then expandEntries es
    else do
      let w ← expandValue v
      return (k, w) :: (← expandEntries es)

end

end

/-! ## Files -/

/-- The path of an included file: an absolute one as it is, others in the first directory that has
the file. -/
def locate (fs : FileSystem) (dirs : List Path) (name : String) : Except IncludeError Path :=
  let path : Path := ⟨name⟩
  let candidates := if path.isAbsolute then [path] else dirs.map fun d => d.join path
  match candidates.find? fs.isFile with
  | some p => .ok p
  | none => .error (.notFound name)

/-- How deep inclusion goes. -/
def maxDepth : Nat := 32

/-- The canonical path of an included file; it must not be one of those being expanded. -/
def enter (fs : FileSystem) (dirs : List Path) (open_ : List Path) (name : String) :
    Except IncludeError Path := do
  let path ← locate fs dirs name
  match fs.canonical? path with
  | .error why => .error (.read path why)
  | .ok file => if open_.any file.same then .error (.cycle file) else .ok file

/-- The value of the document in a file. -/
def readDocument (fs : FileSystem) (file : Path) : Except IncludeError Value :=
  match fs.read? file with
  | .error why => .error (.read file why)
  | .ok bytes =>
    match Value.ofBytes? bytes with
    | some v => .ok v
    | none => .error (.yaml file.shown)

/-- The expanded document in a file. `open_` are the files being expanded, at most `levels` more may
be. -/
def load (fs : FileSystem) (dirs : List Path) : Nat → List Path → String →
    Except IncludeError Value
  | 0, _, _ => .error (.tooDeep maxDepth)
  | levels + 1, open_, name => do
    let file ← enter fs dirs open_ name
    let v ← readDocument fs file
    expandValue (load fs dirs levels (file :: open_)) v

/-- The expanded value of a text. -/
def expandedValue (fs : FileSystem) (dirs : List Path) (bytes : List UInt8) :
    Except IncludeError Value :=
  match Value.ofBytes? bytes with
  | none => .error (.yaml "run file")
  | some v => expandValue (load fs dirs maxDepth []) v

/-- The expanded text. -/
def expand (fs : FileSystem) (dirs : List Path) (bytes : List UInt8) :
    Except IncludeError (List Char) := do
  let v ← expandedValue fs dirs bytes
  match v.render? with
  | some text => .ok text
  | none => .error (.yaml "expanded run file")

end Include

end TestOrchestrator
