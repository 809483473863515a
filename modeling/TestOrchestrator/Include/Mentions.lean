import TestOrchestrator.Include
/-!
# The files that a document names

* `Include.mentions v` is the names of all files that directives in `v` ask for.
* `Include.candidates` is where those files may be.
-/

namespace TestOrchestrator.Include

open Yaml

mutual

/-- The names of the files that directives ask for. -/
def mentions : Value → List String
  | .seq items => itemMentions items
  | .map entries => entryMentions entries
  | .tagged _ v => mentions v
  | _ => []

/-- The files that the items of a sequence ask for. -/
def itemMentions : List Value → List String
  | [] => []
  | v :: vs => mentions v ++ itemMentions vs

/-- The files that the entries of a mapping ask for. -/
def entryMentions : Value.Entries → List String
  | [] => []
  | (k, v) :: es =>
    (match isDirective k, v with
      | true, .str name => [name]
      | _, v => mentions v) ++ entryMentions es

end

/-- Where the files that a text asks for may be. -/
def candidates (dirs : List Path) (bytes : List UInt8) : List Path :=
  (((Value.ofBytes? bytes).map mentions).getD []).flatMap fun (name : String) =>
    let path : Path := ⟨name⟩
    if path.isAbsolute then [path] else dirs.map fun d => d.join path

end TestOrchestrator.Include
