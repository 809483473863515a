import TestOrchestrator.OsText
/-!
# Paths

A path is a text of the operating system; what it names depends on its components only.

* `Path.components p` leaves out repeated slashes, a slash at the end and the dots for the directory
  itself, but for one at the front.
* `Path.same p q` says that two paths have the same components.
* `Path.join p q` is `q` seen from `p`; `Path.parent? p` is the directory that holds `p`.
* `Path.steps p` is what a look-up in a file system needs of `p`.
-/

namespace TestOrchestrator

open Byte (dot slash tilde)

/-- A path by its bytes. -/
structure Path where
  text : OsText
  deriving DecidableEq

namespace Path

/-- The bytes of a path. -/
def bytes (p : Path) : List UInt8 := p.text.bytes

/-- The path as messages show it. -/
def shown (p : Path) : String := p.text.shown

/-- The path that a text spells. -/
def ofText (s : String) : Path := ⟨s⟩

/-- The pieces of a path between its slashes, the empty ones left out. -/
def pieces : List UInt8 → List (List UInt8)
  | [] => []
  | b :: bs =>
    if b = slash then pieces bs
    else
      match bs, pieces bs with
      | c :: _, p :: ps => if c = slash then [b] :: p :: ps else (b :: p) :: ps
      | _, ps => [b] :: ps

/-- Paths that begin with a slash are absolute. -/
def isAbsolute (p : Path) : Bool := p.bytes.head? = some slash

/-- A part of a path. -/
inductive Component where
  | root
  /-- The dot at the front of a relative path. -/
  | here
  | name (s : List UInt8)
  deriving DecidableEq

/-- The parts of a path. -/
def components (p : Path) : List Component :=
  let ps := pieces p.bytes
  let names := (ps.filter (· ≠ [dot])).map Component.name
  if p.isAbsolute then .root :: names
  else if ps.head? = some [dot] then .here :: names
  else names

/-- Equality by components. -/
def same (p q : Path) : Bool := p.components = q.components

/-- The path `q` seen from `p`. -/
def join (p q : Path) : Path :=
  if q.isAbsolute then q
  else if p.bytes = [] ∨ p.bytes.getLast? = some slash then ⟨p.text ++ q.text⟩
  else ⟨p.text ++ "/" ++ q.text⟩

/-- What is left of a path without the slashes, and the dots between slashes, at its end. -/
def dropEmptyEnd (bs : List UInt8) : List UInt8 :=
  go bs.length bs.reverse
where
  /-- Works on the reversed path. -/
  go : Nat → List UInt8 → List UInt8
    | 0, r => r.reverse
    | fuel + 1, slash :: r => go fuel r
    | fuel + 1, dot :: slash :: r => go fuel (slash :: r)
    | _ + 1, r => r.reverse

/-- The directory that holds a path. The root and the empty path have none. -/
def parent? (p : Path) : Option Path :=
  match p.components.getLast? with
  | none => none
  | some .root => none
  | some .here => some ⟨""⟩
  | some (.name s) =>
    let bs := dropEmptyEnd p.bytes
    let rest := dropEmptyEnd (bs.take (bs.length - s.length))
    if rest = [] ∧ p.isAbsolute then some ⟨"/"⟩ else some ⟨⟨rest⟩⟩

/-- The part of a path after its first component, when that is the tilde. -/
def afterTilde? (p : Path) : Option Path :=
  match p.components with
  | .name [tilde] :: _ =>
    some ⟨⟨dropEmptyFront p.bytes.length (dropEmptyEnd (p.bytes.drop 1))⟩⟩
  | _ => none
where
  /-- What is left without the slashes and single dots at the front. -/
  dropEmptyFront : Nat → List UInt8 → List UInt8
    | 0, bs => bs
    | fuel + 1, slash :: bs => dropEmptyFront fuel bs
    | _ + 1, [dot] => []
    | fuel + 1, dot :: slash :: bs => dropEmptyFront fuel bs
    | _ + 1, bs => bs

/-- The path without the need of a current directory, which is `cwd`. Dots for the directory itself
and repeated slashes go; two slashes at the front and one at the end stay. The empty path has no
such form. -/
def absolute? (cwd p : Path) : Option Path :=
  if p.text = "" then none
  else
    let names := p.components.filterMap fun
      | .name s => some (⟨⟨s⟩⟩ : Path)
      | _ => none
    let start : Path :=
      match p.bytes with
      | slash :: slash :: slash :: _ => ⟨"/"⟩
      | slash :: slash :: _ => ⟨"//"⟩
      | slash :: _ => ⟨"/"⟩
      | _ => cwd
    let full := names.foldl join start
    some (if p.bytes.getLast? = some slash then full.join ⟨""⟩ else full)

/-! ## Look-ups -/

/-- What a look-up goes by: where it starts, the names on the way, and whether the end of the way
must be a directory. -/
structure Steps where
  absolute : Bool
  names : List OsText
  directory : Bool
  deriving DecidableEq

/-- The way that a path describes. -/
def steps (p : Path) : Steps :=
  let ps := pieces p.bytes
  { absolute := p.isAbsolute
    names := (ps.filter (· ≠ [dot])).map OsText.mk
    directory := p.bytes.getLast? = some slash || ps.getLast? = some [dot] }

end Path

end TestOrchestrator
