import TestOrchestrator.Yaml.Scalar
/-!
# Documents as trees

* `Node` is a scalar, a sequence, a mapping, or an alias for a node that has an anchor. What a
  scalar stands for is not decided yet.
* `Document` is the tree of a text. `Document.anchor? d a` is the node that has the anchor `a`.

Anchors are numbered, and an alias knows the number only. Two anchors can have the same number; then
the later one in the text counts, for the aliases before it too.
-/

namespace TestOrchestrator.Yaml

/-- What can stand before a node. -/
structure Properties where
  anchor : Option Nat := none
  tag : Option (List UInt8) := none
  deriving DecidableEq

/-- A part of a document. -/
inductive Node where
  | aliasTo (anchor : Nat)
  | scalar (props : Properties) (style : Style) (text : List Char)
  | sequence (props : Properties) (items : List Node)
  | mapping (props : Properties) (entries : List (Node × Node))

namespace Node

/-- A node that is not written. -/
def blank (props : Properties) : Node := .scalar props .plain []

/-- What stands before a node. -/
def props : Node → Properties
  | aliasTo _ => {}
  | scalar p .. => p
  | sequence p _ => p
  | mapping p _ => p

/-- A node with its anchor, if it has one. -/
def ownAnchor (n : Node) : List (Nat × Node) :=
  match n.props.anchor with
  | some a => [(a, n)]
  | none => []

mutual

/-- The nodes with anchors, in the order in which they begin. -/
def anchored : Node → List (Nat × Node)
  | sequence p items => ownAnchor (.sequence p items) ++ anchoredItems items
  | mapping p entries => ownAnchor (.mapping p entries) ++ anchoredEntries entries
  | n => ownAnchor n

/-- The nodes with anchors in a sequence. -/
def anchoredItems : List Node → List (Nat × Node)
  | [] => []
  | n :: ns => anchored n ++ anchoredItems ns

/-- The nodes with anchors in a mapping. -/
def anchoredEntries : List (Node × Node) → List (Nat × Node)
  | [] => []
  | (k, v) :: es => anchored k ++ anchored v ++ anchoredEntries es

end

mutual

/-- How many marks a node needs: one for a leaf, two more around a collection. -/
def size : Node → Nat
  | sequence _ items => 2 + sizeItems items
  | mapping _ entries => 2 + sizeEntries entries
  | _ => 1

/-- The size of the items of a sequence. -/
def sizeItems : List Node → Nat
  | [] => 0
  | n :: ns => size n + sizeItems ns

/-- The size of the entries of a mapping. -/
def sizeEntries : List (Node × Node) → Nat
  | [] => 0
  | (k, v) :: es => size k + size v + sizeEntries es

end

end Node

/-- The tree of a text. -/
structure Document where
  root : Node
  /-- The nodes with anchors, the last one first. -/
  anchors : List (Nat × Node)

namespace Document

/-- The document with a tree. -/
def ofNode (root : Node) : Document := ⟨root, root.anchored.reverse⟩

/-- The node with an anchor. -/
def anchor? (d : Document) (a : Nat) : Option Node := d.anchors.lookup a

/-- How often aliases of a document may be followed. -/
def aliasLimit (d : Document) : Nat := d.root.size * 100

end Document

end TestOrchestrator.Yaml
