import TestOrchestrator.Decimal.Binary64
/-!
# YAML values

* `Value` is what a document stands for once tags, aliases and plain text are resolved. A mapping
  keeps the order of its entries.
* `Value.same` is the equality by which the keys of a mapping are told apart: it does not look at
  the order of entries.
* `Value.member?` and `Value.put` look a key up in the entries of a mapping and set it there.
-/

namespace TestOrchestrator.Yaml

open Decimal

/-- A value. -/
inductive Value where
  | null
  | bool (b : Bool)
  | int (n : Int)
  | float (x : Binary64)
  | str (s : String)
  | seq (items : List Value)
  | map (entries : List (Value × Value))
  /-- A value under a tag of its own; the name has no exclamation mark in front, unless it is
  one. -/
  | tagged (name : String) (value : Value)

namespace Value

/-- What holds of a value if it holds of all values inside it holds of every value. -/
@[elab_as_elim]
theorem induction {P : Value → Prop} (null : P .null) (bool : ∀ b, P (.bool b))
    (int : ∀ n, P (.int n)) (float : ∀ x, P (.float x)) (str : ∀ s, P (.str s))
    (seq : ∀ items, (∀ v ∈ items, P v) → P (.seq items))
    (map : ∀ entries : List (Value × Value), (∀ e ∈ entries, P e.1 ∧ P e.2) → P (.map entries))
    (tagged : ∀ name v, P v → P (.tagged name v)) (v : Value) : P v :=
  Value.rec (motive_1 := P) (motive_2 := fun items => ∀ v ∈ items, P v)
    (motive_3 := fun entries => ∀ e ∈ entries, P e.1 ∧ P e.2) (motive_4 := fun e => P e.1 ∧ P e.2)
    null bool int float str seq map tagged (by simp)
    (fun _ _ hv hvs => List.forall_mem_cons.2 ⟨hv, hvs⟩) (by simp)
    (fun _ _ he hes => List.forall_mem_cons.2 ⟨he, hes⟩) (fun _ _ hk hv => ⟨hk, hv⟩) v

/-- The entries of a mapping. -/
abbrev Entries := List (Value × Value)

mutual

/-- Equality up to the order of entries. -/
def same : Value → Value → Bool
  | null, null => true
  | bool a, bool b => a = b
  | int a, int b => a = b
  | float a, float b => a.sameNumber b
  | str a, str b => a = b
  | seq as, seq bs => sameItems as bs
  | map as, map bs => as.length = bs.length && sameEntries as bs
  | tagged s a, tagged t b => s = t && same a b
  | _, _ => false

/-- Equality of two lists of values. -/
def sameItems : List Value → List Value → Bool
  | [], [] => true
  | a :: as, b :: bs => same a b && sameItems as bs
  | _, _ => false

/-- Whether all of the first entries are among the others. -/
def sameEntries : Entries → Entries → Bool
  | [], _ => true
  | (k, v) :: es, fs =>
    (match fs.find? fun f => same k f.1 with
      | some f => same v f.2
      | none => false) && sameEntries es fs

end

/-- Whether no two keys are the same. -/
def distinctKeys : Entries → Bool
  | [] => true
  | e :: es => !es.any (fun f => same e.1 f.1) && distinctKeys es

/-- The value of a key. -/
def member? (k : Value) (es : Entries) : Option Value := (es.find? fun e => same k e.1).map (·.2)

/-- Sets the value of a key: in its place if it is there, at the end otherwise. -/
def put (k v : Value) : Entries → Entries
  | [] => [(k, v)]
  | e :: es => if same k e.1 then (e.1, v) :: es else e :: put k v es

end Value

end TestOrchestrator.Yaml
