import TestOrchestrator.Text.Utf8
/-!
# Writers

Where bytes go. A writer may refuse a part of what it is given, and it may refuse to flush.

* `Writer.write` gives a writer bytes; `Written.accepted` is the bytes it took: all of them unless
  it refused, and always the first ones (`Written.accepted_prefix`).
* `writeAll` gives it texts in order, up to the first refusal, and flushes it at the end.
-/

namespace TestOrchestrator

/-- What became of bytes given to a writer. -/
structure Written (ω : Type) where
  /-- How many of the first bytes were taken before the refusal. -/
  taken : Nat
  /-- Why the rest was refused. -/
  refusal : Option String
  state : ω

/-- The bytes that were taken of those given. -/
def Written.accepted {ω : Type} (w : Written ω) (bs : List UInt8) : List UInt8 :=
  match w.refusal with
  | none => bs
  | some _ => bs.take w.taken

theorem Written.accepted_prefix {ω : Type} (w : Written ω) (bs : List UInt8) :
    ∃ rest, w.accepted bs ++ rest = bs := by
  unfold accepted
  split
  · exact ⟨[], by simp⟩
  · exact ⟨bs.drop w.taken, List.take_append_drop ..⟩

/-- A place for bytes. -/
structure Writer (ω : Type) where
  write : List UInt8 → ω → Written ω
  /-- Makes sure of all that was written, or says why it cannot. -/
  flush : ω → Option String × ω

/-- The writer that takes all it is given. -/
def Writer.unlimited : Writer Unit where
  write bs s := ⟨bs.length, none, s⟩
  flush s := (none, s)

/-- What became of texts given to a writer. -/
structure Delivery (ω : Type) where
  /-- The bytes that the writer took. -/
  bytes : List UInt8
  refusal : Option String
  state : ω

variable {ω : Type}

/-- Gives a writer texts in order and flushes it. Nothing follows a refusal. -/
def writeAll (w : Writer ω) : List String → ω → Delivery ω
  | [], s =>
    let (refusal, s) := w.flush s
    ⟨[], refusal, s⟩
  | t :: ts, s =>
    let bs := Text.Utf8.encode t.toList
    let r := w.write bs s
    match r.refusal with
    | some why => ⟨r.accepted bs, some why, r.state⟩
    | none =>
      let d := writeAll w ts r.state
      { d with bytes := bs ++ d.bytes }

end TestOrchestrator
