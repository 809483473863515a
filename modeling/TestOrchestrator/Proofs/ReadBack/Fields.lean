import Mathlib.Data.List.Forall2
import TestOrchestrator.Definition.Yaml
/-!
# One definition in two documents

* `Reading.Becomes r r'` says that what `r` reads `r'` reads without following an alias.
* `Mirrors d n n'` says that the tree `n'` has the words of the node `n` of the document `d`, in the
  same collections.
* `Definition.becomes_read`: a definition is read from a mirrored node as from the node itself.
-/

namespace TestOrchestrator.Yaml

variable {α β : Type}

/-! ## Readings -/

namespace Reading

/-- What one reading gives the other gives as well, and it follows no alias. -/
def Becomes (r r' : Reading α) : Prop :=
  ∀ s a s', r.run s = some (a, s') → ∀ t, r'.run t = some (a, t)

variable {r r' : Reading α} {f f' : α → Reading β}

theorem becomes_pure (a : α) : Becomes (pure a) (pure a) := by
  intro s b s' h t
  cases h
  rfl

theorem becomes_failure (r : Reading α) : Becomes failure r := by
  intro s b s' h
  cases h

theorem exists_of_run_bind {s s' : Nat} {b : β} (h : (r >>= f).run s = some (b, s')) :
    ∃ a t, r.run s = some (a, t) ∧ (f a).run t = some (b, s') := by
  rw [StateT.run_bind] at h
  obtain ⟨⟨a, t⟩, hr, hf⟩ := Option.bind_eq_some_iff.1 h
  exact ⟨a, t, hr, hf⟩

theorem Becomes.bind (h : Becomes r r') (hf : ∀ a, Becomes (f a) (f' a)) :
    Becomes (r >>= f) (r' >>= f') := by
  intro s b s' hrun t
  obtain ⟨a, u, hr, hb⟩ := exists_of_run_bind hrun
  rw [StateT.run_bind, h s a u hr t]
  exact hf a u b s' hb t

theorem Becomes.mapM {ns ns' : List β} {f f' : β → Reading α}
    (h : List.Forall₂ (fun n n' => Becomes (f n) (f' n')) ns ns') :
      Becomes (ns.mapM f) (ns'.mapM f') := by
  induction h with
  | nil => exact becomes_pure []
  | cons hn _ ih =>
    rw [List.mapM_cons, List.mapM_cons]
    exact hn.bind fun a => ih.bind fun as => becomes_pure (a :: as)

theorem Becomes.foldlM {ns ns' : List β} {f f' : α → β → Reading α}
    (h : List.Forall₂ (fun n n' => ∀ a, Becomes (f a n) (f' a n')) ns ns') (a : α) :
    Becomes (ns.foldlM f a) (ns'.foldlM f' a) := by
  induction h generalizing a with
  | nil => exact becomes_pure a
  | cons hn _ ih =>
    rw [List.foldlM_cons, List.foldlM_cons]
    exact (hn a).bind ih

end Reading

open Reading

/-! ## Mirrored nodes -/

namespace Document

/-- The node that a node stands for. -/
def target? (d : Document) : Node → Option Node
  | .aliasTo a => d.anchor? a
  | n => some n

theorem target?_of_follow {d : Document} {n m : Node} {s s' : Nat}
    (h : (d.follow n).run s = some (m, s')) :
    d.target? n = some m := by
  cases n with
  | aliasTo a =>
    obtain ⟨left, t, hleft, h⟩ := exists_of_run_bind h
    cases hleft
    split at h
    · cases h
    · obtain ⟨-, t, hset, h⟩ := exists_of_run_bind h
      rw [target?]
      split at h
      · cases h
        assumption
      · cases h
  | scalar | sequence | mapping =>
    cases h
    rfl

end Document

namespace Fields

mutual

/-- A node of a tree has the words of a node of a document, in the same collections; nothing is left
out. -/
inductive Mirrors (d : Document) : Node → Node → Prop
  | scalar {n : Node} {p p' : Properties} {style style' : Style} {cs : List Char}
      (target : d.target? n = some (.scalar p style cs)) (filled : isBlank style cs = false)
      (filled' : isBlank style' cs = false)
      (nothing : ∀ b, isNothing? p.tag style cs = some b → isNothing? p'.tag style' cs = some b) :
      Mirrors d n (.scalar p' style' cs)
  | sequence {n : Node} {p p' : Properties} {items items' : List Node}
      (target : d.target? n = some (.sequence p items))
      (items : List.Forall₂ (Mirrors d) items items') :
      Mirrors d n (.sequence p' items')
  | mapping {n : Node} {p p' : Properties} {entries entries' : List (Node × Node)}
      (target : d.target? n = some (.mapping p entries))
      (entries : List.Forall₂ (MirrorsEntry d) entries entries') :
        Mirrors d n (.mapping p' entries')

/-- The same for an entry of a mapping. -/
inductive MirrorsEntry (d : Document) : Node × Node → Node × Node → Prop
  | intro {e e' : Node × Node} (key : Mirrors d e.1 e'.1) (value : Mirrors d e.2 e'.2) :
      MirrorsEntry d e e'

end

variable {d : Document} (D : Document) {n n' : Node}

/-- What follows a node depends on what it stands for. -/
theorem becomes_follow {f f' : Node → Reading α} (h : Mirrors d n n')
    (hf : ∀ m, d.target? n = some m → Becomes (f m) (f' n')) :
    Becomes (d.follow n >>= f) (D.follow n' >>= f') := by
  have hself : D.follow n' = pure n' := by
    cases h <;> rfl
  intro s a s' hrun t
  obtain ⟨m, u, hm, ha⟩ := exists_of_run_bind hrun
  rw [hself, pure_bind]
  exact hf m (Document.target?_of_follow hm) u a s' ha t

theorem becomes_text (h : Mirrors d n n') : Becomes (text d n) (text D n') := by
  refine becomes_follow D h fun m hm => ?_
  cases h with
  | scalar target =>
    cases Option.some.inj (target.symm.trans hm)
    exact becomes_pure _
  | sequence target | mapping target =>
    cases Option.some.inj (target.symm.trans hm)
    exact becomes_failure _

theorem becomes_optionalText (h : Mirrors d n n') :
    Becomes (optionalText d n) (optionalText D n') := by
  refine becomes_follow D h fun m hm => ?_
  cases h with
  | @scalar _ p p' style style' cs target _ _ nothing =>
    cases Option.some.inj (target.symm.trans hm)
    cases hb : isNothing? p.tag style cs with
    | none =>
      simp only [hb]
      exact becomes_failure _
    | some b =>
      simp only [hb, nothing b hb]
      cases b <;> exact becomes_pure _
  | sequence target | mapping target =>
    cases Option.some.inj (target.symm.trans hm)
    exact becomes_failure _

theorem becomes_entries (h : Mirrors d n n') {f f' : List (Node × Node) → Reading α}
    (hf : ∀ es es', List.Forall₂ (MirrorsEntry d) es es' →
      Becomes (f es) (f' es')) : Becomes (entries d n >>= f) (entries D n' >>= f') := by
  rw [entries, entries, bind_assoc, bind_assoc]
  refine becomes_follow D h fun m hm => ?_
  cases h with
  | scalar target filled =>
    cases Option.some.inj (target.symm.trans hm)
    simp only [filled]
    exact becomes_failure _
  | sequence target =>
    cases Option.some.inj (target.symm.trans hm)
    exact becomes_failure _
  | mapping target hentries =>
    cases Option.some.inj (target.symm.trans hm)
    simp only [pure_bind]
    exact hf _ _ hentries

theorem becomes_list {read read' : Node → Reading α}
    (hread : ∀ n n', Mirrors d n n' → Becomes (read n) (read' n'))
    (h : Mirrors d n n') : Becomes (list d read n) (list D read' n') := by
  refine becomes_follow D h fun m hm => ?_
  cases h with
  | scalar target filled =>
    cases Option.some.inj (target.symm.trans hm)
    simp only [filled]
    exact becomes_failure _
  | sequence target items =>
    cases Option.some.inj (target.symm.trans hm)
    exact Becomes.mapM (items.imp hread)
  | mapping target =>
    cases Option.some.inj (target.symm.trans hm)
    exact becomes_failure _

theorem becomes_table {read read' : Node → Reading α}
    (hread : ∀ n n', Mirrors d n n' → Becomes (read n) (read' n'))
    (h : Mirrors d n n') : Becomes (table d read n) (table D read' n') := by
  refine becomes_entries D h fun es es' hes => ?_
  refine (Becomes.mapM (hes.imp fun e e' ⟨hkey, hvalue⟩ => ?_)).bind fun _ => becomes_pure _
  exact (becomes_text D hkey).bind fun _ => (hread _ _ hvalue).bind fun _ => becomes_pure _

/-- What a record takes from the value of a key is taken from a mirrored value too. -/
inductive Takes (d : Document) : Option (Node → α → Reading α) →
    Option (Node → α → Reading α) → Prop
  | unknown : Takes d none none
  | known {take take' : Node → α → Reading α}
      (h : ∀ n n', Mirrors d n n' → ∀ a, Becomes (take n a) (take' n' a)) :
      Takes d (some take) (some take')

theorem becomes_record {step step' : String → Option (Node → α → Reading α)}
    (hstep : ∀ key, Takes d (step key) (step' key)) (a : α) (h : Mirrors d n n') :
    Becomes (record d step a n) (record D step' a n') := by
  refine becomes_entries D h fun es es' hes => ?_
  refine (Becomes.foldlM (hes.imp fun e e' ⟨hkey, hvalue⟩ s => ?_) _).bind fun _ => becomes_pure _
  refine (becomes_text D hkey).bind fun key => ?_
  have htakes := hstep key
  generalize step key = taken, step' key = taken' at htakes ⊢
  cases htakes with
  | unknown => exact becomes_pure _
  | known htake =>
    dsimp only
    split
    · exact becomes_failure _
    · exact (htake _ _ hvalue s.1).bind fun _ => becomes_pure _

theorem becomes_given (a : Option α) : Becomes (given a) (given a) := by
  cases a with
  | none => exact becomes_failure _
  | some a => exact becomes_pure a

end Fields

end Yaml

/-! ## Definitions -/

open Yaml Fields Reading

variable {d : Document} (D : Document) {n n' : Node}

theorem Params.becomes_read (h : Mirrors d n n') : Becomes (Params.read d n) (Params.read D n') :=
  becomes_table D (fun _ _ => becomes_text D) h

theorem TestSpec.becomes_read (h : Mirrors d n n') :
    Becomes (TestSpec.read d n) (TestSpec.read D n') := by
  refine (becomes_record D (fun key => ?_) _ h).bind fun _ => (becomes_given _).bind fun _ =>
    becomes_pure _
  dsimp only
  split
  · exact .known fun _ _ h _ => (becomes_text D h).bind fun _ => becomes_pure _
  · exact .known fun _ _ h _ => (becomes_optionalText D h).bind fun _ => becomes_pure _
  · exact .known fun _ _ h _ => (Params.becomes_read D h).bind fun _ => becomes_pure _
  · exact .unknown

theorem Ref.becomes_read (h : Mirrors d n n') : Becomes (Ref.read d n) (Ref.read D n') := by
  refine (becomes_record D (fun key => ?_) _ h).bind fun _ => (becomes_given _).bind fun _ =>
    becomes_pure _
  dsimp only
  split
  · exact .known fun _ _ h _ => (becomes_text D h).bind fun _ => becomes_pure _
  · exact .known fun _ _ h _ => (Params.becomes_read D h).bind fun _ => becomes_pure _
  · exact .unknown

theorem GroupSpec.becomes_read (h : Mirrors d n n') :
    Becomes (GroupSpec.read d n) (GroupSpec.read D n') := by
  refine becomes_record D (fun key => ?_) _ h
  split
  · exact .known fun _ _ h _ => (Params.becomes_read D h).bind fun _ => becomes_pure _
  · exact .known fun _ _ h _ => (becomes_list D (fun _ _ => Ref.becomes_read D) h).bind fun _ =>
      becomes_pure _
  · exact .known fun _ _ h _ => (becomes_list D (fun _ _ => Ref.becomes_read D) h).bind fun _ =>
      becomes_pure _
  · exact .unknown

theorem Binding.becomes_read (h : Mirrors d n n') :
    Becomes (Binding.read d n) (Binding.read D n') := by
  refine becomes_record D (fun key => ?_) _ h
  split
  · exact .known fun _ _ h _ => (becomes_optionalText D h).bind fun _ => becomes_pure _
  · exact .known fun _ _ h _ => (becomes_optionalText D h).bind fun _ => becomes_pure _
  · exact .known fun _ _ h _ => (becomes_optionalText D h).bind fun _ => becomes_pure _
  · exact .unknown

/-- **A definition is read** from a node that mirrors another as from that one. -/
theorem Definition.becomes_read (h : Mirrors d n n') :
    Becomes (Definition.read d n) (Definition.read D n') := by
  refine (becomes_record D (fun key => ?_) _ h).bind fun _ => (becomes_given _).bind fun _ =>
    becomes_pure _
  dsimp only
  split
  · exact .known fun _ _ h _ => (becomes_text D h).bind fun _ => becomes_pure _
  · exact .known fun _ _ h _ => (becomes_text D h).bind fun _ => becomes_pure _
  · exact .known fun _ _ h _ => (becomes_table D (fun _ _ => TestSpec.becomes_read D) h).bind
      fun _ => becomes_pure _
  · exact .known fun _ _ h _ => (becomes_table D (fun _ _ => GroupSpec.becomes_read D) h).bind
      fun _ => becomes_pure _
  · exact .known fun _ _ h _ => (becomes_table D (fun _ _ => Binding.becomes_read D) h).bind
      fun _ => becomes_pure _
  · exact .unknown

theorem Definition.ofDocument?_of_mirrors {r : Definition} {D : Document}
    (h : Mirrors d d.root D.root)
    (hr : Definition.ofDocument? d = some r) : Definition.ofDocument? D = some r := by
  obtain ⟨⟨r, s⟩, hrun, rfl⟩ := Option.map_eq_some_iff.1 hr
  rw [ofDocument?, Definition.becomes_read D h _ _ _ hrun]
  rfl

end TestOrchestrator
