import TestOrchestrator.Proofs.Directives
import TestOrchestrator.Proofs.ReadBack.Mirroring
/-!
# What expansion leaves as it is

A document without directives is printed again, and the words of its scalars may change on the way.

* `expandValue_eq_self`: a value without directives is expanded to itself.
* `expand_keeps_definition`: where each scalar is printed in its own words, the expanded text holds
  the same definition.
* `not_expand_keeps_definition`: otherwise it may hold another one.
-/

namespace TestOrchestrator.Include

open Yaml

variable {load : String → Except IncludeError Value} {v : Value} {fs : FileSystem}
  {dirs : List Path}

theorem spliced_isBare (v : Value) : spliced (isBare v) v = [v] := by
  cases v <;> rfl

theorem expandItems_eq_self {vs : List Value} (h : ∀ v ∈ vs, expandValue load v = .ok v) :
    expandItems load vs = .ok vs := by
  induction vs with
  | nil => rfl
  | cons v vs ih =>
    rw [expandItems, h v List.mem_cons_self, ih fun w hw => h w (List.mem_cons_of_mem _ hw)]
    exact congrArg (fun ws => Except.ok (ws ++ vs)) (spliced_isBare v)

theorem expandEntries_eq_self {es : Value.Entries}
    (h : ∀ e ∈ es, isDirective e.1 = false ∧ expandValue load e.2 = .ok e.2) :
      expandEntries load es = .ok es := by
  induction es with
  | nil => rfl
  | cons e es ih =>
    obtain ⟨hkey, hvalue⟩ := h e List.mem_cons_self
    rw [expandEntries, hkey, if_neg Bool.false_ne_true, hvalue, ih fun f hf =>
      h f (List.mem_cons_of_mem _ hf)]
    rfl

/-- **A value without directives** is expanded to itself. -/
theorem expandValue_eq_self (h : ∀ D, ¬Directs v D) : expandValue load v = .ok v := by
  induction v using Value.induction with
  | null | bool | int | float | str => rfl
  | seq items ih =>
    rw [expandValue, expandItems_eq_self fun w hw => ih w hw fun D hD => h D (.item hw hD)]
    rfl
  | map entries ih =>
    have htarget : target? entries = none := by
      cases htarget : target? entries with
      | none => rfl
      | some target => exact absurd (.here htarget) (h _)
    have hkeys : ∀ e ∈ entries, isDirective e.1 = false := by
      intro e he
      rw [target?, Option.map_eq_none_iff, List.find?_eq_none] at htarget
      simpa using htarget e (List.mem_reverse.2 he)
    have hentries : expandEntries load entries = .ok entries :=
      expandEntries_eq_self fun e he =>
        ⟨hkeys e he, (ih e he).2 fun D hD => h D (.entry he (hkeys e he) hD)⟩
    rw [expandValue, hentries, htarget]
    rfl
  | tagged name v ih =>
    rw [expandValue, ih fun D hD => h D (.tagged hD)]
    rfl

/-- **A text without directives keeps its definition** if each of its scalars is printed in its own
words and the tags have plain names. -/
theorem expand_keeps_definition {bytes : List UInt8} {d : Document} {r : Definition}
    {text : List Char}
    (hd : Document.ofBytes? bytes = some d) (hv : Value.ofDocument? d = some v)
    (hfree : ∀ D, ¬Directs v D)
    (hkept : ∀ w ∈ d.scalars, w.isKept = true) (hnames : ∀ name ∈ v.tagNames, Token.PlainName name)
    (hr : Definition.ofYaml? bytes = some r) (htext : expand fs dirs bytes = .ok text) :
    Definition.ofYaml? (Text.Utf8.encode text) = some r := by
  have hvalue : expandedValue fs dirs bytes = .ok v := by
    rw [expandedValue, Value.ofBytes?, hd, Option.bind_some, hv]
    exact expandValue_eq_self hfree
  have hrender : v.render? = some text := by
    obtain ⟨w, hw, hrender⟩ := exists_of_bind_eq_ok htext
    cases hvalue.symm.trans hw
    split at hrender
    · cases hrender
      assumption
    · cases hrender
  rw [Definition.ofYaml?, hd] at hr
  exact Definition.ofYaml?_render hv hr hkept hnames hrender

/-- A load that finds nothing. -/
def nowhere (name : String) : Except IncludeError Value := .error (.notFound name)

/-- Whether there are directives can be computed. -/
theorem not_directs_of_nowhere (h : (expandValue nowhere v).toOption.isSome = true)
    (D : Directive) : ¬Directs v D := by
  intro hD
  obtain ⟨w, hw⟩ : ∃ w, expandValue nowhere v = .ok w := by
    cases hv : expandValue nowhere v with
    | error err =>
      rw [hv] at h
      cases h
    | ok w => exact ⟨w, rfl⟩
  obtain ⟨name, w, -, hload, -⟩ := (expandValue_isOk_iff nowhere v).1 ⟨w, hw⟩ D hD
  cases hload

/-- A file system without files. -/
def noFiles : FileSystem where
  cwd := ⟨"/"⟩
  isFileAt _ := false
  isDirAt _ := false
  canonicalAt _ := .error .notFound
  readAt _ := .error .notFound

/-- A run file in which each scalar is printed in its own words. -/
def quotedFile : List UInt8 := Text.Utf8.encode
  ("name: run\nversion: \"1.10\"\n" ++
    "tests:\n  smoke:\n    path: smoke.sh\n    params: {retries: 3}\n").toList

/-- What it is expanded to. -/
def quotedText : List Char :=
  ("name: run\nversion: '1.10'\n" ++
    "tests:\n  smoke:\n    path: smoke.sh\n    params:\n      retries: 3\n").toList

theorem expand_keeps_definition_of_quoted :
    expand noFiles [] quotedFile = .ok quotedText ∧
      ∃ r, Definition.ofYaml? quotedFile = some r ∧
        Definition.ofYaml? (Text.Utf8.encode quotedText) = some r := by
  have hread : (Document.ofBytes? quotedFile).any (fun d => d.scalars.all Word.isKept &&
      (Value.ofDocument? d).any fun v =>
        (expandValue nowhere v).toOption.isSome && v.tagNames.isEmpty) = true := by
    decide +kernel
  have hdefinition : (Definition.ofYaml? quotedFile).isSome = true := by decide +kernel
  have htext : expand noFiles [] quotedFile = .ok quotedText := by decide +kernel
  obtain ⟨d, hd, hread⟩ := (Option.any_eq_true _ _).1 hread
  obtain ⟨hkept, hread⟩ := Bool.and_eq_true_iff.1 hread
  obtain ⟨v, hv, hread⟩ := (Option.any_eq_true _ _).1 hread
  obtain ⟨hfree, hnames⟩ := Bool.and_eq_true_iff.1 hread
  obtain ⟨r, hr⟩ := Option.isSome_iff_exists.1 hdefinition
  refine ⟨htext, r, hr, ?_⟩
  refine expand_keeps_definition hd hv (not_directs_of_nowhere hfree) (List.all_eq_true.1 hkept) ?_
    hr htext
  rw [List.isEmpty_iff.1 hnames]
  exact nofun

/-- A run file whose version is printed in other words. -/
def numberedFile : List UInt8 := Text.Utf8.encode "name: run\nversion: 1.10\n".toList

/-- What it is expanded to. -/
def numberedText : List Char := "name: run\nversion: 1.1\n".toList

/-- A text without directives does not always keep its definition. -/
theorem not_expand_keeps_definition :
    ¬∀ (fs : FileSystem) (dirs : List Path) (bytes : List UInt8) (v : Value)
    (r : Definition) (text : List Char), Value.ofBytes? bytes = some v → (∀ D, ¬Directs v D) →
      Definition.ofYaml? bytes = some r → expand fs dirs bytes = .ok text →
        Definition.ofYaml? (Text.Utf8.encode text) = some r := by
  intro h
  have hread : (Value.ofBytes? numberedFile).any
      (fun v => (expandValue nowhere v).toOption.isSome) = true := by
    decide +kernel
  have hdefinition : (Definition.ofYaml? numberedFile).isSome = true := by decide +kernel
  have htext : expand noFiles [] numberedFile = .ok numberedText := by decide +kernel
  have hother : Definition.ofYaml? (Text.Utf8.encode numberedText) ≠
      Definition.ofYaml? numberedFile := by
    decide +kernel
  obtain ⟨v, hv, hfree⟩ := (Option.any_eq_true _ _).1 hread
  obtain ⟨r, hr⟩ := Option.isSome_iff_exists.1 hdefinition
  refine hother ?_
  rw [hr]
  exact h noFiles [] numberedFile v r numberedText hv (not_directs_of_nowhere hfree) hr htext

end TestOrchestrator.Include
