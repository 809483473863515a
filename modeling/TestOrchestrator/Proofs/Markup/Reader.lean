import TestOrchestrator.Report.Rendering
/-!
# Reading markup

A machine that takes a document one character at a time. It knows the part of XML that reports are
written in: elements with attributes and content, and text with the five predefined entities.
Comments, sections, character references and further declarations are refused.

* `Markup.step s c` is the next state, if the character may come.
* `Markup.read? cs` is the element of a document.

The reading is literal. White space is kept as it stands, and an element that is one tag is told
apart from an element with empty content.
-/

namespace TestOrchestrator.Markup

/-- Attributes in their order. -/
abbrev Attributes := List (String × String)

/-- A part of a document: a character of its text, or an element. An element that is written as one
tag has no content. -/
inductive Node where
  | char (c : Char)
  | element (tag : String) (attrs : Attributes) (content : Option (List Node))

/-! ## States -/

/-- The start of an element: its name and the attributes that have been read. -/
structure Tag where
  name : List Char
  attrs : Attributes

/-- One more attribute. -/
def Tag.push (t : Tag) (key value : List Char) : Tag :=
  { t with attrs := t.attrs ++ [(String.ofList key, String.ofList value)] }

/-- Where in a document the machine is. -/
inductive Mode where
  /-- Between tags. -/
  | text
  /-- Behind the mark that begins a tag. -/
  | mark
  | opening (name : List Char)
  | closing (name : List Char)
  /-- Behind an attribute. -/
  | tag (t : Tag)
  /-- Behind white space in a tag. -/
  | space (t : Tag)
  | key (t : Tag) (key : List Char)
  /-- Before the quote that begins a value. -/
  | equals (t : Tag) (key : List Char)
  | value (t : Tag) (key text : List Char)
  /-- Before the mark that ends an element of one tag. -/
  | slash (t : Tag)
  /-- In the name of an entity, and where the machine was before. -/
  | entity (back : Mode) (name : List Char)

/-- An element that is open, and the nodes before it. -/
structure Frame where
  tag : Tag
  before : List Node

/-- A state: the nodes that the innermost open element has so far, and the open elements, the
innermost first. -/
structure State where
  mode : Mode
  nodes : List Node
  frames : List Frame

namespace State

/-- Goes on elsewhere. -/
def go (s : State) (mode : Mode) : Option State := some { s with mode }

/-- Takes a character of a text or of a value. -/
def put (s : State) (c : Char) : Option State :=
  match s.mode with
  | .text => some { s with nodes := s.nodes ++ [.char c] }
  | .value t key text => s.go (.value t key (text ++ [c]))
  | _ => none

/-- Opens an element. No attribute may be given twice. -/
def enter (s : State) (t : Tag) : Option State :=
  if (t.attrs.map (·.1)).Nodup then some ⟨.text, [], ⟨t, s.nodes⟩ :: s.frames⟩ else none

/-- Takes an element of one tag. -/
def single (s : State) (t : Tag) : Option State :=
  if (t.attrs.map (·.1)).Nodup then
    some ⟨.text, s.nodes ++ [.element (String.ofList t.name) t.attrs none], s.frames⟩
  else none

/-- Closes the innermost element, which must have the name. -/
def leave (s : State) (name : List Char) : Option State :=
  match s.frames with
  | ⟨t, before⟩ :: frames =>
    if t.name = name then
      some ⟨.text, before ++ [.element (String.ofList name) t.attrs (some s.nodes)], frames⟩
    else none
  | [] => none

/-- The only element of a document, at its end. -/
def root? (s : State) : Option Node :=
  match s with
  | ⟨.text, [.element tag attrs content], []⟩ => some (.element tag attrs content)
  | _ => none

end State

/-! ## Steps -/

/-- A character of a name. -/
def isNameChar (c : Char) : Bool := c.isAlphanum || c = '-' || c = '_' || c = ':' || c = '.'

/-- White space in a tag. -/
def isSpace (c : Char) : Bool := c = ' ' || c = '\t' || c = '\n' || c = '\r'

/-- The character of an entity. -/
def entity? (name : List Char) : Option Char :=
  if name = ['a', 'm', 'p'] then some '&'
  else if name = ['l', 't'] then some '<'
  else if name = ['g', 't'] then some '>'
  else if name = ['q', 'u', 'o', 't'] then some '"'
  else if name = ['a', 'p', 'o', 's'] then some '\''
  else none

/-- A character at the end of a tag. -/
def endTag (s : State) (t : Tag) (c : Char) : Option State :=
  if c = '/' then s.go (.slash t)
  else if c = '>' then s.enter t
  else none

/-- A character behind a name or an attribute in a tag. -/
def inTag (s : State) (t : Tag) (c : Char) : Option State :=
  if isSpace c then s.go (.space t) else endTag s t c

/-- The state behind a character, if it may come. -/
def step (s : State) (c : Char) : Option State :=
  match s.mode with
  | .text =>
    if c = '<' then s.go .mark
    else if c = '&' then s.go (.entity .text [])
    else s.put c
  | .mark =>
    if c = '/' then s.go (.closing [])
    else if isNameChar c then s.go (.opening [c])
    else none
  | .opening name =>
    if isNameChar c then s.go (.opening (name ++ [c])) else inTag s ⟨name, []⟩ c
  | .closing name =>
    if isNameChar c then s.go (.closing (name ++ [c]))
    else if c = '>' then s.leave name
    else none
  | .tag t => inTag s t c
  | .space t =>
    if isSpace c then some s
    else if isNameChar c then s.go (.key t [c])
    else endTag s t c
  | .key t key =>
    if isNameChar c then s.go (.key t (key ++ [c]))
    else if c = '=' then s.go (.equals t key)
    else none
  | .equals t key => if c = '"' then s.go (.value t key []) else none
  | .value t key text =>
    if c = '"' then s.go (.tag (t.push key text))
    else if c = '<' then none
    else if c = '&' then s.go (.entity (.value t key text) [])
    else s.put c
  | .slash t => if c = '>' then s.single t else none
  | .entity back name =>
    if c = ';' then (entity? name).bind { s with mode := back }.put
    else s.go (.entity back (name ++ [c]))

/-- The state behind a text. -/
def run (s : State) (cs : List Char) : Option State := cs.foldlM step s

/-- The element of a document with the usual declaration before it. -/
def read? (cs : List Char) : Option Node :=
  let first := Xml.declaration.toList
  if cs.take first.length = first then (run ⟨.text, [], []⟩ (cs.drop first.length)).bind
    State.root? else none

/-! ## Runs over texts -/

variable {s s' s'' : State} {m : Mode} {t : Tag} {ns content : List Node} {fs : List Frame}
  {cs ds : List Char} {c : Char}
  {name : String}

theorem run_append (h : run s cs = some s') (h' : run s' ds = some s'') :
    run s (cs ++ ds) = some s'' := by
  unfold run at h h' ⊢
  rw [List.foldlM_append, h]
  exact h'

theorem run_cons (h : step s c = some s') (h' : run s' cs = some s'') :
    run s (c :: cs) = some s'' := by
  unfold run at h' ⊢
  rw [List.foldlM_cons, h]
  exact h'

/-- The characters of a text that markup keeps: all but the control characters, of which the tab and
the two ends of lines stay. -/
def kept (cs : List Char) : List Char :=
  cs.filter fun c => 0x20 ≤ c.toNat || c = '\t' || c = '\n' || c = '\r'

/-- The machine is where texts are. -/
inductive Textual : Mode → Prop
  | text : Textual .text
  | value (t : Tag) (key text : List Char) : Textual (.value t key text)

/-- A text has been taken. -/
def State.putAll (s : State) (cs : List Char) : State :=
  match s.mode with
  | .value t key text => { s with mode := .value t key (text ++ cs) }
  | _ => { s with nodes := s.nodes ++ cs.map .char }

theorem putAll_append (s : State) (cs ds : List Char) :
    (s.putAll cs).putAll ds = s.putAll (cs ++ ds) := by
  obtain ⟨mode, ns, fs⟩ := s
  cases mode <;> simp [State.putAll]

theorem textual_putAll (hs : Textual s.mode) (cs : List Char) : Textual (s.putAll cs).mode := by
  obtain ⟨mode, ns, fs⟩ := s
  cases hs with
  | text => exact .text
  | value t key text => exact .value t key (text ++ cs)

/-- A character that is no mark is taken as it is. -/
theorem run_plain (hs : Textual s.mode) (hopen : c ≠ '<') (hand : c ≠ '&') (hquote : c ≠ '"') :
    run s [c] = some (s.putAll [c]) := by
  obtain ⟨mode, ns, fs⟩ := s
  cases hs with
  | text =>
    have hstep : step ⟨.text, ns, fs⟩ c = some ⟨.text, ns ++ [.char c], fs⟩ := by
      simp only [step, if_neg hopen, if_neg hand, State.put]
    exact run_cons hstep rfl
  | value t key text =>
    have hstep : step ⟨.value t key text, ns, fs⟩ c =
        some ⟨.value t key (text ++ [c]), ns, fs⟩ := by
      simp only [step, if_neg hquote, if_neg hopen, if_neg hand, State.put, State.go]
    exact run_cons hstep rfl

theorem run_escapeChar (hs : Textual s.mode) (c : Char) :
    run s (Xml.escapeChar c) = some (s.putAll (kept [c])) := by
  have hentity : ∀ {cs : List Char} {d : Char}, (∀ m ns fs, Textual m → run ⟨m, ns, fs⟩ cs =
      some (State.putAll ⟨m, ns, fs⟩ [d])) → run s cs = some (s.putAll [d]) := by
    intro cs d h
    exact h s.mode s.nodes s.frames hs
  unfold Xml.escapeChar
  split
  · exact hentity fun m ns fs hm => by cases hm <;> rfl
  · exact hentity fun m ns fs hm => by cases hm <;> rfl
  · exact hentity fun m ns fs hm => by cases hm <;> rfl
  · exact hentity fun m ns fs hm => by cases hm <;> rfl
  · exact hentity fun m ns fs hm => by cases hm <;> rfl
  · exact run_plain hs (by decide) (by decide) (by decide)
  · exact run_plain hs (by decide) (by decide) (by decide)
  · exact run_plain hs (by decide) (by decide) (by decide)
  · rename_i hand hopen _ hquote _ hfeed hreturn htab
    by_cases hsmall : c.toNat < 0x20
    · have hkept : kept [c] = [] := by
        simpa [kept] using ⟨⟨⟨hsmall, htab⟩, hfeed⟩, hreturn⟩
      rw [if_pos hsmall, hkept]
      obtain ⟨mode, ns, fs⟩ := s
      cases hs <;> simp [State.putAll, run]
    · have hkept : kept [c] = [c] := by
        have hlarge : 0x20 ≤ c.toNat := by omega
        simp [kept, hlarge]
      rw [if_neg hsmall, hkept]
      exact run_plain hs hopen hand hquote

/-- **An escaped text is taken as the characters that markup keeps of it.** -/
theorem run_escape (hs : Textual s.mode) (cs : List Char) :
    run s (Xml.escape cs) = some (s.putAll (kept cs)) := by
  induction cs generalizing s with
  | nil =>
    obtain ⟨mode, ns, fs⟩ := s
    cases hs <;> simp [State.putAll, kept, run, Xml.escape]
  | cons c cs ih =>
    have hkept : kept (c :: cs) = kept [c] ++ kept cs := by
      rw [kept, kept, kept, ← List.filter_append, List.singleton_append]
    rw [Xml.escape, List.flatMap_cons, hkept, ← putAll_append]
    exact run_append (run_escapeChar hs c) (ih (textual_putAll hs (kept [c])))

/-! ## Names -/

/-- A name of an element or an attribute. -/
def IsName (name : String) : Prop := name.toList ≠ [] ∧ ∀ c ∈ name.toList, isNameChar c = true

instance (name : String) : Decidable (IsName name) :=
  @instDecidableAnd _ _ inferInstance (List.decidableBAll _ _)

/-- Text of a name in a mode that takes one. -/
theorem run_name (mode : List Char → Mode)
    (hmode : ∀ cs c, isNameChar c = true →
      step ⟨mode cs, ns, fs⟩ c = some ⟨mode (cs ++ [c]), ns, fs⟩)
    (hds : ∀ c ∈ ds, isNameChar c = true) (cs : List Char) :
    run ⟨mode cs, ns, fs⟩ ds = some ⟨mode (cs ++ ds), ns, fs⟩ := by
  induction ds generalizing cs with
  | nil =>
    rw [List.append_nil]
    rfl
  | cons d ds ih =>
    obtain ⟨hd, hds⟩ := List.forall_mem_cons.1 hds
    rw [List.append_cons]
    exact run_cons (hmode cs d hd) (ih hds (cs ++ [d]))

theorem ne_of_isNameChar {d : Char} (h : isNameChar c = true) (hd : isNameChar d = false) :
    c ≠ d := by
  rintro rfl
  rw [h] at hd
  cases hd

theorem run_openTag (h : IsName name) :
    run ⟨.text, ns, fs⟩ (Xml.openTag name) = some ⟨.opening name.toList, ns, fs⟩ := by
  obtain ⟨hne, hname⟩ := h
  obtain ⟨c, cs, hcs⟩ := List.exists_cons_of_ne_nil hne
  rw [Xml.openTag, hcs]
  rw [hcs] at hname
  obtain ⟨hc, hcs⟩ := List.forall_mem_cons.1 hname
  have hmark : step ⟨.mark, ns, fs⟩ c = some ⟨.opening [c], ns, fs⟩ := by
    simp only [step, if_neg (ne_of_isNameChar (d := '/') hc rfl), if_pos hc, State.go]
  refine run_cons rfl (run_cons hmark (run_name .opening ?_ hcs [c]))
  intro cs c hc
  simp only [step, if_pos hc, State.go]

/-- The tag at the end of the innermost element. -/
theorem run_closeTag (h : IsName name) (htag : t.name = name.toList) :
    run ⟨.text, content, ⟨t, ns⟩ :: fs⟩ (Xml.closeTag name) =
      some ⟨.text, ns ++ [.element name t.attrs (some content)], fs⟩ := by
  have hname : run ⟨.closing [], content, ⟨t, ns⟩ :: fs⟩ name.toList =
      some ⟨.closing name.toList, content, ⟨t, ns⟩ :: fs⟩ := by
    refine run_name .closing ?_ h.2 []
    intro cs c hc
    simp only [step, if_pos hc, State.go]
  have hleave : step ⟨.closing name.toList, content, ⟨t, ns⟩ :: fs⟩ '>' =
      some ⟨.text, ns ++ [.element name t.attrs (some content)], fs⟩ := by
    have hend : ¬isNameChar '>' = true := by decide
    simp only [step, if_neg hend, if_true, State.leave, if_pos htag, String.ofList_toList]
  exact run_cons rfl (run_cons rfl (run_append hname (run_cons hleave rfl)))

/-! ## Attributes -/

/-- The machine is behind the name or an attribute of a tag. -/
inductive Behind : Mode → Tag → Prop
  | opening (name : List Char) : Behind (.opening name) ⟨name, []⟩
  | tag (t : Tag) : Behind (.tag t) t

theorem Behind.step_eq (h : Behind m t) (hc : isNameChar c = false) :
    step ⟨m, ns, fs⟩ c = inTag ⟨m, ns, fs⟩ t c := by
  cases h with
  | opening name => simp only [step, hc, Bool.false_eq_true, if_false]
  | tag t => rfl

/-- **An attribute is taken with the characters that markup keeps of its value.** -/
theorem Behind.run_rawAttr (h : Behind m t) (hkey : IsName name) (cs : List Char) :
    run ⟨m, ns, fs⟩ (Xml.rawAttr name (Xml.escape cs)) =
      some ⟨.tag (t.push name.toList (kept cs)), ns, fs⟩ := by
  obtain ⟨hne, hname⟩ := hkey
  obtain ⟨c, ds, hds⟩ := List.exists_cons_of_ne_nil hne
  rw [hds] at hname
  obtain ⟨hc, hname⟩ := List.forall_mem_cons.1 hname
  have hspace : step ⟨m, ns, fs⟩ ' ' = some ⟨.space t, ns, fs⟩ := h.step_eq rfl
  have hfirst : step ⟨.space t, ns, fs⟩ c = some ⟨.key t [c], ns, fs⟩ := by
    have hblank : ¬isSpace c = true := by
      intro hblank
      simp only [isSpace, Bool.or_eq_true, decide_eq_true_eq] at hblank
      rcases hblank with ((rfl | rfl) | rfl) | rfl <;> cases hc
    simp only [step, if_neg hblank, if_pos hc, State.go]
  have hrest : run ⟨.key t [c], ns, fs⟩ ds = some ⟨.key t (c :: ds), ns, fs⟩ := by
    refine run_name (.key t) ?_ hname [c]
    intro cs c hc
    simp only [step, if_pos hc, State.go]
  have hvalue : run ⟨.value t (c :: ds) [], ns, fs⟩ (Xml.escape cs) =
      some ⟨.value t (c :: ds) (kept cs), ns, fs⟩ := run_escape (.value t (c :: ds) []) cs
  rw [Xml.rawAttr, hds]
  exact run_append (run_append (run_cons hspace (run_cons hfirst hrest))
    (run_cons rfl (run_cons rfl hvalue))) rfl

/-- The end of a tag behind which content comes. -/
theorem Behind.run_enter (h : Behind m t) (hkeys : (t.attrs.map (·.1)).Nodup) :
    run ⟨m, ns, fs⟩ ['>'] = some ⟨.text, [], ⟨t, ns⟩ :: fs⟩ := by
  have hstep : step ⟨m, ns, fs⟩ '>' = some ⟨.text, [], ⟨t, ns⟩ :: fs⟩ := by
    rw [h.step_eq rfl]
    exact if_pos hkeys
  exact run_cons hstep rfl

/-- The end of an element of one tag. -/
theorem Behind.run_emptyEnd (h : Behind m t) (hkeys : (t.attrs.map (·.1)).Nodup) :
    run ⟨m, ns, fs⟩ Xml.emptyEnd =
      some ⟨.text, ns ++ [.element (String.ofList t.name) t.attrs none], fs⟩ := by
  have hspace : step ⟨m, ns, fs⟩ ' ' = some ⟨.space t, ns, fs⟩ := h.step_eq rfl
  have hend : step ⟨.slash t, ns, fs⟩ '>' =
      some ⟨.text, ns ++ [.element (String.ofList t.name) t.attrs none], fs⟩ := if_pos hkeys
  exact run_cons hspace (run_cons rfl (run_cons hend rfl))

/-! ## Plain texts -/

/-- A text that markup shows as it is. -/
def Plain (cs : List Char) : Prop := ∀ c ∈ cs, 0x20 ≤ c.toNat ∧ c ∉ ['&', '<', '>', '"', '\'']

instance (cs : List Char) : Decidable (Plain cs) := List.decidableBAll _ cs

theorem Plain.append (h : Plain cs) (h' : Plain ds) : Plain (cs ++ ds) :=
  List.forall_mem_append.2 ⟨h, h'⟩

theorem Plain.cons (hc : Plain [c]) (h : Plain cs) : Plain (c :: cs) := hc.append h

theorem Plain.escape_eq (h : Plain cs) : Xml.escape cs = cs := by
  induction cs with
  | nil => rfl
  | cons c cs ih =>
    obtain ⟨⟨hlarge, hmarks⟩, hcs⟩ := List.forall_mem_cons.1 h
    have hc : Xml.escapeChar c = [c] := by
      unfold Xml.escapeChar
      split
      all_goals first | rfl | exact absurd hmarks (by decide) | rw [if_neg (Nat.not_lt.2 hlarge)]
    rw [Xml.escape, List.flatMap_cons, hc, ← Xml.escape, ih hcs, List.singleton_append]

theorem Plain.kept_eq (h : Plain cs) : kept cs = cs := by
  refine List.filter_eq_self.2 fun c hc => ?_
  have hlarge := (h c hc).1
  simp [hlarge]

end TestOrchestrator.Markup
