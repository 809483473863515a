import TestOrchestrator.Proofs.ReadBack.Lexing
import TestOrchestrator.Yaml.Node.Parser
/-!
# From the tokens of a printed value to its tree

* `Value.node` is the tree of a printed value.
* `Parse.ReadsIn` says that a reading takes a value from its tokens, whatever comes behind them. The
  entries of a block are read if each of them is: `run_blockItems`, `run_bareItems`,
  `run_blockEntries`.
* `Node.reads_of_readable` reads a value in its place, and `Document.ofBytes?_print` a printed
  document.
-/

namespace TestOrchestrator.Yaml

namespace Parse

variable {α β : Type} {p : Parse α} {f : α → Parse β} {a : α} {t : Token} {ts : List Token}
  {s s' : ParseState}

/-- What is left to read, where no handle and no anchor has been declared. -/
def left (ts : List Token) : ParseState := { tokens := ts }

theorem run_bind (h : p.run s = some (a, s')) : (p >>= f).run s = (f a).run s' := by
  rw [StateT.run_bind, h]
  rfl

theorem run_peek (ts : List Token) : peek.run (left ts) = some (ts.head?, left ts) := rfl

theorem run_get (ts : List Token) :
    (get : Parse ParseState).run (left ts) = some (left ts, left ts) := rfl

theorem run_pure (a : α) (ts : List Token) :
    (pure a : Parse α).run (left ts) = some (a, left ts) := rfl

theorem run_skip (t : Token) (ts : List Token) :
    skip.run (left (t :: ts)) = some ((), left ts) := rfl

theorem run_expect (t : Token) (ts : List Token) :
    (expect t).run (left (t :: ts)) = some ((), left ts) := by
  rw [expect, run_bind (run_peek _), if_pos List.head?_cons, run_skip]

theorem run_accept (t : Token) (ts : List Token) :
    (accept t).run (left (t :: ts)) = some (true, left ts) := by
  rw [accept, run_bind (run_peek _), if_pos List.head?_cons, run_bind (run_skip t ts), run_pure]

theorem run_accept_of_ne (h : ts.head? ≠ some t) :
    (accept t).run (left ts) = some (false, left ts) := by
  rw [accept, run_bind (run_peek _), if_neg h, run_pure]

theorem run_orBlank {ends : List Token} {node : Parse Node}
    (h : ts.head?.any ends.contains = false) :
    (orBlank ends node).run (left ts) = node.run (left ts) := by
  have hbefore : (before ends).run (left ts) = some (false, left ts) := by
    rw [before, run_bind (run_peek _), run_pure]
    exact congrArg (fun b => some (b, left ts)) h
  rw [orBlank, run_bind hbefore, if_neg Bool.false_ne_true]

end Parse

/-! ## The tree of a printed value -/

namespace Value

/-- The bytes of a tag. -/
def tagBytes (name : String) : List UInt8 := 33 :: Token.tagSuffix name

mutual

/-- The tree of a printed value, whose tag is given. -/
def node (tag : Option (List UInt8)) : Value → Node
  | tagged name v => node (some (tagBytes name)) v
  | seq items => .sequence { tag } (itemNodes items)
  | map entries => .mapping { tag } (entryNodes entries)
  | str s => .scalar { tag } (Quoting.style s.toList) s.toList
  | v => .scalar { tag } .plain (leafText v)

/-- The trees of the items of a sequence. -/
def itemNodes : List Value → List Node
  | [] => []
  | v :: vs => node none v :: itemNodes vs

/-- The trees of the entries of a mapping. -/
def entryNodes : Entries → List (Node × Node)
  | [] => []
  | (k, v) :: es => (node none k, node none v) :: entryNodes es

end

end Value

namespace Parse

open Value

variable {node : Parse Node} {rest : List Token} {v : Value} {vs : List Value} {fuel : Nat}

/-- A reading of nodes that reads a value from its tokens in a place. -/
def ReadsIn (node : Parse Node) (bare bareTagged : Bool) (v : Value) : Prop :=
  ∀ rest, ((bare || bareTagged) = true → rest.head? ≠ some .blockEntry) →
    node.run (left (v.tokens bare bareTagged ++ rest)) = some (v.node none, left rest)

/-- The tokens that a node begins with. -/
def opens : Token → Bool
  | .tag .. | .scalar .. | .flowSequenceStart | .flowMappingStart | .blockSequenceStart
  | .blockMappingStart => true
  | _ => false

theorem exists_opens {under : Bool} (h : Readable under v) (bare bareTagged : Bool) :
    ∃ t ts, v.tokens bare bareTagged = t :: ts ∧
      (opens t = true ∨ (t = .blockEntry ∧ bare = true)) ∧
      ((∀ name w, v ≠ .tagged name w) → ∀ handle suffix, t ≠ .tag handle suffix) := by
  cases h with
  | leaf leaf =>
    rw [tokens_leaf leaf]
    cases v with
    | tagged => cases leaf
    | null | bool | int | float | str | seq | map => exact ⟨_, _, rfl, .inl rfl, nofun⟩
  | seq items =>
    cases bare with
    | false => exact ⟨_, _, rfl, .inl rfl, nofun⟩
    | true => exact ⟨_, _, rfl, .inr ⟨rfl, rfl⟩, nofun⟩
  | map keys values => exact ⟨_, _, rfl, .inl rfl, nofun⟩
  | tagged plain after =>
    refine ⟨_, _, rfl, .inl ?_, fun h => absurd rfl (h _ _)⟩
    rw [Token.ofTag]
    split <;> rfl

theorem length_itemTokens_le (v : Value) (vs : List Value) (bare bareTagged : Bool) :
    (itemTokens (v :: vs)).length ≤ ((Value.seq (v :: vs)).tokens bare bareTagged).length := by
  cases bare with
  | true => exact Nat.le_refl _
  | false =>
    rw [tokens]
    simp only [List.isEmpty_cons, Bool.false_eq_true, if_false, List.length_cons,
      List.length_append]
    omega

theorem length_entryTokens_le (e : Value × Value) (es : Entries) (bare bareTagged : Bool) :
    (entryTokens (e :: es)).length ≤ ((Value.map (e :: es)).tokens bare bareTagged).length := by
  rw [tokens]
  simp only [List.isEmpty_cons, Bool.false_eq_true, if_false, List.length_cons, List.length_append]
  omega

/-- A value is read where something else could be left out instead. -/
theorem run_orBlank_of_readable {under bare bareTagged : Bool} {ends : List Token}
    (h : Readable under v)
    (hreads : ReadsIn node bare bareTagged v) (hends : ends.all (fun t => !opens t) = true)
    (hbare : bare = true → .blockEntry ∉ ends)
    (hrest : (bare || bareTagged) = true → rest.head? ≠ some .blockEntry) :
    (orBlank ends node).run (left (v.tokens bare bareTagged ++ rest)) =
      some (v.node none, left rest) := by
  obtain ⟨t, ts, hts, ht, -⟩ := exists_opens h bare bareTagged
  rw [run_orBlank, hreads rest hrest]
  rw [hts, List.cons_append, List.head?_cons, Option.any_some, List.contains_eq_mem]
  refine decide_eq_false fun hmem => ?_
  rcases ht with ht | ⟨rfl, hb⟩
  · have hclosed := List.all_eq_true.1 hends t hmem
    rw [ht] at hclosed
    cases hclosed
  · exact hbare hb hmem

theorem itemTokens_cons (v : Value) (vs : List Value) (rest : List Token) :
    itemTokens (v :: vs) ++ rest =
      .blockEntry :: (v.tokens false false ++ (itemTokens vs ++ rest)) := by
  simp [itemTokens]

theorem entryTokens_cons (e : Value × Value) (es : Entries) (rest : List Token) :
    entryTokens (e :: es) ++ rest = .key :: (e.1.tokens false true ++
      .value :: (e.2.tokens (isSimpleKey e.1) true ++ (entryTokens es ++ rest))) := by
  simp [entryTokens]

theorem length_le_itemTokens (vs : List Value) : vs.length ≤ (itemTokens vs).length := by
  induction vs with
  | nil => exact Nat.le_refl 0
  | cons v vs ih =>
    simp only [itemTokens, List.length_cons, List.length_append]
    omega

theorem length_le_entryTokens (es : Entries) : es.length ≤ (entryTokens es).length := by
  induction es with
  | nil => exact Nat.le_refl 0
  | cons e es ih =>
    simp only [entryTokens, List.length_cons, List.length_append]
    omega

theorem length_lt_itemTokens {w : Value} (h : w ∈ vs) :
    (w.tokens false false).length < (itemTokens vs).length := by
  induction vs with
  | nil => cases h
  | cons v vs ih =>
    simp only [itemTokens, List.length_cons, List.length_append]
    rcases List.mem_cons.1 h with rfl | h
    · omega
    · have := ih h
      omega

theorem length_lt_entryTokens {e : Value × Value} {es : Entries} (h : e ∈ es) :
    (e.1.tokens false true).length < (entryTokens es).length ∧
      (e.2.tokens (isSimpleKey e.1) true).length < (entryTokens es).length := by
  induction es with
  | nil => cases h
  | cons f fs ih =>
    simp only [entryTokens, List.length_cons, List.length_append]
    rcases List.mem_cons.1 h with rfl | h
    · omega
    · have := ih h
      omega

theorem run_blockItems (hvs : ∀ v ∈ vs, Readable false v ∧ ReadsIn node false false v)
    (hfuel : vs.length < fuel) :
    (blockItems node fuel).run (left (itemTokens vs ++ .blockEnd :: rest)) =
      some (itemNodes vs, left rest) := by
  induction vs generalizing fuel with
  | nil =>
    obtain ⟨fuel, rfl⟩ : ∃ k, fuel = k + 1 := ⟨fuel - 1, by omega⟩
    rw [itemTokens, List.nil_append, blockItems, run_bind (run_accept_of_ne (by simp)),
      if_neg Bool.false_ne_true, run_bind (run_expect _ _), run_pure]
    rfl
  | cons v vs ih =>
    rw [List.length_cons] at hfuel
    obtain ⟨fuel, rfl⟩ : ∃ k, fuel = k + 1 := ⟨fuel - 1, by omega⟩
    obtain ⟨⟨hv, hreads⟩, hvs⟩ := List.forall_mem_cons.1 hvs
    have hnext : (orBlank [.blockEntry, .blockEnd] node).run
        (left (v.tokens false false ++ (itemTokens vs ++ .blockEnd :: rest))) =
          some (v.node none, left (itemTokens vs ++ .blockEnd :: rest)) :=
      run_orBlank_of_readable hv hreads rfl (by simp) (by simp)
    rw [itemTokens_cons, blockItems, run_bind (run_accept _ _), if_pos rfl, run_bind hnext,
      run_bind (ih hvs (by omega)), run_pure]
    rfl

theorem run_bareItems (hvs : ∀ v ∈ vs, Readable false v ∧ ReadsIn node false false v)
    (hfuel : vs.length < fuel)
    (hrest : rest.head? ≠ some .blockEntry) :
    (bareItems node fuel).run (left (itemTokens vs ++ rest)) = some (itemNodes vs, left rest) := by
  induction vs generalizing fuel with
  | nil =>
    obtain ⟨fuel, rfl⟩ : ∃ k, fuel = k + 1 := ⟨fuel - 1, by omega⟩
    rw [itemTokens, List.nil_append, bareItems, run_bind (run_accept_of_ne hrest),
      if_neg Bool.false_ne_true, run_pure]
    rfl
  | cons v vs ih =>
    rw [List.length_cons] at hfuel
    obtain ⟨fuel, rfl⟩ : ∃ k, fuel = k + 1 := ⟨fuel - 1, by omega⟩
    obtain ⟨⟨hv, hreads⟩, hvs⟩ := List.forall_mem_cons.1 hvs
    have hnext : (orBlank [.blockEntry, .key, .value, .blockEnd] node).run
        (left (v.tokens false false ++ (itemTokens vs ++ rest))) =
          some (v.node none, left (itemTokens vs ++ rest)) :=
      run_orBlank_of_readable hv hreads rfl (by simp) (by simp)
    rw [itemTokens_cons, bareItems, run_bind (run_accept _ _), if_pos rfl, run_bind hnext,
      run_bind (ih hvs (by omega)), run_pure]
    rfl

theorem run_blockEntries {es : Entries}
    (hes : ∀ e ∈ es, (Readable false e.1 ∧ ReadsIn node false true e.1) ∧
      Readable false e.2 ∧ ReadsIn node (isSimpleKey e.1) true e.2) (hfuel : es.length < fuel) :
    (blockEntries node fuel).run (left (entryTokens es ++ .blockEnd :: rest)) =
      some (entryNodes es, left rest) := by
  induction es generalizing fuel with
  | nil =>
    obtain ⟨fuel, rfl⟩ : ∃ k, fuel = k + 1 := ⟨fuel - 1, by omega⟩
    rw [entryTokens, List.nil_append, blockEntries, run_bind (run_accept_of_ne (by simp)),
      if_neg Bool.false_ne_true, run_bind (run_expect _ _), run_pure]
    rfl
  | cons e es ih =>
    rw [List.length_cons] at hfuel
    obtain ⟨fuel, rfl⟩ : ∃ k, fuel = k + 1 := ⟨fuel - 1, by omega⟩
    obtain ⟨⟨⟨hkey, hreadsKey⟩, hv, hreads⟩, hes⟩ := List.forall_mem_cons.1 hes
    have hbehind : (entryTokens es ++ .blockEnd :: rest).head? ≠ some .blockEntry := by
      cases es with
      | nil => simp [entryTokens]
      | cons f fs =>
        rw [entryTokens_cons]
        simp
    have hfirst : (orBlank [.key, .value, .blockEnd] node).run (left (e.1.tokens false true ++
        .value :: (e.2.tokens (isSimpleKey e.1) true ++ (entryTokens es ++ .blockEnd :: rest)))) =
          some (e.1.node none, left (.value :: (e.2.tokens (isSimpleKey e.1) true ++
            (entryTokens es ++ .blockEnd :: rest)))) :=
      run_orBlank_of_readable hkey hreadsKey rfl (by simp) fun _ => by simp
    have hsecond : (orBlank [.key, .value, .blockEnd] node).run
        (left (e.2.tokens (isSimpleKey e.1) true ++
        (entryTokens es ++ .blockEnd :: rest))) =
          some (e.2.node none, left (entryTokens es ++ .blockEnd :: rest)) :=
      run_orBlank_of_readable hv hreads rfl (fun _ => by simp) fun _ => hbehind
    rw [entryTokens_cons, blockEntries, run_bind (run_accept _ _), if_pos rfl, run_bind hfirst,
      run_bind (run_accept _ _), if_pos rfl, run_bind hsecond, run_bind (ih hes (by omega)),
      run_pure]
    rfl

/-! ## What stands before a node -/

theorem run_properties_of_opens (h : opens t = true ∨ t = .blockEntry)
    (hname : ∀ handle suffix, t ≠ .tag handle suffix) :
    properties.run (left (t :: ts)) = some (({}, false), left (t :: ts)) := by
  have hmarks : marks.run (left (t :: ts)) = some ((none, none), left (t :: ts)) := by
    rw [marks, run_bind (run_get _)]
    cases t with
    | tag handle suffix => exact absurd rfl (hname handle suffix)
    | scalar | flowSequenceStart | flowMappingStart | blockSequenceStart | blockMappingStart
    | blockEntry => rfl
    | _ => rcases h with h | h <;> cases h
  rw [properties, run_bind hmarks]
  rfl

theorem run_properties_of_tag (name : String) (h : opens t = true ∨ t = .blockEntry) :
    properties.run (left (.ofTag name :: t :: ts)) =
      some (({ tag := some (tagBytes name) }, true), left (t :: ts)) := by
  have hmarks : ∀ handle suffix, marks.run (left (.tag handle suffix :: t :: ts)) =
      some ((none, some (handle, suffix)), left (t :: ts)) := by
    intro handle suffix
    rw [marks, run_bind (run_get _)]
    cases t with
    | anchor => rcases h with h | h <;> cases h
    | _ => rfl
  have hresolve : ∀ handle suffix bytes,
      (resolveTag handle suffix).run (left (t :: ts)) = some (bytes, left (t :: ts)) →
      properties.run (left (.tag handle suffix :: t :: ts)) =
        some (({ tag := some bytes }, true), left (t :: ts)) := by
    intro handle suffix bytes hbytes
    have htag : (Option.mapM (fun x : List Char × List UInt8 =>
        resolveTag x.1 x.2) (some (handle, suffix))).run
        (left (t :: ts)) = some (some bytes, left (t :: ts)) := by
      change (resolveTag handle suffix >>= fun b => pure (some b)).run _ = _
      rw [run_bind hbytes, run_pure]
    rw [properties, run_bind (hmarks handle suffix), run_bind htag]
    rfl
  rw [Token.ofTag, tagBytes]
  split
  · rename_i hnil
    rw [hnil]
    exact hresolve _ _ _ rfl
  · exact hresolve _ _ _ rfl

end Parse

namespace Node

open Parse

/-- The reading of a node behind what stands before it. -/
def behind (fuel : Nat) (place : Place) (props : Properties) (any : Bool) : Parse Node := do
  let count := (← get).tokens.length + 1
  match ← peek with
  | some (.scalar style text) => skip; return .scalar props style text
  | some .flowSequenceStart =>
    skip
    return .sequence props (← flowItems (read fuel .flow) count true)
  | some .flowMappingStart =>
    skip
    return .mapping props (← flowEntries (read fuel .flow) count true)
  | next =>
    if place = .blockValue && next = some .blockEntry then
      return .sequence props (← bareItems (read fuel .block) count)
    else if place ≠ .flow && next = some .blockSequenceStart then
      skip
      return .sequence props (← blockItems (read fuel .block) count)
    else if place ≠ .flow && next = some .blockMappingStart then
      skip
      return .mapping props (← blockEntries (read fuel .blockValue) count)
    else if any then return Node.blank props
    else failure

variable {t : Token} {ts : List Token} {fuel : Nat} {place : Place}

theorem run_read (h : ∀ name, t ≠ .aliasTo name) :
    (read (fuel + 1) place).run (left (t :: ts)) =
      (properties >>= fun x => behind fuel place x.1 x.2).run (left (t :: ts)) := by
  cases t with
  | aliasTo name => exact absurd rfl (h name)
  | _ => rfl

theorem run_read_of_opens (h : opens t = true ∨ t = .blockEntry)
    (hname : ∀ handle suffix, t ≠ .tag handle suffix) :
    (read (fuel + 1) place).run (left (t :: ts)) =
      (behind fuel place {} false).run (left (t :: ts)) := by
  have halias : ∀ name, t ≠ .aliasTo name := by
    rintro name rfl
    rcases h with h | h <;> cases h
  rw [run_read halias, run_bind (run_properties_of_opens h hname)]

theorem run_read_of_tag (name : String) (h : opens t = true ∨ t = .blockEntry) :
    (read (fuel + 1) place).run (left (.ofTag name :: t :: ts)) =
      (behind fuel place { tag := some (Value.tagBytes name) } true).run (left (t :: ts)) := by
  have halias : ∀ a, Token.ofTag name ≠ .aliasTo a := by
    intro a
    rw [Token.ofTag]
    split <;> simp
  rw [run_read halias, run_bind (run_properties_of_tag name h)]

/-! ## The node of a value -/

open Value

variable {tag : Option (List UInt8)} {any bare bareTagged under : Bool} {v : Value}
  {vs : List Value}
  {e : Value × Value} {es : Entries}

/-- What stands behind the tag of a value is read from its tokens in a place. -/
def ReadsBehind (fuel : Nat) (place : Place) (bare bareTagged : Bool) (v : Value) : Prop :=
  ∀ tag any rest, ((bare || bareTagged) = true → rest.head? ≠ some .blockEntry) →
    (behind fuel place { tag } any).run (left (v.tokens bare bareTagged ++ rest)) =
      some (v.node tag, left rest)

theorem readsBehind_leaf (h : v.isLeaf = true) : ReadsBehind fuel place bare bareTagged v := by
  intro tag any rest hrest
  rw [tokens_leaf h]
  cases v with
  | tagged => cases h
  | null | bool | int | float | str => rfl
  | seq items =>
    cases items with
    | nil => rfl
    | cons => cases h
  | map entries =>
    cases entries with
    | nil => rfl
    | cons => cases h

theorem run_behind_sequence {props : Properties} {ns : List Node} {s : ParseState}
    (hplace : place ≠ .flow)
    (h : (blockItems (read fuel .block) (ts.length + 2)).run (left ts) = some (ns, s)) :
    (behind fuel place props any).run (left (.blockSequenceStart :: ts)) =
      some (.sequence props ns, s) := by
  have hitems : (blockItems (read fuel .block) (ts.length + 2) >>= fun ns =>
      (pure (.sequence props ns) : Parse Node)).run
      (left ts) = some (.sequence props ns, s) := run_bind h
  cases place with
  | flow => exact absurd rfl hplace
  | block | blockValue => exact hitems

theorem run_behind_bare {props : Properties} {ns : List Node} {s : ParseState}
    (h : (bareItems (read fuel .block) (ts.length + 2)).run (left (.blockEntry :: ts)) =
      some (ns, s)) :
    (behind fuel .blockValue props any).run (left (.blockEntry :: ts)) =
      some (.sequence props ns, s) := by
  have hitems : (bareItems (read fuel .block) (ts.length + 2) >>= fun ns =>
      (pure (.sequence props ns) : Parse Node)).run
      (left (.blockEntry :: ts)) = some (.sequence props ns, s) := run_bind h
  exact hitems

theorem run_behind_mapping {props : Properties} {ns : List (Node × Node)} {s : ParseState}
    (hplace : place ≠ .flow)
    (h : (blockEntries (read fuel .blockValue) (ts.length + 2)).run (left ts) = some (ns, s)) :
    (behind fuel place props any).run (left (.blockMappingStart :: ts)) =
      some (.mapping props ns, s) := by
  have hentries : (blockEntries (read fuel .blockValue) (ts.length + 2) >>= fun ns =>
      (pure (.mapping props ns) : Parse Node)).run (left ts) = some (.mapping props ns, s) :=
    run_bind h
  cases place with
  | flow => exact absurd rfl hplace
  | block | blockValue => exact hentries

theorem readsBehind_seq (hplace : place ≠ .flow) (hbare : bare = true → place = .blockValue)
    (h : ∀ w ∈ v :: vs, Readable false w ∧ ReadsIn (read fuel .block) false false w) :
    ReadsBehind fuel place bare bareTagged (.seq (v :: vs)) := by
  intro tag any rest hrest
  have hlen := length_le_itemTokens (v :: vs)
  cases bare with
  | false =>
    have htokens : (Value.seq (v :: vs)).tokens false bareTagged ++ rest =
        .blockSequenceStart :: (itemTokens (v :: vs) ++ .blockEnd :: rest) := by
      simp [tokens]
    rw [htokens]
    refine run_behind_sequence hplace (run_blockItems h ?_)
    rw [List.length_append]
    omega
  | true =>
    obtain rfl := hbare rfl
    have hitems : itemTokens (v :: vs) ++ rest =
        .blockEntry :: (v.tokens false false ++ (itemTokens vs ++ rest)) :=
      itemTokens_cons v vs rest
    have hcount : (v :: vs).length <
        (v.tokens false false ++ (itemTokens vs ++ rest)).length + 2 := by
      have := congrArg List.length hitems
      rw [List.length_append, List.length_cons] at this
      omega
    have hbehind := run_bareItems h hcount (hrest rfl)
    have htokens : (Value.seq (v :: vs)).tokens true bareTagged ++ rest =
        itemTokens (v :: vs) ++ rest := by
      simp [tokens]
    rw [hitems] at hbehind
    rw [htokens, hitems]
    exact run_behind_bare hbehind

theorem readsBehind_map (hplace : place ≠ .flow)
    (h : ∀ f ∈ e :: es, (Readable false f.1 ∧ ReadsIn (read fuel .blockValue) false true f.1) ∧
      Readable false f.2 ∧ ReadsIn (read fuel .blockValue) (isSimpleKey f.1) true f.2) :
    ReadsBehind fuel place bare bareTagged (.map (e :: es)) := by
  intro tag any rest _
  have hlen := length_le_entryTokens (e :: es)
  have htokens : (Value.map (e :: es)).tokens bare bareTagged ++ rest =
      .blockMappingStart :: (entryTokens (e :: es) ++ .blockEnd :: rest) := by
    simp [tokens]
  rw [htokens]
  refine run_behind_mapping hplace (run_blockEntries h ?_)
  rw [List.length_append]
  omega

/-- A node without a tag begins with what stands behind it. -/
theorem ReadsBehind.readsIn (h : Readable under v) (hv : ∀ name w, v ≠ .tagged name w)
    (hreads : ReadsBehind fuel place bare bareTagged v) :
    ReadsIn (read (fuel + 1) place) bare bareTagged v := by
  intro rest hrest
  obtain ⟨t, ts, hts, ht, hname⟩ := exists_opens h bare bareTagged
  rw [← hreads none false rest hrest, hts]
  exact run_read_of_opens (ht.imp_right And.left) (hname hv)

theorem ReadsBehind.readsIn_tagged (h : Readable true v) (name : String)
    (hreads : ReadsBehind fuel place bareTagged bareTagged v) :
    ReadsIn (read (fuel + 1) place) bare bareTagged (.tagged name v) := by
  intro rest hrest
  obtain ⟨t, ts, hts, ht, -⟩ := exists_opens h bareTagged bareTagged
  have hbehind := hreads (some (tagBytes name)) true rest fun hb => hrest (by simp_all)
  rw [hts] at hbehind
  rw [tokens, hts, Value.node, ← hbehind]
  exact run_read_of_tag name (ht.imp_right And.left)

/-- **A value is read from its tokens.** -/
theorem reads_of_readable (h : Readable under v) (hplace : place ≠ .flow)
    (hvalue : (bare || bareTagged) = true → place = .blockValue)
    (hfuel : (v.tokens bare bareTagged).length ≤ fuel) :
    (under = true → ReadsBehind fuel place bare bareTagged v) ∧
      (under = false → ReadsIn (read (fuel + 1) place) bare bareTagged v) := by
  induction h generalizing fuel place bare bareTagged with
  | @leaf under v leaf =>
    have hbehind : ReadsBehind fuel place bare bareTagged v := readsBehind_leaf leaf
    refine ⟨fun _ => hbehind, fun _ => hbehind.readsIn (.leaf leaf : Readable under v) ?_⟩
    rintro name w rfl
    cases leaf
  | @seq under v vs items ih =>
    have htokens := length_itemTokens_le v vs bare bareTagged
    have hitems : ∀ w ∈ v :: vs, Readable false w ∧ ReadsIn (read fuel .block) false false w := by
      intro w hw
      have hlt := length_lt_itemTokens hw
      obtain ⟨fuel, rfl⟩ : ∃ k, fuel = k + 1 := ⟨fuel - 1, by omega⟩
      have hfits : (w.tokens false false).length ≤ fuel := by omega
      have hblock : Place.block ≠ .flow := nofun
      exact ⟨items w hw, (ih w hw hblock (by simp) hfits).2 rfl⟩
    have hbehind : ReadsBehind fuel place bare bareTagged (.seq (v :: vs)) :=
      readsBehind_seq hplace (fun hb => hvalue (by simp [hb])) hitems
    exact ⟨fun _ => hbehind, fun _ => hbehind.readsIn (.seq items : Readable under _) nofun⟩
  | @map under e es keys values ihkeys ihvalues =>
    have htokens := length_entryTokens_le e es bare bareTagged
    have hentries : ∀ f ∈ e :: es,
        (Readable false f.1 ∧ ReadsIn (read fuel .blockValue) false true f.1) ∧
        Readable false f.2 ∧ ReadsIn (read fuel .blockValue) (isSimpleKey f.1) true f.2 := by
      intro f hf
      have hlt := length_lt_entryTokens hf
      obtain ⟨fuel, rfl⟩ : ∃ k, fuel = k + 1 := ⟨fuel - 1, by omega⟩
      have hkey : (f.1.tokens false true).length ≤ fuel := by omega
      have hval : (f.2.tokens (isSimpleKey f.1) true).length ≤ fuel := by omega
      have hblock : Place.blockValue ≠ .flow := nofun
      exact ⟨⟨keys f hf, (ihkeys f hf hblock (fun _ => rfl) hkey).2 rfl⟩, values f hf,
        (ihvalues f hf hblock (fun _ => rfl) hval).2 rfl⟩
    have hbehind : ReadsBehind fuel place bare bareTagged (.map (e :: es)) :=
      readsBehind_map hplace hentries
    exact ⟨fun _ => hbehind, fun _ => hbehind.readsIn (.map keys values : Readable under _) nofun⟩
  | @tagged name v plain after ih =>
    refine ⟨nofun, fun _ => ?_⟩
    rw [tokens, List.length_cons] at hfuel
    exact ((ih hplace (fun hb => hvalue (by simp_all)) (by omega)).1 rfl).readsIn_tagged after name

end Node

namespace Document

open Parse Value

variable {v : Value}

/-- The tokens of a printed value are the tokens of its document. -/
theorem ofTokens?_tokens (h : Readable false v) :
    ofTokens? (v.tokens false false) = some (ofNode (v.node none)) := by
  obtain ⟨t, ts, hts, ht, -⟩ := exists_opens h false false
  have hblock : Place.block ≠ .flow := nofun
  have hreads : ReadsIn (Node.read ((v.tokens false false).length + 1) .block) false false v :=
    (Node.reads_of_readable h hblock (by simp) (Nat.le_refl _)).2 rfl
  have hnode : (Node.read ((v.tokens false false).length + 1) .block).run
      (left (v.tokens false false)) =
      some (v.node none, left []) := by
    have hall := hreads [] (by simp)
    rwa [List.append_nil] at hall
  have hread : read.run (left (t :: ts)) = some (ofNode (v.node none), left []) := by
    rw [hts] at hnode
    have hopens : opens t = true := ht.elim id fun ht => absurd ht.2 Bool.false_ne_true
    rw [read, run_bind (run_get _), run_bind (run_peek _)]
    cases t with
    | tag | scalar | flowSequenceStart | flowMappingStart | blockSequenceStart
    | blockMappingStart =>
      exact run_bind hnode
    | _ => cases hopens
  rw [ofTokens?, hts]
  exact congrArg (Option.map Prod.fst) hread

/-- **A printed value is read as its document.** -/
theorem ofBytes?_print (h : Readable false v) :
    ofBytes? (Text.Utf8.encode ((write .root none v).drop 1)) = some (ofNode (v.node none)) := by
  rw [ofBytes?, Text.Utf8.decode?_encode, Option.bind_some, ofText?, Token.ofText?_print h,
    Option.bind_some, ofTokens?_tokens h]

end Document

end TestOrchestrator.Yaml
