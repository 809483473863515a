import Mathlib.Tactic.Choose
import TestOrchestrator.Proofs.History
/-!
# Where parameters come from

The value that an engine sees of a parameter is the first that there is of: what was bound last in
the run, what the caller binds, what the definition gives, and what is found on the way to the test,
from the inside out.

* `Site.param? k site` is what is found on the way; `Site.get?_params` says that only bindings go
  before it.
* `BindingEngine` is an engine that changes the context only by binding; `lastBound b calls k` is
  what some calls bound last, and `History.get?_bindings` says that this is what is seen after them.
* `runAll_params` puts it together for compiled units.
-/

namespace TestOrchestrator

/-! ## Layers -/

/-- The last layer that has a value goes first, and the table at the bottom last. -/
theorem Table.get?_foldl_update {α : Type} (t : Table α) (layers : List (Table α)) (k : String) :
    (layers.foldl Table.update t).get? k = (layers.reverse.findSome? (·.get? k)).or (t.get? k) := by
  induction layers generalizing t with
  | nil => rfl
  | cons layer layers ih =>
    rw [List.foldl_cons, ih, get?_update, List.reverse_cons, List.findSome?_append, Option.or_assoc]
    simp

/-- What a group gives a parameter: the reference by which it was entered goes before the group. -/
def Enclosure.param? (k : String) (g : Enclosure) : Option String :=
  (g.via.bind (·.get? k)).or (g.params.get? k)

/-- What is found on the way to a test: in the reference to it, then in the groups around it from
the inside out, and then in the test. -/
def Member.param? (m : Member) (k : String) : Option String :=
  (m.test.params.get? k).or
    (((m.outer ++ [m.group]).reverse.findSome? (Enclosure.param? k)).or (m.spec.params.get? k))

/-- What is found on the way to what a call is made for. -/
def Site.param? (k : String) : Site → Option String
  | member m => m.param? k
  | alone _ spec _ => spec.params.get? k

theorem Enclosure.findSome?_layers (g : Enclosure) (k : String) :
    g.layers.reverse.findSome? (·.get? k) = g.param? k := by
  obtain ⟨name, params, via⟩ := g
  cases via with
  | none => simp [layers, param?]
  | some via =>
    show [via, params].findSome? (·.get? k) = (via.get? k).or (params.get? k)
    rw [List.findSome?_cons, List.findSome?_singleton]
    cases via.get? k <;> rfl

theorem findSome?_flatMap_layers (gs : List Enclosure) (k : String) :
    (gs.flatMap Enclosure.layers).reverse.findSome? (·.get? k) =
      gs.reverse.findSome? (Enclosure.param? k) := by
  induction gs with
  | nil => rfl
  | cons g gs ih =>
    rw [List.flatMap_cons, List.reverse_append, List.findSome?_append, ih, g.findSome?_layers,
      List.reverse_cons, List.findSome?_append]
    simp

/-- **Only bindings go before what is found on the way.** -/
theorem Site.get?_params (site : Site) (c : Context) (k : String) :
    (site.invocation c).params.get? k = (c.bindings.get? k).or (site.param? k) := by
  cases site with
  | member m =>
    have hlayers : m.layers.reverse.findSome? (·.get? k) =
        (m.test.params.get? k).or ((m.outer ++ [m.group]).reverse.findSome?
          (Enclosure.param? k)) := by
      rw [Member.layers, List.reverse_append, List.findSome?_append, findSome?_flatMap_layers]
      simp
    show ((m.layers.foldl Table.update m.spec.params).update c.bindings).get? k = _
    rw [Table.get?_update, Table.get?_foldl_update, hlayers, Option.or_assoc]
    rfl
  | alone name spec tests => exact Table.get?_update spec.params c.bindings k

/-! ## Bindings -/

variable {σ : Type}

/-- An engine that changes the context only by binding. A call gives the answer, what it bound, in
order, and the state of the engine after it. -/
structure BindingEngine (σ : Type) where
  call : Invocation → Session σ → Except String Suite × List (String × String) × σ

/-- Binds in order. -/
def Context.bindAll (c : Context) (bs : List (String × String)) : Context :=
  bs.foldl (fun c b => c.bind b.1 b.2) c

namespace BindingEngine

/-- The engine. -/
def engine (b : BindingEngine σ) : Engine σ where
  call i s :=
    let (answer, bs, state) := b.call i s
    (answer, ⟨s.context.bindAll bs, state⟩)

/-- **Every engine that changes the context only by binding** is one of these. -/
theorem exists_engine_eq {e : Engine σ}
    (h : ∀ i s, ∃ bs, (e.call i s).2.context = s.context.bindAll bs) :
    ∃ b : BindingEngine σ, b.engine = e := by
  choose bs hbs using h
  refine ⟨⟨fun i s => ((e.call i s).1, bs i s, (e.call i s).2.state)⟩, ?_⟩
  obtain ⟨call⟩ := e
  have hcall : ∀ i s, ((call i s).1,
      (⟨s.context.bindAll (bs i s), (call i s).2.state⟩ : Session σ)) =
      call i s := by
    intro i s
    rw [← hbs i s]
  exact congrArg Engine.mk (funext fun i => funext fun s => hcall i s)

/-- What a call bound, in order, whatever the answer was. -/
def bound (b : BindingEngine σ) (c : EngineCall σ) : List (String × String) :=
  (b.call c.invocation c.session).2.1

/-- What some calls bound a name to last. -/
def lastBound (b : BindingEngine σ) (calls : List (EngineCall σ)) (k : String) : Option String :=
  (calls.flatMap b.bound).reverse.lookup k

end BindingEngine

theorem Context.get?_bindAll (c : Context) (bs : List (String × String)) (k : String) :
    (c.bindAll bs).bindings.get? k = (bs.reverse.lookup k).or (c.bindings.get? k) := by
  induction bs generalizing c with
  | nil => rfl
  | cons b bs ih =>
    have hbind : (c.bind b.1 b.2).bindings.get? k = ([b].lookup k).or (c.bindings.get? k) := by
      rw [bind, Table.get?_insert, List.lookup_cons]
      by_cases hk : k = b.1
      · simp [hk]
      · have hb : (k == b.1) = false := by simp [hk]
        simp [hk, hb]
    rw [bindAll, List.foldl_cons, ← bindAll, ih, hbind, List.reverse_cons, List.lookup_append,
      Option.or_assoc]

/-- **What is seen after some calls is what they bound last.** -/
theorem History.get?_bindings {b : BindingEngine σ} {s s' : Session σ} {calls : List (EngineCall σ)}
    (h : History b.engine s calls s') (k : String) :
    s'.context.bindings.get? k = (b.lastBound calls k).or (s.context.bindings.get? k) := by
  induction h with
  | nil => rfl
  | @call i s s' s'' calls here rest ih =>
    have hcontext : s'.context = s.context.bindAll (b.bound ⟨i, s⟩) := by
      rw [← here]
      rfl
    rw [ih, hcontext, Context.get?_bindAll, BindingEngine.lastBound, BindingEngine.lastBound,
      List.flatMap_cons, List.reverse_append, List.lookup_append, Option.or_assoc]
  | record label rest ih => exact ih

/-! ## The start of a run -/

variable {env : Variables} {d : Definition} {baseDir : Path} {includeDirs : List Path}
  {p : Parameters}

theorem Context.get?_bindParam (t : Params) (name : String) (b : Binding) (k : String) :
    (bindParam env t (name, b)).get? k =
      if k = name then (b.resolve env).or (t.get? k) else t.get? k := by
  unfold bindParam
  cases b.resolve env with
  | none => simp
  | some value => simp [Table.get?_insert]

theorem Context.get?_foldl_bindParam {ps : List (String × Binding)}
    (h : ps.Pairwise (fun p q => Text.Precedes p.1 q.1)) (t : Params) (k : String) :
    (ps.foldl (bindParam env) t).get? k =
      ((ps.lookup k).bind (Binding.resolve env)).or (t.get? k) := by
  induction ps generalizing t with
  | nil => rfl
  | cons p ps ih =>
    obtain ⟨name, b⟩ := p
    obtain ⟨hp, hps⟩ := List.pairwise_cons.1 h
    rw [List.foldl_cons, ih hps, List.lookup_cons, get?_bindParam]
    by_cases hk : k = name
    · subst hk
      rw [Table.lookup_eq_none_of_precedes hp]
      simp
    · have hne : (k == name) = false := by simp [hk]
      simp [hk, hne]

/-- **A run begins with what the caller binds and else with what the definition gives.** -/
theorem Context.get?_forRun (k : String) :
    (forRun env d baseDir includeDirs p).bindings.get? k =
      (p.bindings.get? k).or ((d.params.get? k).bind (Binding.resolve env)) := by
  rw [forRun, Table.get?_update, get?_foldl_bindParam d.params.sorted, Table.get?_empty,
    Option.or_none]
  rfl

/-! ## Runs -/

/-- Something of a unit: a member of the group that it is, or the test or suite that it is. -/
def Site.Of (d : Definition) (u : RunUnit) : Site → Prop
  | member m => ∃ root, u = .group root ∧ m.Of d root
  | alone name spec tests =>
    (u = .suite name tests ∨ u = .test name ∧ tests = []) ∧ d.test? name = some spec

theorem Definition.sites_of {u : RunUnit} {sites : List Site} (h : d.sites? u = some sites) :
    ∀ site ∈ sites, site.Of d u := by
  intro site hsite
  cases u with
  | group name =>
    obtain ⟨ms, hms, rfl⟩ := Option.map_eq_some_iff.1 h
    obtain ⟨m, hm, rfl⟩ := List.mem_map.1 hsite
    exact ⟨name, rfl, members_nil_of hms m hm⟩
  | suite name tests =>
    obtain ⟨spec, hspec, rfl⟩ := Option.map_eq_some_iff.1 h
    cases List.mem_singleton.1 hsite
    exact ⟨.inl rfl, hspec⟩
  | test name =>
    obtain ⟨spec, hspec, rfl⟩ := Option.map_eq_some_iff.1 h
    cases List.mem_singleton.1 hsite
    exact ⟨.inr ⟨rfl, rfl⟩, hspec⟩

theorem Visits.of {u : RunUnit} {vs : List (Site × EngineCall σ)} (h : Visits d u vs) :
    ∀ v ∈ vs, v.1.Of d u := by
  intro v hv
  obtain ⟨sites, hsites, hfirst⟩ := h.sites
  exact Definition.sites_of hsites v.1 (hfirst.subset (List.mem_map_of_mem hv))

/-- **What an engine sees of a parameter** in any call of a run of compiled units. -/
theorem runAll_params {sel : Selection} {us : List RunUnit} (h : d.compile sel = .ok us)
    (b : BindingEngine σ) (now : Timestamp) (env : Variables) (baseDir : Path)
    (includeDirs : List Path) (p : Parameters) (state : σ) :
    ∃ parts os s',
      runAll b.engine now d us ⟨.forRun env d baseDir includeDirs p, state⟩ = some (os, s') ∧
      runAll b.engine.recorded now d us ⟨.forRun env d baseDir includeDirs p, state, []⟩ =
        some (os, s'.logged (parts.flatten.map Prod.snd)) ∧
      List.Forall₂ (Visits d) us parts ∧
      ∀ before site call after, parts.flatten = before ++ (site, call) :: after →
        (∃ u ∈ us, site.Of d u) ∧
        ∀ k, call.invocation.params.get? k =
          (b.lastBound (before.map Prod.snd) k).or
            ((p.bindings.get? k).or
              (((d.params.get? k).bind (Binding.resolve env)).or (site.param? k))) := by
  obtain ⟨hrunnable, rfl⟩ := Definition.compile_eq_ok_iff.1 h
  obtain ⟨parts, os, s', hrun⟩ := exists_wholeRun hrunnable b.engine now
    ⟨.forRun env d baseDir includeDirs p, state⟩
  refine ⟨parts, os, s', hrun.run, hrun.recorded [], hrun.visits, ?_⟩
  intro before site call after hsplit
  have hmem : (site, call) ∈ parts.flatten := by
    rw [hsplit]
    exact List.mem_append_cons_self
  obtain ⟨vs, hvs, hv⟩ := List.mem_flatten.1 hmem
  obtain ⟨u, hu, hvisits⟩ := exists_of_mem_right hrun.visits hvs
  -- the calls before this one are a history that ends where this one was made
  have hcalls : parts.flatten.map Prod.snd =
      before.map Prod.snd ++ call :: after.map Prod.snd := by
    rw [hsplit, List.map_append, List.map_cons]
  have hbefore := hrun.history.before hcalls
  refine ⟨⟨u, hu, hvisits.of _ hv⟩, fun k => ?_⟩
  have hinvocation : call.invocation = site.invocation call.session.context :=
    hvisits.invocations _ hv
  rw [hinvocation, Site.get?_params, hbefore.get?_bindings, Context.get?_forRun, Option.or_assoc,
    Option.or_assoc]

/-! ## Values from every level -/

/-- One value under some of the first letters. -/
def letters (count : Nat) (value : String) : Params :=
  .ofList ((["a", "b", "c", "d", "e", "f", "g", "h"].take count).map (·, value))

/-- A group that another lists. -/
def innerGroup : GroupSpec where
  params := letters 6 "inner group"
  tests := [⟨"second", letters 4 "test reference"⟩]

/-- A group with a test and that group. -/
def outerGroup : GroupSpec where
  params := letters 7 "outer group"
  tests := [⟨"first", .empty⟩]
  groups := [⟨"inner", letters 5 "group reference"⟩]

/-- These groups, with parameters at all levels; the later they count, the more. -/
def graded : Definition where
  name := "graded"
  tests := .ofList [("first", { path := "first" }),
    ("second", { path := "second", params := letters 8 "test" })]
  groups := .ofList [("inner", innerGroup), ("outer", outerGroup)]
  params := .ofList [("a", { value := "definition" }), ("b", { value := "definition" }),
    ("c", { value := "definition", env := "SITE" })]

theorem graded_wellNested : graded.WellNested [] "outer" := by
  have hinner : graded.WellNested ([] ++ ["outer"]) "inner" :=
    .intro (by decide) rfl (by decide) (fun r hr => by cases hr)
  refine .intro (by decide) rfl (by decide) fun r hr => ?_
  cases List.mem_singleton.1 hr
  exact hinner

theorem compile_graded : graded.compile { groups := ["outer"] } = .ok [.group "outer"] := by
  refine Definition.compile_eq_ok_iff.2 ⟨fun u hu => ?_, rfl⟩
  cases List.mem_singleton.1 hu
  exact graded_wellNested

/-- The first member of the group. -/
def firstMember : Member where
  outer := []
  group := ⟨"outer", letters 7 "outer group", none⟩
  test := ⟨"first", .empty⟩
  spec := { path := "first" }

/-- The second member, inside the other group. -/
def secondMember : Member where
  outer := [firstMember.group]
  group := ⟨"inner", letters 6 "inner group", some (letters 5 "group reference")⟩
  test := ⟨"second", letters 4 "test reference"⟩
  spec := { path := "second", params := letters 8 "test" }

theorem members_graded :
    graded.members? [] "outer" none = some [firstMember, secondMember] := by
  have hinner : graded.members? ([] ++ [⟨"outer", letters 7 "outer group", none⟩]) "inner"
      (some (letters 5 "group reference")) = some [secondMember] := by
    rw [Definition.members?]
    rfl
  have hgroups : [Ref.mk "inner" (letters 5 "group reference")].mapM (fun r =>
      graded.members? ([] ++ [⟨"outer", letters 7 "outer group", none⟩]) r.name (some r.params)) =
        some [[secondMember]] := by
    rw [List.mapM_cons, hinner]
    rfl
  have houter : graded.group? "outer" = some outerGroup := rfl
  exact Definition.members?_of_defined houter rfl hgroups

/-- Two calls for the group are for its members, in order. -/
theorem Visits.of_graded {vs : List (Site × EngineCall σ)} (h : Visits graded (.group "outer") vs)
    (hlength : vs.length = 2) : ∃ first second,
      vs = [(.member firstMember, first), (.member secondMember, second)] ∧
        first.invocation = firstMember.invocation first.session.context ∧
        second.invocation = secondMember.invocation second.session.context := by
  have hsites : graded.sites? (.group "outer") =
      some [.member firstMember, .member secondMember] := by
    rw [Definition.sites?, members_graded]
    rfl
  obtain ⟨sites, hsites', hfirst⟩ := h.sites
  cases hsites'.symm.trans hsites
  obtain ⟨⟨_, first⟩, ⟨_, second⟩, rfl⟩ := List.length_eq_two.1 hlength
  cases hfirst.eq_of_length rfl
  exact ⟨first, second, rfl, h.invocations _ List.mem_cons_self,
    h.invocations _ (List.mem_cons_of_mem _ List.mem_cons_self)⟩

/-- An engine that binds a name in each call and answers with a suite that passed. -/
def binding : BindingEngine Unit where
  call i _ := (.ok (.ofCases ⟨2024, 1, 1, 0, 0, 0, 0⟩ i.name [{ name := "case" }]),
    [("a", "call " ++ i.name)], ())

/-- An environment with one variable. -/
def siteOnly : Variables := fun name => if name = "SITE" then some "environment" else none

theorem runAll_params_graded :
    graded.compile { groups := ["outer"] } = .ok [.group "outer"] ∧
    ∃ os s' first second,
      runAll binding.engine ⟨2024, 1, 1, 0, 0, 0, 0⟩ graded [.group "outer"]
        ⟨.forRun siteOnly graded ⟨"/"⟩ [] { bindings := letters 2 "caller" }, ()⟩ = some (os, s') ∧
      runAll binding.engine.recorded ⟨2024, 1, 1, 0, 0, 0, 0⟩ graded [.group "outer"]
        ⟨.forRun siteOnly graded ⟨"/"⟩ [] { bindings := letters 2 "caller" }, (), []⟩ =
          some (os, s'.logged [first, second]) ∧
      first.invocation.name = "first" ∧ second.invocation.name = "second" ∧
      ∀ p ∈ [("a", "call first"), ("b", "caller"), ("c", "environment"), ("d", "test reference"),
          ("e", "group reference"), ("f", "inner group"), ("g", "outer group"), ("h", "test")],
        second.invocation.params.get? p.1 = some p.2 := by
  obtain ⟨parts, os, s', hrun, hrecorded, hvisits, hparams⟩ := runAll_params compile_graded binding
    ⟨2024, 1, 1, 0, 0, 0, 0⟩ siteOnly ⟨"/"⟩ [] { bindings := letters 2 "caller" } ()
  have hlog : (runAll binding.engine.recorded ⟨2024, 1, 1, 0, 0, 0, 0⟩ graded [.group "outer"]
      ⟨.forRun siteOnly graded ⟨"/"⟩ [] { bindings := letters 2 "caller" }, (), []⟩).map
        (·.2.state.2.length) = some 2 := by
    rw [runAll, RunUnit.runRecorded, RunUnit.run_group graded_wellNested members_graded]
    decide +kernel
  rw [hrecorded] at hlog
  have hlength : (parts.flatten.map Prod.snd).length = 2 := Option.some.inj hlog
  obtain ⟨vs, rest, hvs, hrest, rfl⟩ := List.forall₂_cons_left_iff.1 hvisits
  cases hrest
  rw [List.flatten_singleton, List.length_map] at hlength
  obtain ⟨first, second, rfl, hfirst, hsecond⟩ := hvs.of_graded hlength
  refine ⟨compile_graded, os, s', first, second, hrun, hrecorded, congrArg Invocation.name hfirst,
    congrArg Invocation.name hsecond, ?_⟩
  have hbound : ∀ k, binding.lastBound [first] k = [("a", "call first")].lookup k := by
    intro k
    show [("a", "call " ++ first.invocation.name)].lookup k = _
    rw [hfirst]
    rfl
  have hvalues := (hparams [_] (.member secondMember) second [] rfl).2
  simp only [List.map_cons, List.map_nil, hbound] at hvalues
  simp only [hvalues]
  decide +kernel

end TestOrchestrator
