import TestOrchestrator.Compilation
import TestOrchestrator.Outcome
/-!
# Running groups

* `runGroup` runs the tests of a group and then its groups, depth first, and merges the suites into
  one. The first call that fails, or the first suite that does not fit, ends it. It looks for no
  cycle: on a group that is inside itself it has no result.
* `runGroup_total` says that it has one on every group that a walk accepts.
-/

namespace TestOrchestrator

/-- Where the run of a group stands. -/
structure Progress (σ : Type) where
  session : Session σ
  /-- The parameters of the groups that the run is inside; later ones go before earlier ones. -/
  layers : List Params
  /-- The suites so far in one. -/
  merged : Suite

/-- A part of the run of a group. It may fail, and it may not end. -/
abbrev GroupRun (σ : Type) := ExceptT ExecutionError (StateT (Progress σ) Option)

namespace Progress

variable {σ : Type}

/-- Inside a group, which may have been entered by a reference with parameters of its own. -/
def enter (g : GroupSpec) (via : Option Params) (p : Progress σ) : Progress σ :=
  { p with layers := p.layers ++ g.params :: via.toList }

/-- Back where there were so many layers. -/
def leave (depth : Nat) (p : Progress σ) : Progress σ := { p with layers := p.layers.take depth }

end Progress

variable {σ : Type} (e : Engine σ) (d : Definition) (label : String)

/-- Runs a test that a group lists and merges its suite. -/
def runMember (group : String) (t : Ref) : GroupRun σ Unit := do
  match d.test? t.name with
  | none => throw ⟨label, notDefined "test" t.name⟩
  | some spec =>
    let p ← get
    let i := Invocation.of p.session.context t.name spec (p.layers ++ [t.params])
    let (answer, session) := e.invoke i p.session
    set { p with session }
    match answer with
    | .error why => throw ⟨label, inGroup t.name group why⟩
    | .ok suite =>
      match p.merged.absorb? suite with
      | none => throw ⟨label, Suite.overflowMessage suite.name⟩
      | some merged => set { p with session, merged }

/-- Runs the tests of a group and then its groups. -/
def Engine.runGroup (e : Engine σ) (d : Definition) (label name : String) (via : Option Params) :
    GroupRun σ Unit := do
  match d.group? name with
  | none => throw ⟨label, notDefined "group" name⟩
  | some g =>
    let depth := (← get).layers.length
    modify (Progress.enter g via)
    g.tests.forM (runMember e d label name)
    g.groups.forM fun r => e |>.runGroup d label r.name (some r.params)
    modify (Progress.leave depth)
partial_fixpoint

export Engine (runGroup)

/-! ## Groups that a walk accepts -/

namespace GroupRun

variable {σ α β : Type}

/-- What a part of a run comes to from where the run stands. -/
def runFrom (x : GroupRun σ α) (p : Progress σ) : Option (Except ExecutionError α × Progress σ) :=
  x.run.run p

theorem runFrom_bind (x : GroupRun σ α) (f : α → GroupRun σ β) (p : Progress σ) :
    (x >>= f).runFrom p =
      (x.runFrom p).bind fun
        | (.ok a, q) => (f a).runFrom q
        | (.error err, q) => some (.error err, q) := by
  show (x.runFrom p).bind _ = _
  congr 1
  funext ⟨r, q⟩
  cases r <;> rfl

theorem runFrom_get_bind (f : Progress σ → GroupRun σ α) (p : Progress σ) :
    (get >>= f).runFrom p = (f p).runFrom p := rfl

theorem runFrom_set_bind (f : PUnit → GroupRun σ α) (p q : Progress σ) :
    (set q >>= f).runFrom p = (f ()).runFrom q := rfl

/-- A part of a run that ends wherever the run stands. -/
def Total (x : GroupRun σ α) : Prop := ∀ p, (x.runFrom p).isSome

theorem Total.bind {x : GroupRun σ α} {f : α → GroupRun σ β} (hx : x.Total)
    (hf : ∀ a, (f a).Total) : (x >>= f).Total := by
  intro p
  rw [runFrom_bind]
  obtain ⟨⟨r, q⟩, hr⟩ := Option.isSome_iff_exists.1 (hx p)
  rw [hr]
  cases r with
  | error err => rfl
  | ok a => exact hf a q

theorem Total.forM {xs : List β} {f : β → GroupRun σ Unit} (h : ∀ x ∈ xs, (f x).Total) :
    (forM xs f).Total := by
  induction xs with
  | nil => exact fun _ => rfl
  | cons x xs ih =>
    obtain ⟨hx, hxs⟩ := List.forall_mem_cons.1 h
    rw [List.forM_cons]
    exact hx.bind fun _ => ih hxs

end GroupRun

/-- What the run of a test that is defined comes to. -/
theorem runFrom_runMember {group : String} {t : Ref} {spec : TestSpec}
    (h : d.test? t.name = some spec) (p : Progress σ) :
    (runMember e d label group t).runFrom p =
      match e.invoke (.of p.session.context t.name spec (p.layers ++ [t.params])) p.session with
      | (.error why, session) => some (.error ⟨label, inGroup t.name group why⟩, { p with session })
      | (.ok suite, session) =>
        match p.merged.absorb? suite with
        | none => some (.error ⟨label, Suite.overflowMessage suite.name⟩, { p with session })
        | some merged => some (.ok (), { p with session, merged }) := by
  rw [runMember, h]
  simp only [GroupRun.runFrom_get_bind]
  rcases e.invoke _ p.session with ⟨answer, session⟩
  cases answer with
  | error why => rfl
  | ok suite =>
    simp only [GroupRun.runFrom_set_bind]
    cases p.merged.absorb? suite <;> rfl

/-- Runs the members of a group, from inside it. -/
def runInside (name : String) (g : GroupSpec) : GroupRun σ Unit := do
  g.tests.forM (runMember e d label name)
  g.groups.forM fun r => runGroup e d label r.name (some r.params)

/-- The run of a group that is defined: its members, from inside it. -/
theorem runFrom_runGroup {name : String} {g : GroupSpec} (h : d.group? name = some g)
    (via : Option Params) (p : Progress σ) :
    (runGroup e d label name via).runFrom p =
      ((runInside e d label name g).runFrom (p.enter g via)).bind fun
        | (.ok (), q) => some (.ok (), q.leave p.layers.length)
        | (.error err, q) => some (.error err, q) := by
  rw [runGroup, h, runInside]
  show GroupRun.runFrom (do
    g.tests.forM (runMember e d label name)
    g.groups.forM fun r => runGroup e d label r.name (some r.params)
    modify (Progress.leave p.layers.length)) (p.enter g via) = _
  rw [GroupRun.runFrom_bind, GroupRun.runFrom_bind, Option.bind_assoc]
  congr 1
  funext ⟨r, q⟩
  cases r with
  | error err => rfl
  | ok u =>
    refine (GroupRun.runFrom_bind _ _ q).trans ?_
    show Option.bind _ _ = Option.bind _ _
    congr 1
    funext ⟨r, q⟩
    cases r <;> rfl

variable {d}

theorem runMember_total {group : String} {t : Ref} (h : (d.test? t.name).isSome) :
    (runMember e d label group t).Total := by
  obtain ⟨spec, hspec⟩ := Option.isSome_iff_exists.1 h
  intro p
  rw [runFrom_runMember e d label hspec]
  generalize e.invoke _ p.session = r
  obtain ⟨answer, session⟩ := r
  cases answer with
  | error why => rfl
  | ok suite =>
    dsimp only
    cases p.merged.absorb? suite <;> rfl

/-- **The run of a group ends** if a walk accepts the group. -/
theorem runGroup_total {path : List String} {name : String} (h : d.WellNested path name)
    (via : Option Params) : (runGroup e d label name via).Total := by
  induction h generalizing via with
  | @intro path name g fresh defined tests groups ih =>
    have hmembers : (runInside e d label name g).Total :=
      .bind (.forM fun t ht => runMember_total e label (tests t ht)) fun _ =>
        .forM fun r hr => ih r hr _
    intro p
    rw [runFrom_runGroup e d label defined]
    obtain ⟨⟨r, q⟩, hr⟩ := Option.isSome_iff_exists.1 (hmembers (p.enter g via))
    rw [hr]
    cases r <;> rfl

end TestOrchestrator
