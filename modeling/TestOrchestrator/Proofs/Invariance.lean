import TestOrchestrator.Sequence
/-!
# What runs keep

What every call of an engine keeps, the run of a unit keeps as well, whichever unit it is: one that
names nothing, and one that is a group inside itself, included, as long as the run ends.

* `Engine.Preserves e I` says that the calls of an engine keep a property of sessions.
* `Engine.runGroupFrom` is the run of a group as a function of where it starts (`runGroup_eq`). What
  it comes to is found at some depth, which gives an induction that `runGroup` has not.
* `RunUnit.run_preserves` is the main statement. `RunUnit.run_executed`: an engine that leaves the
  record of executed units alone does so in a whole unit.
-/

namespace TestOrchestrator

variable {σ α β : Type} {I : Session σ → Prop} {e : Engine σ}

/-- Every call keeps a property of sessions. -/
def Engine.Preserves (e : Engine σ) (I : Session σ → Prop) : Prop :=
  ∀ i s, I s → I (e.call i s).2

theorem Engine.Preserves.invoke (h : e.Preserves I) {i : Invocation} {s s' : Session σ}
    {answer : Except String Suite} (call : e.invoke i s = (answer, s')) (hs : I s) : I s' := by
  have hcall : (e.call i s).2 = s' := congrArg Prod.snd call
  rw [← hcall]
  exact h i s hs

/-! ## Parts of the run of a group -/

namespace GroupRun

/-- What holds where a part of a run starts holds where it ends. -/
def Preserves (I : Session σ → Prop) (x : GroupRun σ α) : Prop :=
  ∀ p q r, x.runFrom p = some (r, q) → I p.session → I q.session

namespace Preserves

theorem pure (a : α) : Preserves I (Pure.pure a : GroupRun σ α) := by
  intro p q r h hp
  cases h
  exact hp

theorem throw (err : ExecutionError) : Preserves I (throw err : GroupRun σ α) := by
  intro p q r h hp
  cases h
  exact hp

theorem modify {f : Progress σ → Progress σ} (hf : ∀ p, (f p).session = p.session) :
    Preserves I (modify f : GroupRun σ PUnit) := by
  intro p q r h hp
  cases h
  exact (hf p).symm ▸ hp

theorem get_bind {f : Progress σ → GroupRun σ α} (hf : ∀ p, Preserves I (f p)) :
    Preserves I (get >>= f) := by
  intro p q r h hp
  rw [runFrom_get_bind] at h
  exact hf p p q r h hp

theorem bind {x : GroupRun σ α} {f : α → GroupRun σ β} (hx : Preserves I x)
    (hf : ∀ a, Preserves I (f a)) : Preserves I (x >>= f) := by
  intro p q r h hp
  rw [runFrom_bind, Option.bind_eq_some_iff] at h
  obtain ⟨⟨r', p'⟩, hx', h⟩ := h
  have hp' : I p'.session := hx p p' r' hx' hp
  cases r' with
  | error err =>
    cases h
    exact hp'
  | ok a => exact hf a p' q r h hp'

theorem forM {xs : List β} {f : β → GroupRun σ PUnit} (h : ∀ x ∈ xs, Preserves I (f x)) :
    Preserves I (forM xs f) := by
  induction xs with
  | nil => exact .pure ()
  | cons x xs ih =>
    obtain ⟨hx, hxs⟩ := List.forall_mem_cons.1 h
    rw [List.forM_cons]
    exact hx.bind fun _ => ih hxs

end Preserves

end GroupRun

variable {d : Definition} {label : String}

theorem runMember_preserves (h : e.Preserves I) (group : String) (t : Ref) :
    GroupRun.Preserves I (runMember e d label group t) := by
  cases htest : d.test? t.name with
  | none =>
    rw [runMember, htest]
    exact .throw _
  | some spec =>
    intro p q r hrun hp
    rw [runFrom_runMember e d label htest] at hrun
    obtain ⟨answer, s', hcall⟩ : ∃ answer s',
        e.invoke (.of p.session.context t.name spec (p.layers ++ [t.params])) p.session =
          (answer, s') :=
      ⟨_, _, rfl⟩
    have hs' : I s' := h.invoke hcall hp
    rw [hcall] at hrun
    cases answer with
    | error why =>
      cases hrun
      exact hs'
    | ok suite =>
      dsimp only at hrun
      cases habsorb : p.merged.absorb? suite with
      | none =>
        rw [habsorb] at hrun
        cases hrun
        exact hs'
      | some merged =>
        rw [habsorb] at hrun
        cases hrun
        exact hs'

/-- The run of a group as a function of where it starts. -/
def Engine.runGroupFrom (e : Engine σ) (d : Definition) (label name : String)
    (via : Option Params) :
    Progress σ → Option (Except ExecutionError Unit × Progress σ) :=
  (do
    match d.group? name with
    | none => throw ⟨label, notDefined "group" name⟩
    | some g =>
      let depth := (← get).layers.length
      modify (Progress.enter g via)
      g.tests.forM (runMember e d label name)
      g.groups.forM fun r => (e |>.runGroupFrom d label r.name (some r.params) : GroupRun σ Unit)
      modify (Progress.leave depth) : GroupRun σ Unit)
partial_fixpoint

theorem runGroup_eq (e : Engine σ) (d : Definition) (label : String) :
    runGroup e d label = e.runGroupFrom d label := by
  with_unfolding_all rfl

/-- **The run of a group keeps what every call keeps**, if it ends. -/
theorem runGroup_preserves (h : e.Preserves I) (name : String) (via : Option Params) :
    GroupRun.Preserves I (runGroup e d label name via) := by
  intro p q r hrun
  rw [runGroup_eq] at hrun
  refine Engine.runGroupFrom.partial_correctness e d label
    (fun _ _ p x => I p.session → I x.2.session) ?_ name via p (r, q) hrun
  intro below ih name via p x hx
  -- the groups below are run by something of which only this is known
  have hbelow : ∀ (name : String) (via : Option Params),
      GroupRun.Preserves I (below name via : GroupRun σ Unit) :=
    fun name via p q r hq => ih name via p (r, q) hq
  have hbody : GroupRun.Preserves I (do
      match d.group? name with
      | none => throw ⟨label, notDefined "group" name⟩
      | some g =>
        let depth := (← get).layers.length
        modify (Progress.enter g via)
        g.tests.forM (runMember e d label name)
        g.groups.forM fun r => (below r.name (some r.params) : GroupRun σ Unit)
        modify (Progress.leave depth) : GroupRun σ Unit) := by
    cases d.group? name with
    | none => exact .throw _
    | some g =>
      refine .get_bind fun p => .bind (.modify fun _ => rfl) fun _ => ?_
      refine .bind (.forM fun t _ => runMember_preserves h name t) fun _ => ?_
      exact .bind (.forM fun r _ => hbelow r.name _) fun _ => .modify fun _ => rfl
  exact hbody p x.2 x.1 hx

/-! ## Units -/

variable {now : Timestamp} {s s' : Session σ} {o : Outcome}

theorem runAlone_preserves (h : e.Preserves I) {kind name : String} {tests : List String}
    (hrun : runAlone e d label kind name tests s = (o, s')) (hs : I s) : I s' := by
  cases htest : d.test? name with
  | none =>
    rw [runAlone, htest] at hrun
    cases hrun
    exact hs
  | some spec =>
    obtain ⟨answer, s'', hcall⟩ :
        ∃ answer s'', e.invoke (.of s.context name spec [] tests) s = (answer, s'') := ⟨_, _, rfl⟩
    have hs'' : I s'' := h.invoke hcall hs
    rw [runAlone, htest] at hrun
    dsimp only at hrun
    rw [hcall] at hrun
    cases answer <;> cases hrun <;> exact hs''

/-- **The run of a unit keeps what every call keeps**, if it ends. -/
theorem RunUnit.run_preserves (h : e.Preserves I) {u : RunUnit}
    (hrun : u.run e now d s = some (o, s')) (hs : I s) : I s' := by
  cases u with
  | group name =>
    rw [run, runWhole] at hrun
    obtain ⟨⟨r, q⟩, hq, hrun⟩ := Option.bind_eq_some_iff.1 hrun
    have hkept : I q.session := runGroup_preserves h name none _ q r hq hs
    cases r <;> cases hrun <;> exact hkept
  | suite name tests => exact runAlone_preserves h (Option.some.inj hrun) hs
  | test name => exact runAlone_preserves h (Option.some.inj hrun) hs

/-! ## The record of executed units -/

/-- An engine that leaves the record of executed units alone. -/
def Engine.KeepsLog (e : Engine σ) : Prop :=
  ∀ i s, (e.call i s).2.context.executed = s.context.executed

/-- A unit leaves the record alone; it is noted there only after its run. -/
theorem RunUnit.run_executed (h : e.KeepsLog) {u : RunUnit}
    (hrun : u.run e now d s = some (o, s')) : s'.context.executed = s.context.executed := by
  have hkeeps : e.Preserves fun t => t.context.executed = s.context.executed :=
    fun i t ht => (h i t).trans ht
  exact run_preserves hkeeps hrun rfl

end TestOrchestrator
