import TestOrchestrator.Proofs.Units
/-!
# Calls of a whole run

* `History e s calls s'` is a sequence of calls each of which was made where the one before it left
  the run; between units the context notes what was run.
* `WholeRun e now d us s parts os s'` is the run of units with the calls of each and what they were
  made for. `exists_wholeRun` says that units that can be run have one.
-/

namespace TestOrchestrator

variable {σ : Type}

/-! ## Histories -/

/-- Calls in sequence, with units recorded in between. -/
inductive History (e : Engine σ) : Session σ → List (EngineCall σ) → Session σ → Prop
  | nil {s : Session σ} : History e s [] s
  | call {i : Invocation} {s s' s'' : Session σ} {calls : List (EngineCall σ)}
      (here : (e.invoke i s).2 = s') (rest : History e s' calls s'') :
      History e s (⟨i, s⟩ :: calls) s''
  | record {s s' : Session σ} {calls : List (EngineCall σ)} (label : String)
      (rest : History e { s with context := s.context.record label } calls s') :
        History e s calls s'

variable {e : Engine σ} {s s' s'' : Session σ} {calls calls' : List (EngineCall σ)}

theorem Chained.history (h : Chained e s calls s') (rest : History e s' calls' s'') :
    History e s (calls ++ calls') s'' := by
  induction h with
  | nil => exact rest
  | cons here _ ih => exact .call here (ih rest)

/-- What came before a call is a history that ends where the call was made. -/
theorem History.before (h : History e s calls s') {before after : List (EngineCall σ)}
    {c : EngineCall σ} (hcalls : calls = before ++ c :: after) : History e s before c.session := by
  induction h generalizing before with
  | nil => simp at hcalls
  | call here rest ih =>
    cases before with
    | nil =>
      cases hcalls
      exact .nil
    | cons b before =>
      cases hcalls
      exact .call here (ih rfl)
  | record label rest ih => exact .record label (ih hcalls)

/-! ## Units in sequence -/

variable {d : Definition} {now : Timestamp} {u : RunUnit} {us : List RunUnit}

/-- Calls with what they were made for: the first of the sites of a unit, in their order. -/
structure Visits (d : Definition) (u : RunUnit) (vs : List (Site × EngineCall σ)) : Prop where
  sites : ∃ sites, d.sites? u = some sites ∧ vs.map Prod.fst <+: sites
  invocations : ∀ v ∈ vs, v.2.invocation = v.1.invocation v.2.session.context

theorem UnitRun.exists_visits {o : Outcome} (h : UnitRun e now d u s calls o s') :
    ∃ vs, vs.map Prod.snd = calls ∧ Visits d u vs := by
  obtain ⟨sites, hsites, hserves⟩ := h.serves
  have hlength : (sites.take calls.length).length = calls.length := hserves.length_eq
  refine ⟨(sites.take calls.length).zip calls, List.map_snd_zip (Nat.le_of_eq hlength.symm), ?_, ?_⟩
  · refine ⟨sites, hsites, ?_⟩
    rw [List.map_fst_zip (Nat.le_of_eq hlength)]
    exact List.take_prefix calls.length sites
  · rintro ⟨site, c⟩ hv
    exact (List.forall₂_iff_zip.1 hserves).2 hv

/-- The run of units, with the calls of each. -/
structure WholeRun (e : Engine σ) (now : Timestamp) (d : Definition) (us : List RunUnit)
    (s : Session σ) (parts : List (List (Site × EngineCall σ))) (os : List Outcome)
    (s' : Session σ) : Prop where
  run : runAll e now d us s = some (os, s')
  recorded : ∀ log, runAll e.recorded now d us (s.logged log) =
    some (os, s'.logged (log ++ parts.flatten.map Prod.snd))
  history : History e s (parts.flatten.map Prod.snd) s'
  visits : List.Forall₂ (Visits d) us parts

/-- **Units that can be run have a run**, whatever the engine does. -/
theorem exists_wholeRun (h : ∀ u ∈ us, d.Runnable u) (e : Engine σ) (now : Timestamp)
    (s : Session σ) : ∃ parts os s', WholeRun e now d us s parts os s' := by
  induction us generalizing s with
  | nil =>
    refine ⟨[], [], s, rfl, fun log => ?_, .nil, .nil⟩
    rw [List.flatten_nil, List.map_nil, List.append_nil]
    rfl
  | cons u us ih =>
    obtain ⟨hu, hus⟩ := List.forall_mem_cons.1 h
    obtain ⟨calls, o, s₁, hrun⟩ := hu.exists_unitRun e now s
    obtain ⟨vs, rfl, hvs⟩ := hrun.exists_visits
    obtain ⟨parts, os, s₂, hrest⟩ := ih hus { s₁ with context := s₁.context.record u.label }
    refine ⟨vs :: parts, o :: os, s₂, runAll_cons hrun.run hrest.run, fun log => ?_, ?_,
      .cons hvs hrest.visits⟩
    · rw [List.flatten_cons, List.map_append, ← List.append_assoc]
      exact runAll_cons (hrun.recorded log) (hrest.recorded _)
    · rw [List.flatten_cons, List.map_append]
      exact hrun.chained.history (.record u.label hrest.history)

end TestOrchestrator
