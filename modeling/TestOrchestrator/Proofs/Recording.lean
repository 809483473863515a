import TestOrchestrator.Proofs.Members
/-!
# Calls of an engine

What a run asks an engine to do can be seen from the engine alone.

* `Engine.recorded` is the engine with its calls kept. It answers as the engine does
  (`recorded_invoke`), so it is only used to look at the calls of a run.
* `Chained e s calls s'` says that each call was made where the one before it left the run.
* `Loop e label ms merged s calls o s'` is the loop over members once more, with its calls.
  `exists_loop` says that there always is one, and `Loop.runMembers_recorded` that its calls are
  those that are kept.
-/

namespace TestOrchestrator

variable {σ : Type}

/-! ## Calls -/

/-- One call of an engine: what it was asked to run, and where the run stood. -/
structure EngineCall (σ : Type) where
  invocation : Invocation
  session : Session σ

/-- What came back; a suite without a name has that of the test. -/
def EngineCall.answer (e : Engine σ) (c : EngineCall σ) : Except String Suite :=
  (e.invoke c.invocation c.session).1

/-- Where a run stands, with the calls so far. -/
def Session.logged (s : Session σ) (calls : List (EngineCall σ)) :
    Session (σ × List (EngineCall σ)) := ⟨s.context, s.state, calls⟩

/-- The engine with its calls kept. -/
def Engine.recorded (e : Engine σ) : Engine (σ × List (EngineCall σ)) where
  call i s :=
    let before : Session σ := ⟨s.context, s.state.1⟩
    let (answer, after) := e.call i before
    (answer, after.logged (s.state.2 ++ [⟨i, before⟩]))

variable {e : Engine σ} {i : Invocation} {s s' s'' : Session σ} {calls log : List (EngineCall σ)}

theorem Engine.recorded_invoke {answer : Except String Suite} (h : e.invoke i s = (answer, s'))
    (log : List (EngineCall σ)) :
    e.recorded.invoke i (s.logged log) = (answer, s'.logged (log ++ [⟨i, s⟩])) := by
  show ((e.invoke i s).1, (e.invoke i s).2.logged (log ++ [⟨i, s⟩])) = _
  rw [h]

/-- Calls each of which was made where the one before it left the run. -/
inductive Chained (e : Engine σ) : Session σ → List (EngineCall σ) → Session σ → Prop
  | nil {s : Session σ} : Chained e s [] s
  | cons {i : Invocation} {s s' s'' : Session σ} {calls : List (EngineCall σ)}
      (here : (e.invoke i s).2 = s') (rest : Chained e s' calls s'') :
      Chained e s (⟨i, s⟩ :: calls) s''

theorem Chained.one (h : (e.invoke i s).2 = s') : Chained e s [⟨i, s⟩] s' := .cons h .nil

/-! ## The loop with its calls -/

section Steps

variable {label why : String} {m : Member} {ms : List Member} {merged merged' r : Suite}

theorem Member.recorded_invoke {answer : Except String Suite}
    (call : e.invoke (m.invocation s.context) s = (answer, s')) (log : List (EngineCall σ)) :
    e.recorded.invoke (m.invocation (s.logged log).context) (s.logged log) =
      (answer, s'.logged (log ++ [⟨m.invocation s.context, s⟩])) :=
  Engine.recorded_invoke call log

theorem runMembers_of_refused (call : e.invoke (m.invocation s.context) s = (.error why, s')) :
    runMembers e label (m :: ms) merged s =
      (.error ⟨label, inGroup m.test.name m.group.name why⟩, s') := by
  rw [runMembers, call]

theorem runMembers_of_overflow (call : e.invoke (m.invocation s.context) s = (.ok r, s'))
    (absorb : merged.absorb? r = none) :
    runMembers e label (m :: ms) merged s =
      (.error ⟨label, Suite.overflowMessage r.name⟩, s') := by
  simp only [runMembers, call, absorb]

theorem runMembers_of_next (call : e.invoke (m.invocation s.context) s = (.ok r, s'))
    (absorb : merged.absorb? r = some merged') :
    runMembers e label (m :: ms) merged s = runMembers e label ms merged' s' := by
  simp only [runMembers, call, absorb]

end Steps

/-- The loop over some members with its calls, from the suites merged so far. -/
inductive Loop (e : Engine σ) (label : String) :
    List Member → Suite → Session σ → List (EngineCall σ) → Outcome → Session σ → Prop
  | done {merged : Suite} {s : Session σ} : Loop e label [] merged s [] (.suite merged) s
  | refused {m : Member} {ms : List Member} {merged : Suite} {s s' : Session σ} {why : String}
      (call : e.invoke (m.invocation s.context) s = (.error why, s')) :
      Loop e label (m :: ms) merged s [⟨m.invocation s.context, s⟩]
        (.error ⟨label, inGroup m.test.name m.group.name why⟩) s'
  | overflow {m : Member} {ms : List Member} {merged r : Suite} {s s' : Session σ}
      (call : e.invoke (m.invocation s.context) s = (.ok r, s'))
      (absorb : merged.absorb? r = none) :
      Loop e label (m :: ms) merged s [⟨m.invocation s.context, s⟩]
        (.error ⟨label, Suite.overflowMessage r.name⟩) s'
  | next {m : Member} {ms : List Member} {merged merged' r : Suite} {s s' s'' : Session σ}
      {calls : List (EngineCall σ)} {o : Outcome}
      (call : e.invoke (m.invocation s.context) s = (.ok r, s'))
      (absorb : merged.absorb? r = some merged') (rest : Loop e label ms merged' s' calls o s'') :
      Loop e label (m :: ms) merged s (⟨m.invocation s.context, s⟩ :: calls) o s''

variable {label : String} {ms : List Member} {merged : Suite} {o : Outcome}

theorem exists_loop (e : Engine σ) (label : String) (ms : List Member) (merged : Suite)
    (s : Session σ) : ∃ calls o s', Loop e label ms merged s calls o s' := by
  induction ms generalizing merged s with
  | nil => exact ⟨_, _, _, .done⟩
  | cons m ms ih =>
    obtain ⟨answer, s', hcall⟩ : ∃ answer s', e.invoke (m.invocation s.context) s = (answer, s') :=
      ⟨_, _, rfl⟩
    cases answer with
    | error why => exact ⟨_, _, _, .refused hcall⟩
    | ok r =>
      cases habsorb : merged.absorb? r with
      | none => exact ⟨_, _, _, .overflow hcall habsorb⟩
      | some merged' =>
        obtain ⟨calls, o, s'', hrest⟩ := ih merged' s'
        exact ⟨_, _, _, .next hcall habsorb hrest⟩

namespace Loop

theorem runMembers_eq (h : Loop e label ms merged s calls o s') :
    runMembers e label ms merged s = (o, s') := by
  induction h with
  | done => rfl
  | refused call => exact runMembers_of_refused call
  | overflow call absorb => exact runMembers_of_overflow call absorb
  | next call absorb rest ih => rw [runMembers_of_next call absorb, ih]

/-- Keeping the calls does not change the loop. -/
theorem runMembers_recorded (h : Loop e label ms merged s calls o s') (log : List (EngineCall σ)) :
    runMembers e.recorded label ms merged (s.logged log) = (o, s'.logged (log ++ calls)) := by
  induction h generalizing log with
  | done =>
    rw [List.append_nil]
    rfl
  | refused call => exact runMembers_of_refused (Member.recorded_invoke call log)
  | overflow call absorb => exact runMembers_of_overflow (Member.recorded_invoke call log) absorb
  | next call absorb rest ih =>
    rw [runMembers_of_next (Member.recorded_invoke call log) absorb, ih, List.append_assoc]
    rfl

theorem chained (h : Loop e label ms merged s calls o s') : Chained e s calls s' := by
  induction h with
  | done => exact .nil
  | refused call => exact .one (by rw [call])
  | overflow call absorb => exact .one (by rw [call])
  | next call absorb rest ih => exact .cons (by rw [call]) ih

/-- The calls are for the members in order. -/
theorem invocations (h : Loop e label ms merged s calls o s') :
    List.Forall₂ (fun m c => c.invocation = m.invocation c.session.context)
      (ms.take calls.length) calls := by
  induction h with
  | done => exact .nil
  | refused call => exact .cons rfl .nil
  | overflow call absorb => exact .cons rfl .nil
  | next call absorb rest ih => exact .cons rfl ih

end Loop

end TestOrchestrator
