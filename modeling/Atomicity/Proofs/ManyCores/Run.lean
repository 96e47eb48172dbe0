import Atomicity.Proofs.Following
import Atomicity.Proofs.ManyCores.World

/-!
# Runs on many cores

What every run on many cores preserves, if the requests of its contexts are indivisible there: every
context follows the reference from what its core sees, and the memory of the reference is memory
(`Invariant`). A step of one core is a drift for all the others (`drift_of_step`).

**A run of indivisible requests is a serial execution** (`serial_run`), under any interleaving.
-/

namespace Atomicity

theorem Context.memory_of_not_stores {S : Service} {refused : Bool} {s : State} {c : Context S}
    (h : c.stores refused s = false) : (c.step refused s).2.shared.memory = s.shared.memory := by
  obtain ⟨current, todo, answered⟩ := c
  cases current with
  | none => cases todo <;> rfl
  | some p =>
    cases hp : p.rest with
    | ret a => simp [step, hp, Prog.result?]
    | loop body t k => simp [step, hp, Prog.result?, Pending.step]
    | instr i k =>
      have hi : i.writes (i.exec refused s).1 = false := by
        simpa [stores, next?, Pending.next?, hp] using h
      simpa [step, hp, Prog.result?, Pending.step] using Instr.memory_of_not_writes hi

namespace ManyCores

variable {S : Service} {E : S.Effects} {n m : Nat}

/-- What other cores do leaves a context following. -/
theorem follows_of_drift {c : Context S} {stage : Stage S} {s s' : State} (hs : Drift s s')
    (h : world.Follows E m c stage s) : world.Follows E m c stage s' :=
  h.moved (fun _ _ => trivial) (fun _ => trivial) fun _ _ _ hkeeps =>
    hkeeps.drift (fun _ _ _ _ h h' => h.trans h') (fun _ _ _ _ _ h => h) hs

structure Invariant (E : S.Effects) (m : Nat) (x : ManyCores S n) (y : Reference S (Fin n)) :
    Prop where
  memory : y.memory = x.shared.memory
  follows : ∀ k, world.Follows E m (x.context k) (y.stage k) (x.state k)

/-- **A step of one core is a drift for the others.** -/
theorem drift_of_step (x : ManyCores S n) {choice : Fin n × Bool} {j : Fin n} (hj : j ≠ choice.1) :
    Drift (x.state j) ((x.step choice).state j) := by
  have hcore : ((x.step choice).state j).core =
      disturbed ((x.context choice.1).stores choice.2 (x.state choice.1)) (x.core j) :=
    core_step_of_ne hj
  cases hstores : (x.context choice.1).stores choice.2 (x.state choice.1) with
  | true =>
    refine .inr ?_
    rw [hcore, hstores]
    rfl
  | false =>
    refine .inl ⟨?_, Context.memory_of_not_stores hstores⟩
    rw [hcore, hstores]
    rfl

namespace Invariant

variable {x : ManyCores S n} {y : Reference S (Fin n)}

theorem start (shared : Shared) (core : Fin n → Core) (todo : Fin n → List S.Request) :
    Invariant E m (.start shared core todo) (.start shared.memory) where
  memory := rfl
  follows _ := .idle rfl trivial

/-- **The reference goes along with a step of one core.** -/
theorem step (serves : ∀ r, world.Indivisible (S.prog r) (E r)) (h : Invariant E (m + 1) x y)
    (choice : Fin n × Bool) :
    ∃ z, Reference.Extends E y z x.history (x.step choice).history ∧
      Invariant E m (x.step choice) z := by
  obtain ⟨z, ⟨ms, hrun, hseen⟩, hmem, hothers, hfollows⟩ :=
    (h.follows choice.1).step serves h.memory choice.2
  refine ⟨z, ⟨ms, hrun, by rw [hseen]; rfl⟩, hmem, fun j => ?_⟩
  by_cases hj : j = choice.1
  · subst hj
    rw [context_step_self, state_step_self]
    exact hfollows
  · rw [hothers j hj, context_step_of_ne hj]
    exact (follows_of_drift (drift_of_step x hj) (h.follows j)).le (Nat.le_succ m)

/-- **The reference goes along with a run on many cores.** -/
theorem run (serves : ∀ r, world.Indivisible (S.prog r) (E r)) (choices : List (Fin n × Bool))
    (h : Invariant E (choices.length + m) x y) :
    ∃ z, Reference.Extends E y z x.history (x.run choices).history ∧
      Invariant E m (x.run choices) z :=
  Reference.Extends.run ManyCores.step ManyCores.history (Invariant E)
    (fun _ _ _ h => h.step serves) choices h

/-- A context that is done has no request left in the reference. -/
theorem stage_of_isDone (h : Invariant E m x y) {k : Fin n} (hd : (x.context k).isDone = true) :
    y.stage k = none :=
  ((h.follows k).rest_of_idle (Context.isDone_iff.mp hd).1).1

end Invariant

/-- **A run of indivisible requests is linearizable**, under any interleaving. -/
theorem linearizable_run (serves : ∀ r, world.Indivisible (S.prog r) (E r)) (shared : Shared)
    (core : Fin n → Core) (todo : Fin n → List S.Request) (choices : List (Fin n × Bool)) :
    Linearizable E shared.memory ((ManyCores.start shared core todo).run choices).history
      ((ManyCores.start shared core todo).run choices).shared.memory := by
  obtain ⟨z, ⟨ms, hrun, hhist⟩, h⟩ := Invariant.run (m := 0) serves choices
    (Invariant.start shared core todo)
  exact ⟨ms, z, hrun, hhist.symm, h.memory⟩

/-- **A run of indivisible requests is a serial execution.** When all contexts are done, there is an
order of all requests in which, done one after another, they give the answers that the contexts have
and the memory there is. It is an order in which every context has its own requests as it made
them. -/
theorem serial_run (serves : ∀ r, world.Indivisible (S.prog r) (E r)) (shared : Shared)
    (core : Fin n → Core) (todo : Fin n → List S.Request) (choices : List (Fin n × Bool))
    (hdone : ((ManyCores.start shared core todo).run choices).isDone) :
    ∃ order : List (Fin n × Answered S),
      Serially E shared.memory (order.map Prod.snd)
        ((ManyCores.start shared core todo).run choices).shared.memory ∧
      ∀ k, recordOf k order =
        (((ManyCores.start shared core todo).run choices).context k).answered := by
  obtain ⟨z, ⟨ms, hrun, hhist⟩, h⟩ := Invariant.run (m := 0) serves choices
    (Invariant.start shared core todo)
  have hrec : ((ManyCores.start shared core todo).run choices).Recorded :=
    Recorded.run (fun _ => rfl) choices
  refine ⟨ms.filterMap Moment.effect?, h.memory ▸ hrun.serially, fun k => ?_⟩
  have hnone := h.stage_of_isDone (hdone k)
  rw [hrun.effects_of k, hrec k, hhist, hnone]
  change _ = recordOf k ((ms.filter Moment.visible).filterMap Moment.finish?)
  rw [finishes_of_visible]
  exact List.append_nil _

end ManyCores

end Atomicity
