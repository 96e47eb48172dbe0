import Atomicity.Proofs.Access
import Atomicity.Proofs.Context
import Mathlib.Logic.Function.Basic

/-!
# Many cores

A machine with a number of cores, each with a context of its own. Any core can take the next step,
one instruction at a time, and a store-exclusive can be rejected at any time. A core that writes to
memory closes the exclusive monitors of all the others, whatever it writes and wherever.

`ManyCores.run` follows any list of choices, and each list is one interleaving. `history` is what
can be seen of all contexts, first moment first.

**A context keeps the requests that it has** (`requests_run`): it answers each once, in the order
given. **The history has what every context has answered** (`Recorded.run`).
-/

namespace Atomicity

/-- The next step of a context stores something. -/
def Context.stores {S : Service} (refused : Bool) (s : State) (c : Context S) : Bool :=
  c.next?.any fun i => i.writes (i.exec refused s).1

structure ManyCores (S : Service) (n : Nat) where
  shared : Shared
  core : Fin n → Core
  context : Fin n → Context S
  /-- What has been seen of all contexts, first moment first. -/
  history : List (Moment S (Fin n))

namespace ManyCores

variable {S : Service} {n : Nat}

/-- Cores about to begin, each with requests of its own. -/
def start (shared : Shared) (core : Fin n → Core) (todo : Fin n → List S.Request) : ManyCores S n :=
  ⟨shared, core, fun k => .start (todo k), []⟩

def state (x : ManyCores S n) (k : Fin n) : State := ⟨x.core k, x.shared⟩

/-- The core after a step that another one has taken, which may have stored something. -/
def disturbed (stored : Bool) (core : Core) : Core :=
  if stored then { core with monitor := none } else core

/-- A core takes a step. Its instruction is refused, if it can be. -/
def step (x : ManyCores S n) (choice : Fin n × Bool) : ManyCores S n :=
  let k := choice.1
  let out := (x.context k).step choice.2 (x.state k)
  let stored := (x.context k).stores choice.2 (x.state k)
  { shared := out.2.shared
    core := Function.update (fun j => disturbed stored (x.core j)) k out.2.core
    context := Function.update x.context k out.1
    history := x.history ++ ((x.context k).moment? k).toList }

def run (x : ManyCores S n) (choices : List (Fin n × Bool)) : ManyCores S n := choices.foldl step x

/-- What a core executes in a step, if it is the one that takes it. -/
def stepLog (k : Fin n) (choice : Fin n × Bool) (x : ManyCores S n) : List Executed :=
  if k = choice.1 then (x.context k).executes choice.2 (x.state k) else []

/-- What a core executes in a run, first instruction first. -/
def runLog (k : Fin n) : List (Fin n × Bool) → ManyCores S n → List Executed
  | [], _ => []
  | choice :: choices, x => x.stepLog k choice ++ runLog k choices (x.step choice)

def isDone (x : ManyCores S n) : Prop := ∀ k, (x.context k).isDone = true

instance (x : ManyCores S n) : Decidable x.isDone :=
  inferInstanceAs (Decidable (∀ k, (x.context k).isDone = true))

/-! ## A step -/

section

variable {x : ManyCores S n} {choice : Fin n × Bool} {j : Fin n}

theorem context_step_self :
    (x.step choice).context choice.1 = ((x.context choice.1).step choice.2 (x.state choice.1)).1 :=
  Function.update_self _ _ _

theorem state_step_self :
    (x.step choice).state choice.1 = ((x.context choice.1).step choice.2 (x.state choice.1)).2 := by
  simp only [step, state, Function.update_self]

theorem context_step_of_ne (hj : j ≠ choice.1) : (x.step choice).context j = x.context j :=
  Function.update_of_ne hj _ _

theorem core_step_of_ne (hj : j ≠ choice.1) : (x.step choice).core j =
    disturbed ((x.context choice.1).stores choice.2 (x.state choice.1)) (x.core j) := by
  simp only [step, Function.update_of_ne hj]

/-- A core finds its mask as it was after the step of another one. -/
theorem masked_step_of_ne (hj : j ≠ choice.1) :
    ((x.step choice).core j).masked = (x.core j).masked := by
  rw [core_step_of_ne hj]
  cases (x.context choice.1).stores choice.2 (x.state choice.1) <;> rfl

end

/-! ## Requests and answers -/

variable {x : ManyCores S n}

theorem requests_step (choice : Fin n × Bool) (k : Fin n) :
    ((x.step choice).context k).requests = (x.context k).requests := by
  by_cases hk : k = choice.1
  · subst hk
    rw [context_step_self]
    exact Context.requests_step _ _ _
  · rw [context_step_of_ne hk]

/-- **A context keeps the requests that it has.** -/
theorem requests_run (choices : List (Fin n × Bool)) (k : Fin n) :
    ((x.run choices).context k).requests = (x.context k).requests := by
  induction choices generalizing x with
  | nil => rfl
  | cons choice choices ih => exact ih.trans (requests_step choice k)

/-- A context that is done has answered the requests that it began with, in the order given. -/
theorem answered_requests {shared : Shared} {core : Fin n → Core} {todo : Fin n → List S.Request}
    {choices : List (Fin n × Bool)}
    (hdone : ((start shared core todo).run choices).isDone) (k : Fin n) :
    (((start shared core todo).run choices).context k).answered.map Sigma.fst = todo k := by
  have h := Context.requests_of_isDone (hdone k)
  rw [requests_run] at h
  exact h.trans (List.nil_append (todo k))

/-- What is on record of every context is what it has answered. -/
def Recorded (x : ManyCores S n) : Prop :=
  ∀ k, (x.context k).answered = recordOf k (x.history.filterMap Moment.finish?)

theorem Recorded.step (h : x.Recorded) (choice : Fin n × Bool) : (x.step choice).Recorded := by
  intro k
  have happend : recordOf k ((x.step choice).history.filterMap Moment.finish?) =
      recordOf k (x.history.filterMap Moment.finish?) ++
        recordOf k (((x.context choice.1).moment? choice.1).toList.filterMap Moment.finish?) := by
    simp [ManyCores.step, recordOf]
  rw [happend, ← h k]
  by_cases hk : k = choice.1
  · subst hk
    rw [context_step_self]
    exact Context.answered_step _ _ _ _
  · rw [Context.recordOf_moment?_of_ne hk, List.append_nil, context_step_of_ne hk]

/-- **The history has what every context has answered**, in the order in which it did. -/
theorem Recorded.run (h : x.Recorded) (choices : List (Fin n × Bool)) :
    (x.run choices).Recorded := by
  induction choices generalizing x with
  | nil => exact h
  | cons choice choices ih => exact ih (h.step choice)

end ManyCores

end Atomicity
