import Atomicity.Program

/-!
# One context under interference

A `Solo` is one context in the middle of a program, together with what has been observed of it. An
`Interference` is a finite schedule of what happens to the context from outside:

- foreign writes to one word. One is placed right after the event with a given number has been seen
  and before that instruction takes effect, or at the entry of the update function that is called
  for the so-many-th time. A foreign write closes the exclusive monitor, whatever it writes;
- store-exclusives that are rejected although the monitor is open, counted from the first that the
  context executes;
- a budget: the context stops, for good, where it would be seen once more than the budget allows.

`Solo.step` is one step, and `none` where the context has its answer or has used its budget up.
`Prog.solo` runs a program from a state as long as its schedule can make it run.

Main facts: `run_of_step_none`, that a context with nothing left to do stays as it is, and
`run_andThen`, that a program put after another one begins where the first one answers.
-/

namespace Atomicity

/-- What happens to a context from outside. -/
structure Interference where
  /-- The width of the word that foreign writes hit. -/
  width : Width := .w8
  /-- The address of the word that foreign writes hit. -/
  addr : Addr := .cell 0
  /-- Foreign writes by the number of the event that they follow. -/
  pokes : List (Nat × Word width) := []
  /-- Foreign writes by the number of the call of the update function that they open. -/
  updatePokes : List (Nat × Word width) := []
  /-- The numbers of the store-exclusives that are rejected. -/
  rejects : List Nat := []
  /-- How many events the context may be seen by, if there is a limit. -/
  budget : Option Nat := none

namespace Interference

/-- Nothing happens. -/
def none : Interference := {}

/-- The foreign writes of a schedule that are due at a number, in the order of the schedule. -/
def disturb (x : Interference) (schedule : List (Nat × Word x.width)) (n : Nat) (s : State) :
    State :=
  schedule.foldl
    (fun s due => if due.1 = n then (s.write x.width x.addr due.2).reserve Option.none else s) s

/-- A number of steps that is enough for every operation: each foreign write and each rejection
costs an operation at most one round more, and so does each part of the budget. -/
def fuel (x : Interference) : Nat :=
  256 * (x.pokes.length + x.updatePokes.length + x.rejects.length + 2) +
    64 * (x.budget.getD 0 + 1)

/-- Whoever has been seen so many times is not seen again. -/
def spent (x : Interference) (n : Nat) : Bool := x.budget.any (· ≤ n)

@[simp]
theorem disturb_nil (x : Interference) (n : Nat) (s : State) : x.disturb [] n s = s := rfl

end Interference

/-- One context in the middle of a program. -/
structure Solo (α : Type) : Type 1 where
  /-- What is left to execute. -/
  rest : Prog α
  state : State
  /-- What has been seen, first event first. -/
  events : List Event
  /-- How often an update function has been called. -/
  updates : Nat
  /-- How many store-exclusives have been executed. -/
  attempts : Nat

namespace Solo

variable {α : Type}

/-- A context about to begin a program. -/
def start (p : Prog α) (s : State) : Solo α := ⟨p, s, [], 0, 0⟩

/-- An instruction takes effect, after what there was to see of it has been seen. -/
def execute (x : Interference) (c : Solo α) (i : Instr) (k : i.Reply → Prog α) : Solo α :=
  let s := if i.entersUpdate then x.disturb x.updatePokes c.updates c.state else c.state
  let out := i.exec (i.storesExclusively && x.rejects.contains c.attempts) s
  { rest := k out.1
    state := out.2
    events := c.events
    updates := c.updates + i.entersUpdate.toNat
    attempts := c.attempts + i.storesExclusively.toNat }

/-- An event is seen, and the foreign writes that follow it are made. -/
def see (x : Interference) (c : Solo α) (e : Event) : Solo α :=
  { c with
    state := x.disturb x.pokes c.events.length c.state
    events := c.events ++ [e] }

/-- The next step of a context, if it has one. -/
def step (x : Interference) (c : Solo α) : Option (Solo α) :=
  match c.rest with
  | .ret _ => none
  | .loop body s k => some { c with rest := Prog.unroll body s k }
  | .instr i k =>
    match i.event? c.state.core with
    | none => some (c.execute x i k)
    | some e =>
      match x.spent c.events.length with
      | true => none
      | false => some ((c.see x e).execute x i k)

/-- At most so many steps. -/
def run (x : Interference) : Nat → Solo α → Solo α
  | 0, c => c
  | n + 1, c =>
    match c.step x with
    | none => c
    | some c' => run x n c'

/-- The answer, if the context has it. -/
def result? (c : Solo α) : Option α := c.rest.result?

theorem step_isNone_of_result (x : Interference) {c : Solo α} {a : α} (h : c.result? = some a) :
    c.step x = none := by
  unfold result? Prog.result? at h
  unfold step
  split at h
  · next hr => rw [hr]
  · cases h

@[simp]
theorem run_zero (x : Interference) (c : Solo α) : c.run x 0 = c := rfl

theorem run_succ (x : Interference) (n : Nat) {c c' : Solo α} (h : c.step x = some c') :
    c.run x (n + 1) = c'.run x n := by
  simp [run, h]

theorem run_of_step_none (x : Interference) (n : Nat) {c : Solo α} (h : c.step x = none) :
    c.run x n = c := by
  cases n with
  | zero => rfl
  | succ n => simp [run, h]

theorem run_add (x : Interference) (m n : Nat) (c : Solo α) :
    c.run x (m + n) = (c.run x m).run x n := by
  induction m generalizing c with
  | zero => simp
  | succ m ih =>
    rw [Nat.succ_add]
    cases h : c.step x with
    | none => rw [run_of_step_none x _ h, run_of_step_none x _ h, run_of_step_none x _ h]
    | some c' => rw [run_succ x _ h, run_succ x _ h, ih]

/-- The same context with more to do after its program. -/
def andThen {β : Type} (c : Solo α) (f : α → Prog β) : Solo β :=
  ⟨c.rest.bind f, c.state, c.events, c.updates, c.attempts⟩

/-- The same context with another program left to execute. -/
def resume {β : Type} (c : Solo α) (p : Prog β) : Solo β :=
  ⟨p, c.state, c.events, c.updates, c.attempts⟩

theorem andThen_of_result {β : Type} {c : Solo α} {a : α} (f : α → Prog β)
    (h : c.result? = some a) : c.andThen f = c.resume (f a) := by
  obtain ⟨p, s, es, u, n⟩ := c
  cases p with
  | ret b =>
    cases h
    rfl
  | instr i k => cases h
  | loop body t k => cases h

theorem step_andThen {β : Type} (x : Interference) {c : Solo α} (f : α → Prog β)
    (h : c.result? = none) : (c.andThen f).step x = (c.step x).map (·.andThen f) := by
  obtain ⟨p, s, es, u, n⟩ := c
  cases p with
  | ret a => cases h
  | loop body t k => simp [andThen, step, Prog.unroll_bind]
  | instr i k =>
    simp only [andThen, step, Prog.instr_bind]
    cases i.event? s.core with
    | none => rfl
    | some e =>
      cases x.spent es.length <;> rfl

/-- A program put after another one begins where the first one answers. -/
theorem run_andThen {β : Type} (x : Interference) (m : Nat) {c : Solo α} {a : α} (f : α → Prog β)
    (h : (c.run x m).result? = some a) :
    ∃ j, j ≤ m ∧ (c.andThen f).run x j = (c.run x m).resume (f a) := by
  induction m generalizing c with
  | zero => exact ⟨0, Nat.le_refl 0, andThen_of_result f h⟩
  | succ m ih =>
    cases hr : c.result? with
    | some b =>
      rw [run_of_step_none x _ (step_isNone_of_result x hr)] at h ⊢
      exact ⟨0, Nat.zero_le _, andThen_of_result f h⟩
    | none =>
      cases hs : c.step x with
      | none =>
        rw [run_of_step_none x _ hs, hr] at h
        cases h
      | some d =>
        rw [run_succ x m hs] at h ⊢
        obtain ⟨j, hj, e⟩ := ih h
        have hd : (c.andThen f).step x = some (d.andThen f) := by
          rw [step_andThen x f hr, hs]
          rfl
        exact ⟨j + 1, Nat.succ_le_succ hj, by rw [run_succ x j hd, e]⟩

end Solo

namespace Prog

variable {α : Type}

/-- A program run from a state under interference. -/
def solo (x : Interference) (p : Prog α) (s : State) : Solo α := (Solo.start p s).run x x.fuel

/-- A program run from a state with nothing happening from outside. -/
def alone (p : Prog α) (s : State) : Solo α := p.solo .none s

end Prog

end Atomicity
