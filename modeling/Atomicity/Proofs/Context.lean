import Atomicity.Program

/-!
# Contexts

A `Service` is what contexts can be asked to do: the requests, and for each the type of its answer
and the program that comes to one. A `Context` performs requests one after another, and
`Context.step` is one step of it: it starts its next request, executes an instruction, opens a loop
once more, or returns an answer. Who may step when is not decided here.

For the request in progress, a context keeps what has been executed (`Pending.log`), so that it can
be told where in its program it is.

A `Moment` is a point in the life of a request: it is started, it takes effect, it returns. Only the
first and the last can be seen of a context (`Context.moment?`).
-/

namespace Atomicity

/-- An instruction that has been executed, with what it answered. -/
abbrev Executed := (i : Instr) × i.Reply

/-- What contexts can be asked to do. -/
structure Service where
  Request : Type
  Answer : Request → Type
  prog : (r : Request) → Prog (Answer r)

/-- A request and what it has answered. -/
abbrev Answered (S : Service) : Type := (r : S.Request) × S.Answer r

/-- A request in progress. -/
structure Pending (S : Service) where
  request : S.Request
  /-- What is left to execute. -/
  rest : Prog (S.Answer request)
  /-- What has been executed, last instruction first. -/
  log : List Executed

/-- A context in the middle of its requests. -/
structure Context (S : Service) where
  /-- The request in progress, if there is one. -/
  current : Option (Pending S)
  /-- The requests to come. -/
  todo : List S.Request
  /-- The requests that have returned, first one first. -/
  answered : List (Answered S)

/-- A point in the life of a request of the context that goes by `k`. -/
inductive Moment (S : Service) (κ : Type) where
  | start (k : κ) (r : S.Request)
  | effect (k : κ) (r : S.Request) (a : S.Answer r)
  | finish (k : κ) (r : S.Request) (a : S.Answer r)

/-- The moment can be seen from outside. -/
def Moment.visible {S : Service} {κ : Type} : Moment S κ → Bool
  | start .. => true
  | effect .. => false
  | finish .. => true

variable {S : Service} {κ : Type}

/-- What has taken effect at a moment, and for whom. -/
def Moment.effect? : Moment S κ → Option (κ × Answered S)
  | effect k r a => some (k, ⟨r, a⟩)
  | _ => none

/-- What has returned at a moment, and to whom. -/
def Moment.finish? : Moment S κ → Option (κ × Answered S)
  | finish k r a => some (k, ⟨r, a⟩)
  | _ => none

/-- What is on record of one context. -/
def recordOf [DecidableEq κ] (k : κ) (l : List (κ × Answered S)) : List (Answered S) :=
  (l.filter fun e => e.1 = k).map Prod.snd

def Pending.start (r : S.Request) : Pending S := ⟨r, S.prog r, []⟩

def Pending.step (refused : Bool) (s : State) (p : Pending S) : Pending S × State :=
  match p.rest with
  | .ret _ => (p, s)
  | .loop body t k => ({ p with rest := Prog.unroll body t k }, s)
  | .instr i k =>
    let out := i.exec refused s
    ({ p with rest := k out.1, log := ⟨i, out.1⟩ :: p.log }, out.2)

/-- The instruction that is next, if one is. -/
def Pending.next? (p : Pending S) : Option Instr :=
  match p.rest with
  | .instr i _ => some i
  | _ => none

/-- What is executed of a request in its next step, if something is. -/
def Pending.executes (refused : Bool) (s : State) (p : Pending S) : List Executed :=
  (p.next?.map fun i => (⟨i, (i.exec refused s).1⟩ : Executed)).toList

namespace Context

def start (todo : List S.Request) : Context S := ⟨none, todo, []⟩

/-- No request is in progress, and none is to come. -/
def isDone (c : Context S) : Bool := c.current.isNone && c.todo.isEmpty

/-- What has been executed of the request in progress, last instruction first. -/
def log (c : Context S) : List Executed := (c.current.map Pending.log).getD []

/-- All requests of a context: those that have returned, the one in progress, and those to come. -/
def requests (c : Context S) : List S.Request :=
  c.answered.map Sigma.fst ++ (c.current.map Pending.request).toList ++ c.todo

/-- The instruction that is next, if one is. -/
def next? (c : Context S) : Option Instr := c.current.bind Pending.next?

/-- What a context executes in its next step, if it executes something. -/
def executes (refused : Bool) (s : State) (c : Context S) : List Executed :=
  c.current.elim [] (Pending.executes refused s)

def step (refused : Bool) (s : State) (c : Context S) : Context S × State :=
  match c.current with
  | none =>
    match c.todo with
    | [] => (c, s)
    | r :: rs => ({ c with current := some (.start r), todo := rs }, s)
  | some p =>
    match p.rest.result? with
    | some a => ({ c with current := none, answered := c.answered ++ [⟨p.request, a⟩] }, s)
    | none =>
      let out := p.step refused s
      ({ c with current := some out.1 }, out.2)

theorem step_of_pending {refused : Bool} {s : State} {c : Context S} {p : Pending S}
    (hc : c.current = some p) (hp : p.rest.result? = none) :
    c.step refused s = ({ c with current := some (p.step refused s).1 }, (p.step refused s).2) := by
  simp only [step, hc, hp]

/-- What can be seen of the next step of a context that goes by `k`. -/
def moment? (k : κ) (c : Context S) : Option (Moment S κ) :=
  match c.current with
  | none => c.todo.head?.map (.start k)
  | some p => p.rest.result?.map (.finish k p.request)

theorem isDone_iff {c : Context S} : c.isDone = true ↔ c.current = none ∧ c.todo = [] := by
  simp [isDone]

theorem requests_of_isDone {c : Context S} (h : c.isDone = true) :
    c.answered.map Sigma.fst = c.requests := by
  obtain ⟨hc, ht⟩ := isDone_iff.mp h
  simp [requests, hc, ht]

/-- A step leaves a context with the requests that it has. -/
theorem requests_step (refused : Bool) (s : State) (c : Context S) :
    (c.step refused s).1.requests = c.requests := by
  obtain ⟨current, todo, answered⟩ := c
  cases current with
  | none =>
    cases todo with
    | nil => rfl
    | cons r rs => simp [step, requests, Pending.start]
  | some p =>
    cases hr : p.rest.result? with
    | some a => simp [step, hr, requests]
    | none =>
      have hp : (p.step refused s).1.request = p.request := by
        unfold Pending.step
        split <;> rfl
      simp [step, hr, requests, hp]

/-- What is seen of a step is what it has answered, if anything. -/
theorem answered_step [DecidableEq κ] (k : κ) (refused : Bool) (s : State) (c : Context S) :
    (c.step refused s).1.answered =
      c.answered ++ recordOf k ((c.moment? k).toList.filterMap Moment.finish?) := by
  obtain ⟨current, todo, answered⟩ := c
  cases current with
  | none => cases todo <;> simp [step, moment?, recordOf, Moment.finish?]
  | some p =>
    cases hr : p.rest.result? with
    | some a => simp [step, hr, moment?, recordOf, Moment.finish?]
    | none => simp [step, hr, moment?, recordOf]

/-- What is seen of one context is nothing that another one has answered. -/
theorem recordOf_moment?_of_ne [DecidableEq κ] {j k : κ} (h : j ≠ k) (c : Context S) :
    recordOf j ((c.moment? k).toList.filterMap Moment.finish?) = [] := by
  obtain ⟨current, todo, answered⟩ := c
  cases current with
  | none => cases todo <;> simp [moment?, recordOf, Moment.finish?]
  | some p =>
    cases hr : p.rest.result? with
    | some a => simp [hr, moment?, recordOf, Moment.finish?, Ne.symm h]
    | none => simp [hr, moment?, recordOf]

theorem exists_of_next? {c : Context S} {i : Instr} (h : c.next? = some i) :
    ∃ p, c.current = some p ∧ ∃ k, p.rest = .instr i k := by
  unfold next? at h
  cases hc : c.current with
  | none => simp [hc] at h
  | some p =>
    refine ⟨p, rfl, ?_⟩
    obtain ⟨r, rest, log⟩ := p
    cases rest with
    | ret a => simp [hc, Pending.next?] at h
    | loop body t k => simp [hc, Pending.next?] at h
    | instr j k =>
      obtain rfl : j = i := by simpa [hc, Pending.next?] using h
      exact ⟨k, rfl⟩

end Context

end Atomicity
