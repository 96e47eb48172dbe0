import Atomicity.Program.Solo
import Atomicity.Proofs.Access

/-!
# Traces of one context

What happens to memory while one context runs under interference, in the order in which it happens:
foreign writes, and what the context itself loads and stores (`Access`). `Solo.trace` is the trace
of so many steps.

**The trace accounts for memory** (`Solo.trace_replay`): replayed from the memory at the start it
gives the memory at the end. So what a word holds at any instant can be read off the trace before
it.

`Solo.Steps` is a run with its trace, and such runs are put together by `Steps.trans`.
-/

namespace Atomicity

namespace Interference

/-- The foreign writes of a schedule that are due at a number. -/
def due (x : Interference) (schedule : List (Nat × Word x.width)) (n : Nat) : List Access :=
  (schedule.filter fun e => e.1 = n).map fun e => .foreign x.width x.addr e.2

variable (x : Interference) (schedule : List (Nat × Word x.width)) (n : Nat) (s : State)

theorem due_isForeign : ∀ e ∈ x.due schedule n, e.isForeign = true := by
  intro e he
  obtain ⟨v, -, rfl⟩ := List.mem_map.mp he
  rfl

theorem memory_disturb : (x.disturb schedule n s).shared.memory =
    (x.due schedule n).foldl Access.apply s.shared.memory := by
  unfold disturb due
  induction schedule generalizing s with
  | nil => rfl
  | cons e schedule ih =>
    rw [List.foldl_cons, ih]
    by_cases he : e.1 = n
    · simp [he, Access.apply]
    · simp [he]

/-- A foreign write closes the monitor. -/
theorem monitor_disturb : (x.disturb schedule n s).core.monitor =
    if x.due schedule n = [] then s.core.monitor else Option.none := by
  unfold disturb due
  induction schedule generalizing s with
  | nil => rfl
  | cons e schedule ih =>
    rw [List.foldl_cons, ih]
    by_cases he : e.1 = n
    · simp [he]
    · have hfilter : (e :: schedule).filter (fun e => decide (e.1 = n)) =
          schedule.filter fun e => decide (e.1 = n) := by simp [he]
      rw [if_neg he, hfilter]

end Interference

namespace Solo

variable {α : Type} (x : Interference)

/-- The state that an instruction finds, after what is due before it has been done from outside. -/
def finds (c : Solo α) (i : Instr) : State :=
  let s :=
    if (i.event? c.state.core).isSome then x.disturb x.pokes c.events.length c.state else c.state
  if i.entersUpdate then x.disturb x.updatePokes c.updates s else s

/-- What is due before an instruction. -/
def due (c : Solo α) (i : Instr) : List Access :=
  (if (i.event? c.state.core).isSome then x.due x.pokes c.events.length else []) ++
    if i.entersUpdate then x.due x.updatePokes c.updates else []

/-- The instruction is a store-exclusive that will be rejected. -/
def rejected (c : Solo α) (i : Instr) : Bool := i.storesExclusively && x.rejects.contains c.attempts

/-- What happens to memory in the next step of a context. -/
def accesses (c : Solo α) : List Access :=
  match c.rest with
  | .instr i _ => c.due x i ++ i.accesses (i.exec (c.rejected x i) (c.finds x i)).1
  | _ => []

/-- The trace of at most so many steps. -/
def trace : Nat → Solo α → List Access
  | 0, _ => []
  | n + 1, c =>
    match c.step x with
    | none => []
    | some d => c.accesses x ++ trace n d

theorem due_apply (c : Solo α) (i : Instr) :
    (c.due x i).foldl Access.apply c.state.shared.memory = (c.finds x i).shared.memory := by
  unfold due finds
  rw [List.foldl_append]
  cases (i.event? c.state.core).isSome with
  | false => cases i.entersUpdate <;> simp [Interference.memory_disturb]
  | true => cases i.entersUpdate <;> simp [Interference.memory_disturb]

/-- The context after one more instruction. -/
def after (c : Solo α) (i : Instr) (k : i.Reply → Prog α) : Solo α :=
  let out := i.exec (c.rejected x i) (c.finds x i)
  { rest := k out.1
    state := out.2
    events := c.events ++ (i.event? c.state.core).toList
    updates := c.updates + i.entersUpdate.toNat
    attempts := c.attempts + i.storesExclusively.toNat }

/-- A step executes the next instruction on the state that it finds, unless the budget is used
up. -/
theorem step_instr {c : Solo α} {i : Instr} {k : i.Reply → Prog α} (hi : c.rest = .instr i k) :
    c.step x = if (i.event? c.state.core).isSome && x.spent c.events.length then none
      else some (c.after x i k) := by
  obtain ⟨p, s, es, u, n⟩ := c
  cases hi
  simp only [step]
  cases he : i.event? s.core with
  | none => simp [execute, after, finds, rejected, he]
  | some e =>
    cases hsp : x.spent es.length with
    | true => simp
    | false => simp [execute, see, after, finds, rejected, he]

/-- The accesses of a step account for what happens to memory in it. -/
theorem accesses_apply {c d : Solo α} (h : c.step x = some d) :
    (c.accesses x).foldl Access.apply c.state.shared.memory = d.state.shared.memory := by
  cases hp : c.rest with
  | ret a => simp [step, hp] at h
  | loop body t k =>
    have hd : d = { c with rest := Prog.unroll body t k } := by simpa [step, hp] using h.symm
    rw [hd]
    simp [accesses, hp]
  | instr i k =>
    rw [step_instr x hp] at h
    obtain rfl : c.after x i k = d := by
      split at h
      · cases h
      · exact Option.some.inj h
    simp only [accesses, hp, List.foldl_append, due_apply]
    exact i.accesses_apply _ _

/-- **The trace accounts for memory.** -/
theorem trace_replay (n : Nat) (c : Solo α) :
    (c.trace x n).foldl Access.apply c.state.shared.memory = (c.run x n).state.shared.memory := by
  induction n generalizing c with
  | zero => rfl
  | succ n ih =>
    unfold trace run
    cases h : c.step x with
    | none => rfl
    | some d =>
      simp only
      rw [List.foldl_append, accesses_apply x h, ih]

theorem trace_of_step_none (n : Nat) {c : Solo α} (h : c.step x = none) : c.trace x n = [] := by
  cases n with
  | zero => rfl
  | succ n => simp [trace, h]

theorem trace_add (m n : Nat) (c : Solo α) :
    c.trace x (m + n) = c.trace x m ++ (c.run x m).trace x n := by
  induction m generalizing c with
  | zero => simp [trace]
  | succ m ih =>
    rw [Nat.succ_add]
    cases h : c.step x with
    | none =>
      rw [trace_of_step_none x _ h, trace_of_step_none x _ h, run_of_step_none x _ h,
        trace_of_step_none x _ h]
      rfl
    | some d =>
      rw [run_succ x m h]
      simp only [trace, h]
      rw [ih, List.append_assoc]

/-! ## To make something of an answer -/

/-- The same context, with something to be made of its answer: that takes no step. -/
def map {β : Type} (g : α → β) (c : Solo α) : Solo β := c.andThen fun a => .ret (g a)

theorem result?_map {β : Type} {c : Solo α} {a : α} (g : α → β) (h : c.result? = some a) :
    (c.map g).result? = some (g a) := by
  rw [map, andThen_of_result _ h]
  rfl

section

variable {β : Type} (g : α → β) (c : Solo α)

theorem step_map : (c.map g).step x = (c.step x).map (map g) := by
  cases h : c.result? with
  | none => exact step_andThen x _ h
  | some a =>
    rw [step_isNone_of_result x (result?_map g h), step_isNone_of_result x h]
    rfl

theorem run_map (n : Nat) : (c.map g).run x n = (c.run x n).map g := by
  induction n generalizing c with
  | zero => rfl
  | succ n ih =>
    cases h : c.step x with
    | none => rw [run_of_step_none x _ h, run_of_step_none x _ (by rw [step_map, h]; rfl)]
    | some d => rw [run_succ x n h, run_succ x n (c := c.map g) (by rw [step_map, h]; rfl), ih]

theorem trace_map (n : Nat) : (c.map g).trace x n = c.trace x n := by
  induction n generalizing c with
  | zero => rfl
  | succ n ih =>
    have haccesses : (c.map g).accesses x = c.accesses x := by
      obtain ⟨p, s, es, u, i⟩ := c
      cases p <;> rfl
    unfold trace
    rw [step_map]
    cases c.step x with
    | none => rfl
    | some d =>
      simp only [Option.map_some]
      rw [haccesses, ih]

end

/-! ## Runs with their traces -/

theorem rest_of_result {c : Solo α} {r : α} (h : c.result? = some r) : c.rest = .ret r := by
  obtain ⟨p, s, es, u, i⟩ := c
  cases p with
  | ret a => exact congrArg Prog.ret (Option.some.inj h)
  | instr i k => cases h
  | loop body t k => cases h

/-- So many steps take one context to another, with that trace. -/
structure Steps (n : Nat) (c : Solo α) (trace : List Access) (d : Solo α) : Prop where
  run_eq : c.run x n = d
  trace_eq : c.trace x n = trace

namespace Steps

variable {x} {c d e : Solo α} {t u : List Access} {m n : Nat}

theorem trans (h : Steps x m c t d) (h' : Steps x n d u e) : Steps x (m + n) c (t ++ u) e := by
  obtain ⟨rfl, rfl⟩ := h
  exact ⟨(run_add x m n c).trans h'.run_eq, by rw [trace_add, h'.trace_eq]⟩

theorem one (h : c.step x = some d) : Steps x 1 c (c.accesses x) d :=
  ⟨run_succ x 0 h, by simp [trace, h]⟩

/-- One more instruction, of a context without a budget. -/
theorem instr (hx : x.budget = none) {i : Instr} {k : i.Reply → Prog α} (hi : c.rest = .instr i k) :
    Steps x 1 c (c.due x i ++ i.accesses (i.exec (c.rejected x i) (c.finds x i)).1)
      (c.after x i k) := by
  have hstep : c.step x = some (c.after x i k) := by
    rw [step_instr x hi, Interference.spent, hx]
    simp
  have h := one hstep
  simpa [accesses, hi] using h

/-- One more instruction that is seen, and does not enter an update function. -/
theorem seen (hx : x.budget = none) {i : Instr} {k : i.Reply → Prog α} (hi : c.rest = .instr i k)
    {e : Event} (he : i.event? c.state.core = some e) (hu : i.entersUpdate = false) {r : i.Reply}
    {s : State} (hexec : i.exec (i.storesExclusively && x.rejects.contains c.attempts)
      (x.disturb x.pokes c.events.length c.state) = (r, s)) :
    Steps x 1 c (x.due x.pokes c.events.length ++ i.accesses r)
      ⟨k r, s, c.events ++ [e], c.updates, c.attempts + i.storesExclusively.toNat⟩ := by
  have h := instr hx hi
  simp only [due, finds, after, rejected, he, hu, Option.isSome_some, if_true, Option.toList_some,
    Bool.false_eq_true, if_false, List.append_nil, Bool.toNat_false, Nat.add_zero, hexec] at h
  exact h

theorem loop {σ β : Type} {body : σ → Prog (σ ⊕ β)} {t : σ} {k : β → Prog α}
    (hc : c.rest = .loop body t k) : Steps x 1 c [] { c with rest := Prog.unroll body t k } := by
  have hstep : c.step x = some { c with rest := Prog.unroll body t k } := by simp [step, hc]
  have h := one hstep
  simpa [accesses, hc] using h

/-- A context that has its answer stays as it is. -/
theorem extend (h : Steps x m c t d) (hmn : m ≤ n) {a : α} (ha : d.result? = some a) :
    Steps x n c t d := by
  have hnone := step_isNone_of_result x ha
  have hstay : Steps x (n - m) d [] d :=
    ⟨run_of_step_none x _ hnone, trace_of_step_none x _ hnone⟩
  have h' := h.trans hstay
  rwa [List.append_nil, Nat.add_sub_cancel' hmn] at h'

/-- Runs of one context to an answer are the same run. -/
theorem unique (h : Steps x m c t d) (h' : Steps x n c u e) {a b : α} (hd : d.rest = .ret a)
    (he : e.rest = .ret b) : d = e ∧ t = u := by
  have hlong := h.extend (Nat.le_max_left m n) (congrArg Prog.result? hd)
  have hlong' := h'.extend (Nat.le_max_right m n) (congrArg Prog.result? he)
  exact ⟨hlong.run_eq.symm.trans hlong'.run_eq, hlong.trace_eq.symm.trans hlong'.trace_eq⟩

theorem replay (h : Steps x n c t d) :
    t.foldl Access.apply c.state.shared.memory = d.state.shared.memory := by
  obtain ⟨rfl, rfl⟩ := h
  exact trace_replay x n c

end Steps

end Solo

end Atomicity
