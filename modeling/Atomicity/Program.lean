import Atomicity.Instruction

/-!
# Programs

A `Prog α` is what one context executes until it answers an `α`: a tree of instructions in which
each continues with what it answered. A loop is a node of its own, so a program that may wait for
ever is still a finite value, and how long it runs is decided by who runs it.

`bind` puts one program after another. `unroll` is one round of a loop followed by the rest of it;
to pass from a loop to this program executes no instruction.

Main facts: the monad laws (`LawfulMonad Prog`).
-/

namespace Atomicity

/-- A program that answers an `α`. -/
inductive Prog : Type → Type 1 where
  /-- Answers at once. -/
  | ret {α : Type} (a : α) : Prog α
  /-- Executes an instruction and goes on with what it answered. -/
  | instr {α : Type} (i : Instr) (k : i.Reply → Prog α) : Prog α
  /-- Runs `body` from `s`, again and again from the state that it answers, until it answers a
  result, and goes on with that. -/
  | loop {α σ β : Type} (body : σ → Prog (σ ⊕ β)) (s : σ) (k : β → Prog α) : Prog α

namespace Prog

/-- Runs a program and goes on with its answer. -/
def bind {α β : Type} : Prog α → (α → Prog β) → Prog β
  | .ret a, f => f a
  | .instr i k, f => .instr i fun r => (k r).bind f
  | .loop body s k, f => .loop body s fun b => (k b).bind f

instance : Monad Prog where
  pure := .ret
  bind := bind

@[simp]
theorem pure_eq {α : Type} (a : α) : (pure a : Prog α) = .ret a := rfl

@[simp]
theorem bind_eq {α β : Type} (p : Prog α) (f : α → Prog β) : (p >>= f) = p.bind f := rfl

@[simp]
theorem ret_bind {α β : Type} (a : α) (f : α → Prog β) : (ret a).bind f = f a := rfl

@[simp]
theorem instr_bind {α β : Type} (i : Instr) (k : i.Reply → Prog α) (f : α → Prog β) :
    (instr i k).bind f = .instr i fun r => (k r).bind f := rfl

@[simp]
theorem loop_bind {α β γ σ : Type} (body : σ → Prog (σ ⊕ γ)) (s : σ) (k : γ → Prog α)
    (f : α → Prog β) : (loop body s k).bind f = .loop body s fun b => (k b).bind f := rfl

@[simp]
theorem bind_ret {α : Type} (p : Prog α) : p.bind .ret = p := by
  induction p with
  | ret a => rfl
  | instr i k ih => exact congrArg (Prog.instr i) (funext ih)
  | loop body s k _ ih => exact congrArg (Prog.loop body s) (funext ih)

theorem bind_assoc {α β γ : Type} (p : Prog α) (f : α → Prog β) (g : β → Prog γ) :
    (p.bind f).bind g = p.bind fun a => (f a).bind g := by
  induction p with
  | ret a => rfl
  | instr i k ih => exact congrArg (Prog.instr i) (funext fun r => ih r f)
  | loop body s k _ ih => exact congrArg (Prog.loop body s) (funext fun b => ih b f)

instance : LawfulMonad Prog :=
  LawfulMonad.mk' Prog bind_ret (fun _ _ => rfl) bind_assoc

/-- One instruction. -/
def perform (i : Instr) : Prog i.Reply := .instr i .ret

/-- A program that is executed on a condition. -/
def when (c : Prop) [Decidable c] (p : Prog Unit) : Prog Unit := if c then p else .ret ()

/-- Repeats `body` from `s` until it answers a result. -/
def iterate {σ β : Type} (body : σ → Prog (σ ⊕ β)) (s : σ) : Prog β := .loop body s .ret

/-- Repeats an attempt until it succeeds. -/
def untilTrue (attempt : Prog Bool) : Prog Unit :=
  iterate (fun _ => attempt.bind fun ok => .ret (if ok then .inr () else .inl ())) ()

@[simp]
theorem perform_bind {α : Type} (i : Instr) (f : i.Reply → Prog α) :
    (perform i).bind f = .instr i f :=
  rfl

/-- One round of the loop with the given body, from the state `s`. -/
def unroll {α σ β : Type} (body : σ → Prog (σ ⊕ β)) (s : σ) (k : β → Prog α) : Prog α :=
  (body s).bind fun
    | .inl s' => .loop body s' k
    | .inr b => k b

theorem unroll_bind {α β γ σ : Type} (body : σ → Prog (σ ⊕ γ)) (s : σ) (k : γ → Prog α)
    (f : α → Prog β) : unroll body s (fun b => (k b).bind f) = (unroll body s k).bind f := by
  unfold unroll
  rw [bind_assoc]
  congr
  funext r
  cases r <;> rfl

/-- The answer of a program that has nothing left to execute. -/
def result? {α : Type} : Prog α → Option α
  | .ret a => some a
  | _ => none

end Prog

end Atomicity
