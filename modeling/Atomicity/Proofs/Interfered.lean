import Atomicity.Proofs.Context
import Atomicity.Proofs.Discipline
import Atomicity.Proofs.Trace

/-!
# Disciplines under interference

A discipline says what a program does whatever others do in between. Here the others are an
`Interference`: foreign writes to a word, and rejected store-exclusives.

`Admits D x` says that what `x` does just before an instruction is nothing that `D` keeps others
from. It is enough to look at one foreign write (`Admits.of_writes`).

**A program that complies does so under interference** (`Always.run`): what each of its instructions
preserves, of what has been executed so far, of the ghost, and of the state, holds after any number
of steps, and what is left of the program complies. `Solo.executed` is what has been executed.
-/

namespace Atomicity

namespace Interference

/-- What one foreign write preserves, all that are due do. -/
theorem disturb_induction (x : Interference) {P : State → Prop}
    (write : ∀ s v, P s → P ((s.write x.width x.addr v).reserve Option.none))
    (schedule : List (Nat × Word x.width)) (n : Nat) {s : State} (h : P s) :
    P (x.disturb schedule n s) := by
  unfold disturb
  induction schedule generalizing s with
  | nil => exact h
  | cons e schedule ih =>
    rw [List.foldl_cons]
    refine ih ?_
    split
    · exact write s e.2 h
    · exact h

end Interference

namespace Solo

variable {α : Type} (x : Interference)

/-- What a context executes in its next step. -/
def executes (c : Solo α) : List Executed :=
  match c.rest with
  | .instr i _ => [⟨i, (i.exec (c.rejected x i) (c.finds x i)).1⟩]
  | _ => []

/-- What a context executes in at most so many steps, first instruction first. -/
def executed : Nat → Solo α → List Executed
  | 0, _ => []
  | n + 1, c =>
    match c.step x with
    | none => []
    | some d => c.executes x ++ executed n d

theorem finds_induction {P : State → Prop}
    (write : ∀ s v, P s → P ((s.write x.width x.addr v).reserve none)) {c : Solo α} (i : Instr)
    (h : P c.state) : P (c.finds x i) := by
  have hseen : P (if (i.event? c.state.core).isSome then
      x.disturb x.pokes c.events.length c.state else c.state) := by
    split
    · exact x.disturb_induction write _ _ h
    · exact h
  unfold finds
  simp only
  split
  · exact x.disturb_induction write _ _ hseen
  · exact hseen

end Solo

namespace Discipline

variable {γ α : Type} {D : Discipline γ} {x : Interference}

/-- What an interference does just before an instruction is nothing that others may not do. -/
def Admits (D : Discipline γ) (x : Interference) : Prop :=
  ∀ {α : Type} (c : Solo α) (i : Instr), D.env i c.state (c.finds x i)

theorem Admits.of_writes (refl : ∀ i s, D.env i s s)
    (write : ∀ i s s' v, D.env i s s' → D.env i s ((s'.write x.width x.addr v).reserve none)) :
    D.Admits x :=
  fun c i => Solo.finds_induction x (write i c.state) i (refl i c.state)

/-- A context that complies for `n + m` steps complies for `m` after it has taken `n`. -/
theorem Keeps.run (hx : D.Admits x) {Q : α → γ → State → Prop}
    {I : List Executed → γ → State → Prop}
    (keep : ∀ es i g g' s s' refused, I es g s → D.env i s s' →
      D.own i (i.exec refused s').1 g s' g' (i.exec refused s').2 →
      I (es ++ [⟨i, (i.exec refused s').1⟩]) g' (i.exec refused s').2)
    (n m : Nat) {c : Solo α} {es : List Executed} {g : γ} (h : D.Keeps Q (n + m) c.rest g c.state)
    (hI : I es g c.state) : ∃ g', I (es ++ c.executed x n) g' (c.run x n).state ∧
      D.Keeps Q m (c.run x n).rest g' (c.run x n).state := by
  induction n generalizing c es g with
  | zero => exact ⟨g, by simpa [Solo.executed] using hI, h.le (Nat.le_add_left m 0)⟩
  | succ n ih =>
    cases hs : c.step x with
    | none =>
      rw [Solo.run_of_step_none x _ hs]
      exact ⟨g, by simpa [Solo.executed, hs] using hI, h.le (Nat.le_add_left m _)⟩
    | some d =>
      rw [Solo.run_succ x n hs]
      simp only [Solo.executed, hs]
      rw [Nat.add_right_comm] at h
      cases hp : c.rest with
      | ret a => simp [Solo.step, hp] at hs
      | loop body t k =>
        obtain rfl : { c with rest := Prog.unroll body t k } = d := by
          simpa [Solo.step, hp] using hs
        have hexec : c.executes x = [] := by simp [Solo.executes, hp]
        rw [hp] at h
        rw [hexec, List.nil_append]
        exact ih h hI
      | instr i k =>
        rw [Solo.step_instr x hp] at hs
        obtain rfl : c.after x i k = d := by
          split at hs
          · cases hs
          · exact Option.some.inj hs
        have hexec : c.executes x = [⟨i, (i.exec (c.rejected x i) (c.finds x i)).1⟩] := by
          simp [Solo.executes, hp]
        rw [hp] at h
        obtain ⟨g', hown, hk⟩ := h (c.finds x i) (hx c i) (c.rejected x i)
        rw [hexec, ← List.append_assoc]
        exact ih hk (keep es i g g' c.state (c.finds x i) (c.rejected x i) hI (hx c i) hown)

/-- **A program that complies does so under interference**, and where it has answered, what it
complies with says of the answer. -/
theorem Always.run (hx : D.Admits x) {Q : α → γ → State → Prop}
    {I : List Executed → γ → State → Prop}
    (keep : ∀ es i g g' s s' refused, I es g s → D.env i s s' →
      D.own i (i.exec refused s').1 g s' g' (i.exec refused s').2 →
      I (es ++ [⟨i, (i.exec refused s').1⟩]) g' (i.exec refused s').2)
    (n : Nat) {p : Prog α} {g : γ} {s : State} (h : D.Always Q p g s) (hI : I [] g s) :
    ∃ g', I ((Solo.start p s).executed x n) g' ((Solo.start p s).run x n).state ∧
      ∀ a, ((Solo.start p s).run x n).result? = some a →
        Q a g' ((Solo.start p s).run x n).state := by
  obtain ⟨g', hI', hk⟩ := Keeps.run hx keep n 1 (c := Solo.start p s) (h (n + 1)) hI
  refine ⟨g', by simpa using hI', fun a ha => ?_⟩
  unfold Solo.result? at ha
  cases hp : ((Solo.start p s).run x n).rest with
  | ret b =>
    rw [hp] at hk ha
    obtain rfl : b = a := Option.some.inj ha
    exact hk
  | instr i k =>
    rw [hp] at ha
    cases ha
  | loop body t k =>
    rw [hp] at ha
    cases ha

end Discipline

end Atomicity
