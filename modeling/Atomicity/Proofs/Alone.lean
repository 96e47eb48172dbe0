import Atomicity.Proofs.Interfered
import Atomicity.Proofs.Leads

/-!
# Ghosts of a program that runs alone

Where nothing happens from outside, what happens to memory is what the program itself executes
(`Solo.trace_alone`). The disciplines `tallying` are for such runs: others do nothing, and the ghost
goes by what is executed. **When the program has answered, the ghost is the fold over all that it
has executed** (`tallying.result`).
-/

namespace Atomicity

open Prog

namespace Solo

variable {α : Type}

/-- A context that nothing happens to finds what it has left. -/
theorem finds_alone (c : Solo α) (i : Instr) : c.finds .none i = c.state := by
  simp [finds, Interference.none, Interference.disturb]

/-- What happens to memory while nothing is done from outside is what the context itself does. -/
theorem trace_alone (n : Nat) (c : Solo α) :
    c.trace .none n = (c.executed .none n).flatMap fun e => e.1.accesses e.2 := by
  induction n generalizing c with
  | zero => rfl
  | succ n ih =>
    cases hs : c.step .none with
    | none => simp [trace, executed, hs]
    | some d =>
      have own : c.accesses .none = (c.executes .none).flatMap fun e => e.1.accesses e.2 := by
        obtain ⟨p, s, es, u, i⟩ := c
        cases p with
        | instr i k => simp [accesses, executes, due, Interference.due, Interference.none]
        | _ => rfl
      simp [trace, executed, hs, own, ih]

end Solo

/-- What a program executes while it runs alone, first instruction first. -/
def Prog.executedAlone {α : Type} (p : Prog α) (s : State) : List Executed :=
  (Solo.start p s).executed .none Interference.none.fuel

namespace Discipline

variable {γ α : Type}

/-- Others do nothing, and the ghost goes by what is executed. -/
def tallying (f : γ → Executed → γ) : Discipline γ where
  env _ s s' := s' = s
  own i r g _ g' _ := g' = f g ⟨i, r⟩

namespace tallying

variable {f : γ → Executed → γ} {R : γ → State → Prop}

theorem instr {i : Instr} {M : i.Reply → γ → State → Prop}
    (h : ∀ g s refused, R g s →
      M (i.exec refused s).1 (f g ⟨i, (i.exec refused s).1⟩) (i.exec refused s).2) :
    (tallying f).Leads R (perform i) M := by
  refine .instr fun g s s' refused hs he => ?_
  subst he
  exact ⟨_, rfl, h g s' refused hs⟩

/-- What every instruction keeps of the ghost, every program does. -/
theorem keeps {R : γ → Prop} (h : ∀ g e, R g → R (f g e)) (p : Prog α) :
    (tallying f).Leads (fun g _ => R g) p fun _ g _ => R g :=
  .all (fun _ _ => instr fun g _ _ hg => h g _ hg) (All.trivial p)

/-- **When a program that runs alone has answered, the ghost is the fold over all that it has
executed.** -/
theorem result {p : Prog α} {M : α → γ → State → Prop} (h : (tallying f).Leads R p M)
    {g : γ} {s : State} (hs : R g s) {r : α} (hr : (p.alone s).result? = some r) :
    M r ((p.executedAlone s).foldl f g) (p.alone s).state := by
  let Folded : List Executed → γ → State → Prop := fun done g' _ => g' = done.foldl f g
  have admits : (tallying f).Admits .none := fun c i => c.finds_alone i
  have keep : ∀ done i g g' s s' refused, Folded done g s → (tallying f).env i s s' →
      (tallying f).own i (i.exec refused s').1 g s' g' (i.exec refused s').2 →
      Folded (done ++ [⟨i, (i.exec refused s').1⟩]) g' (i.exec refused s').2 := by
    intro done i g g' s s' refused hg _ hg'
    simp only [Folded, tallying] at hg hg' ⊢
    rw [hg', hg, List.foldl_append]
    rfl
  obtain ⟨g', hfolded, hresult⟩ := Always.run admits keep Interference.none.fuel (h g s hs) rfl
  have hfold : g' = (p.executedAlone s).foldl f g := hfolded
  rw [← hfold]
  exact hresult r hr

end tallying

end Discipline

end Atomicity
