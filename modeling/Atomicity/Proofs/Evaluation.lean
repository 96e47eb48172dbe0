import Atomicity.Program.Solo
import Atomicity.Proofs.Trace

/-!
# Evaluation without interference

A context that nothing happens to from outside goes one way only. `Prog.Evaluates` says which: the
program, begun in a state, answers after exactly so many steps and leaves another state. It answers
that in the end, and nothing else (`Evaluates.unique`).

This is what a run of one context does, in both directions: what is evaluated is run
(`Evaluates.run`), and what a run answers is evaluated (`evaluates_of_run`). So a program that is
evaluated within its fuel answers when it is run alone (`Evaluates.alone`), and one that is not
evaluated at all never does.

An attempt that fails, and leaves things so that the next one fails as well, is repeated for ever
(`not_evaluates_untilTrue`).
-/

namespace Atomicity

namespace Prog

variable {α β σ : Type}

/-- Alone in a state, the program answers after so many steps and leaves another state. -/
inductive Evaluates {α : Type} : Prog α → State → Nat → α → State → Prop where
  | ret (a : α) (s : State) : Evaluates (.ret a) s 0 a s
  | instr {i : Instr} {k : i.Reply → Prog α} {s s' : State} {n : Nat} {a : α}
      (h : Evaluates (k (i.exec false s).1) (i.exec false s).2 n a s') :
      Evaluates (.instr i k) s (n + 1) a s'
  | loop {σ β : Type} {body : σ → Prog (σ ⊕ β)} {x : σ} {k : β → Prog α} {s s' : State} {n : Nat}
      {a : α} (h : Evaluates (unroll body x k) s n a s') : Evaluates (.loop body x k) s (n + 1) a s'

namespace Evaluates

variable {p : Prog α} {f : α → Prog β} {s s' s'' : State} {m n : Nat} {a a' : α} {b : β}

/-- There is one way to go. -/
theorem unique (h : p.Evaluates s n a s') (h' : p.Evaluates s m a' s'') :
    n = m ∧ a = a' ∧ s' = s'' := by
  induction h generalizing m with
  | ret a s =>
    cases h'
    exact ⟨rfl, rfl, rfl⟩
  | instr h ih =>
    obtain _ | h' | _ := h'
    obtain ⟨rfl, rfl, rfl⟩ := ih h'
    exact ⟨rfl, rfl, rfl⟩
  | loop h ih =>
    obtain _ | _ | h' := h'
    obtain ⟨rfl, rfl, rfl⟩ := ih h'
    exact ⟨rfl, rfl, rfl⟩

theorem bind (h : p.Evaluates s n a s') (h' : (f a).Evaluates s' m b s'') :
    (p.bind f).Evaluates s (n + m) b s'' := by
  induction h with
  | ret a s =>
    rw [Nat.zero_add]
    exact h'
  | instr h ih =>
    rw [Nat.succ_add]
    exact .instr (ih h')
  | loop h ih =>
    rw [Nat.succ_add]
    refine .loop ?_
    rw [unroll_bind]
    exact ih h'

/-- A program put after another one is evaluated after it. -/
theorem of_bind (h : (p.bind f).Evaluates s n b s'') :
    ∃ m k a s', p.Evaluates s m a s' ∧ (f a).Evaluates s' k b s'' ∧ n = m + k := by
  generalize hq : p.bind f = q at h
  induction h generalizing p with
  | ret b s =>
    cases p with
    | ret a =>
      have hf : f a = .ret b := hq
      exact ⟨0, 0, a, s, .ret a s, hf ▸ .ret b s, rfl⟩
    | instr i k => cases hq
    | loop body x k => cases hq
  | @instr i k s s' n b h ih =>
    cases p with
    | ret a =>
      have hf : f a = .instr i k := hq
      exact ⟨0, n + 1, a, s, .ret a s, hf ▸ .instr h, by omega⟩
    | instr j k =>
      cases hq
      obtain ⟨m, l, a, t, hp, hf, rfl⟩ := ih rfl
      exact ⟨m + 1, l, a, t, .instr hp, hf, by omega⟩
    | loop body x k => cases hq
  | @loop _ _ body x k s s' n b h ih =>
    cases p with
    | ret a =>
      have hf : f a = .loop body x k := hq
      exact ⟨0, n + 1, a, s, .ret a s, hf ▸ .loop h, by omega⟩
    | instr j k => cases hq
    | loop body x k =>
      cases hq
      obtain ⟨m, l, a, t, hp, hf, rfl⟩ := ih (unroll_bind ..).symm
      exact ⟨m + 1, l, a, t, .loop hp, hf, by omega⟩

end Evaluates

/-- An attempt that fails wherever `R` holds, and leaves things so, is repeated for ever. -/
theorem not_evaluates_untilTrue {attempt : Prog Bool} {R : State → Prop}
    (h : ∀ s, R s → ∃ n s', attempt.Evaluates s n false s' ∧ R s') {n : Nat}
    {s s' : State} {a : Unit} (hs : R s) : ¬ (untilTrue attempt).Evaluates s n a s' := by
  intro he
  induction n using Nat.strongRecOn generalizing s with
  | ind n ih =>
    obtain ⟨k, t, hattempt, ht⟩ := h s hs
    obtain _ | _ | he := he
    obtain ⟨m, l, r, u, hround, hrest, hn⟩ := he.of_bind
    obtain ⟨i, j, ok, v, hok, hret, hm⟩ := hround.of_bind
    obtain ⟨rfl, rfl, rfl⟩ := hattempt.unique hok
    cases hret
    exact ih l (by omega) ht hrest

end Prog

namespace Solo

open Prog

variable {α : Type}

/-- A step of a context that nothing happens to. -/
theorem step_alone {c : Solo α} {i : Instr} {k : i.Reply → Prog α} (hc : c.rest = .instr i k) :
    ∃ d, c.step .none = some d ∧ d.rest = k (i.exec false c.state).1 ∧
      d.state = (i.exec false c.state).2 := by
  have hpokes : ∀ n s, Interference.none.disturb Interference.none.pokes n s = s := fun _ _ => rfl
  have hupdates : ∀ n s, Interference.none.disturb Interference.none.updatePokes n s = s :=
    fun _ _ => rfl
  have hfinds : c.finds .none i = c.state := by
    simp only [finds, hpokes, hupdates, ite_self]
  have hrejected : c.rejected .none i = false := by
    simp [rejected, Interference.none]
  refine ⟨c.after .none i k, ?_, ?_, ?_⟩
  · simp [step_instr _ hc, Interference.spent, Interference.none]
  · simp only [after, hfinds, hrejected]
  · simp only [after, hfinds, hrejected]

end Solo

namespace Prog

variable {α : Type}

/-- What is evaluated is run. -/
theorem Evaluates.run {p : Prog α} {s s' : State} {n m : Nat} {a : α} (h : p.Evaluates s n a s')
    (hm : n ≤ m) {c : Solo α} (hc : c.rest = p) (hs : c.state = s) :
    (c.run .none m).rest = .ret a ∧ (c.run .none m).state = s' := by
  induction h generalizing m c with
  | ret a s =>
    have hnone := Solo.step_isNone_of_result .none (c := c) (a := a) (by rw [Solo.result?, hc]; rfl)
    rw [Solo.run_of_step_none _ _ hnone]
    exact ⟨hc, hs⟩
  | instr h ih =>
    obtain ⟨l, rfl⟩ := Nat.exists_eq_add_of_lt hm
    obtain ⟨d, hstep, hrest, hstate⟩ := Solo.step_alone hc
    subst hs
    rw [Solo.run_succ _ _ hstep]
    exact ih (by omega) hrest hstate
  | @loop _ _ body x k s s' n a h ih =>
    obtain ⟨l, rfl⟩ := Nat.exists_eq_add_of_lt hm
    have hstep : c.step .none = some { c with rest := unroll body x k } := by simp [Solo.step, hc]
    rw [Solo.run_succ _ _ hstep]
    exact ih (by omega) rfl hs

/-- What a run answers is evaluated. -/
theorem evaluates_of_run {m : Nat} {c : Solo α} {a : α} (h : (c.run .none m).result? = some a) :
    ∃ n s', c.rest.Evaluates c.state n a s' := by
  induction m generalizing c with
  | zero =>
    obtain ⟨p, s, es, u, l⟩ := c
    cases p with
    | ret b =>
      cases h
      exact ⟨0, s, .ret a s⟩
    | instr i k => cases h
    | loop body x k => cases h
  | succ m ih =>
    cases hc : c.rest with
    | ret b =>
      have hresult : c.result? = some b := by rw [Solo.result?, hc]; rfl
      rw [Solo.run_of_step_none _ _ (Solo.step_isNone_of_result _ hresult), hresult] at h
      cases h
      exact ⟨0, c.state, .ret a c.state⟩
    | instr i k =>
      obtain ⟨d, hstep, hrest, hstate⟩ := Solo.step_alone hc
      rw [Solo.run_succ _ _ hstep] at h
      obtain ⟨n, s', he⟩ := ih h
      rw [hrest, hstate] at he
      exact ⟨n + 1, s', .instr he⟩
    | loop body x k =>
      have hstep : c.step .none = some { c with rest := unroll body x k } := by simp [Solo.step, hc]
      rw [Solo.run_succ _ _ hstep] at h
      obtain ⟨n, s', he⟩ := ih h
      exact ⟨n + 1, s', .loop he⟩

/-- A program that is evaluated within its fuel answers when it is run alone. -/
theorem Evaluates.alone {p : Prog α} {s s' : State} {n : Nat} {a : α} (h : p.Evaluates s n a s')
    (hn : n ≤ Interference.none.fuel) : (p.alone s).result? = some a ∧ (p.alone s).state = s' := by
  obtain ⟨hrest, hstate⟩ := h.run hn (c := Solo.start p s) rfl rfl
  refine ⟨?_, hstate⟩
  change ((Solo.start p s).run .none Interference.none.fuel).rest.result? = some a
  rw [hrest]
  rfl

/-- What has answered alone is evaluated, to the state that it leaves. -/
theorem evaluates_of_alone {p : Prog α} {s : State} {a : α} (h : (p.alone s).result? = some a) :
    ∃ n, p.Evaluates s n a (p.alone s).state := by
  obtain ⟨n, s', he⟩ := evaluates_of_run h
  have hrun := (he.run (Nat.le_max_left n Interference.none.fuel) rfl rfl).2
  have hstay : (Solo.start p s).run .none (max n Interference.none.fuel) = p.alone s := by
    obtain ⟨k, hk⟩ := Nat.exists_eq_add_of_le (Nat.le_max_right n Interference.none.fuel)
    rw [hk, Solo.run_add]
    exact Solo.run_of_step_none _ _ (Solo.step_isNone_of_result _ h)
  rw [hstay] at hrun
  exact ⟨n, hrun ▸ he⟩

end Prog

end Atomicity
