import Atomicity.Proofs.Context
import Atomicity.Proofs.Leads

/-!
# Contexts that comply

`Context.Stepped` has one case for each kind of step that a context can take, with the context and
the state after it.

A context **complies** (`Context.Complies`) if what is left of its request complies with a
discipline of that request, whose ghost is what has been executed so far. A step of a context that
complies leaves one that complies, and if an instruction is executed, it is as the discipline says
(`Complies.step`).

A discipline may be kept on a condition on what has been executed (`Discipline.asLongAs`). Once that
fails, nothing more is asked of the program, so it need not be said what becomes of answers that it
cannot get.
-/

namespace Atomicity

namespace Discipline

variable {α : Type} {D : Discipline (List Executed)} {P : List Executed → Prop}

/-- The discipline is kept for as long as `P` holds of what has been executed. -/
def asLongAs (D : Discipline (List Executed)) (P : List Executed → Prop) :
    Discipline (List Executed) where
  env := D.env
  own i r log s log' s' := log' = ⟨i, r⟩ :: log ∧ (P log' → D.own i r log s log' s')

section

variable (hlog : ∀ i r log s log' s', D.own i r log s log' s' → log' = ⟨i, r⟩ :: log)
  (hP : ∀ e log, P (e :: log) → P log)

include hlog hP

theorem Keeps.asLongAs {Q : α → List Executed → State → Prop} {n : Nat} {p : Prog α}
    {log : List Executed} {s : State} (h : P log → D.Keeps Q n p log s) :
    (D.asLongAs P).Keeps (fun a log s => P log → Q a log s) n p log s := by
  induction n generalizing p log s with
  | zero => trivial
  | succ n ih =>
    cases p with
    | ret a => exact h
    | loop body t k => exact ih h
    | instr i k =>
      intro s' he refused
      refine ⟨⟨i, (i.exec refused s').1⟩ :: log, ⟨rfl, fun hnow => ?_⟩, ih fun hnow => ?_⟩
      · obtain ⟨log', hown, -⟩ := h (hP _ _ hnow) s' he refused
        exact hlog _ _ _ _ _ _ hown ▸ hown
      · obtain ⟨log', hown, hkeeps⟩ := h (hP _ _ hnow) s' he refused
        exact hlog _ _ _ _ _ _ hown ▸ hkeeps

theorem Leads.asLongAs {R : List Executed → State → Prop} {M : α → List Executed → State → Prop}
    {p : Prog α} (h : D.Leads R p M) :
    (D.asLongAs P).Leads (fun log s => P log → R log s) p fun a log s => P log → M a log s :=
  fun log s hs n => Keeps.asLongAs hlog hP fun hnow => h log s (hs hnow) n

end

end Discipline

namespace Context

variable {S : Service}

/-- The step of a context, with what it leaves of the context and of the state. -/
inductive Stepped (refused : Bool) (s : State) : Context S → Context S → State → Prop where
  | idle (answered : List (Answered S)) :
      Stepped refused s ⟨none, [], answered⟩ ⟨none, [], answered⟩ s
  | start (r : S.Request) (todo : List S.Request) (answered : List (Answered S)) :
      Stepped refused s ⟨none, r :: todo, answered⟩ ⟨some (.start r), todo, answered⟩ s
  | finish (r : S.Request) (x : S.Answer r) (log : List Executed) (todo : List S.Request)
      (answered : List (Answered S)) :
      Stepped refused s ⟨some ⟨r, .ret x, log⟩, todo, answered⟩ ⟨none, todo, answered ++ [⟨r, x⟩]⟩ s
  | loop (r : S.Request) {σ β : Type} (body : σ → Prog (σ ⊕ β)) (y : σ) (k : β → Prog (S.Answer r))
      (log : List Executed) (todo : List S.Request) (answered : List (Answered S)) :
      Stepped refused s ⟨some ⟨r, .loop body y k, log⟩, todo, answered⟩
        ⟨some ⟨r, Prog.unroll body y k, log⟩, todo, answered⟩ s
  | exec (r : S.Request) (i : Instr) (k : i.Reply → Prog (S.Answer r)) (log : List Executed)
      (todo : List S.Request) (answered : List (Answered S)) :
      Stepped refused s ⟨some ⟨r, .instr i k, log⟩, todo, answered⟩
        ⟨some ⟨r, k (i.exec refused s).1, ⟨i, (i.exec refused s).1⟩ :: log⟩, todo, answered⟩
        (i.exec refused s).2

theorem stepped (refused : Bool) (s : State) (c : Context S) :
    Stepped refused s c (c.step refused s).1 (c.step refused s).2 := by
  obtain ⟨current, todo, answered⟩ := c
  cases current with
  | none =>
    cases todo with
    | nil => exact .idle answered
    | cons r todo => exact .start r todo answered
  | some p =>
    obtain ⟨r, rest, log⟩ := p
    cases rest with
    | ret x => exact .finish r x log todo answered
    | loop body y k => exact .loop r body y k log todo answered
    | instr i k => exact .exec r i k log todo answered

/-- What is left of the request complies with the discipline of the request for so many steps, and
is to answer where `Q` holds. Between two requests, `rest` holds. -/
def Complies (D : S.Request → Discipline (List Executed)) (rest : State → Prop)
    (Q : S.Request → List Executed → State → Prop) (n : Nat) (c : Context S) (s : State) : Prop :=
  match c.current with
  | none => rest s
  | some p => (D p.request).Keeps (fun _ => Q p.request) n p.rest p.log s

variable {D : S.Request → Discipline (List Executed)} {rest : State → Prop}
  {Q : S.Request → List Executed → State → Prop} {n : Nat} {c : Context S} {s : State}

namespace Complies

theorem le {m : Nat} (hmn : m ≤ n) (h : c.Complies D rest Q n s) : c.Complies D rest Q m s := by
  unfold Complies at h ⊢
  cases hc : c.current with
  | none => simpa only [hc] using h
  | some p =>
    simp only [hc] at h ⊢
    exact h.le hmn

/-- What an instruction of the context is to be. -/
theorem own {r : S.Request} {i : Instr} {k : i.Reply → Prog (S.Answer r)} {log : List Executed}
    {todo : List S.Request} {answered : List (Answered S)} (henv : (D r).env i s s)
    (h : (⟨some ⟨r, .instr i k, log⟩, todo, answered⟩ : Context S).Complies D rest Q (n + 1) s)
    (refused : Bool) :
    ∃ g, (D r).own i (i.exec refused s).1 log s g (i.exec refused s).2 ∧
      (D r).Keeps (fun _ => Q r) n (k (i.exec refused s).1) g (i.exec refused s).2 :=
  h s henv refused

/-- **A step of a context that complies leaves one that complies.** -/
theorem step (henv : ∀ r i s, (D r).env i s s)
    (hlog : ∀ r i x g s g' s', (D r).own i x g s g' s' → g' = ⟨i, x⟩ :: g)
    (hstart : ∀ r s, rest s → (D r).Always (fun _ => Q r) (S.prog r) [] s)
    (hfinish : ∀ r log s, Q r log s → rest s) (h : c.Complies D rest Q (n + 1) s) (refused : Bool) :
    (c.step refused s).1.Complies D rest Q n (c.step refused s).2 := by
  have hstep := c.stepped refused s
  generalize c.step refused s = out at hstep ⊢
  obtain ⟨c', s'⟩ := out
  cases hstep with
  | idle answered => exact h
  | start r todo answered => exact hstart r _ h n
  | finish r x log todo answered => exact hfinish r log _ h
  | loop r body y k log todo answered => exact h
  | exec r i k log todo answered =>
    obtain ⟨g, hown, hkeeps⟩ := h.own (henv r i s) refused
    obtain rfl := hlog r i _ log s g _ hown
    exact hkeeps

end Complies

end Context

end Atomicity
