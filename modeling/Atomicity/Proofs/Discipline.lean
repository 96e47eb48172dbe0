import Atomicity.Program

/-!
# Disciplines

What a program can be relied on to do, instruction by instruction, whatever others do in between.

A `Discipline` says what may happen from outside just before an instruction (`env`), and what every
instruction executed after that has to comply with (`own`). It carries a ghost of type `γ`, which no
instruction reads: a discipline uses it to say what has been done so far and what is still owed.

`Keeps D Q n p g s` says that `p`, begun in state `s` with ghost `g`, complies for `n` steps, and
that `Q` holds where it answers within them. `Always` is that for every `n`: it says nothing of
whether `p` comes to an answer, and everything of what it does until then. Every instruction is
tried both accepted and refused.

**The rules** follow the program: `Always.ret`, `Always.instr`, `Always.bind`, and `Always.loop`, in
which an invariant that every round preserves carries a loop however often it repeats. That one is
by induction on the number of steps, the only place where it matters that there is such a number.
-/

namespace Atomicity

/-- What may happen before an instruction, and what the instruction has to comply with. -/
structure Discipline (γ : Type) where
  /-- What others may do just before an instruction. -/
  env : Instr → State → State → Prop
  /-- What executing an instruction may amount to: its answer, and ghost and state before and
  after. -/
  own : (i : Instr) → i.Reply → γ → State → γ → State → Prop

namespace Discipline

variable {γ α β σ : Type} (D : Discipline γ)

/-- A program complies for so many steps, and what it answers within them satisfies `Q`. -/
def Keeps (Q : α → γ → State → Prop) : Nat → Prog α → γ → State → Prop
  | 0, _, _, _ => True
  | n + 1, p, g, s =>
    match p with
    | .ret a => Q a g s
    | .loop body t k => Keeps Q n (Prog.unroll body t k) g s
    | .instr i k =>
      ∀ s', D.env i s s' → ∀ refused, ∃ g',
        D.own i (i.exec refused s').1 g s' g' (i.exec refused s').2 ∧
          Keeps Q n (k (i.exec refused s').1) g' (i.exec refused s').2

/-- A program complies for as long as it runs. -/
def Always (Q : α → γ → State → Prop) (p : Prog α) (g : γ) (s : State) : Prop :=
  ∀ n, D.Keeps Q n p g s

variable {D} {Q R : α → γ → State → Prop}

/-- Fewer steps and a weaker postcondition ask for less. -/
theorem Keeps.mono (hQ : ∀ a g s, Q a g s → R a g s) {m n : Nat} (hmn : m ≤ n) {p : Prog α} {g : γ}
    {s : State} (h : D.Keeps Q n p g s) : D.Keeps R m p g s := by
  induction m generalizing n p g s with
  | zero => trivial
  | succ m ih =>
    obtain ⟨n, rfl⟩ : ∃ k, n = k + 1 := ⟨n - 1, by omega⟩
    have hmn : m ≤ n := Nat.le_of_succ_le_succ hmn
    cases p with
    | ret a => exact hQ a g s h
    | loop body t k => exact ih hmn h
    | instr i k =>
      intro s' he refused
      obtain ⟨g', ho, hk⟩ := h s' he refused
      exact ⟨g', ho, ih hmn hk⟩

theorem Keeps.le {m n : Nat} (hmn : m ≤ n) {p : Prog α} {g : γ} {s : State}
    (h : D.Keeps Q n p g s) : D.Keeps Q m p g s :=
  h.mono (fun _ _ _ hQ => hQ) hmn

/-- What others have done, and not just before an instruction, leaves a program complying if it adds
nothing to what they may do before an instruction that complies, and `Q` does not mind it. -/
theorem Keeps.moved {g : γ} {s s' : State}
    (henv : ∀ i s'', (∀ s₁, D.env i s s₁ → ∃ r g' s₂, D.own i r g s₁ g' s₂) → D.env i s' s'' →
      D.env i s s'')
    (hQ : ∀ a, Q a g s → Q a g s') {n : Nat} {p : Prog α} (h : D.Keeps Q n p g s) :
    D.Keeps Q n p g s' := by
  induction n generalizing p with
  | zero => trivial
  | succ n ih =>
    cases p with
    | ret a => exact hQ a h
    | loop body t k => exact ih h
    | instr i k =>
      have howns : ∀ s₁, D.env i s s₁ → ∃ r g' s₂, D.own i r g s₁ g' s₂ := by
        intro s₁ he
        obtain ⟨g', hown, -⟩ := h s₁ he false
        exact ⟨_, g', _, hown⟩
      exact fun s'' he refused => h s'' (henv i s'' howns he) refused

/-- What others may do at any time leaves a program complying if it adds nothing to what they may do
before an instruction, and `Q` does not mind it. -/
theorem Keeps.drift {R : State → State → Prop}
    (henv : ∀ i s s' s'', R s s' → D.env i s' s'' → D.env i s s'')
    (hQ : ∀ a g s s', R s s' → Q a g s → Q a g s') {n : Nat} {p : Prog α} {g : γ} {s s' : State}
    (hs : R s s') (h : D.Keeps Q n p g s) : D.Keeps Q n p g s' :=
  h.moved (fun i s'' _ he => henv i s s' s'' hs he) fun a => hQ a g s s' hs

/-- A program put after another one complies if it does so from wherever the first one answers. -/
theorem Keeps.bind {Q : β → γ → State → Prop} (f : α → Prog β) {n : Nat} {p : Prog α} {g : γ}
    {s : State} (h : D.Keeps (fun a g s => D.Keeps Q n (f a) g s) n p g s) :
    D.Keeps Q n (p.bind f) g s := by
  induction n generalizing p g s with
  | zero => trivial
  | succ n ih =>
    have weaken : ∀ a g s, D.Keeps Q (n + 1) (f a) g s → D.Keeps Q n (f a) g s :=
      fun _ _ _ h => h.le (Nat.le_succ n)
    cases p with
    | ret a => exact h
    | loop body t k =>
      -- the next round comes from opening the loop inside of the bind
      rw [Prog.loop_bind]
      change D.Keeps Q n (Prog.unroll body t fun b => (k b).bind f) g s
      rw [Prog.unroll_bind]
      exact ih (Keeps.mono weaken (Nat.le_refl n) h)
    | instr i k =>
      intro s' he refused
      obtain ⟨g', ho, hk⟩ := h s' he refused
      exact ⟨g', ho, ih (hk.mono weaken (Nat.le_refl n))⟩

/-! ## The rules -/

theorem Always.mono (hQ : ∀ a g s, Q a g s → R a g s) {p : Prog α} {g : γ} {s : State}
    (h : D.Always Q p g s) : D.Always R p g s :=
  fun n => (h n).mono hQ (Nat.le_refl n)

theorem Always.ret {a : α} {g : γ} {s : State} (h : Q a g s) : D.Always Q (.ret a) g s := by
  intro n
  cases n with
  | zero => trivial
  | succ n => exact h

theorem Always.instr {i : Instr} {k : i.Reply → Prog α} {g : γ} {s : State}
    (h : ∀ s', D.env i s s' → ∀ refused, ∃ g',
      D.own i (i.exec refused s').1 g s' g' (i.exec refused s').2 ∧
        D.Always Q (k (i.exec refused s').1) g' (i.exec refused s').2) :
    D.Always Q (.instr i k) g s := by
  intro n
  cases n with
  | zero => trivial
  | succ n =>
    intro s' he refused
    obtain ⟨g', ho, hk⟩ := h s' he refused
    exact ⟨g', ho, hk n⟩

theorem Always.bind {Q : β → γ → State → Prop} {f : α → Prog β} {p : Prog α} {g : γ} {s : State}
    (h : D.Always (fun a g s => D.Always Q (f a) g s) p g s) : D.Always Q (p.bind f) g s :=
  fun n => Keeps.bind f ((h n).mono (fun _ _ _ h => h n) (Nat.le_refl n))

/-- **A loop complies if every round does**, from whatever `Inv` admits. A round that goes on ends
where `Inv` admits another, and a round that ends the loop where its result satisfies `P`. -/
theorem Always.loop (Inv : σ → γ → State → Prop) (P : β → γ → State → Prop)
    {body : σ → Prog (σ ⊕ β)} {k : β → Prog α}
    (round : ∀ t g s, Inv t g s →
      D.Always (fun r g s => match r with
        | .inl t => Inv t g s
        | .inr b => P b g s) (body t) g s)
    (rest : ∀ b g s, P b g s → D.Always Q (k b) g s) {t : σ} {g : γ} {s : State}
    (h : Inv t g s) : D.Always Q (.loop body t k) g s := by
  intro n
  -- a round takes at least the step that opens it, so what it goes on to has fewer
  induction n generalizing t g s with
  | zero => trivial
  | succ n ih =>
    refine Keeps.bind _ ((round t g s h n).mono (fun r g s hr => ?_) (Nat.le_refl n))
    cases r with
    | inl t => exact ih hr
    | inr b => exact rest b g s hr n

end Discipline

end Atomicity
