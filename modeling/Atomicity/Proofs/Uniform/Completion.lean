import Atomicity.Fetch
import Atomicity.Proofs.Evaluation

/-!
# Completion without interference

`Prog.Completes` is the judgment of this development: begun with that memory, and with nothing going
on in the machine (`State.Settled`), a program answers within so many steps, as it is said to, and
again leaves nothing going on. `Prog.Does` is the case that its answer and the memory that it leaves
are known, and `Prog.Skips` that it leaves memory alone.

A program put after another one completes if both do, and the steps add up. **A loop completes if
its first round answers** (`Completes.iterate`); without interference every loop of a backend does.
A round of an exclusive pair is one of those: its store-exclusive finds the monitor as its
load-exclusive has left it.
-/

namespace Atomicity

/-- Nothing is going on in a machine that one context runs on alone: whoever has its interrupts
masked on the simulated core owns it, and nobody is constructing the global lock. -/
structure State.Settled (s : State) : Prop where
  owner : s.shared.coreOwned = s.core.masked
  once : s.shared.once ≠ .running

/-- The instruction touches nothing that contexts share, nor who owns the simulated core. -/
def Instr.IsPrivate (i : Instr) : Prop :=
  ∀ s, (i.exec false s).2.shared = s.shared ∧ (i.exec false s).2.core.masked = s.core.masked

namespace Prog

variable {α β σ : Type} {m m' : Memory} {n k : Nat}

/-- With that memory, and alone, the program answers within so many steps. -/
def Completes (p : Prog α) (n : Nat) (m : Memory) (Q : α → Memory → Prop) : Prop :=
  ∀ s : State, s.Settled → s.shared.memory = m →
    ∃ k a s', k ≤ n ∧ p.Evaluates s k a s' ∧ s'.Settled ∧ Q a s'.shared.memory

/-- With that memory, and alone, the program answers `a` within so many steps and leaves `m'`. -/
def Does (p : Prog α) (n : Nat) (m : Memory) (a : α) (m' : Memory) : Prop :=
  p.Completes n m fun b m'' => b = a ∧ m'' = m'

/-- With that memory, and alone, the program answers within so many steps and leaves memory
alone. -/
def Skips (p : Prog α) (n : Nat) (m : Memory) : Prop :=
  p.Completes n m fun _ m' => m' = m

namespace Completes

variable {p : Prog α} {f : α → Prog β} {Q Q' : α → Memory → Prop} {M : β → Memory → Prop} {a : α}

theorem ret (h : Q a m) : (Prog.ret a).Completes n m Q := by
  intro s hs hmem
  subst hmem
  exact ⟨0, a, s, Nat.zero_le n, .ret a s, hs, h⟩

theorem mono (h : p.Completes n m Q) (hQ : ∀ a m', Q a m' → Q' a m') : p.Completes n m Q' := by
  intro s hs hmem
  obtain ⟨k, a, s', hk, he, hs', hq⟩ := h s hs hmem
  exact ⟨k, a, s', hk, he, hs', hQ a _ hq⟩

theorem le (h : p.Completes n m Q) (hnk : n ≤ k) : p.Completes k m Q := by
  intro s hs hmem
  obtain ⟨l, a, s', hl, he⟩ := h s hs hmem
  exact ⟨l, a, s', Nat.le_trans hl hnk, he⟩

theorem bind (h : p.Completes n m Q) (next : ∀ a m', Q a m' → (f a).Completes k m' M) :
    (p.bind f).Completes (n + k) m M := by
  intro s hs hmem
  obtain ⟨i, a, s', hi, he, hs', hq⟩ := h s hs hmem
  obtain ⟨j, b, s'', hj, he', hs'', hm⟩ := next a _ hq s' hs' rfl
  exact ⟨i + j, b, s'', Nat.add_le_add hi hj, he.bind he', hs'', hm⟩

/-- To make something of the answer takes no step. -/
theorem map {g : α → β} (h : p.Completes n m fun a => M (g a)) :
    (p.bind fun a => .ret (g a)).Completes n m M :=
  h.bind fun _ _ hm => .ret (n := 0) hm

theorem instr {i : Instr} {Q : i.Reply → Memory → Prop}
    (h : ∀ s : State, s.Settled → s.shared.memory = m →
      (i.exec false s).2.Settled ∧ Q (i.exec false s).1 (i.exec false s).2.shared.memory) :
    (perform i).Completes 1 m Q := by
  intro s hs hmem
  obtain ⟨hs', hq⟩ := h s hs hmem
  exact ⟨1, _, _, Nat.le_refl 1, .instr (.ret _ _), hs', hq⟩

/-- **A loop completes if its first round answers.** -/
theorem iterate {body : σ → Prog (σ ⊕ α)} {x : σ}
    (h : (body x).Completes n m fun r m' => ∃ a, r = .inr a ∧ Q a m') :
    (Prog.iterate body x).Completes (n + 1) m Q := by
  intro s hs hmem
  obtain ⟨k, r, s', hk, he, hs', a, rfl, hq⟩ := h s hs hmem
  refine ⟨k + 1, a, s', Nat.succ_le_succ hk, .loop ?_, hs', hq⟩
  unfold unroll
  refine Evaluates.bind (m := 0) he ?_
  exact .ret a s'

/-- A loop completes if its first round goes on to one that does. -/
theorem again {body : σ → Prog (σ ⊕ α)} {x : σ}
    (h : (body x).Completes n m fun r m' => ∃ y, r = .inl y ∧
      (Prog.iterate body y).Completes k m' Q) :
    (Prog.iterate body x).Completes (n + k + 1) m Q := by
  intro s hs hmem
  obtain ⟨i, r, s', hi, he, hs', y, rfl, hrest⟩ := h s hs hmem
  obtain ⟨j, a, s'', hj, he', hs'', hq⟩ := hrest s' hs' rfl
  refine ⟨i + j + 1, a, s'', by omega, .loop ?_, hs'', hq⟩
  unfold unroll
  exact he.bind he'

/-- A program completes where it answers what it is said to answer. -/
theorem of_does {m' : Memory} (h : p.Does n m a m') (hq : Q a m') : p.Completes n m Q :=
  h.mono fun _ _ ⟨ha, hm⟩ => ha ▸ hm ▸ hq

end Completes

section

variable {p : Prog α} {f : α → Prog β} {M : β → Memory → Prop} {a : α}

theorem Does.ret : (Prog.ret a).Does n m a m := Completes.ret ⟨rfl, rfl⟩

theorem Does.le (h : p.Does n m a m') (hnk : n ≤ k) : p.Does k m a m' := Completes.le h hnk

theorem Does.bind {l : Memory} (h : p.Does n m a l) (next : (f a).Completes k l M) :
    (p.bind f).Completes (n + k) m M := by
  refine Completes.bind h fun b m'' hb => ?_
  obtain ⟨rfl, rfl⟩ := hb
  exact next

theorem Does.map {g : α → β} (h : p.Does n m a m') :
    (p.bind fun a => .ret (g a)).Does n m (g a) m' :=
  Completes.map (h.mono fun _ _ hb => ⟨congrArg g hb.1, hb.2⟩)

theorem Does.untilTrue {attempt : Prog Bool} (h : attempt.Does n m true m') :
    (Prog.untilTrue attempt).Does (n + 1) m () m' := by
  refine Completes.iterate (Completes.map (h.mono fun ok m'' hok => ?_))
  obtain ⟨rfl, rfl⟩ := hok
  exact ⟨(), rfl, rfl, rfl⟩

theorem Skips.bind (h : p.Skips n m) (next : ∀ a, (f a).Completes k m M) :
    (p.bind f).Completes (n + k) m M := by
  refine Completes.bind h fun a m' hm => ?_
  subst hm
  exact next a

end

/-! ## Instructions -/

section

variable {w : Width} {a : Addr} {v : Word w}

theorem Skips.instr {i : Instr} (h : i.IsPrivate) : (perform i).Skips 1 m := by
  refine Completes.instr fun s hs hmem => ?_
  obtain ⟨hshared, hmasked⟩ := h s
  refine ⟨⟨?_, ?_⟩, ?_⟩
  · rw [hshared, hmasked]
    exact hs.owner
  · rw [hshared]
    exact hs.once
  · rw [hshared]
    exact hmem

theorem Skips.fence {isa : Isa} : (perform (.fence isa)).Skips 1 m := .instr fun _ => ⟨rfl, rfl⟩

theorem Skips.clearExclusive {isa : PairIsa} : (perform (.clearExclusive isa)).Skips 1 m :=
  .instr fun _ => ⟨rfl, rfl⟩

/-- An instruction on memory only. -/
theorem Does.instr {i : Instr} {r : i.Reply} (h : ∀ s : State, s.shared.memory = m →
    i.exec false s = (r, { s with shared := { s.shared with memory := m' } })) :
    (perform i).Does 1 m r m' := by
  refine Completes.instr fun s hs hmem => ?_
  rw [h s hmem]
  exact ⟨⟨hs.owner, hs.once⟩, rfl, rfl⟩

theorem Does.read : (perform (.read w a)).Does 1 m (m.read w a) m :=
  Does.instr fun s hmem => by
    subst hmem
    rfl

theorem Does.write : (perform (.write w a v)).Does 1 m () (m.write w a v) :=
  Does.instr fun s hmem => by
    subst hmem
    rfl

theorem Does.swap {isa : SwapIsa} :
    (perform (.swap isa w a v)).Does 1 m (m.read w a) (m.write w a v) :=
  Does.instr fun s hmem => by
    subst hmem
    rfl

theorem Does.compareSwap {expected : Word w} :
    (perform (.compareSwap w a expected v)).Does 1 m (m.read w a)
      (if m.read w a = expected then m.write w a v else m) :=
  Does.instr fun s hmem => by
    subst hmem
    by_cases h : s.shared.memory.read w a = expected
    · rw [if_pos h]
      exact congrArg (Prod.mk _) (if_pos h)
    · rw [if_neg h]
      exact congrArg (Prod.mk _) (if_neg h)

/-- A word is written where it is to be. -/
theorem Does.writeWhen {c : Prop} [Decidable c] :
    (when c (perform (.write w a v))).Does 1 m () (if c then m.write w a v else m) := by
  unfold when
  split
  · exact Does.write
  · exact Completes.ret ⟨rfl, rfl⟩

theorem Does.fetchAdd :
    (perform (.fetchAdd w a v)).Does 1 m (m.read w a) (m.write w a (m.read w a + v)) :=
  Does.instr fun s hmem => by
    subst hmem
    rfl

theorem Does.loadExclusive {isa : PairIsa} :
    (perform (.loadExclusive isa w a)).Does 1 m (Word.toRegister (m.read w a)) m := by
  refine Completes.instr fun s hs hmem => ?_
  subst hmem
  exact ⟨⟨hs.owner, hs.once⟩, rfl, rfl⟩

/-- Alone, a store-exclusive that follows its load-exclusive stores. -/
theorem Completes.loadStore {isa : PairIsa} {r : Register w} {f : Register w → Prog α}
    {g : Bool → Prog α} {Q : α → Memory → Prop}
    (hf : f (Word.toRegister (m.read w a)) = (perform (.storeExclusive isa w a r)).bind g)
    (next : (g true).Completes n (m.write w a (Register.toWord r)) Q) :
    ((perform (.loadExclusive isa w a)).bind f).Completes (n + 2) m Q := by
  intro s hs hmem
  subst hmem
  have hexec : (Instr.storeExclusive isa w a r).exec false (s.reserve (some ⟨w, a⟩)) =
      (true, (s.write w a (Register.toWord r)).reserve none) := if_pos ⟨rfl, rfl⟩
  obtain ⟨k, b, s', hk, he, hs', hq⟩ := next ((s.write w a (Register.toWord r)).reserve none)
    ⟨hs.owner, hs.once⟩ rfl
  refine ⟨k + 1 + 1, b, s', by omega, .instr ?_, hs', hq⟩
  change (f (Word.toRegister (s.shared.memory.read w a))).Evaluates _ _ _ _
  rw [hf]
  refine .instr ?_
  change (g _).Evaluates _ _ _ _
  rw [show ((Instr.loadExclusive isa w a).exec false s).2 = s.reserve (some ⟨w, a⟩) from rfl, hexec]
  exact he

end

end Prog

end Atomicity
