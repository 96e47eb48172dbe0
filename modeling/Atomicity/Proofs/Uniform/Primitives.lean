import Atomicity.Proofs.Operation
import Atomicity.Proofs.Uniform.Completion

/-!
# Primitive operations on every backend

Alone, a primitive operation does the same on every backend, all at once: what its effect says. It
completes within 40 steps, from any memory in which the global lock is free (`Memory.Unlocked`), and
the lock is free after it.

The controllers come first: to mask interrupts and to give them back leaves memory alone, whatever
they were. A section under the global lock does what its program does while the lock is held
(`Does.locked`); so if its effect neither reads nor writes the word of the lock (`Effect.Spares`),
it does the same as without the lock (`Performs.locked`).
-/

namespace Atomicity

/-- The global lock is free. -/
def Memory.Unlocked (m : Memory) : Prop := m.read .w64 .globalLock = 0

/-- The global lock is free, if the backend is under it. -/
def Memory.UnlockedFor (m : Memory) (b : Backend) : Prop := b.strategy = .globalLock → m.Unlocked

namespace Effect

variable {α β : Type} {E : Effect α} {E' : Effect β} {w : Width} {a : Addr}

/-- The effect neither reads nor writes the word of the global lock. -/
def Spares (E : Effect α) : Prop :=
  ∀ m v, E (m.write .w64 .globalLock v) = ((E m).1, (E m).2.write .w64 .globalLock v)

@[simp]
theorem Spares.load (ha : a ≠ .globalLock) (w : Width) : (Effect.load w a).Spares := by
  intro m v
  simp only [Effect.load, m.read_write_of_ne _ ha.symm]

@[simp]
theorem Spares.store (ha : a ≠ .globalLock) (v : Word w) : (Effect.store w a v).Spares := by
  intro m u
  simp only [Effect.store, m.write_comm _ _ ha]

@[simp]
theorem Spares.replace (ha : a ≠ .globalLock) (f : Word w → Word w) :
    (Effect.replace w a f).Spares := by
  intro m v
  simp only [Effect.replace, m.read_write_of_ne _ ha.symm, m.write_comm _ _ ha]

@[simp]
theorem Spares.compareExchange (ha : a ≠ .globalLock) (expected desired : Word w) :
    (Effect.compareExchange w a expected desired).Spares := by
  intro m v
  simp only [Effect.compareExchange, m.read_write_of_ne _ ha.symm]
  split
  · rw [m.write_comm _ _ ha]
  · rfl

/-- What spares the word of the global lock leaves the lock free. -/
theorem Spares.unlocked (h : E.Spares) {m : Memory} (hm : m.Unlocked) : (E m).2.Unlocked := by
  have hzero : m.write .w64 .globalLock 0 = m := by rw [← hm, Memory.write_read]
  have hE : E m = ((E m).1, (E m).2.write .w64 .globalLock 0) := by
    rw [← h, hzero]
  rw [hE]
  exact Memory.read_write_self _ _ _ _

end Effect

namespace Prog

variable {α : Type} {m m' : Memory} {n : Nat} {Q : α → Memory → Prop}

/-! ## Controllers -/

/-- Alone, the simulated core is there to be claimed by whoever does not own it. -/
theorem evaluates_claimCore {s : State} (h : s.shared.coreOwned = false) :
    (untilTrue (perform .claimCore)).Evaluates s 2 ()
      { s with shared := { s.shared with coreOwned := true } } := by
  have hexec : Instr.claimCore.exec false s =
      (true, { s with shared := { s.shared with coreOwned := true } }) := if_pos ⟨h, rfl⟩
  refine .loop (.instr ?_)
  rw [hexec]
  exact .ret _ _

/-- The interrupt flag of a CPU is read and then changed. -/
theorem Skips.flag {i : Instr} {j : i.Reply → Instr} {g : i.Reply → α} (hi : i.IsPrivate)
    (hj : ∀ r, (j r).IsPrivate) :
    ((perform i).bind fun r => (perform (j r)).bind fun _ => .ret (g r)).Skips 4 m := by
  refine Completes.le (n := 1 + (1 + 0)) ?_ (by decide)
  exact (Skips.instr hi).bind fun r => (Skips.instr (hj r)).bind fun _ => Completes.ret rfl

/-- To mask interrupts leaves memory alone. -/
theorem Skips.disable (c : Controller) : c.disable.Skips 4 m := by
  cases c with
  | line => exact Completes.le (Skips.instr fun _ => ⟨rfl, rfl⟩) (by decide)
  | hosted =>
    intro s hs hmem
    cases hmasked : s.core.masked with
    | true =>
      refine ⟨1, false, s, by decide, .instr ?_, hs, hmem⟩
      change Evaluates (if s.core.masked then _ else _) _ _ _ _
      rw [if_pos hmasked]
      exact .ret false s
    | false =>
      have howned : s.shared.coreOwned = false := hs.owner.trans hmasked
      refine ⟨4, true, ⟨{ s.core with masked := true }, { s.shared with coreOwned := true }⟩,
        Nat.le_refl 4, .instr ?_, ⟨rfl, hs.once⟩, hmem⟩
      change Evaluates (if s.core.masked then _ else _) _ _ _ _
      rw [if_neg (Bool.eq_false_iff.mp hmasked)]
      refine Evaluates.bind (n := 2) (m := 1) (evaluates_claimCore howned) ?_
      exact .instr (.ret true _)
  | arm => exact Skips.flag (fun _ => ⟨rfl, rfl⟩) fun _ _ => ⟨rfl, rfl⟩
  | aarch64 => exact Skips.flag (fun _ => ⟨rfl, rfl⟩) fun _ _ => ⟨rfl, rfl⟩
  | x86 => exact Skips.flag (fun _ => ⟨rfl, rfl⟩) fun _ _ => ⟨rfl, rfl⟩

/-- To give interrupts back leaves memory alone. -/
theorem Skips.enableIf (c : Controller) (b : Bool) : (c.enableIf b).Skips 2 m := by
  have line : ∀ b, (perform (.lineRestore b)).Skips 1 m := fun b =>
    Skips.instr fun s => by cases b <;> exact ⟨rfl, rfl⟩
  cases b with
  | false =>
    cases c with
    | line => exact Completes.le (line false) (by decide)
    | hosted => exact Completes.ret rfl
    | arm => exact Completes.ret rfl
    | aarch64 => exact Completes.ret rfl
    | x86 => exact Completes.ret rfl
  | true =>
    cases c with
    | line => exact Completes.le (line true) (by decide)
    | hosted =>
      intro s hs hmem
      exact ⟨2, (), ⟨{ s.core with masked := false }, { s.shared with coreOwned := false }⟩,
        Nat.le_refl 2, .instr (.instr (.ret () _)), ⟨rfl, hs.once⟩, hmem⟩
    | arm =>
      refine Skips.bind (n := 1) (k := 1) (.instr fun _ => ⟨rfl, rfl⟩) fun cpsr => ?_
      exact Skips.instr fun _ => ⟨rfl, rfl⟩
    | aarch64 => exact Completes.le (Skips.instr fun _ => ⟨rfl, rfl⟩) (by decide)
    | x86 => exact Completes.le (Skips.instr fun _ => ⟨rfl, rfl⟩) (by decide)

/-- With interrupts masked, a program does what it does. -/
theorem Does.masking (c : Controller) {p : Prog α} {a : α} (h : p.Does n m a m') :
    (c.masking p).Does (n + 6) m a m' := by
  refine Completes.le (n := 4 + (n + (2 + 0))) ?_ (by omega)
  refine (Skips.disable c).bind fun wasEnabled => ?_
  exact Does.bind h ((Skips.enableIf c wasEnabled).bind fun _ => Does.ret)

/-! ## Locks -/

section

variable {b : Backend} {l : RawLock} {previous : Word .w64}

/-- An attempt to take a lock finds out whether its word is zero. -/
theorem Does.tryAcquire (h : (b.testSetLock l.word 1).Does n m previous m') :
    (l.tryAcquire b).Does n m (previous == 0) m' :=
  Does.map h

/-- A lock that is free is taken at the first attempt. -/
theorem Does.acquire (h : (b.testSetLock l.word 1).Does n m 0 m') :
    (l.acquire b).Does (n + 1) m () m' :=
  Does.untilTrue (Does.tryAcquire h)

/-- A swap by a read and a write with interrupts masked. -/
theorem Does.maskedSwap (c : Controller) (isa : Isa) (a : Addr) (v : Word .w64) :
    (Backend.maskedSwap c isa a v).Does 10 m (m.read .w64 a) (m.write .w64 a v) := by
  refine Does.masking c (n := 4) ?_
  refine Completes.le (n := 1 + (1 + (1 + (1 + 0)))) ?_ (by decide)
  refine Skips.fence.bind fun _ => Does.read.bind (Does.write.bind ?_)
  exact Skips.fence.bind fun _ => Does.ret

end

/-! ## Sections under the global lock -/

/-- Alone, the global lock is constructed as it is: free. -/
theorem Skips.construct (hm : m.Unlocked) : (GlobalLock.construct (return ())).Skips 3 m := by
  intro s hs hmem
  subst hmem
  cases honce : s.shared.once with
  | incomplete =>
    have hexec : Instr.startConstruction.exec false s =
        (.incomplete, { s with shared := { s.shared with once := .running } }) := by
      simp only [Instr.exec, honce]
    have hcomplete : OnceStatus.complete ≠ .running := by decide
    refine ⟨3, (), ⟨s.core, { s.shared with
      memory := s.shared.memory.write .w64 .globalLock 0, once := .complete }⟩, Nat.le_refl 3,
      .loop (.instr ?_), ⟨hs.owner, hcomplete⟩, ?_⟩
    · rw [hexec]
      exact .instr (.ret _ _)
    · rw [← hm, Memory.write_read]
  | running => exact absurd honce hs.once
  | complete =>
    have hexec : Instr.startConstruction.exec false s = (.complete, s) := by
      simp only [Instr.exec, honce]
    refine ⟨2, (), s, by decide, .loop (.instr ?_), hs, rfl⟩
    rw [hexec]
    exact .ret _ _

/-- **A section under the global lock does what its program does while the lock is held.** -/
theorem Does.locked (c : Controller) (base : Backend) {p : Prog α} {a : α} (hm : m.Unlocked)
    (hm' : m'.Unlocked)
    (h : p.Does n (m.write .w64 .globalLock 1) a (m'.write .w64 .globalLock 1)) :
    (GlobalLock.locked c base p).Does (n + 34) m a m' := by
  have hswap : (Backend.testSetLock (.globalLock c base) RawLock.global.word 1).Does 10 m 0
      (m.write .w64 .globalLock 1) := by
    rw [← hm]
    exact Does.maskedSwap c base.barrier .globalLock 1
  have hrelease : (RawLock.global.release (.globalLock c base)).Does 10
      (m'.write .w64 .globalLock 1) () m' := by
    refine Completes.le (n := 10 + 0)
      ((Does.maskedSwap c base.barrier .globalLock 0).bind ?_) (by decide)
    rw [Memory.write_write, ← hm', Memory.write_read]
    exact Does.ret
  have hsection : Prog.Does (do
      GlobalLock.construct (return ())
      RawLock.global.acquire (.globalLock c base)
      base.fence
      let a ← p
      base.fence
      RawLock.global.release (.globalLock c base)
      return a) (n + 26) m a m' := by
    refine Completes.le (n := 3 + (11 + (1 + (n + (1 + (10 + 0)))))) ?_ (by omega)
    refine (Skips.construct hm).bind fun _ => (Does.acquire hswap).bind ?_
    refine Skips.fence.bind fun _ => Does.bind h ?_
    exact Skips.fence.bind fun _ => hrelease.bind Does.ret
  refine Completes.le (n := 1 + (n + 26 + 6 + (1 + 0))) ?_ (by omega)
  refine (Skips.instr fun _ => ⟨rfl, rfl⟩).bind fun _ => (Does.masking c hsection).bind ?_
  exact (Skips.instr fun _ => ⟨rfl, rfl⟩).bind fun _ => Does.ret

/-- Alone, and while the global lock is free, the program does what the effect says. -/
def Performs (p : Prog α) (n : Nat) (E : Effect α) : Prop :=
  ∀ m : Memory, m.Unlocked → p.Does n m (E m).1 (E m).2

/-- A section under the global lock does what its program does, if that spares the word of the
lock. -/
theorem Performs.locked (c : Controller) (base : Backend) {p : Prog α} {E : Effect α}
    (hE : E.Spares) (h : ∀ m, p.Does n m (E m).1 (E m).2) :
    (GlobalLock.locked c base p).Performs (n + 34) E := by
  intro m hm
  refine Does.locked c base hm (hE.unlocked hm) ?_
  have hlocked := h (m.write .w64 .globalLock 1)
  rw [hE] at hlocked
  exact hlocked

/-! ## Accesses -/

section

variable {w : Width} {a : Addr}

/-- A read between two fences. -/
theorem Does.load (isa : Isa) (m : Memory) : (isa.load w a).Does 3 m (m.read w a) m := by
  refine Completes.le (n := 1 + (1 + (1 + 0))) ?_ (by decide)
  exact Skips.fence.bind fun _ => Does.read.bind (Skips.fence.bind fun _ => Does.ret)

/-- A write between two fences. -/
theorem Does.store (isa : Isa) (v : Word w) (m : Memory) :
    (isa.store w a v).Does 3 m () (m.write w a v) := by
  refine Completes.le (n := 1 + (1 + 1)) ?_ (by decide)
  refine Skips.fence.bind fun _ => Does.write.bind ?_
  exact Completes.mono Skips.fence fun _ _ hm => ⟨rfl, hm⟩

/-- A swap between two fences. -/
theorem Does.swapExchange (isa : SwapIsa) (v : Word w) (m : Memory) :
    (isa.exchange w a v).Does 3 m (m.read w a) (m.write w a v) := by
  refine Completes.le (n := 1 + (1 + (1 + 0))) ?_ (by decide)
  exact Skips.fence.bind fun _ => Does.swap.bind (Skips.fence.bind fun _ => Does.ret)

/-- Alone, the first round of an exclusive pair stores. -/
theorem Does.pairExchange (isa : PairIsa) (v : Word w) (m : Memory) :
    (isa.exchange w a v).Does 5 m (m.read w a) (m.write w a v) := by
  refine Completes.le (n := 1 + (0 + 2 + 1 + (1 + 0))) ?_ (by decide)
  refine Skips.fence.bind fun _ =>
    Does.bind (a := Word.toRegister (m.read w a)) (l := m.write w a v) (Completes.iterate ?_) ?_
  · refine Completes.loadStore (r := Word.toRegister v) rfl (Completes.ret ⟨_, rfl, rfl, ?_⟩)
    rw [Register.toWord_toRegister]
  · refine Skips.fence.bind fun _ => Completes.ret ⟨?_, rfl⟩
    exact Register.toWord_toRegister _

/-! ### Compare and exchange -/

/-- A program that compares the word found, and writes if it is the one expected. -/
theorem Does.compares {p : Prog (Comparison (Word w))} {expected desired : Word w}
    (h : p.Does n m (.ofFound expected (m.read w a))
      (if m.read w a = expected then m.write w a desired else m)) :
    p.Does n m (Effect.compareExchange w a expected desired m).1
      (Effect.compareExchange w a expected desired m).2 := by
  unfold Effect.compareExchange
  unfold Comparison.ofFound at h
  split
  · next hfound =>
    rw [if_pos hfound, if_pos hfound] at h
    exact h
  · next hfound =>
    rw [if_neg hfound, if_neg hfound] at h
    exact h

variable (expected desired : Word w)

/-- The native instruction. -/
theorem Does.nativeCompareExchange (m : Memory) :
    (Native.compareExchange w a expected desired).Does 1 m
      (Effect.compareExchange w a expected desired m).1
      (Effect.compareExchange w a expected desired m).2 :=
  .compares (Does.map Does.compareSwap)

/-- Alone, the first round of an exclusive pair stores, if it finds the word expected. -/
theorem Does.pairCompareExchange (isa : PairIsa) (m : Memory) :
    (isa.compareExchange w a expected desired).Does 5 m
      (Effect.compareExchange w a expected desired m).1
      (Effect.compareExchange w a expected desired m).2 := by
  refine .compares (Completes.le (n := 1 + (0 + 2 + 1 + (1 + 0))) ?_ (by decide))
  refine Skips.fence.bind fun _ => Does.bind (a := Word.toRegister (m.read w a))
    (l := if m.read w a = expected then m.write w a desired else m) (Completes.iterate ?_) ?_
  · by_cases h : m.read w a = expected
    · refine Completes.loadStore (r := Word.toRegister desired) (if_pos ?_)
        (Completes.ret ⟨_, rfl, rfl, ?_⟩)
      · rw [h]
      · rw [if_pos h, Register.toWord_toRegister]
    · have hne : Word.toRegister (m.read w a) ≠ Word.toRegister expected :=
        fun he => h (Word.toRegister_inj.mp he)
      refine Completes.le (n := 1 + (1 + 0)) (Does.loadExclusive.bind ?_) (by decide)
      rw [if_neg hne]
      refine Skips.clearExclusive.bind fun _ => Completes.ret ⟨_, rfl, rfl, ?_⟩
      rw [if_neg h]
  · refine Skips.fence.bind fun _ => Completes.ret ⟨?_, rfl⟩
    rw [Register.toWord_toRegister]

/-- A read and a write with interrupts masked. -/
theorem Does.maskedCompareExchange (c : Controller) (isa : SwapIsa) (m : Memory) :
    (SingleCore.compareExchange c isa w a expected desired).Does 10 m
      (Effect.compareExchange w a expected desired m).1
      (Effect.compareExchange w a expected desired m).2 := by
  refine .compares (Does.masking c (n := 4) ?_)
  refine Completes.le (n := 1 + (1 + (1 + (1 + 0)))) ?_ (by decide)
  refine Skips.fence.bind fun _ => Does.read.bind (Does.writeWhen.bind ?_)
  exact Skips.fence.bind fun _ => Does.ret

end

/-! ## The primitive operations of a backend -/

/-- To announce an operation takes one step more. -/
theorem Does.announced {operation : Primitive} {p : Prog α} {r : α} (h : p.Does n m r m') :
    (Native.announced operation p).Does (1 + n) m r m' :=
  (Skips.instr fun _ => ⟨rfl, rfl⟩).bind fun _ => h

/-- A load needs the global lock to be free on a backend under that lock only. -/
theorem Does.backendLoad {a : Addr} (ha : a ≠ .globalLock) {b : Backend} (w : Width)
    (hm : m.UnlockedFor b) : (b.load w a).Does 40 m (m.read w a) m := by
  cases b with
  | native => exact (Does.load _ m).le (by decide)
  | traced => exact (Does.announced (Does.load _ m)).le (by decide)
  | casOnly => exact (Does.announced (Does.load _ m)).le (by decide)
  | pair isa => exact (Does.load _ m).le (by decide)
  | singleCore c isa widths => exact (Does.load _ m).le (by decide)
  | globalLock c base =>
    exact (Performs.locked c base (.load ha w) (fun _ => Does.read) m (hm rfl)).le (by decide)

/-- To compare and exchange needs the global lock to be free on a backend under that lock only. -/
theorem Does.backendCompareExchange {w : Width} {a : Addr} (ha : a ≠ .globalLock) {b : Backend}
    (expected desired : Word w) (hm : m.UnlockedFor b) :
    (b.compareExchange w a expected desired).Does 40 m
      (Effect.compareExchange w a expected desired m).1
      (Effect.compareExchange w a expected desired m).2 := by
  have native := Does.nativeCompareExchange (a := a) expected desired m
  cases b with
  | native => exact native.le (by decide)
  | traced => exact (Does.announced native).le (by decide)
  | casOnly => exact (Does.announced native).le (by decide)
  | pair isa => exact (Does.pairCompareExchange expected desired isa m).le (by decide)
  | singleCore c isa widths =>
    exact (Does.maskedCompareExchange expected desired c isa m).le (by decide)
  | globalLock c base =>
    refine (Performs.locked c base (n := 1 + (1 + 0)) (.compareExchange ha expected desired)
      (fun _ => ?_) m (hm rfl)).le (by decide)
    exact .compares (Does.read.bind (Does.writeWhen.bind Does.ret))

namespace Performs

variable {p : Prog α} {E : Effect α} {k : Nat}

theorem of_does (h : ∀ m, p.Does n m (E m).1 (E m).2) (hn : n ≤ k) : p.Performs k E :=
  fun m _ => (h m).le hn

/-- To announce an operation takes one step more. -/
theorem announced {operation : Primitive} (h : ∀ m, p.Does n m (E m).1 (E m).2) (hn : 1 + n ≤ k) :
    (Native.announced operation p).Performs k E :=
  fun m _ => (Does.announced (h m)).le hn

theorem le (h : p.Performs n E) (hn : n ≤ k) : p.Performs k E :=
  fun m hm => (h m hm).le hn

variable {w : Width} {a : Addr} (ha : a ≠ .globalLock) (b : Backend)

include ha

theorem load (w : Width) : (b.load w a).Performs 40 (Effect.load w a) :=
  fun _ hm => Does.backendLoad ha w fun _ => hm

theorem store (v : Word w) : (b.store w a v).Performs 40 (Effect.store w a v) := by
  cases b with
  | native => exact of_does (Does.store _ v) (by decide)
  | traced => exact announced (Does.store _ v) (by decide)
  | casOnly => exact announced (Does.store _ v) (by decide)
  | pair isa => exact of_does (Does.store _ v) (by decide)
  | singleCore c isa widths => exact of_does (Does.store _ v) (by decide)
  | globalLock c base => exact (locked c base (.store ha v) fun _ => Does.write).le (by decide)

theorem exchange (v : Word w) : (b.exchange w a v).Performs 40 (Effect.replace w a fun _ => v) := by
  cases b with
  | native => exact of_does (fun _ => Does.swap) (by decide)
  | traced => exact announced (fun _ => Does.swap) (by decide)
  | casOnly => exact announced (fun _ => Does.swap) (by decide)
  | pair isa => exact of_does (Does.pairExchange isa v) (by decide)
  | singleCore c isa widths => exact of_does (Does.swapExchange isa v) (by decide)
  | globalLock c base =>
    refine (locked c base (n := 1 + (1 + 0)) (.replace ha fun _ => v) fun m => ?_).le (by decide)
    exact Does.read.bind (Does.write.bind Does.ret)

theorem compareExchange (expected desired : Word w) :
    (b.compareExchange w a expected desired).Performs 40
      (Effect.compareExchange w a expected desired) :=
  fun _ hm => Does.backendCompareExchange ha expected desired fun _ => hm

omit ha in
theorem testSetLock (v : Word .w64) :
    (b.testSetLock a v).Performs 40 (Effect.replace .w64 a fun _ => v) := by
  cases b with
  | native => exact of_does (fun _ => Does.swap) (by decide)
  | traced => exact announced (fun _ => Does.swap) (by decide)
  | casOnly => exact announced (fun _ => Does.swap) (by decide)
  | pair isa => exact of_does (Does.pairExchange isa v) (by decide)
  | singleCore c isa widths => exact of_does (Does.swapExchange isa v) (by decide)
  | globalLock c base => exact of_does (fun _ => Does.maskedSwap c base.barrier a v) (by decide)

omit ha in
theorem privilegedStore (v : Word .w64) :
    (b.privilegedStore a v).Performs 40 (Effect.store .w64 a v) := by
  cases b with
  | native => exact of_does (Does.store _ v) (by decide)
  | traced => exact announced (Does.store _ v) (by decide)
  | casOnly => exact announced (Does.store _ v) (by decide)
  | pair isa => exact of_does (Does.store _ v) (by decide)
  | singleCore c isa widths => exact of_does (Does.store _ v) (by decide)
  | globalLock c base =>
    refine of_does (n := 10 + 0) (fun _ => ?_) (by decide)
    exact (Does.maskedSwap c base.barrier a v).bind Does.ret

end Performs

end Prog

end Atomicity
