import Atomicity.Proofs.Canonical
import Atomicity.Proofs.Uniform.Operations

/-!
# Typed exchange is exact

The operations of a cell compare words, and what they are asked and answer are values. On a
canonical word the two agree: without interference a load answers the value that the word
represents, and a compare-and-exchange happens if and only if that value is the one expected. Where
it is not, the value that is expected from then on is the one in memory, and another than before, so
a caller that tries again has expected the right one (`Atomic.untilExchanged`, after at most two
attempts).

`Atomic.Sees c m v` is all of that, and it holds of no other word (`sees_iff`): a byte of two is
loaded as a truth value, and an exchange that expects that value does not happen.

**`typed_exchange_exact`**: where a word is written as values only, it is canonical at every instant
of every run, on many cores and on one core with its handlers, and there every cell on it, on any
backend, sees the value that it represents.
-/

namespace Atomicity

open Prog

variable {t : Scalar}

/-- Compares and exchanges until it happens, expecting each time what was found the time before.
Answers how many attempts that took. -/
def Atomic.untilExchanged (c : Atomic t) (expected desired : t.Value) : Prog Nat :=
  iterate (fun x : t.Value × Nat => do
    let outcome ← c.compareExchange x.1 desired
    return if outcome.swapped then .inr (x.2 + 1) else .inl (outcome.expected, x.2 + 1))
      (expected, 0)

/-- Without interference, the operations of a cell take the word in memory for the value `v`, and
for no other. -/
structure Atomic.Sees (c : Atomic t) (m : Memory) (v : t.Value) : Prop where
  load : c.load.Does 40 m v m
  compareExchange :
    ∀ expected desired, (c.compareExchange expected desired).Completes 40 m fun o m' =>
      (o.swapped = true ↔ v = expected) ∧
      (o.swapped = true → o.expected = expected ∧ m' = m.write t.width c.addr desired.toRepr) ∧
      (o.swapped = false → o.expected = v ∧ o.expected ≠ expected ∧ m' = m)
  untilExchanged : ∀ expected desired, (c.untilExchanged expected desired).Does 82 m
    (if v = expected then 1 else 2) (m.write t.width c.addr desired.toRepr)

namespace Atomic

variable (c : Atomic t) {m : Memory} {v : t.Value} (hc : c.addr ≠ .globalLock)
  (hm : m.UnlockedFor c.backend) (hv : m.read t.width c.addr = v.toRepr)

include hc hm hv

/-- The value expected is the one in memory. -/
theorem compareExchange_hit (desired : t.Value) : (c.compareExchange v desired).Does 40 m ⟨true, v⟩
    (m.write t.width c.addr desired.toRepr) := by
  have h := Does.backendCompareExchange hc v.toRepr desired.toRepr hm
  have heffect : Effect.compareExchange t.width c.addr v.toRepr desired.toRepr m =
      (⟨true, v.toRepr⟩, m.write t.width c.addr desired.toRepr) := if_pos hv
  rw [heffect] at h
  exact h.map

/-- The value expected is another than the one in memory. Values differ where their words do. -/
theorem compareExchange_miss {expected : t.Value} (hne : v ≠ expected) (desired : t.Value) :
    (c.compareExchange expected desired).Does 40 m ⟨false, v⟩ m := by
  have h := Does.backendCompareExchange hc expected.toRepr desired.toRepr hm
  have hword : m.read t.width c.addr ≠ expected.toRepr := by
    intro heq
    exact hne (Scalar.Value.toRepr_injective (hv.symm.trans heq))
  have heffect : Effect.compareExchange t.width c.addr expected.toRepr desired.toRepr m =
      (⟨false, v.toRepr⟩, m) := by
    rw [← hv]
    exact if_neg hword
  rw [heffect] at h
  have hvalue : (⟨false, .ofRepr v.toRepr⟩ : Comparison t.Value) = ⟨false, v⟩ := by
    rw [Scalar.Value.ofRepr_toRepr]
  rw [← hvalue]
  exact h.map

/-- **A cell on a canonical word sees the value that the word represents.** -/
theorem sees : c.Sees m v := by
  have hit := c.compareExchange_hit hc hm hv
  have miss : ∀ {expected}, v ≠ expected → ∀ desired,
      (c.compareExchange expected desired).Does 40 m ⟨false, v⟩ m :=
        fun h => c.compareExchange_miss hc hm hv h
  constructor
  · have h := (Does.backendLoad hc t.width hm).map (g := Scalar.Value.ofRepr (t := t))
    have hvalue : Scalar.Value.ofRepr (t := t) (m.read t.width c.addr) = v := by
      rw [hv, Scalar.Value.ofRepr_toRepr]
    rw [← hvalue]
    exact h
  · intro expected desired
    by_cases h : v = expected
    · subst h
      apply Completes.of_does (hit desired)
      exact ⟨⟨fun _ => rfl, fun _ => rfl⟩, fun _ => ⟨rfl, rfl⟩, fun h => absurd h Bool.noConfusion⟩
    · apply Completes.of_does (miss h desired)
      exact ⟨⟨fun hs => absurd hs Bool.noConfusion, fun he => absurd he h⟩,
        fun hs => absurd hs Bool.noConfusion, fun _ => ⟨rfl, h, rfl⟩⟩
  · intro expected desired
    by_cases h : v = expected
    · subst h
      rw [if_pos rfl]
      apply Completes.le (n := 40 + 1) _ (by decide)
      apply Completes.iterate
      refine Completes.map (Completes.of_does (hit desired) ?_)
      exact ⟨1, rfl, rfl, rfl⟩
    -- the first attempt fails, and leaves the second one expecting what is in memory
    · rw [if_neg h]
      apply Completes.le (n := 40 + (40 + 1) + 1) _ (by decide)
      apply Completes.again
      refine Completes.map (Completes.of_does (miss h desired) ⟨_, rfl, ?_⟩)
      apply Completes.iterate
      refine Completes.map (Completes.of_does (hit desired) ?_)
      exact ⟨2, rfl, rfl, rfl⟩

omit hv in
/-- A cell sees a value only if its word is the one that represents it. -/
theorem sees_iff : c.Sees m v ↔ m.read t.width c.addr = v.toRepr := by
  refine ⟨fun h => ?_, c.sees hc hm⟩
  by_contra hword
  have hmiss := Does.backendCompareExchange hc v.toRepr v.toRepr hm
  have heffect : Effect.compareExchange t.width c.addr v.toRepr v.toRepr m =
      (⟨false, m.read t.width c.addr⟩, m) := if_neg hword
  rw [heffect] at hmiss
  have hfails : (c.compareExchange v v).Does 40 m ⟨false, .ofRepr (m.read t.width c.addr)⟩ m :=
    hmiss.map
  let s : State := ⟨.start true true, { Shared.start with memory := m }⟩
  have hs : s.Settled := ⟨rfl, OnceStatus.noConfusion⟩
  obtain ⟨_, o, _, _, he, _, hiff, _⟩ := h.compareExchange v v s hs rfl
  obtain ⟨_, o', _, _, he', _, rfl, _⟩ := hfails s hs rfl
  obtain ⟨-, rfl, -⟩ := he.unique he'
  exact Bool.false_ne_true (hiff.mpr rfl)

end Atomic

/-- **Typed exchange is exact on every memory that a run comes to.** All requests write the word at
an address only as values of a type, and it represents one at first. Then at every instant of every
run, on many cores and on one core with its handlers, it represents a value (a truth value is a byte
of zero or one). Every cell of the type there sees that value without interference, on any backend,
if it is under the global lock while that lock is free: loads it; compares and exchanges if and only
if it is the one expected, and else expects it, and so something else, from then on; and has
exchanged it after at most two attempts. -/
theorem typed_exchange_exact {t : Scalar} {a : Addr} (ha : a ≠ .globalLock) {S : Service}
    (writes : ∀ r, WritesAs t a (S.prog r)) :
    (∀ (n : Nat) (shared : Shared) (core : Fin n → Core) (todo : Fin n → List S.Request)
      (choices : List (Fin n × Bool)), Canonical t a shared.memory →
      let m := ((ManyCores.start shared core todo).run choices).shared.memory
      (t = .bool → m.read .w8 a = 0 ∨ m.read .w8 a = 1) ∧
      ∃ v : t.Value, m.read t.width a = v.toRepr ∧
        ∀ b, (b.strategy = .globalLock → m.Unlocked) → Atomic.Sees ⟨b, a⟩ m v) ∧
    (∀ (c : Controller) (s : State) (todo : List S.Request) (choices : List (OneCore.Choice S)),
      Canonical t a s.shared.memory →
      let m := ((OneCore.start s todo).run c choices).state.shared.memory
      (t = .bool → m.read .w8 a = 0 ∨ m.read .w8 a = 1) ∧
      ∃ v : t.Value, m.read t.width a = v.toRepr ∧
        ∀ b, (b.strategy = .globalLock → m.Unlocked) → Atomic.Sees ⟨b, a⟩ m v) := by
  have exact_of_canonical : ∀ m : Memory, Canonical t a m →
      (t = .bool → m.read .w8 a = 0 ∨ m.read .w8 a = 1) ∧
      ∃ v : t.Value, m.read t.width a = v.toRepr ∧
        ∀ b, (b.strategy = .globalLock → m.Unlocked) → Atomic.Sees ⟨b, a⟩ m v := by
    intro m h
    refine ⟨fun ht => ?_, ?_⟩
    · subst ht
      exact canonical_bool_iff.mp h
    · obtain ⟨v, hv⟩ := h
      exact ⟨v, hv, fun b hm => Atomic.sees ⟨b, a⟩ ha hm hv⟩
  constructor
  · intro n shared core todo choices hstart
    exact exact_of_canonical _ (ManyCores.canonical_run ha writes shared core todo hstart choices)
  · intro c s todo choices hstart
    exact exact_of_canonical _ (OneCore.canonical_run ha writes c s todo hstart choices)

/-- Negates a truth value, as a cell under an exclusive pair has it. -/
def negating : Service where
  Request := Unit
  Answer _ := Answer
  prog _ := CellOp.prog (t := .bool) ⟨.pair .aarch64, .cell 0⟩ (.fetchUpdate not)

/-- Two cores negate a truth value at once, and one of them has done so; the other, which has found
it as it was, is still to. A cell on the same byte, under the global lock, then sees that it is
true. -/
theorem negation_seen_true :
    let m := ((ManyCores.start (S := negating) Shared.start (fun _ => .start true true)
      fun _ : Fin 2 => [()]).run (List.replicate 15 [(0, false), (1, false)]).flatten).shared.memory
    m.read .w8 (.cell 0) = 1 ∧
      Atomic.Sees (t := .bool) ⟨.globalLock .line .native, .cell 0⟩ m true := by
  intro m
  have writes : ∀ r, WritesAs .bool (.cell 0) (negating.prog r) := fun _ =>
    CellOp.writesAs (t := .bool) ⟨.pair .aarch64, .cell 0⟩ (.fetchUpdate not)
  have hbyte : m.read .w8 (.cell 0) = 1 := by decide +kernel
  have hunlocked : m.read .w64 .globalLock = 0 := by decide +kernel
  obtain ⟨-, v, hv, hsees⟩ := (typed_exchange_exact Addr.noConfusion writes).1 2 Shared.start
    (fun _ => .start true true) (fun _ => [()]) (List.replicate 15 [(0, false), (1, false)]).flatten
    ⟨false, rfl⟩
  obtain rfl : v = true := Scalar.Value.toRepr_injective (hv.symm.trans hbyte)
  exact ⟨hbyte, hsees (.globalLock .line .native) fun _ => hunlocked⟩

end Atomicity
