import Atomicity.Proofs.Uniform.Operations

/-!
# Spin locks on every backend

Alone, every operation on a spin lock does on every backend what the machine of words has for it
(`SpinOp.shows`), and takes a lock that is free at the first attempt, whether or not it masks
interrupts before. Guards are the same by lock and name (`LiveGuards.names`); what a guard remembers
of the interrupts is not looked at.

**To take a lock that is held waits for ever** (`RawLock.not_evaluates_acquire`): every attempt
finds the word as the one before has left it, and nobody else is there to free it.
-/

namespace Atomicity

/-! ## Guards -/

namespace LiveGuards

/-- The live guards by lock and name. -/
def names (gs : LiveGuards) : GuardNames := gs.map fun g => (g.lock, g.name)

variable (gs : LiveGuards) (l : RawLock) (name : String)

theorem mem_names : (l, name) ∈ gs.names ↔ (gs.find? l name).isSome = true := by
  unfold names find?
  rw [Option.isSome_map, List.find?_isSome, List.mem_map]
  constructor
  · rintro ⟨g, hg, heq⟩
    cases heq
    exact ⟨g, hg, by simp⟩
  · rintro ⟨g, hg, heq⟩
    obtain ⟨rfl, rfl⟩ : g.lock = l ∧ g.name = name := by simpa using heq
    exact ⟨g, hg, rfl⟩

theorem names_remove : (gs.remove l name).names = gs.names.remove l name := by
  unfold names remove GuardNames.remove
  rw [List.filter_map]
  congr 1
  refine List.filter_congr fun g _ => ?_
  simp [Prod.ext_iff]

theorem names_insert (g : Guard) : (gs.insert l name g).names = gs.names.insert l name :=
  congrArg ((l, name) :: ·) (names_remove gs l name)

theorem borrows_iff : gs.borrows l = true ↔ ∃ g ∈ gs.names, g.1 = l := by
  unfold borrows names
  rw [List.any_eq_true]
  constructor
  · rintro ⟨g, hg, heq⟩
    exact ⟨(g.lock, g.name), List.mem_map.mpr ⟨g, hg, rfl⟩, of_decide_eq_true heq⟩
  · rintro ⟨_, hmem, heq⟩
    obtain ⟨g, hg, rfl⟩ := List.mem_map.mp hmem
    exact ⟨g, hg, decide_eq_true heq⟩

end LiveGuards

/-- An operation is refused for the same reason on every backend. -/
theorem SpinOp.refusal?_eq {t : Scalar} (l : SpinLock t) (gs : LiveGuards) (op : SpinOp t) :
    op.refusal? l gs = op.refused? l.lock gs.names := by
  have live :
      ∀ name, (if (gs.find? l.lock name).isNone then some (Refusal.noGuard name) else none) =
      if (l.lock, name) ∈ gs.names then none else some (.noGuard name) := by
    intro name
    simp only [LiveGuards.mem_names]
    cases gs.find? l.lock name <;> rfl
  have borrowed : (if gs.borrows l.lock then some Refusal.borrowed else none) =
      if ∃ g ∈ gs.names, g.1 = l.lock then some .borrowed else none := by
    simp only [LiveGuards.borrows_iff]
  cases op with
  | unlock name => exact live name
  | forget name => exact live name
  | value name => exact live name
  | setValue name v => exact live name
  | replace v => exact borrowed
  | renew => exact borrowed
  | _ => rfl

/-! ## Locks that are free -/

open Prog

variable {m : Memory} {t : Scalar} {b : Backend} {l : RawLock}

theorem Memory.Unlocked.write (hm : m.Unlocked) {w : Width} {a : Addr} (ha : a ≠ .globalLock)
    (v : Word w) : (m.write w a v).Unlocked :=
  (Effect.Spares.store ha v).unlocked hm

/-- A lock that is free is taken. -/
theorem Prog.Does.acquireFree (hm : m.Unlocked) (b : Backend) (hfree : m.read .w64 l.word = 0) :
    (l.acquire b).Does 41 m () (m.write .w64 l.word 1) := by
  refine Does.acquire ?_
  have hswap := Performs.testSetLock (a := l.word) b 1 m hm
  rw [← hfree]
  exact hswap

/-- A lock that is free is taken, with interrupts masked if asked to. -/
theorem SpinLock.take_completes (l : SpinLock t) (hm : m.Unlocked)
    (hfree : m.read .w64 l.lock.word = 0) (masked : Bool) :
    (if masked then l.acquireMasked else l.acquire).Completes 45 m
      fun _ m' => m' = m.write .w64 l.lock.word 1 := by
  have htake := Does.acquireFree hm l.backend hfree
  cases masked with
  | true =>
    refine Completes.le (n := 4 + (41 + 0)) ?_ (by decide)
    exact (Skips.disable _).bind fun wasEnabled => htake.bind (Completes.ret rfl)
  | false => exact Completes.le (n := 41 + 0) (htake.bind (Completes.ret rfl)) (by decide)

/-- The value is read plainly. -/
theorem SpinLock.value_performs (l : SpinLock t) :
    l.value.Performs 1 ((Effect.load t.width l.data).map .ofRepr) :=
  Performs.map Scalar.Value.ofRepr Performs.read

/-- The value is read plainly, and a word is written. -/
theorem SpinLock.value_then_write (l : SpinLock t) (hm : m.Unlocked) {w : Width} (a : Addr)
    (u : Word w) :
    Prog.Does (do
      let v ← l.value
      perform (.write w a u)
      return v) 2 m (.ofRepr (m.read t.width l.data)) (m.write w a u) := by
  refine Completes.le (n := 1 + (1 + 0)) ((l.value_performs m hm).bind ?_) (by decide)
  exact Does.write.bind Does.ret

/-- To end a guard frees the lock. -/
theorem SpinLock.unlock_does (l : SpinLock t) (hm : m.Unlocked) (g : Guard) :
    (l.unlock g).Does 42 m () (m.write .w64 l.lock.word 0) := by
  refine Completes.le (n := 40 + 2)
    (Does.bind (Performs.privilegedStore l.backend 0 m hm) ?_) (by decide)
  cases g.restore with
  | none => exact Completes.ret ⟨rfl, rfl⟩
  | some wasEnabled => exact (Skips.enableIf _ wasEnabled).mono fun _ _ h => ⟨rfl, h⟩

/-- A critical section on a lock that is free. -/
theorem SpinLock.brief_completes (l : SpinLock t) (hl : l.lock.word ≠ .globalLock)
    (hd : l.data ≠ .globalLock) (hm : m.Unlocked) (hfree : m.read .w64 l.lock.word = 0)
    (masked : Bool) (v : t.Value) : (l.brief masked v).Completes 88 m fun _ m' =>
      m' = ((m.write .w64 l.lock.word 1).write t.width l.data v.toRepr).write .w64
        l.lock.word 0 := by
  have hunlocked := (hm.write hl (1 : Word .w64)).write hd v.toRepr
  have hrest : ∀ g m', m' = m.write .w64 l.lock.word 1 →
      ((l.setValue v).bind fun _ => l.unlock g).Completes (1 + 42) m' fun _ m'' =>
        m'' = ((m.write .w64 l.lock.word 1).write t.width l.data v.toRepr).write .w64
          l.lock.word 0 := by
    rintro g m' rfl
    exact Does.write.bind (Completes.of_does (l.unlock_does hunlocked g) rfl)
  cases masked with
  | true => exact Completes.bind (l.take_completes hm hfree true) hrest
  | false => exact Completes.bind (l.take_completes hm hfree false) hrest

/-- An operation that leaves the guards alone. -/
theorem Prog.Does.answers {α : Type} {p : Prog α} {n : Nat} {a : α} {m' : Memory}
    (h : p.Does n m a m') (hn : n ≤ 100) (gs : LiveGuards) (g : α → Answer) :
    (p.bind fun a => .ret (some (g a), gs)).Completes 100 m fun r m'' =>
      r.1 = some (g a) ∧ r.2.names = gs.names ∧ m'' = m' := by
  refine Completes.le (Completes.map (h.mono fun x m'' hx => ?_)) hn
  obtain ⟨rfl, rfl⟩ := hx
  exact ⟨rfl, rfl, rfl⟩

/-- What an operation that does not wait leaves: its answer, the guards and memory. -/
theorem SpinOp.shows (l : SpinLock t) (hl : l.lock.word ≠ .globalLock) (hd : l.data ≠ .globalLock)
    (gs : LiveGuards) (op : SpinOp t) (hm : m.Unlocked)
    (hlive : op.refused? l.lock gs.names = none)
    (hfree : (Request.spin l.lock l.data op).waits m = false) :
    (op.prog l gs).Completes 100 m fun r m' => r.1 = some (op.effect l.lock l.data m).1 ∧
      r.2.names = op.guards l.lock m gs.names ∧ m' = (op.effect l.lock l.data m).2 := by
  have hzero : ∀ {l' : RawLock}, (Request.spin l.lock l.data op).awaits = some l' →
      m.read .w64 l'.word = 0 := by
    intro l' hawaits
    unfold Request.waits at hfree
    rw [hawaits] at hfree
    simpa using hfree
  cases op with
  | acquire name =>
    refine Completes.le (n := 45 + 0) ((l.take_completes hm (hzero rfl) false).bind ?_) (by decide)
    rintro g m' rfl
    exact Completes.ret ⟨rfl, gs.names_insert .., rfl⟩
  | acquireMasked name =>
    refine Completes.le (n := 45 + 0) ((l.take_completes hm (hzero rfl) true).bind ?_) (by decide)
    rintro g m' rfl
    exact Completes.ret ⟨rfl, gs.names_insert .., rfl⟩
  | tryAcquire name =>
    have htry := (Performs.tryAcquire l.lock l.backend).map fun taken =>
      if taken then some (Guard.mk none) else none
    refine Completes.le (n := 40 + 0) ((htry m hm).bind ?_) (by decide)
    by_cases h : m.read .w64 l.lock.word = 0
    · have hzero : (m.read .w64 l.lock.word == 0) = true := beq_iff_eq.mpr h
      simp only [Effect.map, Effect.replace, SpinOp.effect, SpinOp.guards, hzero, if_pos h, if_true]
      exact Completes.ret ⟨rfl, gs.names_insert .., rfl⟩
    · have hone : (m.read .w64 l.lock.word == 0) = false := beq_eq_false_iff_ne.mpr h
      simp only [Effect.map, Effect.replace, SpinOp.effect, SpinOp.guards, hone, if_neg h]
      exact Completes.ret ⟨rfl, rfl, rfl⟩
  | unlock name =>
    cases hfind : gs.find? l.lock name with
    | none =>
      rw [← refusal?_eq, SpinOp.refusal?, hfind] at hlive
      cases hlive
    | some g =>
      simp only [SpinOp.prog, hfind]
      refine Completes.le (n := 42 + 0) ((l.unlock_does hm g).bind ?_) (by decide)
      exact Completes.ret ⟨rfl, gs.names_remove .., rfl⟩
  | forget name => exact Completes.ret ⟨rfl, gs.names_remove .., rfl⟩
  | value name => exact (l.value_performs m hm).answers (by decide) gs .value
  | setValue name v =>
    have hwrite : (l.setValue v).Performs 1 (Effect.store t.width l.data v.toRepr) := Performs.write
    exact (hwrite m hm).answers (by decide) gs fun _ => .done
  | isLocked => exact (Performs.isLocked l.lock l.backend m hm).answers (by decide) gs .truth
  | replace v => exact (l.value_then_write hm l.data v.toRepr).answers (by decide) gs .value
  | renew =>
    exact (l.value_then_write hm l.lock.word (0 : Word .w64)).answers (by decide) gs .value
  | brief masked v =>
    have hfound : (m.read .w64 l.lock.word != 0) = false := by rw [hzero rfl]; rfl
    have hheld := Performs.isLocked l.lock l.backend m hm
    simp only [Effect.map, Effect.load, hfound] at hheld
    have hbrief := l.brief_completes hl hd hm (hzero rfl) masked v
    refine Completes.le (n := 3 + (88 + 0)) (hheld.bind (hbrief.bind ?_)) (by decide)
    rintro _ m' rfl
    exact Completes.ret ⟨rfl, rfl, rfl⟩

/-! ## Locks that are held -/

section

variable {s s' : State} {n : Nat} (hs : s.Settled) (hm : s.shared.memory.Unlocked)

include hs hm

/-- **Who takes a lock that is held waits for ever.** -/
theorem RawLock.not_evaluates_acquire (l : RawLock) (b : Backend) (hl : l.word ≠ .globalLock)
    (hheld : s.read .w64 l.word ≠ 0) {a : Unit} : ¬ (l.acquire b).Evaluates s n a s' := by
  -- an attempt leaves the word set, so the next one fails too
  refine not_evaluates_untilTrue
    (R := fun s => s.Settled ∧ s.shared.memory.Unlocked ∧ s.read .w64 l.word ≠ 0) ?_ ⟨hs, hm, hheld⟩
  intro s ⟨hs, hm, hheld⟩
  obtain ⟨k, taken, s', -, he, hs', rfl, hmem⟩ := Performs.tryAcquire l b _ hm s hs rfl
  refine ⟨k, s', ?_, hs', ?_, ?_⟩
  · have hfailed : (s.shared.memory.read .w64 l.word == 0) = false := beq_eq_false_iff_ne.mpr hheld
    simp only [Effect.map, Effect.replace, hfailed] at he
    exact he
  · rw [hmem]
    exact hm.write hl (1 : Word .w64)
  · have hone : s'.read .w64 l.word = 1 := by
      unfold State.read
      rw [hmem]
      exact Memory.read_write_self _ _ _ _
    rw [hone]
    decide

/-- An operation on a spin lock that waits has no answer. -/
theorem SpinOp.answer_of_waits (l : SpinLock t) (hl : l.lock.word ≠ .globalLock) (gs : LiveGuards)
    (op : SpinOp t) (hwaits : (Request.spin l.lock l.data op).waits s.shared.memory = true)
    {r : Option Answer × LiveGuards} (h : (op.prog l gs).Evaluates s n r s') : r.1 = none := by
  have hheld : ∀ {l' : RawLock}, (Request.spin l.lock l.data op).awaits = some l' →
      s.read .w64 l'.word ≠ 0 := by
    intro l' hawaits
    unfold Request.waits at hwaits
    rw [hawaits] at hwaits
    exact bne_iff_ne.mp hwaits
  cases op with
  | acquire name =>
    obtain ⟨_, _, _, _, htaken, -, -⟩ := h.of_bind
    obtain ⟨_, _, _, _, hacquired, -, -⟩ := htaken.of_bind
    exact absurd hacquired (l.lock.not_evaluates_acquire hs hm l.backend hl (hheld rfl))
  | acquireMasked name =>
    obtain ⟨_, _, _, _, htaken, -, -⟩ := h.of_bind
    obtain ⟨_, _, _, u, hdisabled, htaken, -⟩ := htaken.of_bind
    obtain ⟨_, _, _, _, hacquired, -, -⟩ := htaken.of_bind
    obtain ⟨_, _, u', -, he, hu, hmem⟩ := Skips.disable l.backend.controller s hs rfl
    obtain ⟨-, -, rfl⟩ := he.unique hdisabled
    refine absurd hacquired (l.lock.not_evaluates_acquire hu ?_ l.backend hl ?_)
    · rw [hmem]
      exact hm
    · unfold State.read
      rw [hmem]
      exact hheld rfl
  | brief masked v =>
    obtain ⟨_, _, held, u, hlooked, hrest, -⟩ := h.of_bind
    obtain ⟨_, _, u', -, he, -, rfl, -⟩ := Performs.isLocked l.lock l.backend _ hm s hs rfl
    obtain ⟨-, rfl, -⟩ := he.unique hlooked
    have hfound : (s.shared.memory.read .w64 l.lock.word != 0) = true := bne_iff_ne.mpr (hheld rfl)
    simp only [Effect.map, Effect.load, hfound] at hrest
    obtain _ | _ | _ := hrest
    rfl
  | _ => cases hwaits

end

end Atomicity
