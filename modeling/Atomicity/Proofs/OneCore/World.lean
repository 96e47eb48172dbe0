import Atomicity.Proofs.Leads
import Atomicity.Proofs.Masked
import Atomicity.Proofs.OneCore.Machine

/-!
# The world of a context on one core

What a context on one core can count on. Handlers come and go only where interrupts are enabled, and
then they leave the core **calm** (`Calm`): interrupts are enabled again, the simulated core is
owned by whoever has its interrupts masked, and, where there is a global lock, nobody is
constructing it and it is free. Everything else may have changed. In return, a context is calm
wherever a handler may be started.

Where there is a global lock, the world follows a context into its sections under it (`Section`),
and keeps what the context has found in the lock's word. What is **lawful** then (`Lawful`): the
word is not zero only while interrupts are masked and a section is on; and a section finds the word
zero, and once more as it set it, and never looks again.

`Stands` says where a context is: its interrupt flag, its section and the word of the lock. The
rules of this module are of a context that `Stands` somewhere and executes an instruction; the word
of the lock is not part of the memory that is looked at.
-/

namespace Atomicity

/-- Whoever has its interrupts masked on the simulated core owns it, and nobody else does. -/
def Controller.Sound (c : Controller) (s : State) : Prop :=
  c = .hosted → s.shared.coreOwned = s.core.masked

namespace Controller

variable (c : Controller) (b : Bool) (s : State)

@[simp]
theorem enabled_putEnabled : c.enabled (c.putEnabled b s).core = b := by
  cases c with
  | line => rfl
  | hosted => simp [enabled, putEnabled]
  | arm =>
    simp only [enabled, putEnabled, Core.and_maskBit]
    cases b <;> simp [Core.maskBit]
  | aarch64 => simp [enabled, putEnabled]
  | x86 => rfl

theorem sound_putEnabled : c.Sound (c.putEnabled b s) := by
  intro hc
  subst hc
  rfl

@[simp]
theorem memory_putEnabled : (c.putEnabled b s).shared.memory = s.shared.memory := by
  cases c <;> rfl

@[simp]
theorem once_putEnabled : (c.putEnabled b s).shared.once = s.shared.once := by
  cases c <;> rfl

end Controller

namespace OneCore

def lockWord (s : State) : Word .w64 := s.read .w64 .globalLock

/-- Nothing has been left behind by a handler. `guarded` says that there is a global lock. -/
structure Calm (c : Controller) (guarded : Bool) (s : State) : Prop where
  enabled : c.enabled s.core = true
  sound : c.Sound s
  free : guarded = true → s.shared.once ≠ .running ∧ lockWord s = 0

/-- The global lock is held only with interrupts masked and inside of a section, and a section takes
it at the first attempt. -/
structure Lawful (c : Controller) (at' : Section) (s : State) : Prop where
  masked : lockWord s ≠ 0 → c.enabled s.core = false
  outside : at' = .outside → lockWord s = 0
  inside : ∀ found, at' = .inside found → found <+: [0, 1]

/-- The memory that requests are about: all of it but the word of the global lock. -/
def view (guarded : Bool) (s : State) : Memory :=
  match guarded with
  | true => s.shared.memory.write .w64 .globalLock 0
  | false => s.shared.memory

/-- A context is where it is said to be: with interrupts enabled or masked, in or out of a section,
and with that word in the global lock. -/
structure Stands (c : Controller) (guarded flag : Bool) (place : Section) (word : Word .w64)
    (at' : Section) (s : State) : Prop where
  place : at' = place
  flag : c.enabled s.core = flag
  sound : c.Sound s
  lock : guarded = true → s.shared.once ≠ .running ∧ lockWord s = word
  lawful : guarded = true → Lawful c at' s

/-- What a context runs in whose interrupts are enabled or masked between its requests. -/
def world (c : Controller) (guarded flag : Bool) : World Section where
  start := .outside
  note := Section.note
  env i s s' := s' = s ∨ i.preemptible = true ∧ c.enabled s.core = true ∧ Calm c guarded s'
  ready i s := i.preemptible = true → c.enabled s.core = true → Calm c guarded s
  lawful at' s := guarded = true → Lawful c at' s
  rest := Stands c guarded flag .outside 0
  view := view guarded
  env_refl _ _ := .inl rfl
  rest_start h := h.place ▸ h
  rest_lawful h := h.lawful

section

variable {c : Controller} {guarded flag f f' : Bool} {place place' : Section} {word : Word .w64}
  {at' : Section} {s s' : State}

/-! ## The view of memory -/

theorem view_of_memory (h : s'.shared.memory = s.shared.memory) :
    view guarded s' = view guarded s := by
  simp only [view, h]

theorem view_write {w : Width} {a : Addr} (ha : a ≠ .globalLock) (v : Word w) :
    view guarded (s.write w a v) = (view guarded s).write w a v := by
  cases guarded with
  | true => exact Memory.write_comm _ _ _ ha
  | false => rfl

theorem read_view (s : State) (w : Width) {a : Addr} (ha : a ≠ .globalLock) :
    (view guarded s).read w a = s.read w a := by
  cases guarded with
  | true => exact Memory.read_write_of_ne _ _ (Ne.symm ha)
  | false => rfl

theorem lockWord_of_memory (h : s'.shared.memory = s.shared.memory) : lockWord s' = lockWord s := by
  simp only [lockWord, State.read, h]

theorem lockWord_write {w : Width} {a : Addr} (ha : a ≠ .globalLock) (v : Word w) :
    lockWord (s.write w a v) = lockWord s :=
  Memory.read_write_of_ne _ _ ha

/-! ## Where a context stands -/

/-- A context with interrupts enabled is calm, and so the global lock is free. -/
theorem Stands.calm (h : Stands c guarded true place word at' s) : Calm c guarded s := by
  refine ⟨h.flag, h.sound, fun hg => ⟨(h.lock hg).1, ?_⟩⟩
  by_cases hw : lockWord s = 0
  · exact hw
  · have hmasked := (h.lawful hg).masked hw
    rw [h.flag] at hmasked
    cases hmasked

/-- With the global lock free, a context can stand outside of any section. -/
theorem Stands.outside (hflag : c.enabled s.core = f) (hsound : c.Sound s)
    (hfree : guarded = true → s.shared.once ≠ .running ∧ lockWord s = 0) :
    Stands c guarded f .outside 0 .outside s where
  place := rfl
  flag := hflag
  sound := hsound
  lock := hfree
  lawful hg := by
    have hw := (hfree hg).2
    exact ⟨fun h => absurd hw h, fun _ => hw, fun found h => by cases h⟩

/-- A lock that has been constructed is not being constructed. -/
theorem Stands.between (hflag : c.enabled s.core = f) (hsound : c.Sound s)
    (hfree : guarded = true → s.shared.once = .complete ∧ lockWord s = 0) :
    Stands c guarded f .outside 0 .outside s := by
  refine .outside hflag hsound fun hg => ⟨fun hrunning => ?_, (hfree hg).2⟩
  rw [(hfree hg).1] at hrunning
  cases hrunning

/-- A calm core is where a context can stand that is outside of any section. -/
theorem Calm.stands (h : Calm c guarded s) : Stands c guarded true .outside 0 .outside s :=
  .outside h.enabled h.sound h.free

theorem Lawful.calm (h : Lawful c at' s) (hs : lockWord s' = 0) : Lawful c at' s' :=
  ⟨fun hw => absurd hs hw, fun _ => hs, h.inside⟩

/-- What handlers do leaves a context where it stands. -/
theorem Stands.disturbed {i : Instr} (h : Stands c guarded f place word at' s)
    (he : (world c guarded flag).env i s s') : Stands c guarded f place word at' s' := by
  rcases he with rfl | ⟨-, hen, hcalm⟩
  · exact h
  · obtain rfl : f = true := h.flag.symm.trans hen
    refine ⟨h.place, hcalm.enabled, hcalm.sound, fun hg => ⟨(hcalm.free hg).1, ?_⟩,
      fun hg => (h.lawful hg).calm (hcalm.free hg).2⟩
    rw [(hcalm.free hg).2, ← (h.calm.free hg).2, (h.lock hg).2]

theorem Stands.ready (i : Instr) (h : Stands c guarded f place word at' s) :
    (world c guarded flag).ready i s := by
  intro _ hen
  obtain rfl : f = true := h.flag.symm.trans hen
  exact h.calm

/-- With interrupts enabled, the global lock is free. -/
theorem Stands.word_eq (h : Stands c guarded true place word at' s) (hg : guarded = true) :
    word = 0 := by
  rw [← (h.lock hg).2]
  exact (h.calm.free hg).2

/-- The interrupt flag changes, and memory does not. -/
theorem Stands.control (h : Stands c guarded f place word at' s) (hflag : c.enabled s'.core = f')
    (hsound : c.Sound s') (hmem : s'.shared.memory = s.shared.memory)
    (honce : s'.shared.once = s.shared.once)
    (hw : f = false → f' = true → guarded = true → word = 0) :
    Stands c guarded f' place word at' s' where
  place := h.place
  flag := hflag
  sound := hsound
  lock hg := by
    rw [honce, lockWord_of_memory hmem]
    exact h.lock hg
  lawful hg := by
    have hword : lockWord s' = word := (lockWord_of_memory hmem).trans (h.lock hg).2
    refine ⟨fun hne => ?_, fun ho => ?_, (h.lawful hg).inside⟩
    · rw [hflag]
      cases f' with
      | false => rfl
      | true =>
        cases f with
        | true => exact absurd (hword.trans (h.word_eq hg)) hne
        | false => exact absurd (hword.trans (hw rfl rfl hg)) hne
    · rw [lockWord_of_memory hmem]
      exact (h.lawful hg).outside ho

/-- A word changes that is not the global lock's. -/
theorem Stands.write {w : Width} {a : Addr} (h : Stands c guarded f place word at' s)
    (ha : a ≠ .globalLock) (v : Word w) : Stands c guarded f place word at' (s.write w a v) where
  place := h.place
  flag := h.flag
  sound := h.sound
  lock hg := by
    rw [lockWord_write ha]
    exact h.lock hg
  lawful hg := by
    have hl := h.lawful hg
    refine ⟨?_, ?_, hl.inside⟩
    · rw [lockWord_write ha]
      exact hl.masked
    · rw [lockWord_write ha]
      exact hl.outside

end

end OneCore

end Atomicity
