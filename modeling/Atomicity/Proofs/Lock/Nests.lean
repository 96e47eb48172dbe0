import Atomicity.Lock.Spin
import Atomicity.Proofs.Leads

/-!
# Nested critical sections

`Nests` says which programs use a family of locks with interrupts masked, as they are meant to be
used: a lock is taken by `acquireMasked`, if the context does not hold it, and freed by `unlock`
with the guard that it was taken with, last one first; and what a lock guards is accessed only by
whoever holds it. A program is judged from the guards that its context has at first, last one first,
to those that it has where it answers.

Besides, a program may do whatever touches neither the word of a lock nor the interrupt flag, and it
may run a part of itself with interrupts masked.

A guard remembers whether interrupts were enabled, and with guards one inside the other that is
known of every one of them (`Saved`): they were, or were not, before the first one, and after that
they are masked.
-/

namespace Atomicity

/-- The instruction may change whether interrupts are enabled. -/
def Instr.controls : Instr → Bool
  | lineMask => true
  | lineRestore _ => true
  | setMasked _ => true
  | claimCore => true
  | disownCore => true
  | writeCpsr _ => true
  | setDaif => true
  | clearDaif => true
  | cli => true
  | sti => true
  | _ => false

/-- A core apart from what its exclusive monitor has reserved. -/
def Core.unreserved (c : Core) : Core := { c with monitor := none }

theorem Instr.unreserved_of_not_controls {i : Instr} (h : i.controls = false) (refused : Bool)
    (s : State) : (i.exec refused s).2.core.unreserved = s.core.unreserved := by
  cases i with
  | lineMask => cases h
  | lineRestore b => cases h
  | setMasked b => cases h
  | claimCore => cases h
  | disownCore => cases h
  | writeCpsr v => cases h
  | setDaif => cases h
  | clearDaif => cases h
  | cli => cases h
  | sti => cases h
  | compareSwap w a expected desired =>
    simp only [exec]
    split <;> rfl
  | storeExclusive isa w a v =>
    simp only [exec]
    split <;> rfl
  | startConstruction =>
    simp only [exec]
    split <;> rfl
  | _ => rfl

theorem Controller.enabled_unreserved (c : Controller) (core : Core) :
    c.enabled core.unreserved = c.enabled core := by
  cases c <;> rfl

theorem Controller.enabled_of_unreserved_eq (c : Controller) {core core' : Core}
    (h : core.unreserved = core'.unreserved) : c.enabled core = c.enabled core' := by
  rw [← c.enabled_unreserved, h, c.enabled_unreserved]

theorem Controller.enabled_of_not_controls {i : Instr} (h : i.controls = false) (c : Controller)
    (refused : Bool) (s : State) : c.enabled (i.exec refused s).2.core = c.enabled s.core :=
  c.enabled_of_unreserved_eq (i.unreserved_of_not_controls h refused s)

section

variable {ι : Type} {t : ι → Scalar}

/-- The program nests its critical sections. The first list is of the guards that its context has,
last one first, and the last argument says which ones it has in the end. -/
inductive Nests (lock : (i : ι) → SpinLock (t i)) (b : Backend) :
    {α : Type} → List (ι × Guard) → Prog α → (α → List (ι × Guard)) → Prop where
  | lock {held : List (ι × Guard)} (i : ι) (h : ∀ e ∈ held, e.1 ≠ i) :
      Nests lock b held (lock i).acquireMasked fun g => (i, g) :: held
  | unlock (i : ι) (g : Guard) (held : List (ι × Guard)) :
      Nests lock b ((i, g) :: held) ((lock i).unlock g) fun _ => held
  | masking {α : Type} {held : List (ι × Guard)} {p : Prog α}
      (h : Nests lock b held p fun _ => held) :
      Nests lock b held (b.controller.masking p) fun _ => held
  /-- Anything that accesses no lock's word, nor what a lock guards unless the context holds it. -/
  | other {α : Type} {held : List (ι × Guard)} {p : Prog α}
      (h : p.All fun i => i.controls = false ∧ ∀ j, i.target? ≠ some (lock j).lock.word ∧
        (i.target? = some (lock j).data → ∃ e ∈ held, e.1 = j)) :
      Nests lock b held p fun _ => held
  | ret {α : Type} {after : α → List (ι × Guard)} (a : α) : Nests lock b (after a) (.ret a) after
  | bind {α β : Type} {held : List (ι × Guard)} {p : Prog α} {f : α → Prog β}
      {mid : α → List (ι × Guard)} {after : β → List (ι × Guard)} (first : Nests lock b held p mid)
      (next : ∀ a, Nests lock b (mid a) (f a) after) : Nests lock b held (p.bind f) after
  | iterate {σ β : Type} {body : σ → Prog (σ ⊕ β)} {inv : σ → List (ι × Guard)}
      {after : β → List (ι × Guard)}
      (round : ∀ x, Nests lock b (inv x) (body x) (Sum.elim inv after))
      (x : σ) : Nests lock b (inv x) (Prog.iterate body x) after

/-- Whether interrupts are enabled where a context has these guards, if they are where it has
none. -/
def flagUnder (flag : Bool) : List (ι × Guard) → Bool
  | [] => flag
  | _ :: _ => false

/-- What the guards remember, no lock being taken twice. -/
def Saved (flag : Bool) : List (ι × Guard) → Prop
  | [] => True
  | (i, g) :: held =>
    g.restore = some (flagUnder flag held) ∧ (∀ e ∈ held, e.1 ≠ i) ∧ Saved flag held

/-- Whether one of the guards is of this lock. -/
def guards [DecidableEq ι] (j : ι) (held : List (ι × Guard)) : Bool := held.any fun e => e.1 = j

variable [DecidableEq ι] {j : ι} {held : List (ι × Guard)}

theorem guards_iff : guards j held = true ↔ ∃ e ∈ held, e.1 = j := by
  simp [guards]

theorem guards_eq_false (h : ∀ e ∈ held, e.1 ≠ j) : guards j held = false :=
  Bool.eq_false_iff.mpr fun hj => by
    obtain ⟨e, he, heq⟩ := guards_iff.mp hj
    exact h e he heq

theorem guards_cons_self (g : Guard) : guards j ((j, g) :: held) = true := by
  simp [guards]

theorem guards_cons_of_ne {i : ι} (h : i ≠ j) (g : Guard) :
    guards j ((i, g) :: held) = guards j held := by
  simp [guards, h]

/-- With interrupts enabled, a context has no guards. -/
theorem guards_of_flagUnder {flag : Bool} (h : flagUnder flag held = true) :
    guards j held = false := by
  cases held with
  | nil => rfl
  | cons e held => cases h

end

end Atomicity
