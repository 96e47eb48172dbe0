import Atomicity.Lock.Spin
import Atomicity.Proofs.Leads

/-!
# Proper use of a lock

`RawLock.Uses` says which programs use a lock as it is meant to be used: its word is accessed by the
operations of the lock only, `release` is for whoever holds the lock, and what the lock guards is
accessed only by whoever holds it. Whatever else a program does, however it branches and loops, does
not matter.

**Anybody may ask for the lock, whoever holds it included.** An attempt of the holder is refused,
and its `acquire` waits for ever. A program is judged from whether its context holds the lock at
first to what it may answer, and whether the context holds the lock then, so that it need not be
proper where it goes on from an answer that it does not get (`SpinLock.Uses.refused`,
`SpinLock.Uses.waits`).

The programs of a spin lock are judged from those of its raw lock (`SpinLock.Uses`).
-/

namespace Atomicity

open Prog

namespace RawLock

/-- The program uses a lock on a backend, and what the lock guards, as they are meant to be used.
The first argument says whether its context holds the lock. The last one is what holds of an answer
and of whether the context holds the lock then. -/
inductive Uses (l : RawLock) (b : Backend) (data : Addr) :
    {α : Type} → Bool → Prog α → (α → Bool → Prop) → Prop where
  /-- Whoever holds the lock already waits for ever. -/
  | acquire {held : Bool} : Uses l b data held (l.acquire b) fun _ now => held = false ∧ now = true
  /-- Whoever holds the lock already is refused, and goes on holding it. -/
  | tryAcquire {held : Bool} : Uses l b data held (l.tryAcquire b) fun ok now =>
      now = (held || ok) ∧ (held = true → ok = false)
  /-- The lock is freed by whoever holds it. -/
  | release : Uses l b data true (l.release b) fun _ now => now = false
  | isLocked {held : Bool} : Uses l b data held (l.isLocked b) fun _ now => now = held
  /-- Anything that does not access the word, nor what is guarded unless the context holds the
  lock. -/
  | other {α : Type} {held : Bool} {p : Prog α}
      (h : p.All fun i => i.target? ≠ some l.word ∧ (i.target? = some data → held = true)) :
      Uses l b data held p fun _ now => now = held
  | ret {α : Type} {held : Bool} {after : α → Bool → Prop} (a : α) (h : after a held) :
      Uses l b data held (.ret a) after
  | bind {α β : Type} {held : Bool} {p : Prog α} {f : α → Prog β} {mid : α → Bool → Prop}
      {after : β → Bool → Prop} (first : Uses l b data held p mid)
      (next : ∀ a now, mid a now → Uses l b data now (f a) after) :
      Uses l b data held (p.bind f) after
  | iterate {σ β : Type} {held : Bool} {body : σ → Prog (σ ⊕ β)} {inv : σ → Bool → Prop}
      {after : β → Bool → Prop}
      (round : ∀ x now, inv x now → Uses l b data now (body x) (Sum.elim inv after)) (x : σ)
      (h : inv x held) : Uses l b data held (Prog.iterate body x) after

end RawLock

namespace SpinLock

variable {t : Scalar} (l : SpinLock t)

/-- The program uses a spin lock as it is meant to be used. -/
def Uses {α : Type} (held : Bool) (p : Prog α) (after : α → Bool → Prop) : Prop :=
  l.lock.Uses l.backend l.data held p after

namespace Uses

variable {l} {α : Type} {held : Bool}

theorem bind {β : Type} {p : Prog α} {f : α → Prog β} {mid : α → Bool → Prop}
    {after : β → Bool → Prop} (first : l.Uses held p mid)
    (next : ∀ a now, mid a now → l.Uses now (f a) after) :
    l.Uses held (p.bind f) after :=
  RawLock.Uses.bind first next

theorem ret {after : α → Bool → Prop} (a : α) (h : after a held) : l.Uses held (.ret a) after :=
  RawLock.Uses.ret a h

/-- One program after another that leaves its context holding the lock, or not holding it. -/
theorem next {β : Type} {held' : Bool} {p : Prog α} {f : α → Prog β} {after : β → Bool → Prop}
    (first : l.Uses held p fun _ now => now = held') (rest : ∀ a, l.Uses held' (f a) after) :
    l.Uses held (p.bind f) after :=
  first.bind fun a _ h => h ▸ rest a

theorem acquire : l.Uses held l.acquire fun _ now => held = false ∧ now = true :=
  bind RawLock.Uses.acquire fun _ _ h => ret _ h

theorem take : l.Uses false l.acquire fun _ now => now = true :=
  bind RawLock.Uses.acquire fun _ _ h => ret _ h.2

theorem tryAcquire : l.Uses held l.tryAcquire fun g now =>
    now = (held || g.isSome) ∧ (held = true → g = none) := by
  refine bind RawLock.Uses.tryAcquire fun taken now h => ret _ ⟨?_, fun hheld => ?_⟩
  · rw [h.1]
    cases taken <;> rfl
  · rw [h.2 hheld]
    rfl

/-- **Whoever holds the lock is refused**, so what follows an attempt is to be proper where it is
refused. -/
theorem refused {f : Option Guard → Prog α} {after : α → Bool → Prop}
    (h : l.Uses true (f none) after) :
    l.Uses true (l.tryAcquire.bind f) after := by
  refine bind tryAcquire fun g now hg => ?_
  obtain ⟨rfl, hnone⟩ := hg
  obtain rfl := hnone rfl
  exact h

/-- **Whoever takes a lock twice waits for ever**, so nothing is asked of what would follow. -/
theorem waits (f : Guard → Prog α) (after : α → Bool → Prop) :
    l.Uses true (l.acquire.bind f) after :=
  bind acquire fun _ _ h => absurd h.1 Bool.noConfusion

/-- Whatever guard ends the section. -/
theorem unlock (g : Guard) : l.Uses true (l.unlock g) fun _ now => now = false := by
  obtain ⟨restore⟩ := g
  refine bind RawLock.Uses.release fun _ now hnow => ?_
  cases restore with
  | none => exact ret () hnow
  | some wasEnabled =>
    subst hnow
    refine RawLock.Uses.other (Controller.all_enableIf (fun i hi => ?_) _ _)
    have htarget := Instr.target?_ne_of_commands hi
    exact ⟨htarget _, fun h => absurd h (htarget _)⟩

theorem isLocked : l.Uses held l.isLocked fun _ now => now = held := RawLock.Uses.isLocked

/-- A context that keeps the lock does not return. It goes on for ever with what may be done
meanwhile. -/
theorem forever {β : Type} {p : Prog β} (h : l.Uses held p fun _ now => now = held)
    (after : α → Bool → Prop) :
    l.Uses held (Prog.iterate (fun _ => p.bind fun _ => .ret (.inl ())) ()) after := by
  have round : ∀ (_ : Unit) now, now = held → l.Uses now (p.bind fun _ => .ret (.inl ()))
      (Sum.elim (fun _ now => now = held) after) := by
    rintro - now rfl
    exact bind h fun _ _ hnow => ret _ hnow
  exact RawLock.Uses.iterate round () rfl

/-- To access what is guarded is for whoever holds the lock. -/
theorem access (hdata : l.data ≠ l.lock.word) {i : Instr} (hi : i.target? = some l.data) :
    l.Uses true (perform i) fun _ now => now = true := by
  refine RawLock.Uses.other (.perform ⟨?_, fun _ => rfl⟩)
  rw [hi]
  exact fun h => hdata (Option.some.inj h)

theorem value (hdata : l.data ≠ l.lock.word) : l.Uses true l.value fun _ now => now = true :=
  (access hdata rfl).bind fun _ _ h => ret _ h

theorem setValue (hdata : l.data ≠ l.lock.word) (v : t.Value) :
    l.Uses true (l.setValue v) fun _ now => now = true :=
  access hdata rfl

/-- A section that is left early is a proper one. -/
theorem brief (hdata : l.data ≠ l.lock.word) (v : t.Value) :
    l.Uses false (l.brief false v) fun _ now => now = false :=
  take.next fun g => (setValue hdata v).next fun _ => unlock g

end Uses

/-- A critical section that replaces what is guarded by its image under a function. -/
def modify (f : Word t.width → Word t.width) : Prog Unit := do
  let g ← l.acquire
  let v ← perform (.read t.width l.data)
  perform (.write t.width l.data (f v))
  l.unlock g

theorem Uses.modify {l : SpinLock t} (hdata : l.data ≠ l.lock.word)
    (f : Word t.width → Word t.width) :
    l.Uses false (l.modify f) fun _ now => now = false :=
  Uses.take.next fun g => (Uses.access hdata rfl).next fun _ =>
    (Uses.access hdata rfl).next fun _ =>
    Uses.unlock g

/-- A section may try to take its lock once more. -/
example (l : SpinLock t) : l.Uses false
    (do
      let g ← l.acquire
      let _ ← l.tryAcquire
      l.unlock g)
    fun _ now => now = false :=
  Uses.take.next fun g => Uses.refused (Uses.unlock g)

end SpinLock

end Atomicity
