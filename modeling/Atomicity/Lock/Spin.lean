import Atomicity.Lock.Raw
import Atomicity.Scalar

/-!
# Spin locks

A `SpinLock t` guards a value of type `t`. Who takes the lock gets a `Guard`, and reads and writes
the value through it, plainly. A guard taken with interrupts masked remembers what they were before;
`unlock` frees the lock first and gives the interrupts back after that.

`brief` takes the lock, writes, and frees the lock again: what a critical section does that is left
early, with its guard dropped on the way out.

`value`, `replace` and `renew` are for a caller that nobody else shares the lock with.
-/

namespace Atomicity

/-- A lock and the value that it guards. -/
structure SpinLock (t : Scalar) where
  backend : Backend
  lock : RawLock
  data : Addr

/-- The right to a lock's value, with the interrupt state to give back when it ends. -/
structure Guard where
  restore : Option Bool
  deriving DecidableEq, Repr

namespace SpinLock

open Prog

variable {t : Scalar}

/-- Takes the lock, waiting until it is free. -/
def acquire (l : SpinLock t) : Prog Guard := do
  l.lock.acquire l.backend
  return ⟨none⟩

/-- Takes the lock if it is free. -/
def tryAcquire (l : SpinLock t) : Prog (Option Guard) := do
  let taken ← l.lock.tryAcquire l.backend
  return if taken then some ⟨none⟩ else none

/-- Masks interrupts, then takes the lock, waiting until it is free. -/
def acquireMasked (l : SpinLock t) : Prog Guard := do
  let wasEnabled ← l.backend.controller.disable
  l.lock.acquire l.backend
  return ⟨some wasEnabled⟩

/-- Ends a guard: frees the lock, and gives the interrupts back if the guard remembers them. -/
def unlock (l : SpinLock t) (g : Guard) : Prog Unit := do
  l.lock.release l.backend
  match g.restore with
  | none => return ()
  | some wasEnabled => l.backend.controller.enableIf wasEnabled

/-- Whether anybody holds the lock. -/
def isLocked (l : SpinLock t) : Prog Bool := l.lock.isLocked l.backend

/-- Reads the value plainly. -/
def value (l : SpinLock t) : Prog t.Value := do
  return .ofRepr (← perform (.read t.width l.data))

/-- Writes the value plainly. -/
def setValue (l : SpinLock t) (v : t.Value) : Prog Unit := perform (.write t.width l.data v.toRepr)

/-- Writes the value plainly and answers the one before. -/
def replace (l : SpinLock t) (v : t.Value) : Prog t.Value := do
  let previous ← l.value
  l.setValue v
  return previous

/-- Makes a new lock of this one, free and with the same value, and answers the value. -/
def renew (l : SpinLock t) : Prog t.Value := do
  let v ← l.value
  perform (.write .w64 l.lock.word 0)
  return v

/-- Takes the lock, with interrupts masked if asked to, writes a value, and ends the guard. -/
def brief (l : SpinLock t) (masked : Bool) (v : t.Value) : Prog Unit := do
  let g ← if masked then l.acquireMasked else l.acquire
  l.setValue v
  l.unlock g

end SpinLock

end Atomicity
