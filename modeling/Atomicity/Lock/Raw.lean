import Atomicity.Backend.LockWord

/-!
# Raw locks

A `RawLock` is a word: zero while the lock is free. Each operation is told the backend to work on,
so one lock serves them all.

`acquire` waits: it repeats its attempt until one finds the word zero. `isLocked` is a snapshot, by
a read between two fences of the backend.
-/

namespace Atomicity

/-- A lock, by the address of its word. -/
structure RawLock where
  word : Addr
  deriving DecidableEq, Repr

namespace RawLock

open Prog

/-- Takes the lock if it is free, and answers whether it was. -/
def tryAcquire (l : RawLock) (b : Backend) : Prog Bool := do
  let previous ← b.testSetLock l.word 1
  return previous == 0

/-- Takes the lock, waiting until it is free. -/
def acquire (l : RawLock) (b : Backend) : Prog Unit := untilTrue (l.tryAcquire b)

/-- Frees the lock, which the caller holds. -/
def release (l : RawLock) (b : Backend) : Prog Unit := b.privilegedStore l.word 0

/-- Whether anybody holds the lock. -/
def isLocked (l : RawLock) (b : Backend) : Prog Bool := do
  let v ← b.barrier.load .w64 l.word
  return v != 0

/-- Whether a state has the lock held. -/
def heldIn (l : RawLock) (s : State) : Bool := s.read .w64 l.word != 0

/-- The lock that all global-lock backends share. -/
def global : RawLock := ⟨.globalLock⟩

end RawLock

end Atomicity
