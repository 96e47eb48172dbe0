import Atomicity.Fetch

/-!
# Flags

A `Flag` is a lock word that is set or clear. It is set and cleared as the word of a lock is, so it
works on every backend, and read as a cell is.
-/

namespace Atomicity

/-- A flag, by its backend and the address of its word. -/
structure Flag where
  backend : Backend
  word : Addr

namespace Flag

open Prog

/-- Sets the flag, and answers whether it was set. -/
def testAndSet (f : Flag) : Prog Bool := do
  let previous ← f.backend.testSetLock f.word 1
  return previous != 0

/-- Clears the flag. -/
def clear (f : Flag) : Prog Unit := f.backend.privilegedStore f.word 0

/-- Whether the flag is set. -/
def isSet (f : Flag) : Prog Bool := do
  let v ← f.backend.load .w64 f.word
  return v != 0

end Flag

end Atomicity
