import Atomicity.Backend.Native
import Atomicity.Backend.Pair

/-!
# The word of a lock

Two operations on a word of 64 bits are all that a lock is made of: `testSetLock` replaces the word
and answers what was there, and `privilegedStore` writes it. Neither takes a lock of the backend's
own, so the global lock can be made of them.

The backend behind a global lock cannot use that lock here. It masks interrupts around a plain read
and a plain write instead, which is indivisible on one core only.

The word of a lock is a machine word, and the build that is modelled is the one for machine words of
64 bits (`IntType.machineWord`). In the build for a 32-bit ARM it has 32 bits. The backends `pair
.armv7` and `singleCore` with the swap of an ARMv5 have no instruction for 64 bits, so that build is
the only one in which they take locks. Here the two operations are defined on them too, with the
same instructions in the same order, but with operands of 64 bits: what is said of them on these two
backends is about that program, and says of the build with 32 bits only what does not depend on the
width.
-/

namespace Atomicity.Backend

open Prog

/-- Replaces the word of a lock with interrupts masked, and answers what was there. -/
def maskedSwap (c : Controller) (isa : Isa) (a : Addr) (v : Word .w64) : Prog (Word .w64) :=
  c.masking do
    perform (.fence isa)
    let previous ← perform (.read .w64 a)
    perform (.write .w64 a v)
    perform (.fence isa)
    return previous

/-- Replaces the word of a lock, and answers what was there. -/
def testSetLock (b : Backend) (a : Addr) (v : Word .w64) : Prog (Word .w64) :=
  match b with
  | native => Native.exchange .w64 a v
  | traced | casOnly => Native.announced .testSetLock (Native.exchange .w64 a v)
  | pair isa => isa.exchange .w64 a v
  | singleCore _ isa _ => isa.exchange .w64 a v
  | globalLock c base => maskedSwap c base.barrier a v

/-- Writes the word of a lock. -/
def privilegedStore (b : Backend) (a : Addr) (v : Word .w64) : Prog Unit :=
  match b with
  | native => Native.store .w64 a v
  | traced | casOnly => Native.announced .privilegedStore (Native.store .w64 a v)
  | pair isa => Isa.store (.pair isa) .w64 a v
  | singleCore _ isa _ => Isa.store (.swap isa) .w64 a v
  | globalLock c base => do
    let _ ← maskedSwap c base.barrier a v

end Atomicity.Backend
