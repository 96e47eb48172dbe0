import Atomicity.Backend.Plain

/-!
# Compare-and-exchange on a single core

A CPU whose only read-modify-write is a swap has no instruction to compare with. On one core it is
enough to mask interrupts around a plain read and write: nobody else runs in between.
-/

namespace Atomicity.SingleCore

open Prog

/-- Replaces a word if it is the one expected, with interrupts masked. -/
def compareExchange (c : Controller) (isa : SwapIsa) (w : Width) (a : Addr)
    (expected desired : Word w) : Prog (Comparison (Word w)) :=
  c.masking do
    perform (.fence (.swap isa))
    let found ← perform (.read w a)
    when (found = expected) (perform (.write w a desired))
    perform (.fence (.swap isa))
    return .ofFound expected found

end Atomicity.SingleCore
