import Atomicity.Backend

/-!
# Plain accesses between fences

A read or a write of one word is indivisible on every CPU, so on a backend with instructions of its
own a load is a read between two fences, and a store a write between two fences.

`Comparison` is what a compare-and-exchange answers.
-/

namespace Atomicity

/-- What a compare-and-exchange answers: whether it replaced the word, and the value that its caller
expects from now on, which is the word found if that was another. -/
structure Comparison (α : Type) where
  swapped : Bool
  expected : α
  deriving DecidableEq, Repr

/-- The comparison of the word found with the word expected. -/
def Comparison.ofFound {w : Width} (expected found : Word w) : Comparison (Word w) :=
  if found = expected then ⟨true, expected⟩ else ⟨false, found⟩

namespace Isa

open Prog

/-- A read between two fences. -/
def load (isa : Isa) (w : Width) (a : Addr) : Prog (Word w) := do
  perform (.fence isa)
  let v ← perform (.read w a)
  perform (.fence isa)
  return v

/-- A write between two fences. -/
def store (isa : Isa) (w : Width) (a : Addr) (v : Word w) : Prog Unit := do
  perform (.fence isa)
  perform (.write w a v)
  perform (.fence isa)

end Isa

namespace SwapIsa

open Prog

/-- The swap instruction between two fences. -/
def exchange (isa : SwapIsa) (w : Width) (a : Addr) (v : Word w) : Prog (Word w) := do
  perform (.fence (.swap isa))
  let previous ← perform (.swap isa w a v)
  perform (.fence (.swap isa))
  return previous

end SwapIsa

end Atomicity
