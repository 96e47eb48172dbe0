import Atomicity.Fetch
import Atomicity.Scalar

/-!
# Atomic cells

An `Atomic t` is a cell that holds a value of the scalar type `t`. Every operation converts its
operands to words, has the backend of the cell do its work on the word, and converts the answer
back.

Two cells may be at one address, as views of one word under types of the same width.

`replace` is for a caller that nobody else shares the cell with: it reads and writes plainly.
-/

namespace Atomicity

/-- A cell that holds a value of type `t`. -/
structure Atomic (t : Scalar) where
  backend : Backend
  addr : Addr

namespace Atomic

open Prog

variable {t : Scalar}

/-- Reads the value. -/
def load (c : Atomic t) : Prog t.Value := do
  return .ofRepr (← c.backend.load t.width c.addr)

/-- Writes a value. -/
def store (c : Atomic t) (v : t.Value) : Prog Unit := c.backend.store t.width c.addr v.toRepr

/-- Writes a value and answers the one before. -/
def exchange (c : Atomic t) (v : t.Value) : Prog t.Value := do
  return .ofRepr (← c.backend.exchange t.width c.addr v.toRepr)

/-- Replaces the value if it is the one expected. Where it is not, the value found is expected from
now on. -/
def compareExchange (c : Atomic t) (expected desired : t.Value) : Prog (Comparison t.Value) := do
  let outcome ← c.backend.compareExchange t.width c.addr expected.toRepr desired.toRepr
  return if outcome.swapped then ⟨true, expected⟩ else ⟨false, .ofRepr outcome.expected⟩

/-- Replaces the value by what a program with a state of its own makes of it. Answers the value
replaced and the last state. -/
def fetchUpdate {τ : Type} (c : Atomic t) (f : τ → t.Value → Prog (t.Value × τ)) (start : τ) :
    Prog (t.Value × τ) := do
  let (previous, last) ← c.backend.fetchUpdate t.width c.addr
    (fun s x => do
      let (y, s) ← f s (.ofRepr x)
      return (y.toRepr, s)) start
  return (.ofRepr previous, last)

/-- The value as it is in a state, without an instruction. -/
def peek (c : Atomic t) (s : State) : t.Value := .ofRepr (s.read t.width c.addr)

/-- Writes a value plainly and answers the one before. -/
def replace (c : Atomic t) (v : t.Value) : Prog t.Value := do
  let previous ← perform (.read t.width c.addr)
  perform (.write t.width c.addr v.toRepr)
  return .ofRepr previous

/-- Reads the value plainly. -/
def inner (c : Atomic t) : Prog t.Value := do
  return .ofRepr (← perform (.read t.width c.addr))

/-- Whether operations on the cell are native instructions. -/
def isLockFree (c : Atomic t) : Bool := c.backend.isLockFree t.width

variable {k : IntType}

/-- Combines the value with an operand and answers the value before. -/
def fetch (c : Atomic (.int k)) (op : FetchOp) (v : k.Value) : Prog k.Value := do
  return .ofBits (← c.backend.fetch op k.width c.addr v.toBits)

/-- Combines the value with an operand and answers the new value. -/
def fetchNew (c : Atomic (.int k)) (op : FetchOp) (v : k.Value) : Prog k.Value := do
  return .ofBits (← c.backend.fetchNew op k.width c.addr v.toBits)

/-- Replaces a machine word as the word of a lock, and answers the one before. -/
def testSetLock (c : Atomic (.int .machineWord)) (v : IntType.machineWord.Value) :
    Prog IntType.machineWord.Value := do
  return .ofBits (← c.backend.testSetLock c.addr v.toBits)

end Atomic

end Atomicity
