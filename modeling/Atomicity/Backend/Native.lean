import Atomicity.Backend.Plain

/-!
# Native operations

Every operation that reads and writes is one locked instruction, which is a full fence itself. Only
loads and stores have fences around them.
-/

namespace Atomicity.Native

open Prog

/-- Reads a word. -/
def load (w : Width) (a : Addr) : Prog (Word w) := Isa.load (.swap .x86) w a

/-- Writes a word. -/
def store (w : Width) (a : Addr) (v : Word w) : Prog Unit := Isa.store (.swap .x86) w a v

/-- Replaces a word and answers what was there. -/
def exchange (w : Width) (a : Addr) (v : Word w) : Prog (Word w) := perform (.swap .x86 w a v)

/-- Replaces a word if it is the one expected. -/
def compareExchange (w : Width) (a : Addr) (expected desired : Word w) :
    Prog (Comparison (Word w)) := do
  let found ← perform (.compareSwap w a expected desired)
  return .ofFound expected found

/-- Adds to a word and answers what was there. -/
def fetchAdd (w : Width) (a : Addr) (v : Word w) : Prog (Word w) := perform (.fetchAdd w a v)

/-- Announces an operation before doing it. -/
def announced {α : Type} (p : Primitive) (operation : Prog α) : Prog α := do
  perform (.announce p)
  operation

end Atomicity.Native
