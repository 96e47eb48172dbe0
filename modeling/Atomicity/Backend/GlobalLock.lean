import Atomicity.Lock.Raw

/-!
# Under the global lock

`locked` runs a program with interrupts masked and the global lock held. Interrupts are masked first
and given back last, so no handler of the same core can run while the lock is held, and none can
wait for it for ever. The section is marked at both ends.

The lock is constructed on first use: `construct` runs its announcement and constructs the lock if
nobody has begun to, returns at once if it is constructed, and waits while somebody else is at it.
-/

namespace Atomicity.GlobalLock

open Prog

/-- Sees to it that the global lock is constructed, with an announcement if it is constructed
here. -/
def construct (announcement : Prog Unit) : Prog Unit :=
  iterate (fun _ => do
    match ← perform .startConstruction with
    | .complete => return .inr ()
    | .running => return .inl ()
    | .incomplete =>
      announcement
      perform .endConstruction
      return .inr ()) ()

/-- Runs a program with interrupts masked by `c` and the global lock held. -/
def locked {α : Type} (c : Controller) (base : Backend) (p : Prog α) : Prog α := do
  perform .enterLocked
  let a ← c.masking do
    construct (return ())
    RawLock.global.acquire (.globalLock c base)
    base.fence
    let a ← p
    base.fence
    RawLock.global.release (.globalLock c base)
    return a
  perform .leaveLocked
  return a

/-- Reads a word. -/
def load (c : Controller) (base : Backend) (w : Width) (a : Addr) : Prog (Word w) :=
  locked c base (perform (.read w a))

/-- Writes a word. -/
def store (c : Controller) (base : Backend) (w : Width) (a : Addr) (v : Word w) : Prog Unit :=
  locked c base (perform (.write w a v))

/-- Replaces a word and answers what was there. -/
def exchange (c : Controller) (base : Backend) (w : Width) (a : Addr) (v : Word w) :
    Prog (Word w) :=
  locked c base do
    let previous ← perform (.read w a)
    perform (.write w a v)
    return previous

/-- Replaces a word if it is the one expected. -/
def compareExchange (c : Controller) (base : Backend) (w : Width) (a : Addr)
    (expected desired : Word w) : Prog (Comparison (Word w)) :=
  locked c base do
    let found ← perform (.read w a)
    when (found = expected) (perform (.write w a desired))
    return .ofFound expected found

/-- Adds to a word and answers what was there. -/
def fetchAdd (c : Controller) (base : Backend) (w : Width) (a : Addr) (v : Word w) :
    Prog (Word w) :=
  locked c base do
    let previous ← perform (.read w a)
    perform (.write w a (previous + v))
    return previous

end Atomicity.GlobalLock
