import Atomicity.Backend.GlobalLock
import Atomicity.Program.Solo

/-!
# Startup

What a backend does once before it is used by more than one context, and what is logged about it.
Only a build with logging logs anything.

The global lock may be constructed here or by the first operation that needs it. The record of its
construction is logged here only, and only if nobody has constructed it before; the warning that
follows is logged each time.
-/

namespace Atomicity

/-- What a build of the library includes. -/
structure Build where
  /-- Log records are emitted. -/
  logging : Bool
  /-- It is for a virtualized guest. -/
  guest : Bool
  deriving DecidableEq, Repr

namespace Build

def plain : Build := ⟨false, false⟩

def withLogging : Build := ⟨true, false⟩

def forGuest : Build := ⟨true, true⟩

/-- Logs a message, in a build that logs. -/
def emit (b : Build) (level : Level) (message : String) : Prog Unit :=
  if b.logging then Prog.perform (.log ⟨level, message⟩) else return ()

end Build

namespace Backend

/-- The backend of the machine that the library is built for. -/
def active : Backend := native

/-- One-time setup of a backend. -/
def setUp (build : Build) : Backend → Prog Unit
  | globalLock .. => do
    GlobalLock.construct (build.emit .debug "atomics: constructing global atomic lock")
    build.emit .warn "atomics: global atomic lock backend is only correct on a single core"
  | _ => return ()

/-- What a backend says of itself. -/
def description (b : Backend) : String :=
  "atomics: backend \"" ++ b.name ++ "\" (" ++ b.strategy.name ++ "), lock-free " ++
    b.table.lockFree.render ++ ", implemented " ++ b.table.implemented.render

/-- Brings a backend up: sets it up and reports it. -/
def startUp (build : Build) (b : Backend) : Prog Unit := do
  b.setUp build
  build.emit .info b.description
  Prog.when build.guest (build.emit .debug "atomics: built for a virtualized guest")

end Backend

namespace State

/-- A state in which the global lock has been constructed before, and its log begins anew. -/
def constructed : State :=
  let s := State.start true true
  { s with shared := { s.shared with once := .complete } }

end State

/-- What a program logs when run from a state. -/
def logged (p : Prog Unit) (s : State) : List Record :=
  (p.alone s).state.shared.log.drop s.shared.log.length

end Atomicity
