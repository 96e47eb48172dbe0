import Atomicity.Memory

/-!
# The machine

The state that programs work on has two parts. A `Core` is what one context sees as its own: whether
its interrupts are masked, in each of the forms that a controller keeps this in, and its exclusive
monitor. `Shared` is what all contexts see: memory, the owner flag of the simulated core that
threads take turns on, whether the global lock has been constructed, and the log.

`Core.start` and `State.start` are the states that a run begins in.
-/

namespace Atomicity

/-- How important a log record is. -/
inductive Level where
  | debug
  | info
  | warn
  deriving DecidableEq, Repr

/-- A record of the log. -/
structure Record where
  level : Level
  message : String
  deriving DecidableEq, Repr

/-- How far a value that is constructed once has come. -/
inductive OnceStatus where
  | incomplete
  | running
  | complete
  deriving DecidableEq, Repr

/-- What a load-exclusive has reserved: the store-exclusive that follows has to agree in both. -/
structure Reservation where
  width : Width
  addr : Addr
  deriving DecidableEq, Repr

/-- The state of one context. -/
structure Core where
  /-- The interrupt line is enabled. -/
  lineEnabled : Bool
  /-- The context owns the simulated core and so has its interrupts masked. -/
  masked : Bool
  /-- The status register; bit 7 masks interrupts. -/
  cpsr : BitVec 32
  /-- The mask bit for interrupts among the exception masks. -/
  daif : Bool
  /-- The interrupt-enable flag. -/
  flagIF : Bool
  /-- The exclusive monitor: what is reserved, if it is open. -/
  monitor : Option Reservation
  deriving DecidableEq, Repr

/-- The state that all contexts share. -/
structure Shared where
  memory : Memory
  /-- Some context owns the simulated core. -/
  coreOwned : Bool
  /-- How far construction of the global lock has come. -/
  once : OnceStatus
  /-- What has been logged, first record first. -/
  log : List Record

/-- One context and all that it shares. -/
structure State where
  core : Core
  shared : Shared

/-- The bit of the status register that masks interrupts. -/
def Core.maskBit : BitVec 32 := 0x80

/-- A context at its start: nothing reserved, no simulated core owned, and interrupts as given for
the line and for the three kinds of CPU. The status register says supervisor mode. -/
def Core.start (line cpu : Bool) : Core where
  lineEnabled := line
  masked := false
  cpsr := if cpu then 0x13 else 0x13 ||| maskBit
  daif := !cpu
  flagIF := cpu
  monitor := none

/-- Nothing written, constructed or logged. -/
def Shared.start : Shared where
  memory := .zero
  coreOwned := false
  once := .incomplete
  log := []

namespace State

def start (line cpu : Bool) : State := ⟨.start line cpu, .start⟩

/-- The word at an address. -/
def read (s : State) (w : Width) (a : Addr) : Word w := s.shared.memory.read w a

/-- The state with one word replaced. -/
def write (s : State) (w : Width) (a : Addr) (v : Word w) : State :=
  { s with shared := { s.shared with memory := s.shared.memory.write w a v } }

/-- The state with another reservation, or none. -/
def reserve (s : State) (r : Option Reservation) : State :=
  { s with core := { s.core with monitor := r } }

@[simp]
theorem core_write (s : State) (w : Width) (a : Addr) (v : Word w) :
    (s.write w a v).core = s.core :=
  rfl

@[simp]
theorem memory_write (s : State) (w : Width) (a : Addr) (v : Word w) :
    (s.write w a v).shared.memory = s.shared.memory.write w a v := rfl

@[simp]
theorem read_write_self (s : State) (w : Width) (a : Addr) (v : Word w) :
    (s.write w a v).read w a = v := by
  simp [read]

@[simp]
theorem shared_reserve (s : State) (r : Option Reservation) : (s.reserve r).shared = s.shared := rfl

@[simp]
theorem monitor_reserve (s : State) (r : Option Reservation) : (s.reserve r).core.monitor = r := rfl

end State

end Atomicity
