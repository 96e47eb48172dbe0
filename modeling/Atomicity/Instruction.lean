import Atomicity.Machine

/-!
# Instructions

An `Instr` is one indivisible step of a context. `Instr.Reply` is the type of what it answers, and
`Instr.exec` is its effect on the state.

Two instructions may be refused by the hardware without a reason in the state: a store-exclusive,
and the weak compare-and-swap that claims the simulated core. `exec` takes the refusal as an
argument.

`Instr.event?` is what an observer sees of an instruction just before it takes effect. Plain reads
and writes are not seen, nor is anything that the `x86` instruction set does to memory.

The exclusive monitor: a load-exclusive opens it for its width and address; a store-exclusive stores
only if it is open for the same two, and closes it whether it stores or not; a clear-exclusive
closes it. Both work on registers: a load-exclusive zero-extends the word, and a store-exclusive
stores the low bits.

`enterUpdate`, `enterLocked` and `leaveLocked` do nothing. They mark where a program is: at the
entry of a caller's function, and at both ends of a section under the global lock.

What is not modelled: an order of memory weaker than one instruction after another. A fence has no
effect here beyond being seen.
-/

namespace Atomicity

/-- The CPUs with an instruction that swaps a register and a word. The `bench` CPU exists to be
observed: it has a fence and a swap, and both are seen. -/
inductive SwapIsa where
  | x86
  | bench
  | armv5
  deriving DecidableEq, Repr

/-- The CPUs with load-exclusive and store-exclusive. -/
inductive PairIsa where
  | armv7
  | aarch64
  deriving DecidableEq, Repr

/-- The CPUs. -/
inductive Isa where
  | swap (isa : SwapIsa)
  | pair (isa : PairIsa)
  deriving DecidableEq, Repr

/-- An operation of a backend, as far as an observed backend announces it. -/
inductive Primitive where
  | load
  | store
  | exchange
  | compareExchange
  | fetchAdd
  | testSetLock
  | privilegedStore
  deriving DecidableEq, Repr

/-- One indivisible step of a context. -/
inductive Instr where
  /-- A full fence. -/
  | fence (isa : Isa)
  /-- A plain read. -/
  | read (w : Width) (a : Addr)
  /-- A plain write. -/
  | write (w : Width) (a : Addr) (v : Word w)
  /-- Writes a word and answers what was there. -/
  | swap (isa : SwapIsa) (w : Width) (a : Addr) (v : Word w)
  /-- Writes `desired` if the word is `expected`, and answers what was there. -/
  | compareSwap (w : Width) (a : Addr) (expected desired : Word w)
  /-- Adds to a word and answers what was there. -/
  | fetchAdd (w : Width) (a : Addr) (v : Word w)
  /-- Reads a word into a register and reserves it. -/
  | loadExclusive (isa : PairIsa) (w : Width) (a : Addr)
  /-- Writes a word from a register if it is reserved, and answers whether it did. -/
  | storeExclusive (isa : PairIsa) (w : Width) (a : Addr) (v : Register w)
  /-- Gives up what is reserved. -/
  | clearExclusive (isa : PairIsa)
  /-- Masks the interrupt line and answers whether it was enabled. -/
  | lineMask
  /-- Enables the interrupt line if asked to. -/
  | lineRestore (enabled : Bool)
  /-- Whether this context has its interrupts masked on the simulated core. -/
  | isMasked
  /-- Notes that this context has its interrupts masked, or not. -/
  | setMasked (b : Bool)
  /-- Claims the simulated core if nobody owns it, and answers whether it did. -/
  | claimCore
  /-- Gives the simulated core up. -/
  | disownCore
  /-- Reads the status register. -/
  | readCpsr
  /-- Writes the control byte of the status register. -/
  | writeCpsr (v : BitVec 32)
  /-- Reads the interrupt mask among the exception masks. -/
  | readDaif
  /-- Sets that mask. -/
  | setDaif
  /-- Clears that mask. -/
  | clearDaif
  /-- Reads the interrupt-enable flag. -/
  | readFlagIF
  /-- Clears that flag. -/
  | cli
  /-- Sets that flag. -/
  | sti
  /-- Starts construction of the global lock unless it has been started, and answers how far it
  was. -/
  | startConstruction
  /-- Constructs the global lock, unlocked. -/
  | endConstruction
  /-- Appends to the log. -/
  | log (r : Record)
  /-- Announces an operation. -/
  | announce (p : Primitive)
  /-- The caller's function of a read-modify-write is entered. -/
  | enterUpdate
  /-- A section under the global lock is entered. -/
  | enterLocked
  /-- A section under the global lock has come to its end. -/
  | leaveLocked
  deriving DecidableEq, Repr

/-- What an observer sees of an instruction. -/
inductive Event where
  | fence (isa : Isa)
  | swap (isa : SwapIsa) (w : Width)
  | loadExclusive (isa : PairIsa) (w : Width)
  | storeExclusive (isa : PairIsa) (w : Width)
  | clearExclusive
  | lineMask (wasEnabled : Bool)
  | lineRestore (enabled : Bool)
  | readCpsr
  | writeCpsr
  | readDaif
  | setDaif
  | clearDaif
  | readFlagIF
  | cli
  | sti
  | primitive (p : Primitive)
  deriving DecidableEq, Repr

namespace Instr

/-- The type of what an instruction answers. -/
abbrev Reply : Instr → Type
  | read w _ => Word w
  | swap _ w _ _ => Word w
  | compareSwap w _ _ _ => Word w
  | fetchAdd w _ _ => Word w
  | loadExclusive _ w _ => Register w
  | storeExclusive .. => Bool
  | lineMask => Bool
  | isMasked => Bool
  | claimCore => Bool
  | readCpsr => BitVec 32
  | readDaif => Bool
  | readFlagIF => Bool
  | startConstruction => OnceStatus
  | _ => Unit

/-- The answer of an instruction, and the state after it. -/
def exec (refused : Bool) (s : State) : (i : Instr) → i.Reply × State
  | fence _ => ((), s)
  | read w a => (s.read w a, s)
  | write w a v => ((), s.write w a v)
  | swap _ w a v => (s.read w a, s.write w a v)
  | compareSwap w a expected desired =>
    (s.read w a, if s.read w a = expected then s.write w a desired else s)
  | fetchAdd w a v => (s.read w a, s.write w a (s.read w a + v))
  | loadExclusive _ w a => (Word.toRegister (s.read w a), s.reserve (some ⟨w, a⟩))
  | storeExclusive _ w a v =>
    if s.core.monitor = some ⟨w, a⟩ ∧ refused = false then
      (true, (s.write w a (Register.toWord v)).reserve none)
    else (false, s.reserve none)
  | clearExclusive _ => ((), s.reserve none)
  | lineMask => (s.core.lineEnabled, { s with core := { s.core with lineEnabled := false } })
  | lineRestore b =>
    ((), if b then { s with core := { s.core with lineEnabled := true } } else s)
  | isMasked => (s.core.masked, s)
  | setMasked b => ((), { s with core := { s.core with masked := b } })
  | claimCore =>
    if s.shared.coreOwned = false ∧ refused = false then
      (true, { s with shared := { s.shared with coreOwned := true } })
    else (false, s)
  | disownCore => ((), { s with shared := { s.shared with coreOwned := false } })
  | readCpsr => (s.core.cpsr, s)
  | writeCpsr v =>
    ((), { s with core := { s.core with cpsr := (s.core.cpsr &&& ~~~0xff) ||| (v &&& 0xff) } })
  | readDaif => (s.core.daif, s)
  | setDaif => ((), { s with core := { s.core with daif := true } })
  | clearDaif => ((), { s with core := { s.core with daif := false } })
  | readFlagIF => (s.core.flagIF, s)
  | cli => ((), { s with core := { s.core with flagIF := false } })
  | sti => ((), { s with core := { s.core with flagIF := true } })
  | startConstruction =>
    (s.shared.once,
      match s.shared.once with
      | .incomplete => { s with shared := { s.shared with once := .running } }
      | _ => s)
  | endConstruction =>
    let s := s.write .w64 .globalLock 0
    ((), { s with shared := { s.shared with once := .complete } })
  | log r => ((), { s with shared := { s.shared with log := s.shared.log ++ [r] } })
  | announce _ => ((), s)
  | enterUpdate => ((), s)
  | enterLocked => ((), s)
  | leaveLocked => ((), s)

/-- What is seen of an instruction before it takes effect, if anything. -/
def event? (core : Core) : Instr → Option Event
  | fence (.swap .x86) => none
  | fence isa => some (.fence isa)
  | swap .x86 _ _ _ => none
  | swap isa w _ _ => some (.swap isa w)
  | loadExclusive isa w _ => some (.loadExclusive isa w)
  | storeExclusive isa w _ _ => some (.storeExclusive isa w)
  | clearExclusive _ => some .clearExclusive
  | lineMask => some (.lineMask core.lineEnabled)
  | lineRestore b => some (.lineRestore b)
  | readCpsr => some .readCpsr
  | writeCpsr _ => some .writeCpsr
  | readDaif => some .readDaif
  | setDaif => some .setDaif
  | clearDaif => some .clearDaif
  | readFlagIF => some .readFlagIF
  | cli => some .cli
  | sti => some .sti
  | announce p => some (.primitive p)
  | _ => none

/-- The instruction is a store-exclusive, which may be rejected. -/
def storesExclusively : Instr → Bool
  | storeExclusive .. => true
  | _ => false

/-- The instruction is the entry of an update function. -/
def entersUpdate : Instr → Bool
  | enterUpdate => true
  | _ => false

end Instr

namespace Event

/-- The letter that sizes a load-exclusive, a store-exclusive or a swap. -/
private def sizeLetter : Width → String
  | .w8 => "b"
  | .w16 => "h"
  | .w32 | .w64 => ""

/-- The name of an event. -/
def mnemonic : Event → String
  | fence (.swap .x86) => "mfence"
  | fence (.swap .bench) => "f"
  | fence (.swap .armv5) => "mcr"
  | fence (.pair _) => "dmb"
  | swap .x86 _ => "xchg"
  | swap .bench _ => "s"
  | swap .armv5 w => "swp" ++ sizeLetter w
  | loadExclusive .armv7 w => "ldrex" ++ sizeLetter w
  | loadExclusive .aarch64 w => "ldaxr" ++ sizeLetter w
  | storeExclusive .armv7 w => "strex" ++ sizeLetter w
  | storeExclusive .aarch64 w => "stlxr" ++ sizeLetter w
  | clearExclusive => "clrex"
  | lineMask true => "d1"
  | lineMask false => "d0"
  | lineRestore true => "e1"
  | lineRestore false => "e0"
  | readCpsr => "mrs"
  | writeCpsr => "msr"
  | readDaif => "daif"
  | setDaif => "daifset"
  | clearDaif => "daifclr"
  | readFlagIF => "rflags"
  | cli => "cli"
  | sti => "sti"
  | primitive .load => "l"
  | primitive .store => "w"
  | primitive .exchange => "x"
  | primitive .compareExchange => "c"
  | primitive .fetchAdd => "a"
  | primitive .testSetLock => "t"
  | primitive .privilegedStore => "p"

end Event

end Atomicity
