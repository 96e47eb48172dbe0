import Atomicity.Program

/-!
# Interrupt controllers

A `Controller` masks the interrupts of its context and restores what was there. `disable` answers
whether interrupts were enabled before, and `enableIf` takes that answer back: with `true` it
enables interrupts, and with `false` it executes nothing that changes them.

- `line` is one flag, and both programs are one instruction on it, which is seen also when it
  changes nothing.
- `hosted` is the controller of threads that take turns on one simulated core. To mask interrupts is
  to own the core, so a thread waits until nobody else owns it; it owns the core before it notes
  that it is masked, and unmasks itself before it gives the core up.
- `arm` reads the status register and writes it back with one bit changed.
- `aarch64` and `x86` have an instruction for each direction and read the flag before they mask.
-/

namespace Atomicity

/-- A way to mask interrupts. -/
inductive Controller where
  | line
  | hosted
  | arm
  | aarch64
  | x86
  deriving DecidableEq, Repr

namespace Controller

open Prog

/-- Masks interrupts, and answers whether they were enabled. -/
def disable : Controller → Prog Bool
  | line => perform .lineMask
  | hosted => do
    let masked ← perform .isMasked
    if masked then
      return false
    else
      untilTrue (perform .claimCore)
      perform (.setMasked true)
      return true
  | arm => do
    let cpsr ← perform .readCpsr
    perform (.writeCpsr (cpsr ||| Core.maskBit))
    return cpsr &&& Core.maskBit == 0
  | aarch64 => do
    let masked ← perform .readDaif
    perform .setDaif
    return !masked
  | x86 => do
    let enabled ← perform .readFlagIF
    perform .cli
    return enabled

/-- Enables interrupts if they were enabled before the matching `disable`. -/
def enableIf : Controller → Bool → Prog Unit
  | line, b => perform (.lineRestore b)
  | _, false => return ()
  | hosted, true => do
    perform (.setMasked false)
    perform .disownCore
  | arm, true => do
    let cpsr ← perform .readCpsr
    perform (.writeCpsr (cpsr &&& ~~~Core.maskBit))
  | aarch64, true => perform .clearDaif
  | x86, true => perform .sti

/-- Whether the state of a context says that its interrupts are enabled. -/
def enabled : Controller → Core → Bool
  | line, c => c.lineEnabled
  | hosted, c => !c.masked
  | arm, c => c.cpsr &&& Core.maskBit == 0
  | aarch64, c => !c.daif
  | x86, c => c.flagIF

/-- Nothing is ever seen of the controller. -/
def unseen : Controller → Bool
  | hosted => true
  | _ => false

/-- Runs a program with interrupts masked, and gives them back as they were. -/
def masking {α : Type} (c : Controller) (p : Prog α) : Prog α := do
  let wasEnabled ← c.disable
  let a ← p
  c.enableIf wasEnabled
  return a

end Controller

end Atomicity
