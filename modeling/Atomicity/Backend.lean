import Atomicity.Capability
import Atomicity.Interrupts

/-!
# Backends

A `Backend` is a way to make operations on words atomic.

- `native` has an instruction for each operation: swap, compare-and-swap and fetch-and-add.
- `traced` and `casOnly` announce every operation and then do as `native` does. `casOnly` has no
  fetch-and-add of its own.
- `pair` repeats a load-exclusive and a store-exclusive until the store succeeds.
- `singleCore` has one instruction, a swap. What that cannot do is done with interrupts masked,
  which excludes nobody but the handlers of the same core.
- `globalLock` does everything under one lock, with interrupts masked. Of its base it takes the
  fence and the widths, so bases may be nested.

This module has what is known of a backend without running it. Its programs are in the modules below
this one.

Main fact: `table_consistent`, that no backend claims a native width that it does not provide.
-/

namespace Atomicity

/-- A way to make operations atomic. -/
inductive Backend where
  | native
  | traced
  | casOnly
  | pair (isa : PairIsa)
  | singleCore (controller : Controller) (isa : SwapIsa) (widths : WidthSet)
  | globalLock (controller : Controller) (base : Backend)
  deriving DecidableEq, Repr

/-- The strategies that backends follow. -/
inductive Strategy where
  | nativeCas
  | exclusivePair
  | singleCore
  | globalLock
  deriving DecidableEq, Repr

def Strategy.name : Strategy → String
  | nativeCas => "NativeCas"
  | exclusivePair => "ExclusivePair"
  | singleCore => "SingleCore"
  | globalLock => "GlobalLock"

namespace Backend

/-- The name for a reader. -/
def name : Backend → String
  | native => "x86 native cmpxchg/xadd"
  | traced => "traced"
  | casOnly => "casonly"
  | pair .armv7 => "armv7 ldrex/strex"
  | pair .aarch64 => "arm64 ldaxr/stlxr"
  | singleCore .. => "single-core swap with interrupt masking"
  | globalLock .. => "global atomic lock"

def strategy : Backend → Strategy
  | native | traced => .nativeCas
  | casOnly | pair _ => .exclusivePair
  | singleCore .. => .singleCore
  | globalLock .. => .globalLock

/-- The widths of a backend, which are those of its CPU however wide a machine word is. So a backend
of a 32-bit ARM has none of 64 bits, and in the build that is modelled none for the word of a
lock. -/
def table : Backend → WidthTable
  | native | traced => .native .full
  | casOnly => ⟨.ofWidths [.w8, .w64], .full⟩
  | pair .armv7 => .native (.ofWidths [.w8, .w16, .w32])
  | pair .aarch64 => .native .full
  | singleCore _ _ widths => .native widths
  | globalLock _ base => base.table.behindGlobalLock

/-- The controller that masks interrupts for a backend's locks. -/
def controller : Backend → Controller
  | native => .x86
  | traced | casOnly => .line
  | pair .armv7 => .arm
  | pair .aarch64 => .aarch64
  | singleCore c _ _ => c
  | globalLock c _ => c

/-- The CPU whose fence a backend uses. -/
def barrier : Backend → Isa
  | native => .swap .x86
  | traced | casOnly => .swap .bench
  | pair isa => .pair isa
  | singleCore _ isa _ => .swap isa
  | globalLock _ base => base.barrier

/-- Nothing is ever seen of an attempt to take a lock on this backend. -/
def unseen : Backend → Bool
  | native => true
  | traced | casOnly | pair _ => false
  | singleCore _ isa _ => isa == .x86
  | globalLock c base => c.unseen && base.barrier == .swap .x86

/-- Operands of this width are native. -/
def isLockFree (b : Backend) (w : Width) : Bool := b.table.lockFree.has w

/-- Operands of this width are provided. -/
def implements (b : Backend) (w : Width) : Bool := b.table.implemented.has w

/-- A full fence. -/
def fence (b : Backend) : Prog Unit := Prog.perform (.fence b.barrier)

/-- No backend claims a native width that it does not provide. -/
theorem table_consistent (b : Backend) : b.table.consistent = true := by
  induction b with
  | native => decide
  | traced => decide
  | casOnly => decide
  | pair isa => cases isa <;> decide
  | singleCore _ _ widths => exact widths.contains_self
  | globalLock _ base =>
    simp [table, WidthTable.behindGlobalLock, WidthTable.consistent, WidthSet.contains,
      WidthSet.inter, WidthSet.empty]

end Backend

end Atomicity
