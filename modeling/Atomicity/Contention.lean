import Atomicity.Atomic
import Atomicity.Flag
import Atomicity.Lock.Spin
import Atomicity.Program.Solo

/-!
# Contention

What threads see that all do the same kind of call on one fresh target, so many rounds each. A
`Workload` names the kind of call; `Workload.call` is the program of one call, which answers a
number, and `Workload.measure` runs all the calls.

The numbers are reported sorted, and every operation is atomic, so it does not matter in which order
the calls of different threads come. `measure` has each thread do all its rounds before the next
begins.
-/

namespace Atomicity

/-- The kinds of call. -/
inductive Workload where
  /-- Each round exchanges a value of its own into a machine word that starts at zero. -/
  | exchange
  /-- Adds `k` to 16 unsigned bits that start at zero. -/
  | fetchAdd
  /-- Subtracts `k` from 32 signed bits that start at zero. -/
  | subFetch
  /-- Sets one bit of 64, another in each round. -/
  | fetchOr
  /-- Sets a lock word. -/
  | testSetLock
  /-- Sets a flag. -/
  | flag
  /-- Multiplies 32 unsigned bits that start at one by `k`. -/
  | fetchUpdate
  /-- Exclusive-ors `k` into 8 unsigned bits that start at zero. -/
  | fetchXor
  /-- Adds `k` to a counter of 64 bits under a raw lock. -/
  | rawLock
  /-- Adds `k` to the counter of 64 bits that a spin lock guards. -/
  | spinLock
  deriving DecidableEq, Repr

/-- The results of all calls in increasing order, and the state that they leave. -/
structure Measurement where
  results : List Nat
  state : State

namespace Workload

open Prog

/-- The target of every workload but the last two. -/
private def target : Addr := .cell 0

/-- The counter under a lock. -/
private def counter : Addr := .guarded 0

/-- The raw lock of the workload that has one. -/
def rawLockTarget : RawLock := ⟨target⟩

/-- The spin lock of the workload that has one. -/
private def spinLockTarget (b : Backend) : SpinLock (.unsigned .w64) := ⟨b, ⟨target⟩, counter⟩

/-- Whether something was found clear, as a number. -/
private def winner (clear : Bool) : Nat := if clear then 1 else 0

/-- One call by a thread in a round. -/
def call (b : Backend) (k thread round : Nat) : Workload → Prog Nat
  | exchange => do
    let old ← b.exchange .w64 target (BitVec.ofNat _ ((thread + 1) * k + round))
    return old.toNat
  | fetchAdd => do
    let old ← b.fetch .add .w16 target (BitVec.ofNat _ k)
    return old.toNat
  | subFetch => do
    let new ← b.fetchNew .sub .w32 target (BitVec.ofNat _ k)
    return new.toNat
  | fetchOr => do
    let bit : Word .w64 := BitVec.twoPow _ (round * k % 64)
    let old ← b.fetch .or .w64 target bit
    return winner (old &&& bit == 0)
  | testSetLock => do
    let old ← b.testSetLock target 1
    return winner (old == 0)
  | flag => do
    let set ← Flag.testAndSet ⟨b, target⟩
    return winner (!set)
  | fetchUpdate => do
    let old ← b.fetchApply .w32 target (· * BitVec.ofNat _ k)
    return old.toNat
  | fetchXor => do
    let old ← b.fetch .xor .w8 target (BitVec.ofNat _ k)
    return old.toNat
  | rawLock => do
    rawLockTarget.acquire b
    let old ← perform (.read .w64 counter)
    let new : Word .w64 := old + BitVec.ofNat _ k
    perform (.write .w64 counter new)
    rawLockTarget.release b
    return new.toNat
  | spinLock => do
    let l := spinLockTarget b
    let guard ← l.acquire
    let old : IntType.machineWord.Value ← l.value
    let new := IntType.Value.wrap .machineWord (old.val + k)
    l.setValue new
    l.unlock guard
    return new.val.toNat

/-- The state that the calls begin in. -/
def before (w : Workload) : State :=
  let s := State.start true true
  match w with
  | fetchUpdate => s.write .w32 target 1
  | _ => s

/-- All rounds of all threads on one target. -/
def measure (w : Workload) (b : Backend) (threads rounds k : Nat) : Measurement :=
  let calls := (List.range threads).flatMap fun t => (List.range rounds).map fun r => (t, r)
  let (s, results) := calls.foldl
    (fun (s, results) (t, r) =>
      let c := (w.call b k t r).alone s
      (c.state, match c.result? with
        | some n => n :: results
        | none => results))
    (w.before, [])
  ⟨results.mergeSort, s⟩

end Workload

namespace Measurement

/-- How many calls answered one. -/
def winners (m : Measurement) : Nat := m.results.count 1

/-- What is left in a target of the given type. -/
def remaining (m : Measurement) (k : IntType) : k.Value := .ofBits (m.state.read k.width (.cell 0))

/-- What is left in the counter under a lock. -/
def counted (m : Measurement) : Word .w64 := m.state.read .w64 (.guarded 0)

/-- The results and the value left, in increasing order. -/
def resultsAndRest (m : Measurement) (k : IntType) : List Nat :=
  ((m.remaining k).val.toNat :: m.results).mergeSort

end Measurement

end Atomicity
