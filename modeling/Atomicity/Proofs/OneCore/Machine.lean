import Atomicity.Interrupts
import Atomicity.Proofs.Context

/-!
# One core and its interrupts

A machine with one core. One context is `running`, and the contexts that have been interrupted wait
below it. A handler can be started just before any instruction of the running context, and between
two of its requests, whenever the controller's flag says that interrupts are enabled; it begins with
interrupts masked or enabled, as the interrupt would have it, and can be interrupted in turn. It
runs to completion: the context below goes on when the handler has nothing left to do, and then the
flag is put back to enabled.

What taking the simulated core and giving it up consist of is not interrupted in between: for that
controller, too, to mask interrupts and to enable them is one step.

`OneCore.run` follows any list of choices, and a choice that is not open is passed over, so every
list is a run and every beginning of it is one. A context goes by its depth. `history` is what can
be seen of all contexts, first moment first.
-/

namespace Atomicity

/-- A handler may be started just before the instruction. -/
def Instr.preemptible : Instr → Bool
  | claimCore => false
  | setMasked _ => false
  | disownCore => false
  | _ => true

/-- The state with the flag of a controller put to enabled or masked. To mask interrupts on the
simulated core is to own it. -/
def Controller.putEnabled (c : Controller) (b : Bool) (s : State) : State :=
  match c with
  | line => { s with core := { s.core with lineEnabled := b } }
  | hosted =>
    { core := { s.core with masked := !b }, shared := { s.shared with coreOwned := !b } }
  | arm =>
    let cpsr := s.core.cpsr
    { s with core := { s.core with
        cpsr := if b then cpsr &&& ~~~Core.maskBit else cpsr ||| Core.maskBit } }
  | aarch64 => { s with core := { s.core with daif := !b } }
  | x86 => { s with core := { s.core with flagIF := b } }

/-- The context is where a handler may be started: between two requests, or before an
instruction. -/
def Context.interruptible {S : Service} (c : Context S) : Bool :=
  match c.current with
  | none => true
  | some p => p.next?.any Instr.preemptible

/-- One core in the middle of its work. -/
structure OneCore (S : Service) where
  state : State
  running : Context S
  /-- The contexts that have been interrupted, last one first. -/
  interrupted : List (Context S)
  /-- What has been seen of all contexts, first moment first. -/
  history : List (Moment S Nat)

namespace OneCore

variable {S : Service}

inductive Choice (S : Service) where
  /-- The running context goes on. Its instruction is refused, if it can be. -/
  | go (refused : Bool)
  /-- A handler with requests of its own is started, with interrupts masked or not. -/
  | interrupt (masked : Bool) (todo : List S.Request)

/-- A core about to run its first context. -/
def start (s : State) (todo : List S.Request) : OneCore S := ⟨s, .start todo, [], []⟩

def depth (x : OneCore S) : Nat := x.interrupted.length

/-- The running context goes on, or, if it is done, the one that it interrupted does. -/
def go (c : Controller) (refused : Bool) (x : OneCore S) : OneCore S :=
  match x.running.isDone, x.interrupted with
  | true, [] => x
  | true, below :: rest =>
    { x with state := c.putEnabled true x.state, running := below, interrupted := rest }
  | false, _ =>
    let out := x.running.step refused x.state
    { x with
      state := out.2
      running := out.1
      history := x.history ++ (x.running.moment? x.depth).toList }

def interrupt (c : Controller) (masked : Bool) (todo : List S.Request) (x : OneCore S) :
    OneCore S :=
  if c.enabled x.state.core && x.running.interruptible then
    { x with
      state := c.putEnabled (!masked) x.state
      running := .start todo
      interrupted := x.running :: x.interrupted }
  else x

def step (c : Controller) (x : OneCore S) : Choice S → OneCore S
  | .go refused => x.go c refused
  | .interrupt masked todo => x.interrupt c masked todo

def run (c : Controller) (x : OneCore S) (choices : List (Choice S)) : OneCore S :=
  choices.foldl (step c) x

/-- Nothing is left to do, and nothing has been interrupted. -/
def isDone (x : OneCore S) : Bool := x.running.isDone && x.interrupted.isEmpty

def contexts (x : OneCore S) : List (Context S) := x.running :: x.interrupted

end OneCore

end Atomicity
