import Atomicity.Fetch
import Atomicity.Proofs.Context

/-!
# Operations

The operations on words as values, so that a run can be given any list of them. `Operation.prog` is
the program of an operation on a backend, and `Operation.effect` is what it does to memory when it
is done all at once: every operation but the two on lock words and the compare-and-exchange is a
read, a write, or a read whose result is combined and written back (`Effect.replace`).

`Backend.service` offers all operations on words other than the word of the global lock, which
belongs to the backends themselves.
-/

namespace Atomicity

/-- What is done to memory all at once, and what is answered. -/
abbrev Effect (α : Type) : Type := Memory → α × Memory

namespace Effect

def load (w : Width) (a : Addr) : Effect (Word w) := fun m => (m.read w a, m)

def store (w : Width) (a : Addr) (v : Word w) : Effect Unit := fun m => ((), m.write w a v)

/-- Replaces a word by its image under a function, and answers what was there. -/
def replace (w : Width) (a : Addr) (f : Word w → Word w) : Effect (Word w) :=
  fun m => (m.read w a, m.write w a (f (m.read w a)))

/-- Replaces a word if it is the one expected. -/
def compareExchange (w : Width) (a : Addr) (expected desired : Word w) :
    Effect (Comparison (Word w)) :=
  fun m =>
    if m.read w a = expected then (⟨true, expected⟩, m.write w a desired)
    else (⟨false, m.read w a⟩, m)

end Effect

inductive Operation where
  | load (w : Width) (a : Addr)
  | store (w : Width) (a : Addr) (v : Word w)
  | exchange (w : Width) (a : Addr) (v : Word w)
  | compareExchange (w : Width) (a : Addr) (expected desired : Word w)
  /-- Combines with an operand and answers the word before. -/
  | fetch (op : FetchOp) (w : Width) (a : Addr) (v : Word w)
  /-- Combines with an operand and answers the new word. -/
  | fetchNew (op : FetchOp) (w : Width) (a : Addr) (v : Word w)
  /-- Replaces by the image under any function, and answers the word before. -/
  | update (w : Width) (a : Addr) (f : Word w → Word w)
  | testSetLock (a : Addr) (v : Word .w64)
  | privilegedStore (a : Addr) (v : Word .w64)

namespace Operation

def addr : Operation → Addr
  | load _ a => a
  | store _ a _ => a
  | exchange _ a _ => a
  | compareExchange _ a _ _ => a
  | fetch _ _ a _ => a
  | fetchNew _ _ a _ => a
  | update _ a _ => a
  | testSetLock a _ => a
  | privilegedStore a _ => a

/-- The type of what an operation answers. -/
abbrev Answer : Operation → Type
  | load w _ => Word w
  | store .. => Unit
  | exchange w _ _ => Word w
  | compareExchange w _ _ _ => Comparison (Word w)
  | fetch _ w _ _ => Word w
  | fetchNew _ w _ _ => Word w
  | update w _ _ => Word w
  | testSetLock .. => Word .w64
  | privilegedStore .. => Unit

def prog (b : Backend) : (o : Operation) → Prog o.Answer
  | load w a => b.load w a
  | store w a v => b.store w a v
  | exchange w a v => b.exchange w a v
  | compareExchange w a expected desired => b.compareExchange w a expected desired
  | fetch op w a v => b.fetch op w a v
  | fetchNew op w a v => b.fetchNew op w a v
  | update w a f => b.fetchApply w a f
  | testSetLock a v => b.testSetLock a v
  | privilegedStore a v => b.privilegedStore a v

/-- What an operation does, done all at once. -/
def effect : (o : Operation) → Effect o.Answer
  | load w a => .load w a
  | store w a v => .store w a v
  | exchange w a v => .replace w a fun _ => v
  | compareExchange w a expected desired => .compareExchange w a expected desired
  | fetch op w a v => .replace w a (op.combine · v)
  | fetchNew op w a v => fun m =>
    (op.combine (m.read w a) v, m.write w a (op.combine (m.read w a) v))
  | update w a f => .replace w a f
  | testSetLock a v => .replace .w64 a fun _ => v
  | privilegedStore a v => .store .w64 a v

end Operation

/-- All operations on a backend, on words that are not the backend's own. -/
def Backend.service (b : Backend) : Service where
  Request := { o : Operation // o.addr ≠ .globalLock }
  Answer o := o.1.Answer
  prog o := o.1.prog b

end Atomicity
