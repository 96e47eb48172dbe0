import Atomicity.Atomic
import Atomicity.Flag
import Atomicity.Lock.Spin
import Atomicity.Program.Solo
import Atomicity.Scalar.Format
import Atomicity.Startup

/-!
# Sessions

A session is one context that performs one `Step` after another on cells, flags and locks, each
under an interference of its own. `Session.perform` is one step: it runs the program of the step and
answers with what was seen meanwhile.

Between steps a session keeps the state of the machine and the live guards of its spin locks, by the
lock and a name. A step on a guard that is not live is refused, and so is one that needs a spin lock
to itself while a guard of it is live.

A step may not come to an answer: it has used its budget up, or it waits for a lock that is held. On
a backend where nothing would be seen of the waiting, a step that would wait is not begun. Whoever
waits, waits for ever, and the session ends there.

What a step answers is an `Answer`, and `Object.shown` is what can be read off an object in a state.
-/

namespace Atomicity

/-- An operation on a cell of type `t`. -/
inductive CellOp (t : Scalar) where
  | load
  | store (v : t.Value)
  | exchange (v : t.Value)
  | compareExchange (expected desired : t.Value)
  /-- Replaces the value by its image under a function of the value alone, and answers the value
  before with the arguments that the function was called with. A function that keeps a state of its
  own or performs operations is an argument of `Atomic.fetchUpdate`, of which this is a case. -/
  | fetchUpdate (f : t.Value → t.Value)
  | isLockFree
  /-- Writes plainly and answers the value before. -/
  | replace (v : t.Value)
  /-- Takes the value out; the cell goes on with it. -/
  | inner
  /-- Writes the value down in a layout. -/
  | write (l : Layout)

/-- An operation on a bare word. -/
inductive WordOp (w : Width) where
  | load
  | store (v : Word w)
  | exchange (v : Word w)
  | compareExchange (expected desired : Word w)
  | fetch (op : FetchOp) (v : Word w)
  | fetchNew (op : FetchOp) (v : Word w)
  | casFetchAdd (v : Word w)
  /-- Replaces the word by its image under a function of the word alone, as `CellOp.fetchUpdate`
  does. -/
  | fetchUpdate (f : Word w → Word w)
  | isLockFree

inductive FlagOp where
  | testAndSet
  | clear
  | isSet

inductive RawOp where
  | acquire
  | tryAcquire
  | release
  | isLocked

/-- An operation on a spin lock. Guards go by name. -/
inductive SpinOp (t : Scalar) where
  | acquire (guard : String)
  | tryAcquire (guard : String)
  | acquireMasked (guard : String)
  | unlock (guard : String)
  /-- The guard goes, and the lock stays held. -/
  | forget (guard : String)
  | value (guard : String)
  | setValue (guard : String) (v : t.Value)
  | isLocked
  | replace (v : t.Value)
  | renew
  /-- A critical section that writes and is left early; waits if the lock is seen held. -/
  | brief (masked : Bool) (v : t.Value)

/-- One step of a session. -/
inductive Step where
  | cell {t : Scalar} (c : Atomic t) (op : CellOp t)
  /-- Combines an integer with an operand and answers the value before. -/
  | fetch {k : IntType} (c : Atomic (.int k)) (op : FetchOp) (v : k.Value)
  /-- Combines an integer with an operand and answers the new value. -/
  | fetchNew {k : IntType} (c : Atomic (.int k)) (op : FetchOp) (v : k.Value)
  /-- Replaces a machine word as the word of a lock. -/
  | testSetLock (c : Atomic (.int .machineWord)) (v : IntType.machineWord.Value)
  | word (b : Backend) {w : Width} (a : Addr) (op : WordOp w)
  | swapLockWord (b : Backend) (a : Addr) (v : Word .w64)
  | storeLockWord (b : Backend) (a : Addr) (v : Word .w64)
  | flag (f : Flag) (op : FlagOp)
  | raw (l : RawLock) (b : Backend) (op : RawOp)
  | spin {t : Scalar} (l : SpinLock t) (op : SpinOp t)
  | fence (b : Backend)
  | disable (c : Controller)
  | enableIf (c : Controller) (b : Bool)

/-- What a step answers. -/
inductive Answer where
  | done
  | truth (b : Bool)
  | value {t : Scalar} (v : t.Value)
  | compared {t : Scalar} (outcome : Comparison t.Value)
  /-- The value replaced, and every value that the function was called with. -/
  | updated {t : Scalar} (previous : t.Value) (arguments : List t.Value)
  | text (s : String)

/-- Why a step cannot be performed. -/
inductive Refusal where
  /-- There is no live guard of that name. -/
  | noGuard (name : String)
  /-- A guard of the lock is live. -/
  | borrowed
  deriving DecidableEq, Repr

/-- A live guard, by its lock and its name. -/
structure LiveGuard where
  lock : RawLock
  name : String
  guard : Guard
  deriving DecidableEq, Repr

/-- The live guards, the last one taken first. -/
abbrev LiveGuards := List LiveGuard

/-- The machine and the live guards. -/
structure Session where
  state : State
  guards : LiveGuards

/-- What came of a step. -/
structure Outcome where
  /-- The answer, unless the step waits. -/
  answer : Option Answer
  /-- What was seen, first event first. -/
  events : List Event
  session : Session

namespace LiveGuards

def find? (gs : LiveGuards) (l : RawLock) (name : String) : Option Guard :=
  (List.find? (fun g => g.lock = l && g.name = name) gs).map LiveGuard.guard

def remove (gs : LiveGuards) (l : RawLock) (name : String) : LiveGuards :=
  gs.filter fun g => !(g.lock = l && g.name = name)

def insert (gs : LiveGuards) (l : RawLock) (name : String) (g : Guard) : LiveGuards :=
  ⟨l, name, g⟩ :: gs.remove l name

/-- Some guard of the lock is live. -/
def borrows (gs : LiveGuards) (l : RawLock) : Bool := gs.any fun g => g.lock = l

end LiveGuards

namespace Answer

/-- A word as an unsigned number. -/
def word {w : Width} (v : Word w) : Answer := .value (.ofRepr v : (Scalar.unsigned w).Value)

end Answer

/-- A function that lists what it is called with. -/
def listing {α : Type} (f : α → α) (calls : List α) (x : α) : Prog (α × List α) :=
  return (f x, calls ++ [x])

/-- The program of an operation on a cell. -/
def CellOp.prog {t : Scalar} (c : Atomic t) : CellOp t → Prog Answer
  | load => return .value (← c.load)
  | store v => do
    c.store v
    return .done
  | exchange v => return .value (← c.exchange v)
  | compareExchange expected desired => return .compared (← c.compareExchange expected desired)
  | fetchUpdate f => do
    let (previous, calls) ← c.fetchUpdate (listing f) []
    return .updated previous calls
  | isLockFree => return .truth c.isLockFree
  | replace v => return .value (← c.replace v)
  | inner => return .value (← c.inner)
  | write l => return .text (l.write (← c.load))

/-- The program of an operation on a bare word. -/
def WordOp.prog (b : Backend) {w : Width} (a : Addr) : WordOp w → Prog Answer
  | load => return .word (← b.load w a)
  | store v => do
    b.store w a v
    return .done
  | exchange v => return .word (← b.exchange w a v)
  | compareExchange expected desired => do
    let outcome ← b.compareExchange w a expected desired
    return .compared (⟨outcome.swapped, .ofRepr outcome.expected⟩ :
      Comparison (Scalar.unsigned w).Value)
  | fetch op v => return .word (← b.fetch op w a v)
  | fetchNew op v => return .word (← b.fetchNew op w a v)
  | casFetchAdd v => return .word (← b.casFetchAdd w a v)
  | fetchUpdate f => do
    let (previous, calls) ← b.fetchUpdate w a (listing f) []
    return .updated (.ofRepr previous : (Scalar.unsigned w).Value) (calls.map .ofRepr)
  | isLockFree => return .truth (b.isLockFree w)

/-- The program of an operation on a flag. -/
def FlagOp.prog (f : Flag) : FlagOp → Prog Answer
  | testAndSet => return .truth (← f.testAndSet)
  | clear => do
    f.clear
    return .done
  | isSet => return .truth (← f.isSet)

/-- The program of an operation on a raw lock. -/
def RawOp.prog (l : RawLock) (b : Backend) : RawOp → Prog Answer
  | acquire => do
    l.acquire b
    return .done
  | tryAcquire => return .truth (← l.tryAcquire b)
  | release => do
    l.release b
    return .done
  | isLocked => return .truth (← l.isLocked b)

/-- Why an operation on a spin lock cannot be performed while these guards are live. -/
def SpinOp.refusal? {t : Scalar} (l : SpinLock t) (gs : LiveGuards) : SpinOp t → Option Refusal
  | unlock name | forget name | value name | setValue name _ =>
    if (gs.find? l.lock name).isNone then some (.noGuard name) else none
  | replace _ | renew => if gs.borrows l.lock then some .borrowed else none
  | _ => none

/-- The program of an operation on a spin lock: its answer, unless it gives up waiting, and the
guards that are live after it. -/
def SpinOp.prog {t : Scalar} (l : SpinLock t) (gs : LiveGuards) :
    SpinOp t → Prog (Option Answer × LiveGuards)
  | acquire name => do
    let g ← l.acquire
    return (some .done, gs.insert l.lock name g)
  | tryAcquire name => do
    match ← l.tryAcquire with
    | some g => return (some (.truth true), gs.insert l.lock name g)
    | none => return (some (.truth false), gs)
  | acquireMasked name => do
    let g ← l.acquireMasked
    return (some .done, gs.insert l.lock name g)
  | unlock name =>
    match gs.find? l.lock name with
    | none => return (none, gs)
    | some g => do
      l.unlock g
      return (some .done, gs.remove l.lock name)
  | forget name => return (some .done, gs.remove l.lock name)
  | value _ => do
    let v ← l.value
    return (some (.value v), gs)
  | setValue _ v => do
    l.setValue v
    return (some .done, gs)
  | isLocked => do
    let b ← l.isLocked
    return (some (.truth b), gs)
  | replace v => do
    let previous ← l.replace v
    return (some (.value previous), gs)
  | renew => do
    let v ← l.renew
    return (some (.value v), gs)
  | brief masked v => do
    let held ← l.isLocked
    if held then
      return (none, gs)
    else
      l.brief masked v
      return (some (.truth true), gs)

namespace Step

/-- Why a step cannot be performed while these guards are live. -/
def refusal? (gs : LiveGuards) : Step → Option Refusal
  | spin l op => op.refusal? l gs
  | _ => none

/-- The program of a step on anything but a spin lock. -/
def answering : Step → Prog Answer
  | cell c op => op.prog c
  | fetch c op v => do
    let x : Scalar.Value (.int _) ← c.fetch op v
    return .value x
  | fetchNew c op v => do
    let x : Scalar.Value (.int _) ← c.fetchNew op v
    return .value x
  | testSetLock c v => do
    let x : Scalar.Value (.int _) ← c.testSetLock v
    return .value x
  | word b a op => op.prog b a
  | swapLockWord b a v => return .word (← b.testSetLock a v)
  | storeLockWord b a v => do
    b.privilegedStore a v
    return .done
  | flag f op => op.prog f
  | raw l b op => op.prog l b
  | spin .. => return .done
  | fence b => do
    b.fence
    return .done
  | disable c => return .truth (← c.disable)
  | enableIf c b => do
    c.enableIf b
    return .done

/-- The program of a step: its answer, unless it gives up waiting, and the guards that are live
after it. -/
def prog (gs : LiveGuards) : Step → Prog (Option Answer × LiveGuards)
  | spin l op => op.prog l gs
  | st => do
    let a ← st.answering
    return (some a, gs)

/-- The lock that a step waits for, and the backend that it waits on. -/
def awaits : Step → Option (RawLock × Backend)
  | raw l b .acquire => some (l, b)
  | spin l (.acquire _) => some (l.lock, l.backend)
  | spin l (.acquireMasked _) => some (l.lock, l.backend)
  | _ => none

/-- In this state the step would wait, and nothing would be seen of it. -/
def waitsUnseen (st : Step) (s : State) : Bool :=
  st.awaits.any fun (l, b) => b.unseen && l.heldIn s

end Step

namespace Session

/-- A session about to begin. -/
def start (s : State) : Session := ⟨s, []⟩

/-- One step under interference. -/
def perform (σ : Session) (x : Interference) (st : Step) : Except Refusal Outcome :=
  match st.refusal? σ.guards with
  | some r => .error r
  | none =>
    if st.waitsUnseen σ.state then .ok ⟨none, [], σ⟩
    else
      let c := (st.prog σ.guards).solo x σ.state
      match c.result? with
      | none => .ok ⟨none, c.events, ⟨c.state, σ.guards⟩⟩
      | some (answer, guards) => .ok ⟨answer, c.events, ⟨c.state, guards⟩⟩

/-- The steps one after another, up to the first that waits. -/
def run (σ : Session) : List (Step × Interference) → Except Refusal (List Outcome)
  | [] => return []
  | (st, x) :: rest => do
    let o ← σ.perform x st
    match o.answer with
    | none => return [o]
    | some _ => return o :: (← o.session.run rest)

end Session

/-- What a session works on. -/
inductive Object where
  | cell {t : Scalar} (c : Atomic t)
  | word (b : Backend) (w : Width) (a : Addr)
  | flag (f : Flag)
  | raw (l : RawLock) (b : Backend)
  | spin {t : Scalar} (l : SpinLock t)

namespace Object

/-- The word of an object that foreign writes may hit; a spin lock has none. -/
def exposed : Object → Option (Width × Addr)
  | cell (t := t) c => some (t.width, c.addr)
  | word _ w a => some (w, a)
  | flag f => some (.w64, f.word)
  | raw l _ => some (.w64, l.word)
  | spin _ => none

/-- The value that can be read off an object in a state; a spin lock shows none. -/
def shown (s : State) : Object → Option Answer
  | cell c => some (.value (c.peek s))
  | word _ w a => some (.word (s.read w a))
  | flag f => some (.word (s.read .w64 f.word))
  | raw l _ => some (.word (s.read .w64 l.word))
  | spin _ => none

end Object

end Atomicity
