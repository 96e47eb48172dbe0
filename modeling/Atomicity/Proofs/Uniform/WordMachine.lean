import Atomicity.Proofs.Operation
import Atomicity.Session

/-!
# The machine of words

The machine that sessions are measured against. It knows no backend, no instruction and no
interrupt: memory is one word at every address, and a `Request` does to a word what the textbook
says, all at once (`Request.effect`). A value of some type is a reading of the word that represents
it, so views of one word under several types are requests at one address.

A `Request` is what is left of a step of a session when its backend is taken away (`Step.request`).
Two steps with one request differ in their backends only. What a step answers is not promised if it
asks about the backend itself: whether operations are native, or what the interrupts were.

Taking a lock that is held is not refused: it waits, and alone it waits for ever. Guards of spin
locks go by lock and name.
-/

namespace Atomicity

/-! ## Effects -/

namespace Effect

variable {α β : Type}

/-- What is answered is made something of. -/
def map (g : α → β) (E : Effect α) : Effect β := fun m => (g (E m).1, (E m).2)

/-- One after another, with the answer of the second. -/
def andThen (E : Effect α) (E' : Effect β) : Effect β := fun m => E' (E m).2

/-- Nothing is done. -/
def skip (a : α) : Effect α := fun m => (a, m)

end Effect

/-- The operation on words, as the textbook has it. -/
def FetchOp.textbook {w : Width} (op : FetchOp) (x v : Word w) : Word w :=
  match op with
  | add => x + v
  | sub => x - v
  | and => x &&& v
  | or => x ||| v
  | xor => x ^^^ v

/-- Subtraction is addition of the negated operand. -/
theorem FetchOp.combine_eq {w : Width} (op : FetchOp) (x v : Word w) :
    op.combine x v = op.textbook x v := by
  cases op with
  | sub => exact (BitVec.sub_eq_add_neg x v).symm
  | _ => rfl

/-! ## Operations -/

/-- The answer of an operation on a cell is promised. -/
def CellOp.isPromised {t : Scalar} : CellOp t → Bool
  | isLockFree => false
  | _ => true

/-- What an operation on a cell does to its word, with the answer as far as it is promised. -/
def CellOp.effect {t : Scalar} (a : Addr) : CellOp t → Effect (Option Answer)
  | load => (Effect.load t.width a).map fun x => some (.value (.ofRepr x : t.Value))
  | store v => (Effect.store t.width a v.toRepr).map fun _ => some .done
  | exchange v =>
    (Effect.replace t.width a fun _ => v.toRepr).map fun x => some (.value (.ofRepr x : t.Value))
  | compareExchange expected desired =>
    (Effect.compareExchange t.width a expected.toRepr desired.toRepr).map fun o =>
      some (.compared (⟨o.swapped, .ofRepr o.expected⟩ : Comparison t.Value))
  | fetchUpdate f =>
    (Effect.replace t.width a fun x => (f (.ofRepr x)).toRepr).map fun x =>
      some (.updated (.ofRepr x : t.Value) [.ofRepr x])
  | isLockFree => .skip none
  | replace v =>
    (Effect.replace t.width a fun _ => v.toRepr).map fun x => some (.value (.ofRepr x : t.Value))
  | inner => (Effect.load t.width a).map fun x => some (.value (.ofRepr x : t.Value))
  | write l => (Effect.load t.width a).map fun x => some (.text (l.write (.ofRepr x : t.Value)))

/-- The answer of an operation on a bare word is promised. -/
def WordOp.isPromised {w : Width} : WordOp w → Bool
  | isLockFree => false
  | _ => true

/-- What an operation on a bare word does, with the answer as far as it is promised. -/
def WordOp.effect {w : Width} (a : Addr) : WordOp w → Effect (Option Answer)
  | load => (Effect.load w a).map fun x => some (.word x)
  | store v => (Effect.store w a v).map fun _ => some .done
  | exchange v => (Effect.replace w a fun _ => v).map fun x => some (.word x)
  | compareExchange expected desired => (Effect.compareExchange w a expected desired).map fun o =>
    some (.compared (⟨o.swapped, .ofRepr o.expected⟩ : Comparison (Scalar.unsigned w).Value))
  | fetch op v => (Effect.replace w a (op.textbook · v)).map fun x => some (.word x)
  | fetchNew op v =>
    (Effect.replace w a (op.textbook · v)).map fun x => some (.word (op.textbook x v))
  | casFetchAdd v => (Effect.replace w a (· + v)).map fun x => some (.word x)
  | fetchUpdate f => (Effect.replace w a f).map fun x =>
    some (.updated (.ofRepr x : (Scalar.unsigned w).Value) [.ofRepr x])
  | isLockFree => .skip none

/-- What an operation on a flag does. -/
def FlagOp.effect (a : Addr) : FlagOp → Effect Answer
  | testAndSet => (Effect.replace .w64 a fun _ => 1).map fun x => .truth (x != 0)
  | clear => (Effect.store .w64 a 0).map fun _ => .done
  | isSet => (Effect.load .w64 a).map fun x => .truth (x != 0)

/-- What an operation on a raw lock does. To take the lock presupposes that it is free. -/
def RawOp.effect (l : RawLock) : RawOp → Effect Answer
  | acquire => (Effect.store .w64 l.word 1).map fun _ => .done
  | tryAcquire => (Effect.replace .w64 l.word fun _ => 1).map fun x => .truth (x == 0)
  | release => (Effect.store .w64 l.word 0).map fun _ => .done
  | isLocked => (Effect.load .w64 l.word).map fun x => .truth (x != 0)

/-- What an operation on a spin lock does. To take the lock presupposes that it is free. -/
def SpinOp.effect {t : Scalar} (l : RawLock) (d : Addr) : SpinOp t → Effect Answer
  | acquire _ => (Effect.store .w64 l.word 1).map fun _ => .done
  | tryAcquire _ => (Effect.replace .w64 l.word fun _ => 1).map fun x => .truth (x == 0)
  | acquireMasked _ => (Effect.store .w64 l.word 1).map fun _ => .done
  | unlock _ => (Effect.store .w64 l.word 0).map fun _ => .done
  | forget _ => .skip .done
  | value _ => (Effect.load t.width d).map fun x => .value (.ofRepr x : t.Value)
  | setValue _ v => (Effect.store t.width d v.toRepr).map fun _ => .done
  | isLocked => (Effect.load .w64 l.word).map fun x => .truth (x != 0)
  | replace v =>
    (Effect.replace t.width d fun _ => v.toRepr).map fun x => .value (.ofRepr x : t.Value)
  | renew => fun m => (.value (.ofRepr (m.read t.width d) : t.Value), m.write .w64 l.word 0)
  | brief _ v =>
    ((Effect.store .w64 l.word 1).andThen (Effect.store t.width d v.toRepr)).andThen
      ((Effect.store .w64 l.word 0).map fun _ => .truth true)

/-- The live guards, by lock and name. -/
abbrev GuardNames := List (RawLock × String)

namespace GuardNames

def remove (gs : GuardNames) (l : RawLock) (name : String) : GuardNames := gs.filter (· ≠ (l, name))

def insert (gs : GuardNames) (l : RawLock) (name : String) : GuardNames :=
  (l, name) :: gs.remove l name

end GuardNames

/-- Why an operation on a spin lock cannot be performed while these guards are live. -/
def SpinOp.refused? {t : Scalar} (l : RawLock) (gs : GuardNames) : SpinOp t → Option Refusal
  | unlock name | forget name | value name | setValue name _ =>
    if (l, name) ∈ gs then none else some (.noGuard name)
  | replace _ | renew => if ∃ g ∈ gs, g.1 = l then some .borrowed else none
  | _ => none

/-- The guards that are live after an operation on a spin lock. -/
def SpinOp.guards {t : Scalar} (l : RawLock) (m : Memory) (gs : GuardNames) : SpinOp t → GuardNames
  | acquire name | acquireMasked name => gs.insert l name
  | tryAcquire name => if m.read .w64 l.word = 0 then gs.insert l name else gs
  | unlock name | forget name => gs.remove l name
  | _ => gs

/-! ## Requests -/

/-- What a step asks for, whatever backend it is asked of. -/
inductive Request where
  | cell {t : Scalar} (a : Addr) (op : CellOp t)
  | fetch {k : IntType} (a : Addr) (op : FetchOp) (v : k.Value)
  | fetchNew {k : IntType} (a : Addr) (op : FetchOp) (v : k.Value)
  | testSetLock (a : Addr) (v : IntType.machineWord.Value)
  | word {w : Width} (a : Addr) (op : WordOp w)
  | swapLockWord (a : Addr) (v : Word .w64)
  | storeLockWord (a : Addr) (v : Word .w64)
  | flag (a : Addr) (op : FlagOp)
  | raw (l : RawLock) (op : RawOp)
  | spin {t : Scalar} (l : RawLock) (d : Addr) (op : SpinOp t)
  | fence
  | disable
  | enableIf (b : Bool)

/-- The step without its backend. -/
def Step.request : Step → Request
  | cell c op => .cell c.addr op
  | fetch c op v => .fetch c.addr op v
  | fetchNew c op v => .fetchNew c.addr op v
  | testSetLock c v => .testSetLock c.addr v
  | word _ a op => .word a op
  | swapLockWord _ a v => .swapLockWord a v
  | storeLockWord _ a v => .storeLockWord a v
  | flag f op => .flag f.word op
  | raw l _ op => .raw l op
  | spin l op => .spin l.lock l.data op
  | fence _ => .fence
  | disable _ => .disable
  | enableIf _ b => .enableIf b

namespace Request

/-- The words of a request. -/
def addrs : Request → List Addr
  | cell a _ | fetch a _ _ | fetchNew a _ _ | testSetLock a _ | word a _ | swapLockWord a _
  | storeLockWord a _ | flag a _ => [a]
  | raw l _ => [l.word]
  | spin l d _ => [l.word, d]
  | fence | disable | enableIf _ => []

/-- The answer is promised: it does not ask about the backend itself. -/
def isPromised : Request → Bool
  | cell _ op => op.isPromised
  | word _ op => op.isPromised
  | disable => false
  | _ => true

/-- What a request does to memory, with the answer as far as it is promised. -/
def effect : Request → Effect (Option Answer)
  | cell a op => op.effect a
  | fetch (k := k) a op v => (Effect.replace k.width a (op.textbook · v.toBits)).map fun x =>
    some (.value (.ofRepr x : (Scalar.int k).Value))
  | fetchNew (k := k) a op v => (Effect.replace k.width a (op.textbook · v.toBits)).map fun x =>
    some (.value (.ofRepr (op.textbook x v.toBits) : (Scalar.int k).Value))
  | testSetLock a v => (Effect.replace .w64 a fun _ => v.toBits).map fun x =>
    some (.value (.ofRepr x : (Scalar.int .machineWord).Value))
  | word a op => op.effect a
  | swapLockWord a v => (Effect.replace .w64 a fun _ => v).map fun x => some (.word x)
  | storeLockWord a v => (Effect.store .w64 a v).map fun _ => some .done
  | flag a op => (op.effect a).map some
  | raw l op => (op.effect l).map some
  | spin l d op => (op.effect l d).map some
  | fence | enableIf _ => .skip (some .done)
  | disable => .skip none

/-- The lock that has to be free for the request. -/
def awaits : Request → Option RawLock
  | raw l .acquire => some l
  | spin l _ (.acquire _) | spin l _ (.acquireMasked _) | spin l _ (.brief ..) => some l
  | _ => none

/-- With that memory the request waits. -/
def waits (r : Request) (m : Memory) : Bool := r.awaits.any fun l => m.read .w64 l.word != 0

/-- Why a request cannot be performed while these guards are live. -/
def refused? (gs : GuardNames) : Request → Option Refusal
  | spin l _ op => op.refused? l gs
  | _ => none

/-- The guards that are live after a request. -/
def guards (m : Memory) (gs : GuardNames) : Request → GuardNames
  | spin l _ op => op.guards l m gs
  | _ => gs

end Request

/-! ## The machine -/

/-- What shows of a step: that it waits, or its answer, if that is promised, and memory after it. -/
inductive Observation where
  | waits
  | answered (a : Option Answer) (m : Memory)

/-- Memory and the live guards. -/
structure WordMachine where
  memory : Memory
  guards : GuardNames

namespace WordMachine

def start (m : Memory) : WordMachine := ⟨m, []⟩

/-- The machine after a request that does not wait. -/
def next (x : WordMachine) (r : Request) : WordMachine :=
  ⟨(r.effect x.memory).2, r.guards x.memory x.guards⟩

/-- What shows of a request. -/
def observe (x : WordMachine) (r : Request) : Except Refusal Observation :=
  match r.refused? x.guards with
  | some e => .error e
  | none =>
    if r.waits x.memory then .ok .waits
    else .ok (.answered (r.effect x.memory).1 (r.effect x.memory).2)

/-- What shows of one request after another, up to the first that waits. -/
def run (x : WordMachine) : List Request → Except Refusal (List Observation)
  | [] => return []
  | r :: rest => do
    match ← x.observe r with
    | .waits => return [.waits]
    | .answered a m => return .answered a m :: (← (x.next r).run rest)

end WordMachine

/-- What shows of a step of a session. -/
def Step.observe (st : Step) (o : Outcome) : Observation :=
  match o.answer with
  | none => .waits
  | some a =>
    .answered (if st.request.isPromised then some a else none) o.session.state.shared.memory

/-- What shows of a session that takes these steps without interference. -/
def observed (s : State) (steps : List Step) : Except Refusal (List Observation) :=
  ((Session.start s).run (steps.map fun st => (st, .none))).map (List.zipWith Step.observe steps)

end Atomicity
