import Atomicity.Session

/-!
# What operations are put together of

A backend provides eight operations on a word: the four that every cell has, an addition of its own
on some backends, the two on the word of a lock, and a snapshot of it. Everything else that the
library does to a word that others may access is put together of these, of the caller's pure
functions, and of loops (`Operates`).

`Step.place?` says which steps these are, and on which backend and word. **`Step.operates`** says
that it is so. A property of all operations then is one induction over `Operates`: the cases are
what a backend provides, and a program that follows another, or repeats.

Plain accesses of a caller that nobody else shares a cell with are no operations in this sense.
-/

namespace Atomicity

open Prog

/-- The backend has an addition of its own, that goes through no other operation. -/
def Backend.addsAtOnce : Backend → Bool
  | native | traced | globalLock .. => true
  | casOnly | pair _ | singleCore .. => false

/-- The program is put together of what a backend provides on the word at an address. -/
inductive Operates (b : Backend) (a : Addr) : {α : Type} → Prog α → Prop where
  | load (w : Width) : Operates b a (b.load w a)
  | store {w : Width} (v : Word w) : Operates b a (b.store w a v)
  | exchange {w : Width} (v : Word w) : Operates b a (b.exchange w a v)
  | compareExchange {w : Width} (expected desired : Word w) :
      Operates b a (b.compareExchange w a expected desired)
  | addAtOnce {w : Width} (h : b.addsAtOnce = true) (v : Word w) : Operates b a (b.fetchAdd w a v)
  | testSetLock (v : Word .w64) : Operates b a (b.testSetLock a v)
  | privilegedStore (v : Word .w64) : Operates b a (b.privilegedStore a v)
  | snapshot : Operates b a (b.barrier.load .w64 a)
  /-- A function of the caller is entered. -/
  | enterUpdate : Operates b a (perform .enterUpdate)
  | ret {α : Type} (r : α) : Operates b a (.ret r)
  | bind {α β : Type} {p : Prog α} {f : α → Prog β} (first : Operates b a p)
      (next : ∀ r, Operates b a (f r)) : Operates b a (p.bind f)
  | iterate {σ β : Type} {body : σ → Prog (σ ⊕ β)} (round : ∀ t, Operates b a (body t)) (t : σ) :
      Operates b a (Prog.iterate body t)

namespace Operates

variable {b : Backend} {a : Addr} {w : Width} {α β τ : Type}

/-- To make something of the answer is no operation. -/
theorem map {p : Prog α} (h : Operates b a p) (k : α → β) :
    Operates b a (p.bind fun r => .ret (k r)) :=
  h.bind fun _ => .ret _

theorem untilTrue {attempt : Prog Bool} (h : Operates b a attempt) :
    Operates b a (Prog.untilTrue attempt) :=
  .iterate (fun _ => h.map _) ()

/-! ## Fetch and modify -/

/-- The function of the caller may itself be put together of operations on the word. -/
theorem fetchUpdate {f : τ → Word w → Prog (Word w × τ)}
    (hf : ∀ t x, Operates b a (f t x)) (t : τ) :
    Operates b a (b.fetchUpdate w a f t) :=
  (load w).bind fun _ =>
    .iterate (fun (y : Word w × τ) => enterUpdate.bind fun _ => (hf y.2 y.1).bind fun _ =>
    (compareExchange _ _).map _) _

theorem fetchApply (f : Word w → Word w) : Operates b a (b.fetchApply w a f) :=
  (fetchUpdate (fun _ _ => .ret _) ()).map _

theorem fetchAdd (v : Word w) : Operates b a (b.fetchAdd w a v) := by
  cases hb : b.addsAtOnce with
  | true => exact addAtOnce hb v
  | false =>
    cases b with
    | native => cases hb
    | traced => cases hb
    | globalLock c base => cases hb
    | casOnly => exact fetchApply (· + v)
    | pair isa => exact fetchApply (· + v)
    | singleCore c isa widths => exact fetchApply (· + v)

theorem fetch (op : FetchOp) (v : Word w) : Operates b a (b.fetch op w a v) := by
  cases op with
  | add => exact fetchAdd v
  | sub => exact fetchAdd (-v)
  | and => exact fetchApply _
  | or => exact fetchApply _
  | xor => exact fetchApply _

theorem fetchNew (op : FetchOp) (v : Word w) : Operates b a (b.fetchNew op w a v) :=
  (fetch op v).map _

/-! ## Locks, flags and cells -/

theorem tryAcquire (l : RawLock) : Operates b l.word (l.tryAcquire b) := (testSetLock 1).map _

theorem raw (l : RawLock) (op : RawOp) : Operates b l.word (op.prog l b) := by
  cases op with
  | acquire => exact (untilTrue (tryAcquire l)).map _
  | tryAcquire => exact (tryAcquire l).map _
  | release => exact (privilegedStore 0).map _
  | isLocked => exact (snapshot.map _).map _

theorem flag (f : Flag) (op : FlagOp) : Operates f.backend f.word (op.prog f) := by
  cases op with
  | testAndSet => exact ((testSetLock 1).map _).map _
  | clear => exact (privilegedStore 0).map _
  | isSet => exact ((load .w64).map _).map _

theorem word (op : WordOp w) : Operates b a (op.prog b a) := by
  cases op with
  | load => exact (load w).map _
  | store v => exact (store v).map _
  | exchange v => exact (exchange v).map _
  | compareExchange expected desired => exact (compareExchange expected desired).map _
  | fetch op v => exact (fetch op v).map _
  | fetchNew op v => exact (fetchNew op v).map _
  | casFetchAdd v => exact (fetchApply (· + v)).map _
  | fetchUpdate f =>
    exact (fetchUpdate (f := listing f) (fun _ _ => .ret _) []).bind fun _ => .ret _
  | isLockFree => exact .ret _

end Operates

/-- A plain access, by a caller that nobody else shares the cell with. -/
def CellOp.plain {t : Scalar} : CellOp t → Bool
  | replace _ | inner => true
  | _ => false

theorem Operates.cell {t : Scalar} (c : Atomic t) {op : CellOp t} (hop : op.plain = false) :
    Operates c.backend c.addr (op.prog c) := by
  cases op with
  | load => exact ((load t.width).map _).map _
  | store v => exact (store v.toRepr).map _
  | exchange v => exact ((exchange v.toRepr).map _).map _
  | compareExchange expected desired =>
    exact ((compareExchange expected.toRepr desired.toRepr).map _).map _
  | fetchUpdate f =>
    refine Operates.bind (Operates.bind (fetchUpdate (fun _ _ => .ret _) []) fun r => ?_)
      fun r => ?_
    · exact .ret _
    · exact .ret _
  | isLockFree => exact .ret _
  | replace v => cases hop
  | inner => cases hop
  | write l => exact ((load t.width).map _).map _

namespace Step

/-- The backend and the word of an operation. Steps on spin locks and on interrupt controllers are
none, nor are plain accesses, nor a fence. -/
def place? : Step → Option (Backend × Addr)
  | cell c op => if op.plain then none else some (c.backend, c.addr)
  | fetch c _ _ => some (c.backend, c.addr)
  | fetchNew c _ _ => some (c.backend, c.addr)
  | testSetLock c _ => some (c.backend, c.addr)
  | word b a _ => some (b, a)
  | swapLockWord b a _ => some (b, a)
  | storeLockWord b a _ => some (b, a)
  | flag f _ => some (f.backend, f.word)
  | raw l b _ => some (b, l.word)
  | _ => none

/-- **Every operation is put together of what its backend provides.** -/
theorem operates {st : Step} {b : Backend} {a : Addr} (h : st.place? = some (b, a)) :
    Operates b a st.answering := by
  cases st with
  | cell c op =>
    cases hop : op.plain with
    | true => simp [place?, hop] at h
    | false =>
      obtain ⟨rfl, rfl⟩ : c.backend = b ∧ c.addr = a := by simpa [place?, hop] using h
      exact Operates.cell c hop
  | fetch c op v =>
    obtain ⟨rfl, rfl⟩ := Prod.mk.inj (Option.some.inj h)
    exact ((Operates.fetch op v.toBits).map _).map _
  | fetchNew c op v =>
    obtain ⟨rfl, rfl⟩ := Prod.mk.inj (Option.some.inj h)
    exact ((Operates.fetchNew op v.toBits).map _).map _
  | testSetLock c v =>
    obtain ⟨rfl, rfl⟩ := Prod.mk.inj (Option.some.inj h)
    exact ((Operates.testSetLock v.toBits).map _).map _
  | word b' a' op =>
    obtain ⟨rfl, rfl⟩ := Prod.mk.inj (Option.some.inj h)
    exact .word op
  | swapLockWord b' a' v =>
    obtain ⟨rfl, rfl⟩ := Prod.mk.inj (Option.some.inj h)
    exact (Operates.testSetLock v).map _
  | storeLockWord b' a' v =>
    obtain ⟨rfl, rfl⟩ := Prod.mk.inj (Option.some.inj h)
    exact (Operates.privilegedStore v).map _
  | flag f op =>
    obtain ⟨rfl, rfl⟩ := Prod.mk.inj (Option.some.inj h)
    exact .flag f op
  | raw l b' op =>
    obtain ⟨rfl, rfl⟩ := Prod.mk.inj (Option.some.inj h)
    exact .raw l op
  | spin l op => cases h
  | fence b' => cases h
  | disable c => cases h
  | enableIf c e => cases h

end Step

end Atomicity
