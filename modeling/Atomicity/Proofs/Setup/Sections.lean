import Atomicity.Proofs.Consists
import Atomicity.Proofs.Uniform.WordMachine

/-!
# Sections under the global lock

Every step of a session is put together of sections under the global lock and of parts that leave
that lock alone: they neither access its word nor construct it nor log anything (`Step.sectioned`).
The steps that go through the lock are the operations of global-lock backends on cells and bare
words, and to look at a flag (`Step.entersLock`): they begin with a section (`Step.enters`). All
others consist of such parts (`Step.aside`), the operations on the words of locks among them.
-/

namespace Atomicity

open Prog

/-- The instruction leaves the global lock alone, and logs nothing. -/
def Instr.Aside (i : Instr) : Prop := i.target? ≠ some .globalLock ∧ i.records = false

/-- The program is put together of sections under the global lock and of parts that leave it
alone. -/
inductive Sectioned : {α : Type} → Prog α → Prop where
  | aside {α : Type} {p : Prog α} (h : p.All Instr.Aside) : Sectioned p
  | locked {α : Type} (c : Controller) (base : Backend) {p : Prog α} (h : p.All Instr.Aside) :
      Sectioned (GlobalLock.locked c base p)
  | bind {α β : Type} {p : Prog α} {f : α → Prog β} (first : Sectioned p)
      (next : ∀ r, Sectioned (f r)) :
      Sectioned (p.bind f)
  | iterate {σ β : Type} {body : σ → Prog (σ ⊕ β)} (round : ∀ t, Sectioned (body t)) (t : σ) :
      Sectioned (Prog.iterate body t)

/-- The program begins with a section under the global lock. -/
inductive Enters : {α : Type} → Prog α → Prop where
  | locked {α : Type} (c : Controller) (base : Backend) (p : Prog α) :
      Enters (GlobalLock.locked c base p)
  | bind {α β : Type} {p : Prog α} {f : α → Prog β} (first : Enters p) : Enters (p.bind f)

/-! ## Operations -/

namespace Instr.Aside

variable {i : Instr} {a : Addr}

theorem still (ht : i.target? = none) (hr : i.records = false) : i.Aside :=
  ⟨Instr.target?_ne_of_eq_none ht _, hr⟩

theorem commands (h : i.commands = true) : i.Aside :=
  still (Instr.target?_of_commands h) (Instr.not_records_of_commands h)

theorem elsewhere (ha : a ≠ .globalLock) (ht : i.target? = some a) (hr : i.records = false) :
    i.Aside :=
  ⟨fun h => ha (Option.some.inj (ht.symm.trans h)), hr⟩

end Instr.Aside

section

open Instr.Aside (still)

variable {b : Backend} {a : Addr} (ha : a ≠ .globalLock) {w : Width} {α : Type} {p : Prog α}

include ha

theorem Backend.aside_testSetLock (b : Backend) (v : Word .w64) :
    (b.testSetLock a v).All Instr.Aside :=
  b.all_testSetLock (fun _ => still rfl rfl) (fun _ => still rfl rfl)
    (fun _ => .elsewhere ha rfl rfl)
    (fun _ => .elsewhere ha rfl rfl) (fun _ => .elsewhere ha rfl rfl)
    fun _ => ⟨.elsewhere ha rfl rfl, .elsewhere ha rfl rfl, fun _ => Instr.Aside.commands⟩

theorem Backend.aside_privilegedStore (b : Backend) (v : Word .w64) :
    (b.privilegedStore a v).All Instr.Aside :=
  b.all_privilegedStore (fun _ ht hr _ => still ht hr) (.elsewhere ha rfl rfl)
    (.elsewhere ha rfl rfl)

/-- On a backend without the global lock, operations leave it alone. -/
theorem Operates.aside (h : Operates b a p) (hb : b.strategy ≠ .globalLock) :
    p.All Instr.Aside := by
  have still' : ∀ i : Instr, i.target? = none → i.records = false →
      i.entersUpdate = false → i.Aside :=
    fun _ ht hr _ => still ht hr
  have lock : b.strategy = .globalLock →
      Instr.Aside .startConstruction ∧ ∀ i : Instr, i.target? = some .globalLock → i.Aside :=
    fun h => absurd h hb
  induction h with
  | load w => exact b.all_load still' lock (.elsewhere ha rfl rfl)
  | store v => exact b.all_store still' lock (.elsewhere ha rfl rfl)
  | exchange v =>
    exact b.all_exchange still' lock (.elsewhere ha rfl rfl) (.elsewhere ha rfl rfl)
      (fun _ => .elsewhere ha rfl rfl)
      (fun _ => .elsewhere ha rfl rfl) fun _ => .elsewhere ha rfl rfl
  | compareExchange expected desired =>
    exact b.all_compareExchange still' lock (.elsewhere ha rfl rfl) (.elsewhere ha rfl rfl)
      (.elsewhere ha rfl rfl) (fun _ => .elsewhere ha rfl rfl) fun _ => .elsewhere ha rfl rfl
  | addAtOnce hadds v =>
    exact b.all_fetchAdd still' lock hadds (.elsewhere ha rfl rfl) (fun _ => .elsewhere ha rfl rfl)
      (.elsewhere ha rfl rfl)
  | testSetLock v => exact Backend.aside_testSetLock ha b v
  | privilegedStore v => exact Backend.aside_privilegedStore ha b v
  | snapshot =>
    exact .bind (.perform (still rfl rfl)) fun _ =>
      .bind (.perform (.elsewhere ha rfl rfl)) fun _ =>
      .bind (.perform (still rfl rfl)) fun _ => .ret _
  | enterUpdate => exact .perform (still rfl rfl)
  | ret r => exact .ret r
  | bind first next ihfirst ihnext => exact ihfirst.bind ihnext
  | iterate round t ih => exact .iterate ih t

/-- Under the global lock, operations are sections. -/
theorem Operates.sectioned {c : Controller} {base : Backend}
    (h : Operates (.globalLock c base) a p) :
    Sectioned p := by
  have read : ∀ {w : Width}, (perform (.read w a)).All Instr.Aside :=
    .perform (.elsewhere ha rfl rfl)
  have write : ∀ {w : Width} (v : Word w), (perform (.write w a v)).All Instr.Aside :=
    fun v => .perform (.elsewhere ha rfl rfl)
  induction h with
  | load w => exact .locked c base read
  | store v => exact .locked c base (write v)
  | exchange v => exact .locked c base (read.bind fun _ => (write v).bind fun _ => .ret _)
  | compareExchange expected desired =>
    exact .locked c base
      (read.bind fun _ => (all_writeWhen (.elsewhere ha rfl rfl) _).bind fun _ => .ret _)
  | addAtOnce hadds v =>
    exact .locked c base (read.bind fun u => (write (u + v)).bind fun _ => .ret _)
  | testSetLock v => exact .aside (Backend.aside_testSetLock ha _ v)
  | privilegedStore v => exact .aside (Backend.aside_privilegedStore ha _ v)
  | snapshot =>
    exact .aside
      (.bind (.perform (still rfl rfl)) fun _ => .bind (.perform (.elsewhere ha rfl rfl)) fun _ =>
      .bind (.perform (still rfl rfl)) fun _ => .ret _)
  | enterUpdate => exact .aside (.perform (still rfl rfl))
  | ret r => exact .aside (.ret r)
  | bind first next ihfirst ihnext => exact ihfirst.bind ihnext
  | iterate round t ih => exact .iterate ih t

end

/-- Of a section, what comes after construction records nothing. -/
theorem GlobalLock.apart_held (c : Controller) (base : Backend) {α : Type} {p : Prog α}
    (hp : p.All Instr.Aside) :
    Prog.All (fun i => i.records = false) (do
      RawLock.global.acquire (.globalLock c base)
      base.fence
      let a ← p
      base.fence
      RawLock.global.release (.globalLock c base)
      return a) := by
  have swap : ∀ v, (Backend.maskedSwap c base.barrier .globalLock v).All fun i =>
      i.records = false :=
    fun v => c.all_masking (fun _ => Instr.not_records_of_commands) (all_swapping rfl rfl rfl)
  have acquire : (RawLock.global.acquire (.globalLock c base)).All fun i => i.records = false :=
    .iterate (fun _ => .bind (.bind (swap 1) fun _ => .ret _) fun _ => .ret _) ()
  have release : (RawLock.global.release (.globalLock c base)).All fun i => i.records = false :=
    (swap 0).bind fun _ => .ret _
  have fence : base.fence.All fun i => i.records = false := .perform rfl
  exact acquire.bind fun _ => fence.bind fun _ => (hp.mono fun _ hi => hi.2).bind fun _ =>
    fence.bind fun _ =>
    release.bind fun _ => .ret _

/-! ## Steps -/

/-- The operation goes through the backend: it is no plain access, nor does it ask about the backend
only. -/
def CellOp.operates {t : Scalar} : CellOp t → Bool
  | isLockFree | replace _ | inner => false
  | load | store _ | exchange _ | compareExchange .. | fetchUpdate _ | write _ => true

def WordOp.operates {w : Width} : WordOp w → Bool
  | isLockFree => false
  | _ => true

def FlagOp.operates : FlagOp → Bool
  | isSet => true
  | testAndSet | clear => false

namespace Step

/-- The step goes through the global lock. Operations on the words of locks do not, nor do they on
flags but to look at one. -/
def entersLock : Step → Bool
  | cell c op => c.backend.strategy = .globalLock && op.operates
  | fetch c _ _ => c.backend.strategy = .globalLock
  | fetchNew c _ _ => c.backend.strategy = .globalLock
  | word b _ op => b.strategy = .globalLock && op.operates
  | flag f op => f.backend.strategy = .globalLock && op.operates
  | _ => false

end Step

/-! ### Through the lock -/

theorem Backend.eq_globalLock {b : Backend} (h : b.strategy = .globalLock) :
    ∃ c base, b = .globalLock c base := by
  cases b with
  | globalLock c base => exact ⟨c, base, rfl⟩
  | _ => cases h

namespace Enters

variable {c : Controller} {base : Backend} {w : Width} {a : Addr}

theorem fetchUpdate {τ : Type} (f : τ → Word w → Prog (Word w × τ)) (t : τ) :
    Enters ((Backend.globalLock c base).fetchUpdate w a f t) := .bind (.locked ..)

theorem fetch (op : FetchOp) (v : Word w) :
    Enters ((Backend.globalLock c base).fetch op w a v) := by
  cases op with
  | add => exact .locked ..
  | sub => exact .locked ..
  | and => exact .bind (fetchUpdate _ _)
  | or => exact .bind (fetchUpdate _ _)
  | xor => exact .bind (fetchUpdate _ _)

theorem word {op : WordOp w} (h : op.operates = true) :
    Enters (op.prog (.globalLock c base) a) := by
  cases op with
  | load => exact .bind (.locked ..)
  | store v => exact .bind (.locked ..)
  | exchange v => exact .bind (.locked ..)
  | compareExchange expected desired => exact .bind (.locked ..)
  | fetch op v => exact .bind (fetch op v)
  | fetchNew op v => exact .bind (.bind (fetch op v))
  | casFetchAdd v => exact .bind (.bind (fetchUpdate _ _))
  | fetchUpdate f => exact .bind (fetchUpdate _ _)
  | isLockFree => cases h

theorem cell {t : Scalar} {op : CellOp t} (h : op.operates = true) :
    Enters (op.prog ⟨.globalLock c base, a⟩) := by
  cases op with
  | load => exact .bind (.bind (.locked ..))
  | store v => exact .bind (.locked ..)
  | exchange v => exact .bind (.bind (.locked ..))
  | compareExchange expected desired => exact .bind (.bind (.locked ..))
  | fetchUpdate f => exact .bind (.bind (fetchUpdate _ _))
  | write l => exact .bind (.bind (.locked ..))
  | isLockFree => cases h
  | replace v => cases h
  | inner => cases h

end Enters

namespace Step

/-- **The steps that go through the global lock begin with a section under it.** -/
theorem enters {st : Step} (h : st.entersLock = true) (gs : LiveGuards) : Enters (st.prog gs) := by
  cases st with
  | cell c op =>
    obtain ⟨backend, a⟩ := c
    obtain ⟨hb, hop⟩ : backend.strategy = .globalLock ∧
      op.operates = true := by simpa [entersLock] using h
    obtain ⟨c, base, rfl⟩ := Backend.eq_globalLock hb
    exact .bind (.cell hop)
  | fetch c op v =>
    obtain ⟨backend, a⟩ := c
    obtain ⟨c, base, rfl⟩ := Backend.eq_globalLock (of_decide_eq_true h)
    exact .bind (.bind (.bind (.fetch op _)))
  | fetchNew c op v =>
    obtain ⟨backend, a⟩ := c
    obtain ⟨c, base, rfl⟩ := Backend.eq_globalLock (of_decide_eq_true h)
    exact .bind (.bind (.bind (.bind (.fetch op _))))
  | word b a op =>
    obtain ⟨hb, hop⟩ : b.strategy = .globalLock ∧
      op.operates = true := by simpa [entersLock] using h
    obtain ⟨c, base, rfl⟩ := Backend.eq_globalLock hb
    exact .bind (.word hop)
  | flag f op =>
    obtain ⟨backend, a⟩ := f
    obtain ⟨hb, hop⟩ : backend.strategy = .globalLock ∧
      op.operates = true := by simpa [entersLock] using h
    obtain ⟨c, base, rfl⟩ := Backend.eq_globalLock hb
    cases op with
    | isSet => exact .bind (.bind (.bind (.locked ..)))
    | testAndSet => cases hop
    | clear => cases hop
  | _ => cases h

end Step

/-! ### Aside from the lock -/

section

open Instr.Aside (still)

namespace RawLock

variable {l : RawLock} (hl : l.word ≠ .globalLock) (b : Backend)

include hl

theorem aside_tryAcquire : (l.tryAcquire b).All Instr.Aside :=
  (b.aside_testSetLock hl 1).bind fun _ => .ret _

theorem aside_acquire : (l.acquire b).All Instr.Aside :=
  .iterate (fun _ => (aside_tryAcquire hl b).bind fun _ => .ret _) ()

theorem aside_release : (l.release b).All Instr.Aside := b.aside_privilegedStore hl 0

theorem aside_isLocked : (l.isLocked b).All Instr.Aside :=
  .bind (.bind (.perform (still rfl rfl)) fun _ => .bind (.perform (.elsewhere hl rfl rfl)) fun _ =>
    .bind (.perform (still rfl rfl)) fun _ => .ret _) fun _ => .ret _

end RawLock

/-- Operations on a raw lock leave the global lock alone. -/
theorem RawOp.aside {l : RawLock} (hl : l.word ≠ .globalLock) (b : Backend) (op : RawOp) :
    (op.prog l b).All Instr.Aside := by
  cases op with
  | acquire => exact (l.aside_acquire hl b).bind fun _ => .ret _
  | tryAcquire => exact (l.aside_tryAcquire hl b).bind fun _ => .ret _
  | release => exact (l.aside_release hl b).bind fun _ => .ret _
  | isLocked => exact (l.aside_isLocked hl b).bind fun _ => .ret _

namespace Controller

theorem aside_disable (c : Controller) : c.disable.All Instr.Aside :=
  c.all_disable fun _ => .commands

theorem aside_enableIf (c : Controller) (b : Bool) : (c.enableIf b).All Instr.Aside :=
  c.all_enableIf (fun _ => .commands) b

end Controller

variable {t : Scalar} (l : SpinLock t)

namespace SpinLock

section

variable (hlock : l.lock.word ≠ .globalLock)

include hlock

theorem aside_acquire : l.acquire.All Instr.Aside :=
  (l.lock.aside_acquire hlock l.backend).bind fun _ => .ret _

theorem aside_acquireMasked : l.acquireMasked.All Instr.Aside :=
  (Controller.aside_disable _).bind fun _ =>
    (l.lock.aside_acquire hlock l.backend).bind fun _ => .ret _

theorem aside_unlock (g : Guard) : (l.unlock g).All Instr.Aside := by
  refine (l.lock.aside_release hlock l.backend).bind fun _ => ?_
  obtain ⟨restore⟩ := g
  cases restore with
  | none => exact .ret ()
  | some b => exact Controller.aside_enableIf _ b

end

variable (hdata : l.data ≠ .globalLock)

include hdata

theorem aside_value : l.value.All Instr.Aside :=
  .bind (.perform (.elsewhere hdata rfl rfl)) fun _ => .ret _

theorem aside_setValue (v : t.Value) : (l.setValue v).All Instr.Aside :=
  .perform (.elsewhere hdata rfl rfl)

end SpinLock

/-- Operations on a spin lock leave the global lock alone. -/
theorem SpinOp.aside (hlock : l.lock.word ≠ .globalLock) (hdata : l.data ≠ .globalLock)
    (gs : LiveGuards) (op : SpinOp t) : (op.prog l gs).All Instr.Aside := by
  cases op with
  | acquire name => exact (l.aside_acquire hlock).bind fun _ => .ret _
  | tryAcquire name =>
    refine ((l.lock.aside_tryAcquire hlock l.backend).bind fun _ => All.ret _).bind fun g? => ?_
    cases g? with
    | none => exact .ret _
    | some g => exact .ret _
  | acquireMasked name => exact (l.aside_acquireMasked hlock).bind fun _ => .ret _
  | unlock name =>
    simp only [prog]
    split
    · exact .ret _
    · exact (l.aside_unlock hlock _).bind fun _ => .ret _
  | forget name => exact .ret _
  | value name => exact (l.aside_value hdata).bind fun _ => .ret _
  | setValue name v => exact (l.aside_setValue hdata v).bind fun _ => .ret _
  | isLocked => exact (l.lock.aside_isLocked hlock l.backend).bind fun _ => .ret _
  | replace v =>
    exact ((l.aside_value hdata).bind fun _ => (l.aside_setValue hdata v).bind fun _ => .ret _).bind
      fun _ => .ret _
  | renew =>
    exact ((l.aside_value hdata).bind fun _ =>
      (All.perform (.elsewhere hlock rfl rfl)).bind fun _ =>
      .ret _).bind fun _ => .ret _
  | brief masked v =>
    have body : ∀ g, ((l.setValue v).bind fun _ => l.unlock g).All Instr.Aside :=
      fun g => (l.aside_setValue hdata v).bind fun _ => l.aside_unlock hlock g
    refine (l.lock.aside_isLocked hlock l.backend).bind fun held => ?_
    cases held with
    | true => exact .ret _
    | false =>
      refine All.bind ?_ fun _ => .ret _
      cases masked with
      | true => exact (l.aside_acquireMasked hlock).bind body
      | false => exact (l.aside_acquire hlock).bind body

end

namespace Step

open Instr.Aside (still)

/-- An operation is performed on one of its own words. -/
theorem mem_addrs {st : Step} {b : Backend} {a : Addr} (h : st.place? = some (b, a)) :
    a ∈ st.request.addrs := by
  cases st with
  | cell c op =>
    simp only [place?] at h
    split at h
    · cases h
    · obtain ⟨-, rfl⟩ := Prod.mk.inj (Option.some.inj h)
      exact List.mem_singleton_self _
  | spin l op => cases h
  | fence b' => cases h
  | disable c => cases h
  | enableIf c e => cases h
  | _ =>
    obtain ⟨-, rfl⟩ := Prod.mk.inj (Option.some.inj h)
    exact List.mem_singleton_self _

section

variable {st : Step} (haddrs : .globalLock ∉ st.request.addrs)

include haddrs

theorem aside_of_place {b : Backend} {a : Addr} (h : st.place? = some (b, a))
    (hb : b.strategy ≠ .globalLock) :
    st.answering.All Instr.Aside :=
  Operates.aside (fun ha => haddrs (ha ▸ mem_addrs h)) (operates h) hb

/-- **All other steps leave the global lock alone.** -/
theorem aside (h : st.entersLock = false) (gs : LiveGuards) : (st.prog gs).All Instr.Aside := by
  have haddr : ∀ a ∈ st.request.addrs, a ≠ .globalLock := fun a ha h => haddrs (h ▸ ha)
  cases st with
  | cell c op =>
    have ha : c.addr ≠ .globalLock := haddr _ (List.mem_singleton_self _)
    refine All.bind ?_ fun _ => .ret _
    cases op with
    | isLockFree => exact .ret _
    | replace v =>
      exact .bind
        (.bind (.perform (.elsewhere ha rfl rfl)) fun _ => .bind (.perform (.elsewhere ha rfl rfl))
        fun _ => .ret _) fun _ => .ret _
    | inner =>
      exact .bind (.bind (.perform (.elsewhere ha rfl rfl)) fun _ => .ret _) fun _ => .ret _
    | _ =>
      have hb : c.backend.strategy ≠ .globalLock := by simpa [entersLock, CellOp.operates] using h
      exact aside_of_place haddrs rfl hb
  | fetch c op v => exact (aside_of_place haddrs rfl (of_decide_eq_false h)).bind fun _ => .ret _
  | fetchNew c op v => exact (aside_of_place haddrs rfl (of_decide_eq_false h)).bind fun _ => .ret _
  | testSetLock c v =>
    have ha : c.addr ≠ .globalLock := haddr _ (List.mem_singleton_self _)
    exact (((c.backend.aside_testSetLock ha v.toBits).bind fun _ => .ret _).bind fun _ =>
      .ret _).bind fun _ => .ret _
  | word b a op =>
    cases op with
    | isLockFree => exact .ret _
    | _ =>
      have hb : b.strategy ≠ .globalLock := by simpa [entersLock, WordOp.operates] using h
      exact (aside_of_place haddrs rfl hb).bind fun _ => .ret _
  | swapLockWord b a v =>
    have ha : a ≠ .globalLock := haddr _ (List.mem_singleton_self _)
    exact ((b.aside_testSetLock ha v).bind fun _ => .ret _).bind fun _ => .ret _
  | storeLockWord b a v =>
    have ha : a ≠ .globalLock := haddr _ (List.mem_singleton_self _)
    exact ((b.aside_privilegedStore ha v).bind fun _ => .ret _).bind fun _ => .ret _
  | flag f op =>
    have ha : f.word ≠ .globalLock := haddr _ (List.mem_singleton_self _)
    refine All.bind ?_ fun _ => .ret _
    cases op with
    | testAndSet =>
      exact ((f.backend.aside_testSetLock ha 1).bind fun _ => .ret _).bind fun _ => .ret _
    | clear => exact (f.backend.aside_privilegedStore ha 0).bind fun _ => .ret _
    | isSet =>
      have hb : f.backend.strategy ≠ .globalLock := by simpa [entersLock, FlagOp.operates] using h
      exact aside_of_place haddrs rfl hb
  | raw l b op => exact (op.aside (haddr _ (List.mem_singleton_self _)) b).bind fun _ => .ret _
  | spin l op =>
    exact op.aside l (haddr _ List.mem_cons_self)
      (haddr _ (List.mem_cons_of_mem _ (List.mem_singleton_self _))) gs
  | fence b => exact .bind (.bind (.perform (still rfl rfl)) fun _ => .ret _) fun _ => .ret _
  | disable c => exact ((Controller.aside_disable c).bind fun _ => .ret _).bind fun _ => .ret _
  | enableIf c b =>
    exact ((Controller.aside_enableIf c b).bind fun _ => .ret _).bind fun _ => .ret _

/-- **Every step is put together of sections under the global lock and of parts that leave it
alone.** -/
theorem sectioned (gs : LiveGuards) : Sectioned (st.prog gs) := by
  cases h : st.entersLock with
  | false => exact .aside (aside haddrs h gs)
  | true =>
    have placed : ∀ {b a}, st.place? = some (b, a) → b.strategy = .globalLock →
        Sectioned st.answering := by
      intro b a hplace hb
      obtain ⟨c, base, rfl⟩ := Backend.eq_globalLock hb
      exact Operates.sectioned (fun ha => haddrs (ha ▸ mem_addrs hplace)) (operates hplace)
    cases st with
    | cell c op =>
      obtain ⟨hb, hop⟩ : c.backend.strategy = .globalLock ∧
        op.operates = true := by simpa [entersLock] using h
      have hplain : op.plain = false := by cases op <;> first | rfl | cases hop
      have hplace : (cell c op).place? = some (c.backend, c.addr) := by simp [place?, hplain]
      exact (placed hplace hb).bind fun _ => .aside (.ret _)
    | fetch c op v => exact (placed rfl (of_decide_eq_true h)).bind fun _ => .aside (.ret _)
    | fetchNew c op v => exact (placed rfl (of_decide_eq_true h)).bind fun _ => .aside (.ret _)
    | word b a op =>
      obtain ⟨hb, -⟩ : b.strategy = .globalLock ∧
        op.operates = true := by simpa [entersLock] using h
      exact (placed rfl hb).bind fun _ => .aside (.ret _)
    | flag f op =>
      obtain ⟨hb, -⟩ : f.backend.strategy = .globalLock ∧
        op.operates = true := by simpa [entersLock] using h
      exact (placed rfl hb).bind fun _ => .aside (.ret _)
    | _ => cases h

end

end Step

end Atomicity
