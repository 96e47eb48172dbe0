import Atomicity.Proofs.Interfered
import Atomicity.Proofs.Interrupts.Flag
import Atomicity.Proofs.Operates

/-!
# Interrupts are given back

An operation that masks interrupts does so around a part of itself, and one that takes the global
lock does that, with interrupts masked, around a part of itself; for the rest it changes no
interrupt flag and accesses no word but its own (`Balanced`). All operations of all backends are of
this form (`Operates.balanced`), and two things follow from it by induction over the form:

- the core is given back as it was, and nothing is enabled meanwhile that was masked
  (`Balanced.flag`);
- the word of the global lock is zero in the end, if it is at first (`Balanced.word`).

**`Step.gives_interrupts_back`** says so of every operation under interference: at every instant,
and where it has answered.
-/

namespace Atomicity

open Prog Discipline

/-- The instruction changes no interrupt flag and accesses no word but the one at an address. -/
def Instr.Plain (a : Addr) (i : Instr) : Prop :=
  i.controls = false ∧ (i.target? = none ∨ i.target? = some a)

/-- The program masks interrupts, and takes the global lock, around parts of itself only. -/
inductive Balanced (b : Backend) (a : Addr) : {α : Type} → Prog α → Prop where
  | plain {α : Type} {p : Prog α} (h : p.All (Instr.Plain a)) : Balanced b a p
  | masked {α : Type} {p : Prog α} (h : p.All (Instr.Plain a)) :
      Balanced b a (b.controller.masking p)
  | locked {α : Type} {c : Controller} {base : Backend} {p : Prog α} (hb : b = .globalLock c base)
      (h : p.All (Instr.Plain a)) : Balanced b a (GlobalLock.locked c base p)
  | bind {α β : Type} {p : Prog α} {f : α → Prog β} (first : Balanced b a p)
      (next : ∀ r, Balanced b a (f r)) : Balanced b a (p.bind f)
  | iterate {σ β : Type} {body : σ → Prog (σ ⊕ β)} (round : ∀ t, Balanced b a (body t)) (t : σ) :
      Balanced b a (Prog.iterate body t)

/-! ## Every operation is balanced -/

section

variable {b : Backend} {a : Addr} {w : Width} {α : Type}

theorem Instr.Plain.fence {isa : Isa} : Instr.Plain a (.fence isa) := ⟨rfl, .inl rfl⟩

theorem Instr.Plain.read : Instr.Plain a (.read w a) := ⟨rfl, .inr rfl⟩

theorem Instr.Plain.write {v : Word w} : Instr.Plain a (.write w a v) := ⟨rfl, .inr rfl⟩

/-! ### Plain programs -/

namespace Plain

theorem fenced {isa : Isa} {p : Prog α} (h : p.All (Instr.Plain a)) :
    Prog.All (Instr.Plain a) (do
      perform (.fence isa)
      let r ← p
      perform (.fence isa)
      return r) :=
  .bind (.perform .fence) fun _ => h.bind fun r => .bind (.perform .fence) fun _ => .ret r

theorem load (isa : Isa) : (isa.load w a).All (Instr.Plain a) := fenced (.perform .read)

theorem store (isa : Isa) (v : Word w) : (isa.store w a v).All (Instr.Plain a) :=
  .bind (.perform .fence) fun _ => .bind (.perform .write) fun _ => .perform .fence

theorem readWrite (v : Word w → Word w) : Prog.All (Instr.Plain a) (do
    let previous ← perform (.read w a)
    perform (.write w a (v previous))
    return previous) :=
  .bind (.perform .read) fun r => .bind (.perform .write) fun _ => .ret r

theorem writeWhen (expected desired found : Word w) :
    (Prog.when (found = expected) (perform (.write w a desired))).All (Instr.Plain a) := by
  unfold Prog.when
  split
  · exact .perform .write
  · exact .ret ()

theorem compareWrite (expected desired : Word w) : Prog.All (Instr.Plain a) (do
    let found ← perform (.read w a)
    Prog.when (found = expected) (perform (.write w a desired))
    return Comparison.ofFound expected found) :=
  .bind (.perform .read) fun found => .bind (writeWhen expected desired found) fun _ => .ret _

theorem announced {p : Prog α} (o : Primitive) (h : p.All (Instr.Plain a)) :
    (Native.announced o p).All (Instr.Plain a) :=
  .bind (.perform ⟨rfl, .inl rfl⟩) fun _ => h

theorem pairExchange (isa : PairIsa) (v : Word w) : (isa.exchange w a v).All (Instr.Plain a) :=
  .bind (.perform .fence) fun _ => .bind
    (.iterate (fun _ => .bind (.perform ⟨rfl, .inr rfl⟩) fun _ =>
      .bind (.perform ⟨rfl, .inr rfl⟩) fun _ => .ret _) ())
    fun _ => .bind (.perform .fence) fun _ => .ret _

theorem pairCompareExchange (isa : PairIsa) (expected desired : Word w) :
    (isa.compareExchange w a expected desired).All (Instr.Plain a) := by
  refine .bind (.perform .fence) fun _ => .bind (.iterate (fun _ => ?_) ()) fun _ =>
    .bind (.perform .fence) fun _ => .ret _
  refine .bind (.perform ⟨rfl, .inr rfl⟩) fun found => ?_
  split
  · exact .bind (.perform ⟨rfl, .inr rfl⟩) fun _ => .ret _
  · exact .bind (.perform ⟨rfl, .inl rfl⟩) fun _ => .ret _

theorem swap {isa : SwapIsa} {v : Word w} : (perform (.swap isa w a v)).All (Instr.Plain a) :=
  .perform ⟨rfl, .inr rfl⟩

theorem nativeCompareExchange (expected desired : Word w) :
    (Native.compareExchange w a expected desired).All (Instr.Plain a) :=
  .bind (.perform ⟨rfl, .inr rfl⟩) fun _ => .ret _

end Plain

namespace Balanced

theorem maskedSwap {c : Controller} {base : Backend} (isa : Isa) (v : Word .w64) :
    Balanced (.globalLock c base) a (Backend.maskedSwap c isa a v) :=
  .masked (b := .globalLock c base) (all_swapping .fence .read .write)

theorem testSetLock (b : Backend) (v : Word .w64) : Balanced b a (b.testSetLock a v) := by
  cases b with
  | native => exact .plain Plain.swap
  | traced => exact .plain (Plain.announced _ Plain.swap)
  | casOnly => exact .plain (Plain.announced _ Plain.swap)
  | pair isa => exact .plain (Plain.pairExchange isa v)
  | singleCore c isa widths => exact .plain (Plain.fenced Plain.swap)
  | globalLock c base => exact maskedSwap _ v

theorem privilegedStore (b : Backend) (v : Word .w64) : Balanced b a (b.privilegedStore a v) := by
  cases b with
  | native => exact .plain (Plain.store _ v)
  | traced => exact .plain (Plain.announced _ (Plain.store _ v))
  | casOnly => exact .plain (Plain.announced _ (Plain.store _ v))
  | pair isa => exact .plain (Plain.store _ v)
  | singleCore c isa widths => exact .plain (Plain.store _ v)
  | globalLock c base => exact (maskedSwap _ v).bind fun _ => .plain (.ret ())

end Balanced

namespace Operates

/-- **Every operation is balanced.** -/
theorem balanced {p : Prog α} (h : Operates b a p) : Balanced b a p := by
  induction h with
  | load w =>
    cases b with
    | native => exact .plain (Plain.load _)
    | traced => exact .plain (Plain.announced _ (Plain.load _))
    | casOnly => exact .plain (Plain.announced _ (Plain.load _))
    | pair isa => exact .plain (Plain.load _)
    | singleCore c isa widths => exact .plain (Plain.load _)
    | globalLock c base => exact .locked rfl (.perform .read)
  | store v =>
    cases b with
    | native => exact .plain (Plain.store _ v)
    | traced => exact .plain (Plain.announced _ (Plain.store _ v))
    | casOnly => exact .plain (Plain.announced _ (Plain.store _ v))
    | pair isa => exact .plain (Plain.store _ v)
    | singleCore c isa widths => exact .plain (Plain.store _ v)
    | globalLock c base => exact .locked rfl (.perform .write)
  | exchange v =>
    cases b with
    | native => exact .plain Plain.swap
    | traced => exact .plain (Plain.announced _ Plain.swap)
    | casOnly => exact .plain (Plain.announced _ Plain.swap)
    | pair isa => exact .plain (Plain.pairExchange isa v)
    | singleCore c isa widths => exact .plain (Plain.fenced Plain.swap)
    | globalLock c base => exact .locked rfl (Plain.readWrite fun _ => v)
  | compareExchange expected desired =>
    cases b with
    | native => exact .plain (Plain.nativeCompareExchange expected desired)
    | traced => exact .plain (Plain.announced _ (Plain.nativeCompareExchange expected desired))
    | casOnly => exact .plain (Plain.announced _ (Plain.nativeCompareExchange expected desired))
    | pair isa => exact .plain (Plain.pairCompareExchange isa expected desired)
    | singleCore c isa widths =>
      refine .masked (b := .singleCore c isa widths) ?_
      exact .bind (.perform .fence) fun _ => .bind (.perform .read) fun found =>
        .bind (Plain.writeWhen expected desired found) fun _ =>
          .bind (.perform .fence) fun _ => .ret _
    | globalLock c base => exact .locked rfl (Plain.compareWrite expected desired)
  | addAtOnce hb v =>
    cases b with
    | native => exact .plain (.perform ⟨rfl, .inr rfl⟩)
    | traced => exact .plain (Plain.announced _ (.perform ⟨rfl, .inr rfl⟩))
    | globalLock c base => exact .locked rfl (Plain.readWrite (· + v))
    | casOnly => cases hb
    | pair isa => cases hb
    | singleCore c isa widths => cases hb
  | testSetLock v => exact .testSetLock b v
  | privilegedStore v => exact .privilegedStore b v
  | snapshot => exact .plain (Plain.load _)
  | enterUpdate => exact .plain (.perform ⟨rfl, .inl rfl⟩)
  | ret r => exact .plain (.ret r)
  | bind first next ihfirst ihnext => exact ihfirst.bind ihnext
  | iterate round t ih => exact .iterate ih t

end Operates

end

/-! ## The core -/

namespace InterruptState

variable {c : Controller} {core : Core} {f : Bool} {α : Type}

/-- A section under the global lock leaves the flag as it was, and so do all the turns that it
waits. -/
theorem locked (base : Backend) (hf : f = true → c.enabled core = true) {p : Prog α}
    (h : (preserving c core).Leads (Flag c core false) p fun _ => Flag c core false) :
    (preserving c core).Leads (Flag c core f) (GlobalLock.locked c base p) fun _ =>
      Flag c core f := by
  have hmasked : false = true → c.enabled core = true := fun h => absurd h Bool.false_ne_true
  have fence : (preserving c core).Leads (Flag c core false) base.fence fun _ =>
      Flag c core false :=
    uncontrolled hmasked (.perform rfl)
  have swap : ∀ v, (preserving c core).Leads (Flag c core false)
      (Backend.maskedSwap c base.barrier .globalLock v) fun _ => Flag c core false := fun v =>
    masking hmasked (uncontrolled hmasked (all_swapping rfl rfl rfl))
  have attempt : (preserving c core).Leads (Flag c core false)
      (RawLock.global.tryAcquire (.globalLock c base)) fun _ => Flag c core false :=
    (swap 1).bind fun _ => .ret fun _ _ hs => hs
  have acquire : (preserving c core).Leads (Flag c core false)
      (RawLock.global.acquire (.globalLock c base)) fun _ => Flag c core false :=
    attempt.untilTrue_keeps
  have release : (preserving c core).Leads (Flag c core false)
      (RawLock.global.release (.globalLock c base)) fun _ => Flag c core false :=
    (swap 0).bind fun _ => .ret fun _ _ hs => hs
  refine (uncontrolled hf (.perform (i := .enterLocked) rfl)).bind fun _ => ?_
  refine (masking hf ?_).bind fun a =>
    (uncontrolled hf (.perform (i := .leaveLocked) rfl)).bind fun _ => .ret fun _ _ hs => hs
  exact (uncontrolled hmasked (GlobalLock.all_construct rfl rfl)).bind fun _ =>
    acquire.bind fun _ =>
    fence.bind fun _ => h.bind fun r => fence.bind fun _ => release.bind fun _ =>
      .ret fun _ _ hs => hs

end InterruptState

/-- **A balanced program gives the core back as it was**, and enables nothing meanwhile that was
masked. -/
theorem Balanced.flag {b : Backend} {a : Addr} {α : Type} {p : Prog α} {core : Core} {f : Bool}
    (h : Balanced b a p) (hf : f = true → b.controller.enabled core = true) :
    (InterruptState.preserving b.controller core).Leads (InterruptState.Flag b.controller core f) p
      fun _ => InterruptState.Flag b.controller core f := by
  have hmasked : false = true → b.controller.enabled core = true :=
    fun h => absurd h Bool.false_ne_true
  induction h with
  | plain h => exact InterruptState.uncontrolled hf (h.mono fun _ hi => hi.1)
  | masked h =>
    exact InterruptState.masking hf (InterruptState.uncontrolled hmasked (h.mono fun _ hi => hi.1))
  | locked hb h =>
    subst hb
    exact InterruptState.locked _ hf (InterruptState.uncontrolled hmasked (h.mono fun _ hi => hi.1))
  | bind first next ihfirst ihnext => exact ihfirst.bind ihnext
  | iterate round t ih => exact .iterate_keeps ih t

/-! ## The word of the global lock -/

namespace InterruptState

/-- Others leave the word of the global lock alone. -/
def sparing : Discipline Unit where
  env _ s s' := OneCore.lockWord s' = OneCore.lockWord s
  own _ _ _ _ _ _ := True

/-- The word of the global lock is zero. -/
def Free (_ : Unit) (s : State) : Prop := OneCore.lockWord s = 0

variable {α : Type}

theorem elsewhere {i : Instr} (hi : i.target? ≠ some .globalLock) :
    sparing.Leads Free (perform i) fun _ => Free :=
  .instr fun _ _ s' refused hs henv =>
    ⟨(), trivial, (Instr.read_of_target? hi refused s' .w64).trans (henv.trans hs)⟩

theorem spares {p : Prog α} (hp : p.All fun i => i.target? ≠ some .globalLock) :
    sparing.Leads Free p fun _ => Free :=
  .all (fun _ hi => elsewhere hi) hp

/-- Whatever a program does, it does. -/
theorem anything (p : Prog α) : sparing.Leads (fun _ _ => True) p fun _ _ _ => True :=
  .all (fun _ _ => .instr fun _ _ _ _ _ _ => ⟨(), trivial, trivial⟩) (.trivial p)

theorem free_masking {R : Unit → State → Prop} {c : Controller} {p : Prog α}
    (hdisable : sparing.Leads R c.disable fun _ => R) (h : sparing.Leads R p fun _ => Free) :
    sparing.Leads R (c.masking p) fun _ => Free :=
  hdisable.bind fun b => h.bind fun _ =>
    (spares (c.all_enableIf (fun _ hi => Instr.target?_ne_of_commands hi _) b)).bind fun _ =>
      .ret fun _ _ hs => hs

/-- A section under the global lock ends with the word written zero, whatever it was at first. -/
theorem locked_free (c : Controller) (base : Backend) (p : Prog α) :
    sparing.Leads (fun _ _ => True) (GlobalLock.locked c base p) fun _ => Free := by
  have write : sparing.Leads (fun _ _ => True) (perform (.write .w64 .globalLock 0))
      fun _ => Free :=
    .instr fun _ _ s' refused _ _ => ⟨(), trivial, State.read_write_self s' .w64 .globalLock 0⟩
  have release : sparing.Leads (fun _ _ => True) (RawLock.global.release (.globalLock c base))
      fun _ => Free := by
    refine (free_masking (anything _) ?_).bind fun _ => .ret fun _ _ hs => hs
    refine (anything (perform (.fence base.barrier))).bind fun _ => ?_
    refine (anything (perform (.read .w64 .globalLock))).bind fun _ => write.bind fun _ => ?_
    exact (elsewhere (i := .fence _) (Instr.target?_ne_of_eq_none rfl _)).bind fun _ =>
      .ret fun _ _ hs => hs
  refine (anything (perform .enterLocked)).bind fun _ =>
    (free_masking (anything _) ?_).bind fun _ =>
    (elsewhere (i := .leaveLocked) (Instr.target?_ne_of_eq_none rfl _)).bind fun _ =>
    .ret fun _ _ hs => hs
  refine (anything (GlobalLock.construct _)).bind fun _ =>
    (anything (RawLock.global.acquire _)).bind fun _ => (anything base.fence).bind fun _ =>
    (anything p).bind fun _ => (anything base.fence).bind fun _ => release.bind fun _ =>
    .ret fun _ _ hs => hs

end InterruptState

/-- **A balanced program that finds the global lock free leaves it free.** -/
theorem Balanced.word {b : Backend} {a : Addr} (ha : a ≠ .globalLock) {α : Type} {p : Prog α}
    (h : Balanced b a p) : InterruptState.sparing.Leads InterruptState.Free p
      fun _ => InterruptState.Free := by
  have plain : ∀ {β : Type} {q : Prog β}, q.All (Instr.Plain a) →
      InterruptState.sparing.Leads InterruptState.Free q fun _ => InterruptState.Free := by
    intro β q hq
    refine InterruptState.spares (hq.mono fun i hi => ?_)
    rcases hi.2 with htarget | htarget
    · exact Instr.target?_ne_of_eq_none htarget _
    · rw [htarget]
      exact fun hglobal => ha (Option.some.inj hglobal)
  induction h with
  | plain h => exact plain h
  | masked h =>
    refine InterruptState.free_masking (InterruptState.spares ?_) (plain h)
    exact Controller.all_disable (fun _ hi => Instr.target?_ne_of_commands hi _) _
  | locked hb h => exact (InterruptState.locked_free _ _ _).weaken fun _ _ _ => trivial
  | bind first next ihfirst ihnext => exact ihfirst.bind ihnext
  | iterate round t ih => exact .iterate_keeps ih t

/-! ## Under interference -/

namespace InterruptState

theorem preserving_admits (c : Controller) (core : Core) (x : Interference) :
    (preserving c core).Admits x :=
  Admits.of_writes (fun _ _ => rfl) fun _ _ _ _ h => h

theorem sparing_admits {x : Interference} (hx : x.addr ≠ .globalLock) : sparing.Admits x :=
  Admits.of_writes (fun _ _ => rfl) fun _ _ _ v h => (Memory.read_write_of_ne _ v hx).trans h

section

variable {c : Controller} {core : Core} {f : Bool} {α : Type} {p : Prog α} {s : State}
  {Q : α → Unit → State → Prop} (h : (preserving c core).Leads (Flag c core f) p Q)
  (hs : Flag c core f () s) (x : Interference) (n : Nat)

include h hs

/-- At any instant the core is as it was but for the flag, and that is not enabled without leave. -/
theorem instant (hf : f = true → c.enabled core = true) :
    ∃ e, (e = true → c.enabled core = true) ∧
      Flag c core e () ((Solo.start p s).run x n).state := by
  obtain ⟨g, hcore, -⟩ := (h () s hs).run
    (I := fun _ g s' => ∃ e, (e = true → c.enabled core = true) ∧ Flag c core e g s')
    (preserving_admits _ _ x) (fun _ _ _ _ _ _ _ _ _ hown => hown) n ⟨f, hf, hs⟩
  exact hcore

/-- What is masked at first, in the sense of any controller, is so at every instant. -/
theorem masked (hf : f = true → c.enabled core = true) {c' : Controller}
    (hcore : c'.enabled core = false) :
    c'.enabled ((Solo.start p s).run x n).state.core = false := by
  obtain ⟨e, he, hflag⟩ := instant h hs x n hf
  rw [c'.enabled_of_unreserved_eq hflag]
  exact Controller.enabled_put_of_masked hcore he

theorem result {r : α} (hr : ((Solo.start p s).run x n).result? = some r) :
    Q r () ((Solo.start p s).run x n).state := by
  obtain ⟨g, -, hresult⟩ := (h () s hs).run (I := fun _ _ _ => True) (preserving_admits _ _ x)
    (fun _ _ _ _ _ _ _ _ _ _ => trivial) n trivial
  exact hresult r hr

end

end InterruptState

/-- **No operation enables what its caller has masked, and every operation gives the interrupts
back.** At any instant of an operation under interference: interrupts are masked if they were at its
start, and no bit of the status register but the one that masks interrupts has changed. Where it has
answered, interrupts are as they were, and so is the rest of the core but for the monitor; and the
word of the global lock is zero if it was, unless it is the operation's own word or one that others
write to. -/
theorem Step.gives_interrupts_back {st : Step} {b : Backend} {a : Addr}
    (hst : st.place? = some (b, a)) (x : Interference) (s : State) (n : Nat) :
    (b.controller.enabled s.core = false →
      b.controller.enabled ((Solo.start st.answering s).run x n).state.core = false) ∧
    (∀ j, j ≠ 7 → ((Solo.start st.answering s).run x n).state.core.cpsr.getLsbD j =
      s.core.cpsr.getLsbD j) ∧
    (((Solo.start st.answering s).run x n).result?.isSome = true →
      b.controller.enabled ((Solo.start st.answering s).run x n).state.core =
        b.controller.enabled s.core ∧
      ((Solo.start st.answering s).run x n).state.core.unreserved = s.core.unreserved ∧
      (a ≠ .globalLock → x.addr ≠ .globalLock → s.read .w64 .globalLock = 0 →
        ((Solo.start st.answering s).run x n).state.read .w64 .globalLock = 0)) := by
  have hbalanced := (Step.operates hst).balanced
  have hflag : (InterruptState.preserving b.controller s.core).Leads
      (InterruptState.Flag b.controller s.core (b.controller.enabled s.core)) st.answering
      fun _ => InterruptState.Flag b.controller s.core (b.controller.enabled s.core) :=
        hbalanced.flag id
  obtain ⟨f, -, hcore⟩ := InterruptState.instant hflag (.start _ s) x n id
  refine ⟨InterruptState.masked hflag (.start _ s) x n id, fun j hj => hcore.cpsr_bit hj,
    fun hanswer => ?_⟩
  obtain ⟨r, hr⟩ := Option.isSome_iff_exists.mp hanswer
  have hgiven := InterruptState.result hflag (.start _ s) x n hr
  refine ⟨hgiven.enabled, hgiven.unreserved, fun ha hx hzero => ?_⟩
  obtain ⟨g', -, hfree⟩ := (hbalanced.word ha () s hzero).run (I := fun _ _ _ => True)
    (InterruptState.sparing_admits hx) (fun _ _ _ _ _ _ _ _ _ _ => trivial) n trivial
  exact hfree r hr

/-- A bitwise or on a word under two global locks, one behind the other. -/
def fetchUnderTwoLocks : Step :=
  .word (.globalLock .arm (.globalLock .line .traced)) (.cell 0) (.fetch .or 5 : WordOp .w32)

/-- Another value is written to the word just before it is compared for the first time. -/
def lateWrite : Interference := { width := .w32, addr := .cell 0, pokes := [(14, 9)] }

/-- With interrupts masked at the start, the operation begins again after the write, and they are
masked where it has answered. -/
theorem masked_fetch_begins_again :
    ((Solo.start fetchUnderTwoLocks.answering (.start true false)).run lateWrite 72).updates = 2 ∧
    Controller.arm.enabled
      ((Solo.start fetchUnderTwoLocks.answering (.start true false)).run lateWrite 72).state.core =
      false ∧
    ((Solo.start fetchUnderTwoLocks.answering (.start true false)).run lateWrite 72).state.read .w64
      .globalLock = 0 := by
  have h := Step.gives_interrupts_back (show fetchUnderTwoLocks.place? = some (_, .cell 0) from rfl)
    lateWrite (.start true false) 72
  have hanswer : ((Solo.start fetchUnderTwoLocks.answering (.start true false)).run lateWrite
      72).result?.isSome = true := by decide +kernel
  refine ⟨by decide +kernel, h.1 (by decide), (h.2.2 hanswer).2.2 (by decide)
    (by decide) (by decide)⟩

end Atomicity
