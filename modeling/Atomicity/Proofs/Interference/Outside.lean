import Atomicity.Proofs.Consists
import Atomicity.Proofs.Interrupts.GivenBack
import Atomicity.Proofs.Monitor

/-!
# Where a caller's function is called

`State.Outside core` is a state outside of every lock and mask: interrupts are as they are in
`core`, the exclusive monitor is closed, and the global lock is free.

`Tidy b` says of a program that it consists of operations of a backend, on any words but that of the
global lock, and of whatever else touches neither that word nor interrupts nor the monitor. An
update whose function is tidy is tidy itself (`Tidy.fetchUpdate`). Such a program may loop, and need
not come to an end.

**A tidy program that is begun outside calls every function outside** (`Tidy.run`), also where it
calls it again after a compare-and-exchange that has failed, and also where the function calls
others; whenever it takes the global lock, the lock is free, so it never waits for it; and it ends
outside. This is one discipline, `calling`, put together of what is known already of interrupts, of
the monitor and of the lock.
-/

namespace Atomicity

open Prog Discipline

/-- Outside of every lock and mask: interrupts are as they are in `core`, the exclusive monitor is
closed, and the global lock is free. -/
structure State.Outside (core : Core) (s : State) : Prop where
  core : s.core.unreserved = core.unreserved
  monitor : s.core.monitor = none
  free : s.read .w64 .globalLock = 0

/-! ## Two disciplines at once -/

namespace Discipline

variable {D D' : Discipline Unit} {α : Type} {p : Prog α} {R R' : Unit → State → Prop}
  {M M' : α → Unit → State → Prop}

/-- What both disciplines ask for. -/
def and (D D' : Discipline Unit) : Discipline Unit where
  env i s s' := D.env i s s' ∧ D'.env i s s'
  own i r g s g' s' := D.own i r g s g' s' ∧ D'.own i r g s g' s'

/-- A discipline that asks something more of the state in which an instruction is executed. -/
def asking (D : Discipline Unit) (P : Instr → State → Prop) : Discipline Unit where
  env := D.env
  own i r g s g' s' := D.own i r g s g' s' ∧ P i s

/-- A program that complies with each of two disciplines complies with both. -/
theorem Leads.and (h : D.Leads R p M) (h' : D'.Leads R' p M') :
    (D.and D').Leads (fun g s => R g s ∧ R' g s) p fun a g s => M a g s ∧ M' a g s := by
  have keeps : ∀ n {p : Prog α} {s}, D.Keeps M n p () s → D'.Keeps M' n p () s →
      (D.and D').Keeps (fun a g s => M a g s ∧ M' a g s) n p () s := by
    intro n
    induction n with
    | zero => exact fun _ _ => trivial
    | succ n ih =>
      intro p s hk hk'
      cases p with
      | ret a => exact ⟨hk, hk'⟩
      | loop body t k => exact ih hk hk'
      | instr i k =>
        intro s' he refused
        obtain ⟨g', hown, hrest⟩ := hk s' he.1 refused
        obtain ⟨g'', hown', hrest'⟩ := hk' s' he.2 refused
        exact ⟨(), ⟨hown, hown'⟩, ih hrest hrest'⟩
  exact fun _ s hs n => keeps n (h () s hs.1 n) (h' () s hs.2 n)

/-- Nothing more is asked of the instructions that a program has. -/
theorem Leads.asking {P : Instr → State → Prop} {C : Instr → Prop} (h : D.Leads R p M)
    (hp : p.All C) (hC : ∀ i s, C i → P i s) : (D.asking P).Leads R p M := by
  have keeps : ∀ n {p : Prog α} {s}, p.All C → D.Keeps M n p () s →
      (D.asking P).Keeps M n p () s := by
    intro n
    induction n with
    | zero => exact fun _ _ => trivial
    | succ n ih =>
      intro p s hp hk
      cases p with
      | ret a => exact hk
      | loop body t k => exact ih hp.unroll hk
      | instr i k =>
        intro s' he refused
        obtain ⟨g', hown, hrest⟩ := hk s' he refused
        exact ⟨(), ⟨hown, hC i s' hp.1⟩, ih (hp.2 _) hrest⟩
  exact fun _ s hs n => keeps n hp (h () s hs n)

end Discipline

/-! ## The exclusive monitor -/

/-- Others open no monitor that is closed. -/
def monitoring : Discipline Unit where
  env _ s s' := s.core.monitor = none → s'.core.monitor = none
  own _ _ _ _ _ _ := True

/-- A program that pairs its exclusives leaves the monitor closed. -/
theorem Prog.Paired.closes {α : Type} {p : Prog α} (h : p.Paired none) :
    monitoring.Leads (fun _ s => s.core.monitor = none) p fun _ _ s => s.core.monitor = none := by
  -- within the program, the monitor is open only right after a load-exclusive
  have keeps : ∀ n {p : Prog α} {o s}, p.Paired o → (o = none → s.core.monitor = none) →
      monitoring.Keeps (fun _ _ s => s.core.monitor = none) n p () s := by
    intro n
    induction n with
    | zero => exact fun _ _ => trivial
    | succ n ih =>
      intro p o s hp hs
      cases p with
      | ret a => exact hs hp
      | loop body t k => exact ih (.unroll hp.2.1 hp.2.2 t) fun _ => hs hp.1
      | instr i k =>
        intro s' he refused
        refine ⟨(), trivial, ih (hp.2 _) fun hnone => ?_⟩
        cases hi : i.exclusive with
        | false =>
          rw [Instr.monitor_of_not_exclusive hi]
          exact he (hs ((Instr.follows_of_not_exclusive hi).mp hp.1))
        | true =>
          cases i with
          | loadExclusive isa w a => cases hnone
          | storeExclusive isa w a v =>
            simp only [Instr.exec]
            split <;> rfl
          | clearExclusive isa => rfl
          | _ => cases hi
  exact fun _ s hs n => keeps n h fun _ => hs

/-! ## The word of the global lock -/

/-- Others leave the word of the global lock alone. A program takes the lock only when it is
free. -/
def taking : Discipline Unit where
  env _ s s' := s'.read .w64 .globalLock = s.read .w64 .globalLock
  own i _ _ s _ _ := i = .write .w64 .globalLock 1 → s.read .w64 .globalLock = 0

namespace taking

/-- The word of the global lock is this. -/
def Word (v : Word .w64) (_ : Unit) (s : State) : Prop := s.read .w64 .globalLock = v

variable {u v : Atomicity.Word .w64} {α : Type} {p : Prog α}

theorem elsewhere {i : Instr} (h : i.target? ≠ some .globalLock) :
    taking.Leads (Word v) (perform i) fun _ => Word v := by
  refine .instr fun _ _ s' refused hs he => ⟨(), fun hi => ?_, ?_⟩
  · subst hi
    exact absurd rfl h
  · exact (Instr.read_of_target? h refused s' .w64).trans (he.trans hs)

theorem spares (hp : p.All fun i => i.target? ≠ some .globalLock) :
    taking.Leads (Word v) p fun _ => Word v :=
  .all (fun _ hi => elsewhere hi) hp

/-- What a part that runs with interrupts masked does to the word is done by the part. -/
theorem masking {c : Controller} {P : α → Prop}
    (h : taking.Leads (Word v) p fun r g s => P r ∧ Word u g s) :
    taking.Leads (Word v) (c.masking p) fun r g s => P r ∧ Word u g s :=
  (spares (c.all_disable fun _ hi => Instr.target?_ne_of_commands hi _)).bind fun b =>
    h.bind fun _ => .given fun hr =>
      (spares (c.all_enableIf (fun _ hi => Instr.target?_ne_of_commands hi _) b)).bind fun _ =>
        .ret fun _ _ hs => ⟨hr, hs⟩

theorem write (h : u = 1 → v = 0) :
    taking.Leads (Word v) (perform (.write .w64 .globalLock u)) fun _ => Word u := by
  refine .instr fun _ _ s' refused hs he => ⟨(), fun hi => ?_, s'.read_write_self ..⟩
  have hu : u = 1 := by simpa using hi
  exact (he.trans hs).trans (h hu)

/-- To swap the word answers what was there; and the lock is taken only when it is free. -/
theorem swap (c : Controller) (isa : Isa) (h : u = 1 → v = 0) :
    taking.Leads (Word v) (Backend.maskedSwap c isa .globalLock u) fun r g s =>
      r = v ∧ Word u g s := by
  have fence : ∀ v, taking.Leads (Word v) (perform (.fence isa)) fun _ => Word v :=
    fun _ => elsewhere (Instr.target?_ne_of_eq_none rfl _)
  have read : taking.Leads (Word v) (perform (.read .w64 .globalLock)) fun r g s =>
      r = v ∧ Word v g s :=
    .instr fun _ _ s' refused hs he =>
      ⟨(), fun hi => Instr.noConfusion hi, he.trans hs, he.trans hs⟩
  refine masking
    ((fence v).bind fun _ => read.bind fun r => .given fun hr => (write h).bind fun _ => ?_)
  exact (fence u).bind fun _ => .ret fun _ _ hs => ⟨hr, hs⟩

theorem construct : taking.Leads (Word 0) (GlobalLock.construct (.ret ())) fun _ => Word 0 := by
  refine .all (P := fun i => i = .startConstruction ∨ i = .endConstruction) (fun i hi => ?_)
    (GlobalLock.all_construct (.inl rfl) (.inr rfl))
  rcases hi with rfl | rfl
  · exact elsewhere (Instr.target?_ne_of_eq_none rfl _)
  · exact .instr fun _ _ s' refused _ _ =>
      ⟨(), fun hi => Instr.noConfusion hi, s'.read_write_self ..⟩

/-- **A section finds the global lock free when it takes it**, and leaves it free. -/
theorem locked (c : Controller) (base : Backend) (hp : taking.Leads (Word 1) p fun _ => Word 1) :
    taking.Leads (Word 0) (GlobalLock.locked c base p) fun _ => Word 0 := by
  have fence : taking.Leads (Word 1) base.fence fun _ => Word 1 :=
    elsewhere (Instr.target?_ne_of_eq_none rfl _)
  have attempt :
      taking.Leads (Word 0) (RawLock.global.tryAcquire (.globalLock c base)) fun ok g s =>
      ok = true ∧ Word 1 g s :=
    (swap c base.barrier fun _ => rfl).bind fun r => .ret fun _ _ hs => ⟨beq_iff_eq.mpr hs.1, hs.2⟩
  have acquire : taking.Leads (Word 0) (RawLock.global.acquire (.globalLock c base)) fun _ =>
      Word 1 := by
    refine .untilTrue (attempt.mono fun ok g s hs => ?_)
    obtain ⟨rfl, hs⟩ := hs
    exact hs
  have release : taking.Leads (Word 1) (RawLock.global.release (.globalLock c base)) fun _ =>
      Word 0 :=
    (swap c base.barrier fun h => absurd h (by decide)).bind fun _ => .ret fun _ _ hs => hs.2
  refine (elsewhere (i := .enterLocked) (Instr.target?_ne_of_eq_none rfl _)).bind fun _ =>
    ((masking (P := fun _ => True) ?_).mono fun _ _ _ hs => hs.2).bind fun _ =>
      (elsewhere (i := .leaveLocked) (Instr.target?_ne_of_eq_none rfl _)).bind fun _ =>
        .ret fun _ _ hs => hs
  exact construct.bind fun _ => acquire.bind fun _ => fence.bind fun _ => hp.bind fun _ =>
    fence.bind fun _ => release.bind fun _ => .ret fun _ _ hs => ⟨trivial, hs⟩

end taking

/-- A balanced program takes the global lock only when it is free, and leaves it free. -/
theorem Balanced.takes {b : Backend} {a : Addr} (ha : a ≠ .globalLock) {α : Type} {p : Prog α}
    (h : Balanced b a p) : taking.Leads (taking.Word 0) p fun _ => taking.Word 0 := by
  have plain : ∀ {v} {β : Type} {q : Prog β}, q.All (Instr.Plain a) →
      taking.Leads (taking.Word v) q fun _ => taking.Word v := by
    intro v β q hq
    refine taking.spares (hq.mono fun i hi htarget => ?_)
    rcases hi.2 with hnone | hsome
    · rw [hnone] at htarget
      cases htarget
    · exact ha (Option.some.inj (hsome.symm.trans htarget))
  induction h with
  | plain h => exact plain h
  | masked h =>
    exact (taking.masking (P := fun _ => True) ((plain h).mono fun _ _ _ hs => ⟨trivial, hs⟩)).mono
      fun _ _ _ hs => hs.2
  | locked hb h => exact taking.locked _ _ (plain h)
  | bind first next ihfirst ihnext => exact ihfirst.bind ihnext
  | iterate round t ih => exact .iterate_keeps ih t

/-! ## All of these at once -/

/-- Others leave interrupts and the global lock as they are, and open no monitor. A program takes
the lock only when it is free, and enters the function of a caller outside of locks and masks. -/
def calling (c : Controller) (core : Core) : Discipline Unit :=
  ((InterruptState.preserving c core).and (monitoring.and taking)).asking fun i s =>
    i = .enterUpdate → s.Outside core

namespace calling

variable {c : Controller} {core : Core} {α : Type} {p : Prog α} {x : Interference}

theorem env_refl (i : Instr) (s : State) : (calling c core).env i s s := ⟨rfl, id, rfl⟩

theorem admits (hx : x.addr ≠ .globalLock) : (calling c core).Admits x :=
  Admits.of_writes (D := calling c core) env_refl fun _ _ _ v h =>
    ⟨h.1, fun _ => rfl, (Memory.read_write_of_ne _ v hx).trans h.2.2⟩

/-- What others do outside leaves a state outside. -/
theorem outside_of_env {i : Instr} {s s' : State} (h : (calling c core).env i s s')
    (hs : s.Outside core) :
    s'.Outside core :=
  ⟨h.1.trans hs.core, h.2.1 hs.monitor, h.2.2.trans hs.free⟩

/-- A state is outside if each of the parts says so. -/
theorem outside_iff {g : Unit} {s : State} : (InterruptState.Flag c core (c.enabled core) g s ∧
    s.core.monitor = none ∧ taking.Word 0 g s) ↔ s.Outside core := by
  constructor
  · rintro ⟨hflag, hmonitor, hfree⟩
    exact ⟨hflag.unreserved, hmonitor, hfree⟩
  · intro h
    exact ⟨h.core.trans (congrArg Core.unreserved (c.put_self core)).symm, h.monitor, h.free⟩

/-- An operation that enters no function. -/
theorem primitive {b : Backend} {a : Addr} (ha : a ≠ .globalLock) (h : Operates b a p)
    (hp : p.All fun i => i.entersUpdate = false) :
    (calling b.controller core).Leads (fun _ s => s.Outside core) p fun _ _ s =>
      s.Outside core := by
  have hflag : (InterruptState.preserving b.controller core).Leads
      (InterruptState.Flag b.controller core (b.controller.enabled core)) p
      fun _ => InterruptState.Flag b.controller core (b.controller.enabled core) :=
        h.balanced.flag id
  have hparts := hflag.and (h.paired.closes.and (h.balanced.takes ha))
  refine ((hparts.asking hp ?_).weaken fun _ _ hs => outside_iff.mpr hs).mono fun _ _ _ hs =>
    outside_iff.mp hs
  rintro i s hi rfl
  cases hi

end calling

/-- The instruction touches neither interrupts nor the monitor nor the word of the global lock. -/
def Instr.Apart (i : Instr) : Prop :=
  i.controls = false ∧ i.exclusive = false ∧ i.target? ≠ some .globalLock

/-- Such an instruction is executed outside, and leaves the state there. -/
theorem Instr.Apart.calling {i : Instr} (h : i.Apart) {c : Controller} {core : Core} :
    (calling c core).Leads (fun _ s => s.Outside core) (perform i) fun _ _ s => s.Outside core := by
  refine .instr fun _ s s' refused hs he => ⟨(), ?_⟩
  have hs' := calling.outside_of_env he hs
  have hcore := i.unreserved_of_not_controls h.1 refused s'
  have hafter : (i.exec refused s').2.Outside core := {
    core := hcore.trans hs'.core
    monitor := (Instr.monitor_of_not_exclusive h.2.1 refused s').trans hs'.monitor
    free := (Instr.read_of_target? h.2.2 refused s' .w64).trans hs'.free }
  refine ⟨⟨⟨⟨c.enabled core, id, (calling.outside_iff.mpr hafter).1⟩, trivial, fun hi => ?_⟩,
    fun _ => hs'⟩, hafter⟩
  subst hi
  exact absurd rfl h.2.2

/-- **An operation enters every function of its caller outside**, and ends there. -/
theorem Operates.calling {b : Backend} {a : Addr} (ha : a ≠ .globalLock) {α : Type} {p : Prog α}
    (h : Operates b a p) (core : Core) :
    (calling b.controller core).Leads (fun _ s => s.Outside core) p fun _ _ s =>
      s.Outside core := by
  have still : ∀ i : Instr, i.target? = none → i.records = false → i.entersUpdate = false →
      i.entersUpdate = false := fun _ _ _ h => h
  have lock : b.strategy = .globalLock → Instr.startConstruction.entersUpdate = false ∧
      ∀ i : Instr, i.target? = some .globalLock → i.entersUpdate = false := by
    refine fun _ => ⟨rfl, fun i hi => ?_⟩
    cases i <;> first | rfl | cases hi
  induction h with
  | load w => exact calling.primitive ha (.load w) (b.all_load still lock rfl)
  | store v => exact calling.primitive ha (.store v) (b.all_store still lock rfl)
  | exchange v =>
    exact calling.primitive ha (.exchange v)
      (b.all_exchange still lock rfl rfl (fun _ => rfl) (fun _ => rfl) fun _ => rfl)
  | compareExchange expected desired =>
    exact calling.primitive ha (.compareExchange expected desired)
      (b.all_compareExchange still lock rfl rfl rfl (fun _ => rfl) fun _ => rfl)
  | addAtOnce hb v =>
    exact calling.primitive ha (.addAtOnce hb v)
      (b.all_fetchAdd still lock hb rfl (fun _ => rfl) rfl)
  | testSetLock v =>
    refine calling.primitive ha (.testSetLock v)
      (b.all_testSetLock (fun _ => rfl) (fun _ => rfl) (fun _ => rfl) (fun _ => rfl) (fun _ => rfl)
        fun _ => ⟨rfl, rfl, fun _ => Instr.not_entersUpdate_of_commands⟩)
  | privilegedStore v =>
    exact calling.primitive ha (.privilegedStore v) (b.all_privilegedStore still rfl rfl)
  | snapshot =>
    refine calling.primitive ha .snapshot ?_
    exact .bind (.perform rfl) fun _ => .bind (.perform rfl) fun _ =>
      .bind (.perform rfl) fun _ => .ret _
  | enterUpdate =>
    have hapart : Instr.enterUpdate.Apart := ⟨rfl, rfl, Instr.target?_ne_of_eq_none rfl _⟩
    exact hapart.calling
  | ret r => exact .ret fun _ _ hs => hs
  | bind first next ihfirst ihnext => exact ihfirst.bind ihnext
  | iterate round t ih => exact .iterate_keeps ih t

/-- The program consists of operations of a backend on words other than that of the global lock, and
of what touches neither that word nor interrupts nor the monitor. -/
inductive Tidy (b : Backend) : {α : Type} → Prog α → Prop where
  | operation {a : Addr} (ha : a ≠ .globalLock) {α : Type} {p : Prog α} (h : Operates b a p) :
      Tidy b p
  | own {α : Type} {p : Prog α} (h : p.All Instr.Apart) : Tidy b p
  | bind {α β : Type} {p : Prog α} {f : α → Prog β} (first : Tidy b p) (next : ∀ r, Tidy b (f r)) :
      Tidy b (p.bind f)
  | iterate {σ β : Type} {body : σ → Prog (σ ⊕ β)} (round : ∀ t, Tidy b (body t)) (t : σ) :
      Tidy b (Prog.iterate body t)

namespace Tidy

variable {b : Backend} {α τ : Type} {p : Prog α} {core : Core}

theorem ret (r : α) : Tidy b (.ret r) := own (.ret r)

/-- To enter a function, to call it and to try to write its result is tidy if the function is. -/
theorem fetchUpdate {w : Width} {a : Addr} (ha : a ≠ .globalLock)
    {f : τ → Word w → Prog (Word w × τ)}
    (hf : ∀ t v, Tidy b (f t v)) (start : τ) : Tidy b (b.fetchUpdate w a f start) :=
  (operation ha (.load w)).bind fun _ =>
    .iterate (fun (y : Word w × τ) => (operation ha .enterUpdate).bind fun _ =>
    (hf y.2 y.1).bind fun _ => (operation ha (.compareExchange _ _)).bind fun _ => ret _) _

/-- **A tidy program complies**, and ends outside. -/
theorem calling (h : Tidy b p) (core : Core) :
    (calling b.controller core).Leads (fun _ s => s.Outside core) p fun _ _ s =>
      s.Outside core := by
  induction h with
  | operation ha h => exact h.calling ha core
  | own h => exact .all (fun _ hi => hi.calling) h
  | bind first next ihfirst ihnext => exact ihfirst.bind ihnext
  | iterate round t ih => exact .iterate_keeps ih t

/-- **A tidy program that is begun outside calls every function outside, under any interference**,
finds the global lock free whenever it takes it, and ends outside. -/
theorem run (h : Tidy b p) {x : Interference} (hx : x.addr ≠ .globalLock) {c : Solo α}
    (hc : c.rest = p) (hs : c.state.Outside core) (n : Nat) :
    (∀ k, (c.run x n).rest = .instr .enterUpdate k → (c.run x n).state.Outside core) ∧
    (∀ k, (c.run x n).rest = .instr (.write .w64 .globalLock 1) k →
      (c.run x n).state.read .w64 .globalLock = 0) ∧
    ∀ r, (c.run x n).rest = .ret r → (c.run x n).state.Outside core := by
  subst hc
  obtain ⟨g, -, hkeeps⟩ := @Keeps.run Unit α _ x (calling.admits hx) _ (fun _ _ _ => True)
    (fun _ _ _ _ _ _ _ _ _ _ => trivial) n 1 c [] () (h.calling core () c.state hs (n + 1)) trivial
  refine ⟨fun k hk => ?_, fun k hk => ?_, fun r hr => ?_⟩
  · rw [hk] at hkeeps
    obtain ⟨g', hown, -⟩ := hkeeps _ (calling.env_refl _ _) false
    exact hown.2 rfl
  · rw [hk] at hkeeps
    obtain ⟨g', hown, -⟩ := hkeeps _ (calling.env_refl _ _) false
    exact hown.1.2.2 rfl
  · rw [hr] at hkeeps
    exact hkeeps

end Tidy

end Atomicity
