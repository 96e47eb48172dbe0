import Atomicity.Proofs.Leads
import Atomicity.Proofs.Operates

/-!
# The exclusive monitor

An operation that leaves its monitor open changes nothing for itself: the reservation is found by
some later store-exclusive, of another operation. So what keeps operations apart is a property of
programs, not of runs.

**`Prog.Paired`** is that property. A store-exclusive comes right after a load-exclusive of the same
word, and after a load-exclusive comes a store-exclusive of that word or a clear-exclusive: no other
instruction is in between, no round of a loop ends in between, and no program answers there. It is a
recursion on the program, and `bind` and loops preserve it, so it holds of every operation on every
backend (`Operates.paired`), of every step (`Step.paired`), and of updates whose function is put
together of steps itself (`Stepwise.paired`).

A `Course` is one context in the middle of a program. At each of its steps an `Incident` says what
others write just before, to any words, and whether the instruction is refused. What one step
preserves (`Course.step_owes`): a monitor that is open has been opened by the step before.

**`Task.monitor_closed`** follows by induction on the schedule, for every run of tasks.
-/

namespace Atomicity

open Prog

/-- An instruction on the exclusive monitor. -/
def Instr.exclusive : Instr → Bool
  | loadExclusive .. | storeExclusive .. | clearExclusive _ => true
  | _ => false

/-- What an instruction reserves, and with which CPU's instructions. -/
def Instr.reserves : Instr → Option (PairIsa × Reservation)
  | loadExclusive isa w a => some (isa, ⟨w, a⟩)
  | _ => none

/-- The instruction may come right after one that has made the reservation, or none. -/
def Instr.Follows (o : Option (PairIsa × Reservation)) : Instr → Prop
  | storeExclusive isa w a _ => o = some (isa, ⟨w, a⟩)
  | clearExclusive _ => True
  | _ => o = none

namespace Instr

variable {i : Instr} {o : Option (PairIsa × Reservation)}

theorem reserves_of_not_exclusive (h : i.exclusive = false) : i.reserves = none := by
  cases i <;> first | rfl | cases h

theorem follows_of_not_exclusive (h : i.exclusive = false) : i.Follows o ↔ o = none := by
  cases i <;> first | exact Iff.rfl | cases h

theorem exclusive_of_commands (h : i.commands = true) : i.exclusive = false := by
  cases i <;> first | rfl | cases h

theorem monitor_of_not_exclusive (h : i.exclusive = false) (refused : Bool) (s : State) :
    (i.exec refused s).2.core.monitor = s.core.monitor := by
  cases i with
  | loadExclusive isa w a => cases h
  | storeExclusive isa w a v => cases h
  | clearExclusive isa => cases h
  | compareSwap w a expected desired =>
    simp only [exec]
    split <;> rfl
  | claimCore =>
    simp only [exec]
    split <;> rfl
  | lineRestore b => cases b <;> rfl
  | startConstruction =>
    simp only [exec]
    split <;> rfl
  | _ => rfl

end Instr

/-! ## Programs -/

namespace Prog

/-- Begun right after an instruction that has made the reservation, or none, a program pairs every
store-exclusive with the load-exclusive right before it, and leaves no load-exclusive alone. -/
def Paired {α : Type} : Prog α → Option (PairIsa × Reservation) → Prop
  | .ret _, o => o = none
  | .instr i k, o => i.Follows o ∧ ∀ r, (k r).Paired i.reserves
  | .loop body _ k, o => o = none ∧ (∀ t, (body t).Paired none) ∧ ∀ b, (k b).Paired none

namespace Paired

variable {α β σ : Type} {p : Prog α} {o : Option (PairIsa × Reservation)}

theorem ret (a : α) : (Prog.ret a).Paired none := rfl

theorem perform {i : Instr} (h : i.exclusive = false) : (Prog.perform i).Paired none := by
  refine ⟨(Instr.follows_of_not_exclusive h).mpr rfl, fun r => ?_⟩
  rw [Instr.reserves_of_not_exclusive h]
  exact ret r

theorem bind {f : α → Prog β} (h : p.Paired o) (next : ∀ a, (f a).Paired none) :
    (p.bind f).Paired o := by
  induction p generalizing o with
  | ret a =>
    cases h
    exact next a
  | instr i k ih => exact ⟨h.1, fun r => ih r (h.2 r) next⟩
  | loop body t k _ ih => exact ⟨h.1, h.2.1, fun b => ih b (h.2.2 b) next⟩

theorem map (h : p.Paired o) (k : α → β) : (p.bind fun a => .ret (k a)).Paired o :=
  h.bind fun a => ret (k a)

theorem iterate {body : σ → Prog (σ ⊕ β)} (h : ∀ t, (body t).Paired none) (t : σ) :
    (Prog.iterate body t).Paired none :=
  ⟨rfl, h, ret⟩

theorem untilTrue {attempt : Prog Bool} (h : attempt.Paired none) :
    (Prog.untilTrue attempt).Paired none :=
  iterate (fun _ => h.map _) ()

/-- A round of a loop, and what follows it. -/
theorem unroll {body : σ → Prog (σ ⊕ β)} {k : β → Prog α} (h : ∀ t, (body t).Paired none)
    (next : ∀ b, (k b).Paired none) (t : σ) : (Prog.unroll body t k).Paired none := by
  refine bind (h t) fun r => ?_
  cases r with
  | inl t => exact ⟨rfl, h, next⟩
  | inr b => exact next b

/-- A program that has no instruction on the monitor. -/
theorem of_all (h : p.All fun i => i.exclusive = false) : p.Paired none := by
  induction p with
  | ret a => exact ret a
  | instr i k ih =>
    obtain ⟨hi, hk⟩ := h
    refine bind (perform hi) fun r => ih r (hk r)
  | loop body t k ihbody ih => exact ⟨rfl, fun t => ihbody t (h.1 t), fun b => ih b (h.2 b)⟩

theorem masking (c : Controller) (h : p.Paired none) : (c.masking p).Paired none := by
  have quiet : ∀ i : Instr, i.commands = true → i.exclusive = false :=
    fun i => Instr.exclusive_of_commands
  exact (of_all (c.all_disable quiet)).bind fun b => h.bind fun r =>
    (of_all (c.all_enableIf quiet b)).bind fun _ => ret r

/-! ### What backends provide -/

section

variable {w : Width} {a : Addr}

theorem fenced {isa : Isa} (h : p.Paired none) : Prog.Paired (do
    Prog.perform (.fence isa)
    let r ← p
    Prog.perform (.fence isa)
    return r) none :=
  (perform rfl).bind fun _ => h.bind fun r => (perform rfl).bind fun _ => ret r

theorem load (isa : Isa) : (isa.load w a).Paired none := fenced (perform rfl)

theorem store (isa : Isa) (v : Word w) : (isa.store w a v).Paired none :=
  (perform rfl).bind fun _ => (perform rfl).bind fun _ => perform rfl

theorem announced (primitive : Primitive) (h : p.Paired none) :
    (Native.announced primitive p).Paired none :=
  (perform rfl).bind fun _ => h

theorem nativeCompareExchange (expected desired : Word w) :
    (Native.compareExchange w a expected desired).Paired none :=
  (perform rfl).bind fun _ => ret _

theorem readWrite (v : Word w → Word w) : Prog.Paired (do
    let previous ← Prog.perform (.read w a)
    Prog.perform (.write w a (v previous))
    return previous) none :=
  (perform rfl).bind fun r => (perform rfl).bind fun _ => ret r

theorem writeWhen (c : Prop) [Decidable c] (v : Word w) :
    (Prog.when c (Prog.perform (.write w a v))).Paired none := by
  unfold Prog.when
  split
  · exact perform rfl
  · exact ret ()

theorem compareWrite (expected desired : Word w) : Prog.Paired (do
    let found ← Prog.perform (.read w a)
    Prog.when (found = expected) (Prog.perform (.write w a desired))
    return Comparison.ofFound expected found) none :=
  (perform rfl).bind fun _ => (writeWhen _ desired).bind fun _ => ret _

theorem maskedCompare (c : Controller) (isa : SwapIsa) (expected desired : Word w) :
    (SingleCore.compareExchange c isa w a expected desired).Paired none :=
  masking c
    ((perform rfl).bind fun _ => (perform rfl).bind fun _ => (writeWhen _ desired).bind fun _ =>
    (perform rfl).bind fun _ => ret _)

theorem pairExchange (isa : PairIsa) (v : Word w) : (isa.exchange w a v).Paired none := by
  refine (perform rfl).bind fun _ => (iterate (fun _ => ?_) ()).bind fun _ =>
    (perform rfl).bind fun _ => ret _
  exact ⟨rfl, fun found => ⟨rfl, fun stored => ret _⟩⟩

/-- A comparison that fails clears the monitor, and one that succeeds goes on to store. -/
theorem pairCompareExchange (isa : PairIsa) (expected desired : Word w) :
    (isa.compareExchange w a expected desired).Paired none := by
  refine (perform rfl).bind fun _ => (iterate (fun _ => ?_) ()).bind fun _ =>
    (perform rfl).bind fun _ => ret _
  refine ⟨rfl, fun found => ?_⟩
  dsimp only [ret_bind]
  split
  · exact ⟨rfl, fun stored => ret _⟩
  · exact ⟨trivial, fun _ => ret _⟩

theorem maskedSwap (c : Controller) (isa : Isa) (v : Word .w64) :
    (Backend.maskedSwap c isa a v).Paired none :=
  masking c (of_all (all_swapping rfl rfl rfl))

theorem testSetLock (b : Backend) (v : Word .w64) : (b.testSetLock a v).Paired none := by
  cases b with
  | native => exact perform rfl
  | traced => exact announced _ (perform rfl)
  | casOnly => exact announced _ (perform rfl)
  | pair isa => exact pairExchange isa v
  | singleCore c isa widths => exact fenced (perform rfl)
  | globalLock c base => exact maskedSwap c _ v

theorem privilegedStore (b : Backend) (v : Word .w64) : (b.privilegedStore a v).Paired none := by
  cases b with
  | native => exact store _ v
  | traced => exact announced _ (store _ v)
  | casOnly => exact announced _ (store _ v)
  | pair isa => exact store _ v
  | singleCore c isa widths => exact store _ v
  | globalLock c base => exact (maskedSwap c _ v).map _

/-- Under the global lock the base is asked for its fence, and for nothing else. -/
theorem locked (c : Controller) (base : Backend) (h : p.Paired none) :
    (GlobalLock.locked c base p).Paired none := by
  have construct : (GlobalLock.construct (.ret ())).Paired none :=
    of_all (GlobalLock.all_construct rfl rfl)
  have acquire : (RawLock.global.acquire (.globalLock c base)).Paired none :=
    untilTrue ((testSetLock _ 1).map _)
  have fence : base.fence.Paired none := perform rfl
  have release : (RawLock.global.release (.globalLock c base)).Paired none := privilegedStore _ 0
  refine (perform rfl).bind fun _ => (masking c ?_).bind fun r => (perform rfl).bind fun _ => ret r
  exact construct.bind fun _ => acquire.bind fun _ => fence.bind fun _ => h.bind fun r =>
    fence.bind fun _ => release.bind fun _ => ret r

end

end Paired

end Prog

/-- **Every operation pairs its exclusives.** -/
theorem Operates.paired {b : Backend} {a : Addr} {α : Type} {p : Prog α} (h : Operates b a p) :
    p.Paired none := by
  induction h with
  | load w =>
    cases b with
    | native => exact .load _
    | traced => exact .announced _ (.load _)
    | casOnly => exact .announced _ (.load _)
    | pair isa => exact .load _
    | singleCore c isa widths => exact .load _
    | globalLock c base => exact .locked c base (.perform rfl)
  | store v =>
    cases b with
    | native => exact .store _ v
    | traced => exact .announced _ (.store _ v)
    | casOnly => exact .announced _ (.store _ v)
    | pair isa => exact .store _ v
    | singleCore c isa widths => exact .store _ v
    | globalLock c base => exact .locked c base (.perform rfl)
  | exchange v =>
    cases b with
    | native => exact .perform rfl
    | traced => exact .announced _ (.perform rfl)
    | casOnly => exact .announced _ (.perform rfl)
    | pair isa => exact .pairExchange isa v
    | singleCore c isa widths => exact .fenced (.perform rfl)
    | globalLock c base => exact .locked c base (.readWrite fun _ => v)
  | compareExchange expected desired =>
    cases b with
    | native => exact .nativeCompareExchange expected desired
    | traced => exact .announced _ (.nativeCompareExchange expected desired)
    | casOnly => exact .announced _ (.nativeCompareExchange expected desired)
    | pair isa => exact .pairCompareExchange isa expected desired
    | singleCore c isa widths => exact .maskedCompare c isa expected desired
    | globalLock c base => exact .locked c base (.compareWrite expected desired)
  | addAtOnce hadd v =>
    cases b with
    | native => exact .perform rfl
    | traced => exact .announced _ (.perform rfl)
    | globalLock c base => exact .locked c base (.readWrite (· + v))
    | casOnly => cases hadd
    | pair isa => cases hadd
    | singleCore c isa widths => cases hadd
  | testSetLock v => exact .testSetLock b v
  | privilegedStore v => exact .privilegedStore b v
  | snapshot => exact .load _
  | enterUpdate => exact .perform rfl
  | ret r => exact .ret r
  | bind first next ihfirst ihnext => exact ihfirst.bind ihnext
  | iterate round t ih => exact .iterate ih t

/-! ## Steps, and what is put together of them -/

theorem SpinLock.paired_acquireMasked {t : Scalar} (l : SpinLock t) :
    l.acquireMasked.Paired none := by
  have disable : l.backend.controller.disable.Paired none :=
    .of_all (l.backend.controller.all_disable fun _ => Instr.exclusive_of_commands)
  have acquire : (l.lock.acquire l.backend).Paired none :=
    (Operates.tryAcquire l.lock).untilTrue.paired
  exact disable.bind fun b => acquire.bind fun _ => .ret _

theorem SpinLock.paired_unlock {t : Scalar} (l : SpinLock t) (g : Guard) :
    (l.unlock g).Paired none := by
  refine (Paired.privilegedStore l.backend 0).bind fun _ => ?_
  cases g.restore with
  | none => exact .ret ()
  | some b =>
    exact .of_all (l.backend.controller.all_enableIf (fun _ => Instr.exclusive_of_commands) b)

namespace Step

theorem paired_answering (st : Step) : st.answering.Paired none := by
  have commanding : ∀ i : Instr, i.commands = true → i.exclusive = false :=
    fun _ => Instr.exclusive_of_commands
  cases hplace : st.place? with
  | some e => exact (operates hplace).paired
  | none =>
    cases st with
    | cell c op =>
      cases op with
      | replace v =>
        exact .map ((Paired.perform rfl).bind fun _ => (Paired.perform rfl).bind fun _ => .ret _) _
      | inner => exact .map ((Paired.perform rfl).map _) _
      | _ => cases hplace
    | fence b => exact (Paired.perform rfl).map _
    | spin l op => exact .ret _
    | disable c => exact (Paired.of_all (c.all_disable commanding)).map _
    | enableIf c b => exact (Paired.of_all (c.all_enableIf commanding b)).map _
    | _ => cases hplace

theorem paired_spin {t : Scalar} (l : SpinLock t) (gs : LiveGuards) (op : SpinOp t) :
    (op.prog l gs).Paired none := by
  have attempt : l.tryAcquire.Paired none := (Operates.tryAcquire l.lock).paired.map _
  have acquire : l.acquire.Paired none := (Operates.tryAcquire l.lock).untilTrue.paired.map _
  have look : l.isLocked.Paired none :=
    (Operates.snapshot (b := l.backend) (a := l.lock.word)).paired.map _
  cases op with
  | acquire name => exact acquire.map _
  | tryAcquire name =>
    refine attempt.bind fun r => ?_
    cases r <;> exact .ret _
  | acquireMasked name => exact l.paired_acquireMasked.map _
  | unlock name =>
    cases hfind : gs.find? l.lock name with
    | none =>
      simp only [SpinOp.prog, hfind]
      exact .ret _
    | some g =>
      simp only [SpinOp.prog, hfind]
      exact (l.paired_unlock g).map _
  | forget name => exact .ret _
  | value name => exact ((Paired.perform rfl).map _).map _
  | setValue name v => exact (Paired.perform rfl).map _
  | isLocked => exact look.map _
  | replace v =>
    exact .map (((Paired.perform rfl).map _).bind fun _ =>
      (Paired.perform rfl).bind fun _ => .ret _) _
  | renew =>
    exact .map (((Paired.perform rfl).map _).bind fun _ =>
      (Paired.perform rfl).bind fun _ => .ret _) _
  | brief masked v =>
    have critical : (l.brief masked v).Paired none := by
      cases masked with
      | true =>
        exact l.paired_acquireMasked.bind fun g => (Paired.perform rfl).bind fun _ =>
          l.paired_unlock g
      | false => exact acquire.bind fun g => (Paired.perform rfl).bind fun _ => l.paired_unlock g
    refine look.bind fun held => ?_
    cases held with
    | true => exact .ret _
    | false => exact critical.map _

/-- **Every step pairs its exclusives**, whatever it is about. -/
theorem paired (st : Step) (gs : LiveGuards) : (st.prog gs).Paired none := by
  cases st with
  | spin l op => exact paired_spin l gs op
  | _ => exact (paired_answering _).map _

end Step

/-- The program is put together of steps, and of updates whose function is so itself. -/
inductive Stepwise : {α : Type} → Prog α → Prop where
  | step (st : Step) (gs : LiveGuards) : Stepwise (st.prog gs)
  | update {b : Backend} {w : Width} {a : Addr} {τ : Type} {f : τ → Word w → Prog (Word w × τ)}
      (hf : ∀ t x, Stepwise (f t x)) (t : τ) : Stepwise (b.fetchUpdate w a f t)
  | ret {α : Type} (r : α) : Stepwise (.ret r)
  | bind {α β : Type} {p : Prog α} {f : α → Prog β} (first : Stepwise p)
      (next : ∀ r, Stepwise (f r)) :
      Stepwise (p.bind f)
  | iterate {σ β : Type} {body : σ → Prog (σ ⊕ β)} (round : ∀ t, Stepwise (body t)) (t : σ) :
      Stepwise (Prog.iterate body t)

namespace Stepwise

/-- An update of a typed cell, with a function that is put together of steps. -/
theorem fetchUpdate {t : Scalar} (c : Atomic t) {τ : Type} {f : τ → t.Value → Prog (t.Value × τ)}
    (hf : ∀ s x, Stepwise (f s x)) (s : τ) : Stepwise (c.fetchUpdate f s) :=
  .bind (.update (fun s x => .bind (hf s (.ofRepr x)) fun _ => .ret _) s) fun _ => .ret _

theorem paired {α : Type} {p : Prog α} (h : Stepwise p) : p.Paired none := by
  induction h with
  | step st gs => exact st.paired gs
  | @update b w a τ f hf t ih =>
    refine (Operates.load (b := b) (a := a) w).paired.bind fun first => ?_
    refine .iterate (fun y => ?_) (first, t)
    refine (Paired.perform rfl).bind fun _ => (ih y.2 y.1).bind fun z => ?_
    exact (Operates.compareExchange y.1 z.1).paired.map _
  | ret r => exact .ret r
  | bind first next ihfirst ihnext => exact ihfirst.bind ihnext
  | iterate round t ih => exact .iterate ih t

end Stepwise

/-! ## Runs -/

/-- What happens at one step of a context from outside. -/
structure Incident where
  /-- What others write just before it, first write first. -/
  writes : List ((w : Width) × Addr × Word w)
  /-- The instruction is refused, if it is one that can be. -/
  refused : Bool

/-- What others write just before a step. Each of their writes closes the monitor. -/
def Incident.befall (e : Incident) (s : State) : State :=
  e.writes.foldl (fun s v => (s.write v.1 v.2.1 v.2.2).reserve none) s

/-- One context in the middle of a program. -/
structure Course (α : Type) : Type 1 where
  rest : Prog α
  state : State

namespace Course

variable {α : Type}

/-- One step, with what happens at it. Where the program has answered, nothing is left to do. -/
def step (c : Course α) (e : Incident) : Course α :=
  match c.rest with
  | .ret _ => c
  | .loop body t k => { c with rest := Prog.unroll body t k }
  | .instr i k =>
    let out := i.exec e.refused (e.befall c.state)
    ⟨k out.1, out.2⟩

def run (c : Course α) (es : List Incident) : Course α := es.foldl step c

/-- What the next instruction of a context reserves, if it does. -/
def reserves (c : Course α) : Option (PairIsa × Reservation) :=
  match c.rest with
  | .instr i _ => i.reserves
  | _ => none

/-- What is left of the program pairs its exclusives, begun after the reservation that has just been
made, if any; and a monitor that is open has been opened by it. -/
structure Owes (c : Course α) (o : Option (PairIsa × Reservation)) : Prop where
  paired : c.rest.Paired o
  opened : ∀ r, c.state.core.monitor = some r → ∃ isa, o = some (isa, r)

namespace Owes

variable {c : Course α} {o : Option (PairIsa × Reservation)}

theorem closed (h : c.Owes none) : c.state.core.monitor = none := by
  cases hm : c.state.core.monitor with
  | none => rfl
  | some r =>
    obtain ⟨isa, hr⟩ := h.opened r hm
    cases hr

end Owes

end Course

/-- A foreign write only ever closes a monitor. -/
theorem Incident.monitor_befall (e : Incident) (s : State) :
    (e.befall s).core.monitor = s.core.monitor ∨ (e.befall s).core.monitor = none := by
  unfold befall
  induction e.writes generalizing s with
  | nil => exact .inl rfl
  | cons v writes ih =>
    rw [List.foldl_cons]
    rcases ih ((s.write v.1 v.2.1 v.2.2).reserve none) with h | h
    · exact .inr h
    · exact .inr h

/-- What an instruction leaves open is what it reserves, if nothing has been open that it does not
follow. -/
theorem Instr.opened_exec {i : Instr} {o : Option (PairIsa × Reservation)} (hi : i.Follows o)
    (refused : Bool) {s : State} (h : ∀ r, s.core.monitor = some r → ∃ isa, o = some (isa, r)) :
    ∀ r, (i.exec refused s).2.core.monitor = some r → ∃ isa, i.reserves = some (isa, r) := by
  intro r hr
  cases hex : i.exclusive with
  | false =>
    rw [monitor_of_not_exclusive hex] at hr
    obtain ⟨isa, ho⟩ := h r hr
    rw [(follows_of_not_exclusive hex).mp hi] at ho
    cases ho
  | true =>
    cases i with
    | loadExclusive isa w a => exact ⟨isa, congrArg (fun r => some (isa, r)) (Option.some.inj hr)⟩
    | storeExclusive isa w a v =>
      simp only [exec] at hr
      split at hr <;> cases hr
    | clearExclusive isa => cases hr
    | _ => cases hex

namespace Course

variable {α : Type} {c : Course α} {o : Option (PairIsa × Reservation)}

/-- **A step of a context**: whatever happens at it, an open monitor has been opened by it. -/
theorem step_owes (h : c.Owes o) (e : Incident) : (c.step e).Owes c.reserves := by
  obtain ⟨p, s⟩ := c
  obtain ⟨hpaired, hopened⟩ := h
  cases p with
  | ret a =>
    obtain rfl : o = none := hpaired
    exact ⟨rfl, hopened⟩
  | loop body t k =>
    obtain ⟨rfl, hbody, hk⟩ := hpaired
    exact ⟨Paired.unroll hbody hk t, hopened⟩
  | instr i k =>
    obtain ⟨hi, hk⟩ := hpaired
    refine ⟨hk _, Instr.opened_exec hi e.refused fun r hr => ?_⟩
    rcases e.monitor_befall s with hsame | hnone
    · exact hopened r (hsame ▸ hr)
    · rw [hnone] at hr
      cases hr

theorem run_owes (h : c.Owes o) (es : List Incident) : ∃ o', (c.run es).Owes o' := by
  induction es generalizing c o with
  | nil => exact ⟨o, h⟩
  | cons e es ih => exact ih (step_owes h e)

/-- **What a run leaves open its last step has opened**, by a load-exclusive that has found the
monitor closed. -/
theorem run_reserves (h : c.Owes none) (es : List Incident) :
    (c.run es).Owes none ∨ ∃ es' e isa w a k, es = es' ++ [e] ∧
      (c.run es').rest = .instr (.loadExclusive isa w a) k ∧ (c.run es').state.core.monitor = none ∧
      (c.run es).Owes (some (isa, ⟨w, a⟩)) := by
  rcases es.eq_nil_or_concat with rfl | ⟨es', e, rfl⟩
  · exact .inl h
  · obtain ⟨o, howes⟩ := run_owes h es'
    have hstep : c.run (es' ++ [e]) = (c.run es').step e := by
      simp [run, List.foldl_append]
    have hnext := step_owes howes e
    rw [← hstep] at hnext
    cases hrest : (c.run es').rest with
    | ret a => exact .inl (by simpa [reserves, hrest] using hnext)
    | loop body t k => exact .inl (by simpa [reserves, hrest] using hnext)
    | instr i k =>
      cases i with
      | loadExclusive isa w a =>
        have hpaired := howes.paired
        rw [hrest] at hpaired
        obtain rfl : o = none := hpaired.1
        refine .inr ⟨es', e, isa, w, a, k, List.concat_eq_append, hrest, howes.closed, ?_⟩
        simpa [reserves, hrest, Instr.reserves] using hnext
      | _ => exact .inl (by simpa [reserves, hrest, Instr.reserves] using hnext)

end Course

/-- One thing that a context does, from its beginning to its answer. -/
structure Task where
  {Answer : Type}
  prog : Prog Answer
  stepwise : Stepwise prog

/-- A task begun in a state, after so many steps. -/
def Task.course (t : Task) (s : State) (es : List Incident) : Course t.Answer :=
  (Course.mk t.prog s).run es

/-- One context does one task after another. The state after the last, if every task has answered
within the steps that are there for it. -/
def rest? (s : State) : List (Task × List Incident) → Option State
  | [] => some s
  | (t, es) :: later =>
    if (t.course s es).rest.result?.isSome then rest? (t.course s es).state later else none

namespace Task

variable (t : Task) {s : State} (es : List Incident)

theorem course_reserves (hs : s.core.monitor = none) :
    (t.course s es).Owes none ∨ ∃ es' e isa w a k, es = es' ++ [e] ∧
      (t.course s es').rest = .instr (.loadExclusive isa w a) k ∧
      (t.course s es').state.core.monitor = none ∧ (t.course s es).Owes (some (isa, ⟨w, a⟩)) :=
  Course.run_reserves ⟨t.stepwise.paired, fun r hr => by rw [hs] at hr; cases hr⟩ es

/-- Where only that may come which follows no reservation, there is none. -/
theorem closed_of_paired (hs : s.core.monitor = none)
    (h : ∀ o, (t.course s es).rest.Paired o → o = none) :
    (t.course s es).state.core.monitor = none := by
  rcases t.course_reserves es hs with howes | ⟨_, _, isa, w, a, _, _, _, _, howes⟩
  · exact howes.closed
  · cases h _ howes.paired

theorem closed_of_answered (hs : s.core.monitor = none)
    (h : (t.course s es).rest.result?.isSome = true) :
    (t.course s es).state.core.monitor = none := by
  refine t.closed_of_paired es hs fun o ho => ?_
  cases hrest : (t.course s es).rest with
  | ret a =>
    rw [hrest] at ho
    exact ho
  | instr i k =>
    rw [hrest] at h
    cases h
  | loop body u k =>
    rw [hrest] at h
    cases h

end Task

theorem monitor_of_rest? {s s' : State} {tasks : List (Task × List Incident)}
    (hs : s.core.monitor = none) (h : rest? s tasks = some s') : s'.core.monitor = none := by
  induction tasks generalizing s with
  | nil =>
    cases h
    exact hs
  | cons task later ih =>
    obtain ⟨t, es⟩ := task
    unfold rest? at h
    split at h
    · next hanswered => exact ih (t.closed_of_answered es hs hanswered) h
    · cases h

/-- **The exclusive monitor is never left open.** However one context has done its tasks so far,
whatever others write at any of its steps, and whichever store-exclusives are rejected: the monitor
is closed before the next task and where that answers, and at every call of an update function in
it, and a store-exclusive comes right after a load-exclusive of the same word, that has found the
monitor closed. The step before is that instruction, so no round of a loop has begun in between, and
no reservation is another task's. -/
theorem Task.monitor_closed {s s' : State} {before : List (Task × List Incident)}
    (hs : s.core.monitor = none) (hbefore : rest? s before = some s') (t : Task)
    (es : List Incident) :
    s'.core.monitor = none ∧
    ((t.course s' es).rest.result?.isSome = true → (t.course s' es).state.core.monitor = none) ∧
    (∀ k, (t.course s' es).rest = .instr .enterUpdate k → ∀ e : Incident,
      (e.befall (t.course s' es).state).core.monitor = none) ∧
    ∀ isa w a v k, (t.course s' es).rest = .instr (.storeExclusive isa w a v) k →
      ∃ es' e k', es = es' ++ [e] ∧ (t.course s' es').rest = .instr (.loadExclusive isa w a) k' ∧
        (t.course s' es').state.core.monitor = none := by
  have hs' := monitor_of_rest? hs hbefore
  refine ⟨hs', t.closed_of_answered es hs', fun k hrest e => ?_, fun isa w a v k hrest => ?_⟩
  · have hclosed := t.closed_of_paired es hs' fun o ho => by
      rw [hrest] at ho
      exact ho.1
    rcases e.monitor_befall (t.course s' es).state with hsame | hnone
    · rw [hsame, hclosed]
    · exact hnone
  · have hpaired : ∀ {o}, (t.course s' es).Owes o → o = some (isa, ⟨w, a⟩) := by
      intro o howes
      have ho := howes.paired
      rw [hrest] at ho
      exact ho.1
    rcases t.course_reserves es hs' with howes |
      ⟨es', e, isa', w', a', k', hes, hload, hclosed, howes⟩
    · cases hpaired howes
    · cases hpaired howes
      exact ⟨es', e, k', hes, hload, hclosed⟩

/-- An exchange whose first store-exclusive is rejected, an update whose function exchanges another
word before it answers, and a comparison under the global lock. -/
def threeTasks : List (Task × List Incident) :=
  let exchange (n : Nat) : Prog (Option Answer × LiveGuards) :=
    (Step.word (.pair .aarch64) (.cell n) (.exchange 5 : WordOp .w32)).prog []
  let update := (Backend.pair .aarch64).fetchUpdate (τ := Unit) .w32 (.cell 0)
    (fun _ x => (exchange 1).bind fun _ => .ret (x + 1, ())) ()
  [(⟨exchange 0, .step _ _⟩, List.replicate 6 ⟨[], true⟩ ++ List.replicate 20 ⟨[], false⟩),
    (⟨update, .update (fun _ _ => .bind (.step _ _) fun _ => .ret _) ()⟩,
      List.replicate 40 ⟨[⟨.w32, .cell 2, 9⟩], false⟩ ++ List.replicate 40 ⟨[], false⟩),
    (⟨_, .step (.word (.globalLock .aarch64 (.pair .aarch64)) (.cell 0)
      (.compareExchange 6 7 : WordOp .w32)) []⟩, List.replicate 60 ⟨[], false⟩)]

theorem monitor_closed_after_three_tasks :
    let compare : Task :=
      ⟨_, .step (.word (.pair .aarch64) (.cell 0) (.compareExchange 7 8 : WordOp .w32)) []⟩
    let es : List Incident := List.replicate 3 ⟨[], false⟩
    (rest? (.start true true) threeTasks).map (fun s => (compare.course s es).state.core.monitor) =
      some (some ⟨.w32, .cell 0⟩) ∧
    ∃ s, rest? (.start true true) threeTasks = some s ∧ s.core.monitor = none ∧
      ((compare.course s es).rest.result?.isSome = true →
        (compare.course s es).state.core.monitor = none) := by
  intro compare es
  have hopen :
      (rest? (.start true true) threeTasks).map
        (fun s => (compare.course s es).state.core.monitor) =
      some (some ⟨.w32, .cell 0⟩) := by decide +kernel
  obtain ⟨s, hs, -⟩ := Option.map_eq_some_iff.mp hopen
  have hclosed := Task.monitor_closed (s := .start true true) rfl hs compare es
  exact ⟨hopen, s, hs, hclosed.1, hclosed.2.1⟩

end Atomicity
